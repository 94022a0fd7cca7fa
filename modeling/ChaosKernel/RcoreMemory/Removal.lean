import ChaosKernel.RcoreMemory.Layout

/-! Ranges go and nothing else does.

Every operation on a range of whole pages keeps the areas tidy, so `pop_with_split`
always does what `popWithSplit_eq` says. As a map from addresses, the set loses the
range and keeps the rest as it was; the handlers lose the pages of the range that
were in an area, each page once (`popWithSplit_exact`). -/
namespace ChaosKernel.RcoreMemory
open Base List Option

variable {H σ : Type} {M : MemoryHandler H σ}

/-! ### Operations that return -/

theorem bind_eq_ok {α β : Type} {x : Except Crash α} {f : α → Except Crash β} {b : β} :
    (x >>= f) = .ok b ↔ ∃ a, x = .ok a ∧ f a = .ok b := by
  cases x with
  | error e =>
    constructor
    · intro h
      cases h
    · intro ⟨_, h, _⟩
      cases h
  | ok a =>
    constructor
    · intro h
      exact ⟨a, rfl, h⟩
    · intro ⟨_, h, hf⟩
      cases h
      exact hf

theorem check_eq_ok {p : Prop} [Decidable p] {u : Unit} : check p = .ok u ↔ p := by
  unfold check
  split
  · next h => exact ⟨fun _ => h, fun _ => rfl⟩
  · next h => exact ⟨fun h' => (by cases h'), fun h' => absurd h' h⟩

theorem orPanic_eq_ok {α : Type} {o : Option α} {a : α} : orPanic o = .ok a ↔ o = some a := by
  cases o with
  | none => simp [orPanic]
  | some b => simp [orPanic]

/-! ### Free ranges -/

theorem roundUp?_eq_some {x y : Nat} : roundUp? x = some y ↔ x + pageSize < wordSize ∧ y = roundUp pageSize x := by
  have hround : x + pageSize < wordSize → andNot (x + pageSize - 1) (pageSize - 1) = roundUp pageSize x := fun h =>
    roundUp_two_pow (k := 12) (Nat.lt_of_succ_lt h)
  simp only [roundUp?, add?, bind_eq_bind, bind_eq_some_iff, ite_none_right_eq_some,
    some.injEq, Option.pure_def]
  constructor
  · intro hall
    obtain ⟨sum, ⟨hfits, hsum⟩, hy⟩ := hall
    rw [← hsum, hround hfits] at hy
    exact ⟨hfits, hy.symm⟩
  · intro hall
    obtain ⟨hfits, hy⟩ := hall
    exact ⟨_, ⟨hfits, rfl⟩, hy ▸ hround hfits⟩

theorem andNot_page {x : Nat} (h : x < wordSize) : andNot x (pageSize - 1) = x / pageSize * pageSize :=
  andNot_two_pow (k := 12) h

variable {areas : List (MemoryArea H)} {s e page : Nat} {a : MemoryArea H} {vm vm' : MemorySet H σ}
  {attr : MemoryAttr} {handler : H} {name : String}

theorem testFreeArea_eq (h : Tidy areas) (hpos : 1 ≤ e) :
    testFreeArea areas s e = some (decide (∀ a ∈ areas, a.endAddr ≤ s ∨ e ≤ a.startAddr)) := by
  induction areas with
  | nil => rfl
  | cons a areas ih =>
    have htail := ih (h.sublist (sublist_cons_self a areas))
    rw [testFreeArea, isOverlapWith_eq (h.proper (mem_cons_self ..)) (h.aligned a (mem_cons_self ..)) hpos]
    by_cases hover : a.startAddr < e ∧ s < a.endAddr
    · have hmeets : ¬∀ b ∈ a :: areas, b.endAddr ≤ s ∨ e ≤ b.startAddr := fun hfree => by
        have := hfree a (mem_cons_self ..)
        omega
      rw [decide_eq_true hover, decide_eq_false hmeets]
      rfl
    · have hmiss : a.endAddr ≤ s ∨ e ≤ a.startAddr := by omega
      rw [decide_eq_false hover]
      show testFreeArea areas s e = _
      rw [htail]
      simp [hmiss]

/-! ### What the operations keep -/

theorem Tidy.insert (h : Tidy areas) (hlt : a.startAddr < a.endAddr)
    (haligned : pageSize ∣ a.startAddr ∧ pageSize ∣ a.endAddr) (hword : a.endAddr < wordSize)
    (hfree : ∀ b ∈ areas, b.endAddr ≤ a.startAddr ∨ a.endAddr ≤ b.startAddr) :
    Tidy (areas.insertIdx (areas.findIdx fun b => a.startAddr < b.startAddr) a) := by
  have hmem : ∀ b, b ∈ areas.insertIdx (areas.findIdx fun b => a.startAddr < b.startAddr) a ↔ b = a ∨ b ∈ areas :=
    fun b => mem_insertIdx findIdx_le_length
  refine ⟨h.laid.insert hlt fun b hb => (hfree b hb).symm, fun b hb => ?_, fun b hb => ?_⟩
  · rcases (hmem b).mp hb with rfl | hb
    · exact haligned
    · exact h.aligned b hb
  · rcases (hmem b).mp hb with rfl | hb
    · exact hword
    · exact h.words b hb

theorem push_eq_ok (h : Tidy vm.areas) (hs : s < wordSize) :
    vm.push M s e attr handler name = .ok vm' ↔ e + pageSize < wordSize ∧
      ∃ (a : MemoryArea H) (pt : σ), a = ⟨s / pageSize * pageSize, roundUp pageSize e, attr, handler, name⟩ ∧
        a.startAddr < a.endAddr ∧ (∀ b ∈ vm.areas, b.endAddr ≤ a.startAddr ∨ a.endAddr ≤ b.startAddr) ∧
        a.map M vm.pageTable = .ok pt ∧
        vm' = ⟨vm.areas.insertIdx (vm.areas.findIdx fun b => a.startAddr < b.startAddr) a, pt⟩ := by
  rw [MemorySet.push, andNot_page hs]
  simp only [bind_eq_ok, check_eq_ok, orPanic_eq_ok, roundUp?_eq_some]
  constructor
  · intro ⟨hi, ⟨hfits, hhi⟩, _, hlt, free, hfree, _, htrue, pt, hmap, hvm⟩
    rw [testFreeArea_eq h (by omega), some.injEq] at hfree
    subst hhi
    refine ⟨hfits, _, pt, rfl, hlt, ?_, hmap, ?_⟩
    · rw [htrue] at hfree
      exact of_decide_eq_true hfree
    · cases hvm
      rfl
  · intro ⟨hfits, a, pt, ha, hlt, hfree, hmap, hvm⟩
    subst ha
    refine ⟨_, ⟨hfits, rfl⟩, (), hlt, true, ?_, (), rfl, pt, hmap, ?_⟩
    · rw [testFreeArea_eq h (Nat.one_le_of_lt hlt), decide_eq_true hfree]
    · rw [hvm]
      rfl

theorem toOption_eq_some {α : Type} {x : Except Crash α} {a : α} : x.toOption = some a ↔ x = .ok a := by
  cases x with
  | error e => simp [Except.toOption]
  | ok b => simp [Except.toOption]

theorem roundUp_page_lt (h : e + pageSize < wordSize) : roundUp pageSize e < wordSize := by
  have := Nat.div_mul_le_self (e + (pageSize - 1)) pageSize
  unfold roundUp
  omega

theorem Tidy.push (h : Tidy vm.areas) (hs : s < wordSize)
    (hpush : vm.push M s e attr handler name = .ok vm') : Tidy vm'.areas := by
  obtain ⟨hfits, a, pt, ha, hlt, hfree, _, hvm⟩ := (push_eq_ok h hs).mp hpush
  have haligned : pageSize ∣ a.startAddr ∧ pageSize ∣ a.endAddr := by
    rw [ha]
    exact ⟨Nat.dvd_mul_left .., dvd_roundUp ..⟩
  have hword : a.endAddr < wordSize := by
    rw [ha]
    exact roundUp_page_lt hfits
  rw [hvm]
  exact h.insert hlt haligned hword hfree

theorem Tidy.pop (h : Tidy vm.areas) (hpop : vm.pop M s e = .ok vm') : Tidy vm'.areas := by
  simp only [MemorySet.pop, bind_eq_ok] at hpop
  obtain ⟨_, _, a, _, pt, _, hvm⟩ := hpop
  cases hvm
  exact h.sublist (eraseIdx_sublist ..)

/-- A range that ends at address zero makes the overlap test panic. -/
theorem one_le_of_popWithSplit (h : vm.popWithSplit M s e = .ok vm') (hne : vm.areas ≠ []) : 1 ≤ e := by
  obtain ⟨a, rest, hareas⟩ := exists_cons_of_ne_nil hne
  obtain ⟨_, _, hloop⟩ := bind_eq_ok.mp h
  have hget : vm.areas[0]? = some a := by rw [hareas]; rfl
  rw [MemorySet.splitLoop] at hloop
  simp only [hget] at hloop
  obtain ⟨_, hover, _⟩ := bind_eq_ok.mp hloop
  rw [orPanic_eq_ok, MemoryArea.isOverlapWith] at hover
  obtain ⟨_, _, hover⟩ := bind_eq_some_iff.mp hover
  obtain ⟨_, hsub, _⟩ := bind_eq_some_iff.mp hover
  by_contra hlt
  rw [sub?, if_neg hlt] at hsub
  cases hsub

theorem popWithSplit_eq_ok (h : Tidy vm.areas) (hpages : AtPages s e vm.areas)
    (hpop : vm.popWithSplit M s e = .ok vm') : s ≤ e ∧ (vm.areas ≠ [] → 1 ≤ e) ∧
      unmapAll M (vm.areas.flatMap (deadCalls s e)) vm.pageTable = .ok vm'.pageTable ∧
      vm'.areas = vm.areas.flatMap (areaSpans.cut s e) := by
  obtain ⟨_, hse, _⟩ := bind_eq_ok.mp hpop
  have hse := check_eq_ok.mp hse
  have hpos := one_le_of_popWithSplit hpop
  rw [popWithSplit_eq h hse hpos hpages] at hpop
  obtain ⟨pt, hcalls, hvm⟩ := bind_eq_ok.mp hpop
  cases hvm
  exact ⟨hse, hpos, hcalls, rfl⟩

theorem Tidy.step (h : Tidy vm.areas) {op : AreaOp H} (hwords : op.Words) (haligned : op.Aligned)
    (hstep : areaStep M vm op = some vm') : Tidy vm'.areas := by
  cases op with
  | push s e attr handler name =>
    have hpush : vm.push M s e attr handler name = .ok vm' := toOption_eq_some.mp hstep
    exact h.push hwords.1 hpush
  | pop s e => exact h.pop (toOption_eq_some.mp hstep)
  | popWithSplit s e =>
    have hpages := atPages_of_dvd haligned.1 haligned.2 vm.areas
    obtain ⟨hse, _, _, hareas⟩ := popWithSplit_eq_ok h hpages (toOption_eq_some.mp hstep)
    rw [hareas]
    exact h.cut hse hpages

/-- Every set that operations on whole pages lead to is tidy. -/
theorem tidy_run {ops : List (AreaOp H)} {pt : σ} (hops : ∀ op ∈ ops, op.Words ∧ op.Aligned)
    (hrun : (areaSets M).run ⟨[], pt⟩ ops = some vm) : Tidy vm.areas :=
  System.always_of_guarded (I := fun vm : MemorySet H σ => Tidy vm.areas)
    (fun _ _ _ htidy hop hstep => htidy.step hop.1 hop.2 hstep) tidy_nil (System.guarded_of_forall hops) ops vm
    (prefix_refl ops) hrun

/-! ### What a removal does -/

theorem mem_deadCalls_one (h : Tidy areas) (hpages : AtPages s e areas) (ha : a ∈ areas) :
    (handler, page) ∈ deadCalls s e a ↔
      pageSize ∣ page ∧ s ≤ page ∧ page < e ∧ a.contains page ∧ a.handler = handler := by
  have haligned := h.aligned a ha
  have hp := hpages a ha
  have hmem : page ∈ pageList (max s a.startAddr) (min e a.endAddr) ↔
      pageSize ∣ page ∧ max s a.startAddr ≤ page ∧ page < min e a.endAddr := by
    by_cases hover : a.startAddr < e ∧ s < a.endAddr
    · have hmax : pageSize ∣ max s a.startAddr := by
        rcases Nat.lt_or_ge a.startAddr s with hlt | hge
        · rw [max_eq_left hlt.le]
          exact hp.1 ⟨hlt, hover.2⟩
        · rw [max_eq_right hge]
          exact haligned.1
      have hmin : pageSize ∣ min e a.endAddr := by
        rcases Nat.lt_or_ge e a.endAddr with hlt | hge
        · rw [min_eq_left hlt.le]
          exact hp.2 ⟨hover.1, hlt⟩
        · rw [min_eq_right hge]
          exact haligned.2
      exact mem_pageList hmax hmin
    · rw [pageList_of_le (by omega)]
      exact iff_of_false not_mem_nil fun hin => by omega
  simp only [deadCalls, List.mem_map, Prod.mk.injEq, MemoryArea.contains]
  constructor
  · intro hall
    obtain ⟨p, hin, hh, hp⟩ := hall
    subst hp
    obtain ⟨hdvd, hlo, hhi⟩ := hmem.mp hin
    exact ⟨hdvd, by omega, by omega, by omega, hh⟩
  · intro hall
    obtain ⟨hdvd, hlo, hhi, hin, hh⟩ := hall
    exact ⟨page, hmem.mpr ⟨hdvd, by omega, by omega⟩, hh, rfl⟩

theorem mem_deadCalls (h : Tidy areas) (hpages : AtPages s e areas) :
    (handler, page) ∈ areas.flatMap (deadCalls s e) ↔
      pageSize ∣ page ∧ s ≤ page ∧ page < e ∧ ∃ a ∈ areas, a.contains page ∧ a.handler = handler := by
  rw [mem_flatMap]
  constructor
  · intro ⟨a, ha, hmem⟩
    obtain ⟨hdvd, hlo, hhi, hin, hh⟩ := (mem_deadCalls_one h hpages ha).mp hmem
    exact ⟨hdvd, hlo, hhi, a, ha, hin, hh⟩
  · intro ⟨hdvd, hlo, hhi, a, ha, hin, hh⟩
    exact ⟨a, ha, (mem_deadCalls_one h hpages ha).mpr ⟨hdvd, hlo, hhi, hin, hh⟩⟩

/-- No page goes twice: an area has each of its pages once, and two areas have none in common. -/
theorem nodup_deadCalls (h : Tidy areas) (hpages : AtPages s e areas) :
    ((areas.flatMap (deadCalls s e)).map Prod.snd).Nodup := by
  induction areas with
  | nil => exact nodup_nil
  | cons a areas ih =>
    have htail := h.sublist (sublist_cons_self a areas)
    have hpages' : AtPages s e areas := fun b hb => hpages b (mem_cons_of_mem a hb)
    obtain ⟨_, hsep, _⟩ := Spans.laid_cons.mp h.laid
    rw [flatMap_cons, map_append, nodup_append]
    refine ⟨?_, ih htail hpages', fun p hp q hq heq => ?_⟩
    · rw [deadCalls, List.map_map]
      exact (nodup_pageList ..).map fun _ _ h => h
    · obtain ⟨⟨handler, p'⟩, hcall, hp⟩ := List.mem_map.mp hp
      obtain ⟨⟨handler', q'⟩, hcall', hq⟩ := List.mem_map.mp hq
      obtain ⟨_, _, _, hin, _⟩ := (mem_deadCalls_one h hpages (mem_cons_self ..)).mp hcall
      obtain ⟨_, _, _, b, hb, hin', _⟩ := (mem_deadCalls htail hpages').mp hcall'
      have hab : a.endAddr ≤ b.startAddr := hsep b hb
      unfold MemoryArea.contains at hin hin'
      simp only at hp hq
      omega

/-- An address is in some area of the set. -/
def MemorySet.Covers (vm : MemorySet H σ) (addr : Nat) : Prop := ∃ a ∈ vm.areas, a.contains addr

/-- The attributes, the handler and the name of an address. -/
def MemorySet.infoAt (vm : MemorySet H σ) (addr : Nat) : Option (MemoryAttr × H × String) :=
  (vm.areas.find? fun a => a.contains addr).map fun a => (a.attr, a.handler, a.name)

/-- **A removal removes its range.** After any operations on whole pages, `pop_with_split` on whole pages
unmaps the covered pages of the range, each once and through the handler of its area, and leaves
tidy areas that cover the other addresses as before. -/
theorem popWithSplit_exact {ops : List (AreaOp H)} {pt : σ} {vm : MemorySet H σ} {s e : Nat}
    (hops : ∀ op ∈ ops, op.Words ∧ op.Aligned) (hrun : (areaSets M).run ⟨[], pt⟩ ops = some vm)
    (hs : pageSize ∣ s) (he : pageSize ∣ e) (hse : s < e) :
    ∃ (areas : List (MemoryArea H)) (calls : List (H × Nat)),
      vm.popWithSplit M s e = (do
        let pt ← calls.foldlM (fun pt call => M.unmap call.1 call.2 pt) vm.pageTable
        pure ⟨areas, pt⟩) ∧
      (∀ x, (∃ a ∈ areas, a.contains x) ↔ vm.Covers x ∧ ¬(s ≤ x ∧ x < e)) ∧
      (∀ x pt, ¬(s ≤ x ∧ x < e) → (⟨areas, pt⟩ : MemorySet H σ).infoAt x = vm.infoAt x) ∧
      (∀ a ∈ areas, a.startAddr < a.endAddr ∧ pageSize ∣ a.startAddr ∧ pageSize ∣ a.endAddr) ∧
      (areas.Pairwise fun a b => a.endAddr ≤ b.startAddr) ∧
      (calls.map Prod.snd).Nodup ∧
      ∀ handler page, (handler, page) ∈ calls ↔
        pageSize ∣ page ∧ s ≤ page ∧ page < e ∧ ∃ a ∈ vm.areas, a.contains page ∧ a.handler = handler := by
  have h := tidy_run hops hrun
  have hpages := atPages_of_dvd hs he vm.areas
  have hcut := h.cut hse.le hpages
  refine ⟨_, _, popWithSplit_eq h hse.le (fun _ => Nat.one_le_of_lt hse) hpages,
    fun x => Spans.exists_holds_cut (S := areaSpans), fun x pt hx => ?_,
    fun a ha => ⟨hcut.proper ha, hcut.aligned a ha⟩, hcut.laid.sorted, nodup_deadCalls h hpages,
    fun handler page => mem_deadCalls h hpages⟩
  have hinfo := h.laid.tagAt_cut hse.le x
  rw [if_neg hx] at hinfo
  exact hinfo

/-- Handlers that keep a record of the pages they are asked to unmap. -/
def recorder : MemoryHandler Nat (List (Nat × Nat)) where
  map _ _ _ record := .ok record
  unmap handler page record := .ok (record ++ [(handler, page)])

theorem popWithSplit_exact_middle : ∃ (vm : MemorySet Nat _) (areas : List (MemoryArea Nat)) (calls : List (Nat × Nat)),
    (areaSets recorder).run ⟨[], []⟩ [.push 0x1000 0x5000 .default 7 "heap"] = some vm ∧
    vm.popWithSplit recorder 0x2000 0x4000 = (do
      let pt ← calls.foldlM (fun pt call => recorder.unmap call.1 call.2 pt) vm.pageTable
      pure ⟨areas, pt⟩) ∧
    ∀ x, (∃ a ∈ areas, a.contains x) ↔ vm.Covers x ∧ ¬(0x2000 ≤ x ∧ x < 0x4000) := by
  have hsome : ((areaSets recorder).run ⟨[], []⟩ [.push 0x1000 0x5000 .default 7 "heap"]).isSome := by decide +kernel
  obtain ⟨vm, hrun⟩ := isSome_iff_exists.mp hsome
  have hops : ∀ op ∈ [AreaOp.push 0x1000 0x5000 .default 7 "heap"], op.Words ∧ op.Aligned := by
    intro op hop
    rw [mem_singleton.mp hop]
    exact ⟨by unfold AreaOp.Words; decide, by unfold AreaOp.Aligned; decide⟩
  obtain ⟨areas, calls, hpop, hcovers, _⟩ := popWithSplit_exact (s := 0x2000) (e := 0x4000) hops hrun (by decide)
    (by decide) (by decide)
  exact ⟨vm, areas, calls, hrun, hpop, hcovers⟩

end ChaosKernel.RcoreMemory
