import ChaosKernel.Base.Spans
import ChaosKernel.RcoreMemory.MemorySet

/-! What a memory set keeps of its areas.

The areas of a set are whole pages, none is empty, and they lie one behind the other
(`Tidy`). A range is cut out of them along pages unless one of its ends is inside an
area and no page boundary (`AtPages`). `popWithSplit_eq` says what the loop of
`pop_with_split` does then: the areas are cut one by one, and the pages that go are
unmapped in order, each once. -/
namespace ChaosKernel.RcoreMemory
open Base List

variable {H σ : Type} {M : MemoryHandler H σ}

/-- Areas as intervals. The tag is what a split leaves as it is. -/
def areaSpans : Spans (MemoryArea H) (MemoryAttr × H × String) where
  lo := MemoryArea.startAddr
  hi := MemoryArea.endAddr
  tag area := (area.attr, area.handler, area.name)
  resize area lo hi := {area with startAddr := lo, endAddr := hi}
  lo_resize _ _ _ := rfl
  hi_resize _ _ _ := rfl
  tag_resize _ _ _ := rfl
  resize_self _ := rfl

/-- The areas are as the operations should leave them. -/
structure Tidy (areas : List (MemoryArea H)) : Prop where
  laid : areaSpans.Laid areas
  aligned : ∀ a ∈ areas, pageSize ∣ a.startAddr ∧ pageSize ∣ a.endAddr
  words : ∀ a ∈ areas, a.endAddr < wordSize

/-- No end of the range is inside an area without being a page boundary. -/
def AtPages (s e : Nat) (areas : List (MemoryArea H)) : Prop :=
  ∀ a ∈ areas, (a.startAddr < s ∧ s < a.endAddr → pageSize ∣ s) ∧ (a.startAddr < e ∧ e < a.endAddr → pageSize ∣ e)

theorem tidy_nil : Tidy ([] : List (MemoryArea H)) :=
  ⟨Spans.laid_nil, fun _ h => absurd h not_mem_nil, fun _ h => absurd h not_mem_nil⟩

variable {s e p i fuel : Nat} {areas rest done areas' : List (MemoryArea H)} {a : MemoryArea H}

theorem atPages_of_dvd (hs : pageSize ∣ s) (he : pageSize ∣ e) (areas : List (MemoryArea H)) :
    AtPages s e areas := fun _ _ => ⟨fun _ => hs, fun _ => he⟩

theorem Tidy.proper (h : Tidy areas) (ha : a ∈ areas) :
    a.startAddr < a.endAddr := h.laid.proper a ha

/-! ### Pages -/

/-- The pages from one page boundary to another. -/
def pageList (s e : Nat) : List Nat := (List.range' (s / pageSize) (e / pageSize - s / pageSize)).map (· * pageSize)

theorem rangeOf_eq (he : pageSize ∣ e) (hpos : 1 ≤ e) : rangeOf s e = some (pageList s e) := by
  have hlast : (e - 1) / pageSize + 1 = e / pageSize := by
    unfold pageSize at *
    omega
  rw [rangeOf, sub?, if_pos hpos]
  show some _ = _
  rw [hlast, pageList]

theorem mem_pageList (hs : pageSize ∣ s) (he : pageSize ∣ e) :
    p ∈ pageList s e ↔ pageSize ∣ p ∧ s ≤ p ∧ p < e := by
  simp only [pageList, mem_map, mem_range'_1]
  constructor
  · intro ⟨n, hn, hp⟩
    unfold pageSize at *
    omega
  · intro ⟨hdvd, hlo, hhi⟩
    refine ⟨p / pageSize, ?_, Nat.div_mul_cancel hdvd⟩
    unfold pageSize at *
    omega

theorem nodup_pageList (s e : Nat) : (pageList s e).Nodup :=
  (nodup_range' 1).map fun _ _ h => Nat.eq_of_mul_eq_mul_right (by decide) h

theorem isOverlapWith_eq (hlt : a.startAddr < a.endAddr)
    (haligned : pageSize ∣ a.startAddr ∧ pageSize ∣ a.endAddr) (hpos : 1 ≤ e) :
    a.isOverlapWith s e = some (decide (a.startAddr < e ∧ s < a.endAddr)) := by
  rw [MemoryArea.isOverlapWith, sub?, if_pos (by omega), sub?, if_pos hpos]
  refine congrArg some ?_
  rw [Bool.eq_iff_iff]
  simp only [Bool.not_eq_true', Bool.or_eq_false_iff, decide_eq_false_iff_not, decide_eq_true_eq]
  unfold pageSize at *
  omega

/-! ### The loop of `pop_with_split` -/

/-- The calls of `unmap`, in order. -/
def unmapAll (M : MemoryHandler H σ) (calls : List (H × Nat)) (pt : σ) : Except Crash σ :=
  calls.foldlM (fun pt call => M.unmap call.1 call.2 pt) pt

/-- The pages of an area in `[s, e)`, with the handler of the area. -/
def deadCalls (s e : Nat) (a : MemoryArea H) : List (H × Nat) :=
  (pageList (max s a.startAddr) (min e a.endAddr)).map fun page => (a.handler, page)

theorem unmapAll_append (calls calls' : List (H × Nat)) (pt : σ) :
    unmapAll M (calls ++ calls') pt = (do
      let pt ← unmapAll M calls pt
      unmapAll M calls' pt) := foldlM_append

theorem unmap_eq (he : pageSize ∣ a.endAddr) (hpos : 1 ≤ a.endAddr) (pt : σ) :
    a.unmap M pt = unmapAll M ((pageList a.startAddr a.endAddr).map fun page => (a.handler, page)) pt := by
  rw [MemoryArea.unmap, rangeOf_eq he hpos, unmapAll, foldlM_map]
  rfl

theorem eraseIdx_length {α : Type} (done : List α) (a : α) (rest : List α) :
    (done ++ a :: rest).eraseIdx done.length = done ++ rest := by
  rw [eraseIdx_append_of_length_le le_rfl, Nat.sub_self]
  rfl

theorem insertIdx_length {α : Type} (done : List α) (a : α) (rest : List α) :
    (done ++ rest).insertIdx done.length a = done ++ a :: rest := by
  induction done with
  | nil => rfl
  | cons b done ih => rw [cons_append, length_cons, insertIdx_succ_cons, ih, cons_append]

theorem wrappingAdd_one (h : i + 1 < wordSize) : wrappingAdd i 1 = i + 1 := Nat.mod_eq_of_lt h

theorem wrappingAdd_wrappingSub (h : i < wordSize) : wrappingAdd (wrappingSub i 1) 1 = i := by
  unfold wrappingAdd wrappingSub wordSize at *
  omega

theorem orPanic_bind {α β : Type} (a : α) (f : α → Except Crash β) : (orPanic (some a) >>= f) = f a := rfl

theorem pageList_of_le (h : e ≤ s) : pageList s e = [] := by
  rw [pageList, Nat.sub_eq_zero_of_le (Nat.div_le_div_right h)]
  rfl

/-! What a cut leaves of an area, by how they meet. -/

section Cut
variable {s e : Nat} {a : MemoryArea H}

theorem cut_eq : areaSpans.cut s e a =
    (if a.startAddr < s then [{a with endAddr := min s a.endAddr}] else []) ++
      if e < a.endAddr then [{a with startAddr := max e a.startAddr}] else [] := rfl

theorem cut_eq_nil (hs : s ≤ a.startAddr) (he : a.endAddr ≤ e) : areaSpans.cut s e a = [] := by
  rw [cut_eq, if_neg (Nat.not_lt.mpr hs), if_neg (Nat.not_lt.mpr he)]
  rfl

theorem cut_eq_right (hs : s ≤ a.startAddr) (hlo : a.startAddr ≤ e) (hhi : e < a.endAddr) :
    areaSpans.cut s e a = [{a with startAddr := e}] := by
  rw [cut_eq, if_neg (Nat.not_lt.mpr hs), if_pos hhi, max_eq_left hlo]
  rfl

theorem cut_eq_left (hs : a.startAddr < s) (hlo : s ≤ a.endAddr) (hhi : a.endAddr ≤ e) :
    areaSpans.cut s e a = [{a with endAddr := s}] := by
  rw [cut_eq, if_pos hs, if_neg (Nat.not_lt.mpr hhi), min_eq_left hlo]
  rfl

theorem cut_eq_both (hs : a.startAddr < s) (hse : s ≤ e) (he : e < a.endAddr) :
    areaSpans.cut s e a = [{a with endAddr := s}, {a with startAddr := e}] := by
  rw [cut_eq, if_pos hs, if_pos he, min_eq_left (by omega), max_eq_left (by omega)]
  rfl

end Cut

/-- One round of the loop: the area at the index is cut. The index may go back by one, around the word,
but ends up at the first area that is not settled. -/
theorem splitLoop_cons (hse : s ≤ e) (hpos : 1 ≤ e) {pt : σ} (hlt : a.startAddr < a.endAddr)
    (hlo : pageSize ∣ a.startAddr) (hhi : pageSize ∣ a.endAddr)
    (hpages : (a.startAddr < s ∧ s < a.endAddr → pageSize ∣ s) ∧ (a.startAddr < e ∧ e < a.endAddr → pageSize ∣ e))
    (hroom : done.length + 2 < wordSize) :
    MemorySet.splitLoop M s e (fuel + 1) done.length ⟨done ++ a :: rest, pt⟩ = (do
      let pt ← unmapAll M (deadCalls s e a) pt
      MemorySet.splitLoop M s e fuel (done ++ areaSpans.cut s e a).length
        ⟨done ++ areaSpans.cut s e a ++ rest, pt⟩) := by
  have hget : (done ++ a :: rest)[done.length]? = some a := by
    rw [getElem?_append_right le_rfl, Nat.sub_self]
    rfl
  rw [MemorySet.splitLoop]
  simp only [hget, isOverlapWith_eq hlt ⟨hlo, hhi⟩ hpos, orPanic_bind, eraseIdx_length]
  by_cases hover : a.startAddr < e ∧ s < a.endAddr
  · rw [decide_eq_true hover, if_pos rfl]
    by_cases hsub : s ≤ a.startAddr ∧ a.endAddr ≤ e
    · have hcut : areaSpans.cut s e a = [] := cut_eq_nil hsub.1 hsub.2
      rw [if_pos hsub, unmap_eq hhi (by omega), deadCalls, max_eq_right hsub.1, min_eq_right hsub.2, hcut,
        wrappingAdd_wrappingSub (by omega), append_nil]
    rw [if_neg hsub]
    by_cases hpre : s ≤ a.startAddr ∧ a.startAddr < e
    · have hcut : areaSpans.cut s e a = [{a with startAddr := e}] := cut_eq_right hpre.1 hpre.2.le (by omega)
      have he := hpages.2 ⟨hpre.2, by omega⟩
      rw [if_pos hpre, unmap_eq (a := {a with endAddr := e}) he hpos, deadCalls, max_eq_right hpre.1,
        min_eq_left (by omega), hcut,
        insertIdx_length, wrappingAdd_one (by omega), length_append, append_assoc]
      rfl
    rw [if_neg hpre]
    by_cases hpost : a.endAddr ≤ e ∧ s < a.endAddr
    · have hcut : areaSpans.cut s e a = [{a with endAddr := s}] := cut_eq_left (by omega) hpost.2.le hpost.1
      have hend : 1 ≤ a.endAddr := by omega
      rw [if_pos hpost, unmap_eq (a := {a with startAddr := s}) hhi hend, deadCalls, max_eq_left (by omega),
        min_eq_right hpost.1, hcut, insertIdx_length, wrappingAdd_one (by omega), length_append,
        append_assoc]
      rfl
    · have hcut : areaSpans.cut s e a = [{a with endAddr := s}, {a with startAddr := e}] :=
        cut_eq_both (by omega) hse (by omega)
      have he := hpages.2 ⟨hover.1, by omega⟩
      have hinsert : (done ++ {a with endAddr := s} :: rest).insertIdx (done.length + 1) {a with startAddr := e} =
          done ++ [{a with endAddr := s}, {a with startAddr := e}] ++ rest := by
        have := insertIdx_length (done ++ [{a with endAddr := s}]) {a with startAddr := e} rest
        simpa using this
      rw [if_neg hpost, unmap_eq (a := {a with startAddr := s, endAddr := e}) he hpos, deadCalls,
        max_eq_left (by omega), min_eq_left (by omega), hcut, insertIdx_length, hinsert, wrappingAdd_one (by omega),
        length_append]
      rfl
  · have hcut : areaSpans.cut s e a = [a] := Spans.cut_of_disjoint hse hlt (by
      show a.endAddr ≤ s ∨ e ≤ a.startAddr
      omega)
    have hdead : deadCalls s e a = [] := by
      rw [deadCalls, pageList_of_le (by omega)]
      rfl
    rw [decide_eq_false hover, if_neg (by decide), hcut, hdead, wrappingAdd_one (by omega), length_append]
    rw [append_assoc]
    rfl

/-- The loop settles the areas from the index on, and there are rounds enough for that. -/
theorem splitLoop_eq (hse : s ≤ e) (hpos : 1 ≤ e) :
    ∀ (done : List (MemoryArea H)) {pt : σ} {fuel : Nat}, rest.length < fuel →
      (∀ a ∈ rest, a.startAddr < a.endAddr ∧ pageSize ∣ a.startAddr ∧ pageSize ∣ a.endAddr) → AtPages s e rest →
      done.length + 2 * rest.length < wordSize →
      MemorySet.splitLoop M s e fuel done.length ⟨done ++ rest, pt⟩ = (do
        let pt ← unmapAll M (rest.flatMap (deadCalls s e)) pt
        pure ⟨done ++ rest.flatMap (areaSpans.cut s e), pt⟩) := by
  induction rest with
  | nil =>
    intro done pt fuel hfuel _ _ _
    obtain ⟨fuel, rfl⟩ := Nat.exists_eq_add_one_of_ne_zero (Nat.ne_zero_of_lt hfuel)
    have hget : (done ++ [])[done.length]? = none := by simp
    rw [MemorySet.splitLoop]
    simp only [hget]
    rfl
  | cons a rest ih =>
    intro done pt fuel hfuel hrest hpages hroom
    obtain ⟨fuel, rfl⟩ := Nat.exists_eq_add_one_of_ne_zero (Nat.ne_zero_of_lt hfuel)
    obtain ⟨hlt, hlo, hhi⟩ := hrest a (mem_cons_self ..)
    have hcut : (areaSpans.cut s e a).length ≤ 2 := by
      rw [cut_eq]
      split <;> split <;> simp
    rw [length_cons] at hfuel hroom
    rw [splitLoop_cons hse hpos hlt hlo hhi (hpages a (mem_cons_self ..)) (by omega), flatMap_cons,
      unmapAll_append, bind_assoc]
    refine bind_congr fun pt => ?_
    rw [ih _ (by omega) (fun b hb => hrest b (mem_cons_of_mem a hb))
      (fun b hb => hpages b (mem_cons_of_mem a hb))
      (by rw [length_append]; omega), flatMap_cons, append_assoc]

/-! ### Tidy areas -/

/-- Each area takes a page at least, so there are fewer areas than words. -/
theorem Tidy.length_le (h : Tidy areas) : areas.length * pageSize ≤ wordSize := by
  have hfrom : ∀ base ≤ wordSize, (∀ a ∈ areas, base ≤ a.startAddr) →
      base + areas.length * pageSize ≤ wordSize := by
    induction areas with
    | nil =>
      intro base hbase _
      simpa using hbase
    | cons a areas ih =>
      intro base _ hlow
      obtain ⟨hlt, hsep, hl⟩ := Spans.laid_cons.mp h.laid
      have htail : Tidy areas := ⟨hl, fun b hb => h.aligned b (mem_cons_of_mem a hb),
        fun b hb => h.words b (mem_cons_of_mem a hb)⟩
      have := ih htail a.endAddr (h.words a (mem_cons_self ..)).le hsep
      have hstart := hlow a (mem_cons_self ..)
      have haligned := h.aligned a (mem_cons_self ..)
      have hlt : a.startAddr < a.endAddr := hlt
      rw [length_cons]
      unfold pageSize at *
      omega
  have := hfrom 0 (Nat.zero_le _) fun _ _ => Nat.zero_le _
  omega

theorem Tidy.sublist (h : Tidy areas) (hsub : areas'.Sublist areas) : Tidy areas' :=
  ⟨⟨fun a ha => h.laid.proper a (hsub.subset ha), h.laid.sorted.sublist hsub⟩,
    fun a ha => h.aligned a (hsub.subset ha), fun a ha => h.words a (hsub.subset ha)⟩

theorem Tidy.cut (h : Tidy areas) (hse : s ≤ e) (hpages : AtPages s e areas) :
    Tidy (areas.flatMap (areaSpans.cut s e)) := by
  refine ⟨h.laid.cut hse, fun b hb => ?_, fun b hb => ?_⟩
  · obtain ⟨a, ha, hb⟩ := mem_flatMap.mp hb
    have hlt := h.proper ha
    have haligned := h.aligned a ha
    have hp := hpages a ha
    rcases Spans.mem_cut.mp hb with ⟨hlo, rfl⟩ | ⟨hhi, rfl⟩
    · refine ⟨haligned.1, ?_⟩
      show pageSize ∣ min s a.endAddr
      have hlo : a.startAddr < s := hlo
      rcases Nat.lt_or_ge s a.endAddr with hin | hout
      · rw [min_eq_left hin.le]
        exact hp.1 ⟨hlo, hin⟩
      · rw [min_eq_right hout]
        exact haligned.2
    · refine ⟨?_, haligned.2⟩
      show pageSize ∣ max e a.startAddr
      have hhi : e < a.endAddr := hhi
      rcases Nat.lt_or_ge a.startAddr e with hin | hout
      · rw [max_eq_left hin.le]
        exact hp.2 ⟨hin, hhi⟩
      · rw [max_eq_right hout]
        exact haligned.1
  · obtain ⟨a, ha, hb⟩ := mem_flatMap.mp hb
    exact (Spans.lo_le_of_mem_cut hb).2.trans_lt (h.words a ha)

/-- What `pop_with_split` does to tidy areas. -/
theorem popWithSplit_eq {vm : MemorySet H σ} (h : Tidy vm.areas) (hse : s ≤ e)
    (hpos : vm.areas ≠ [] → 1 ≤ e) (hpages : AtPages s e vm.areas) :
    vm.popWithSplit M s e = (do
      let pt ← unmapAll M (vm.areas.flatMap (deadCalls s e)) vm.pageTable
      pure ⟨vm.areas.flatMap (areaSpans.cut s e), pt⟩) := by
  have hlen := h.length_le
  obtain ⟨areas, pt⟩ := vm
  rw [MemorySet.popWithSplit, check, if_pos hse]
  by_cases hempty : areas = []
  · subst hempty
    rfl
  · refine splitLoop_eq hse (hpos hempty) [] (Nat.lt_succ_self _)
      (fun a ha => ⟨h.proper ha, h.aligned a ha⟩) hpages ?_
    rw [length_nil]
    unfold pageSize wordSize at *
    simp only at hlen
    omega

end ChaosKernel.RcoreMemory
