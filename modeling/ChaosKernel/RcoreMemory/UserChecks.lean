import ChaosKernel.RcoreMemory.Removal

/-! Which user arrays the checks let pass.

`check_read_array` adds up how much of an array each area has and accepts when that
is the size of the array. The areas are disjoint, so the sum reaches the size only
when every byte is in one of them. The size is a product in a word, and the end of
an area is rounded up once more: both can overflow, the first for a count a user
names, the second for an area that reaches up to the last page. An overflow is a panic
here, as in a build with overflow checks: nothing outside the areas is then accepted,
and the answer is right wherever neither overflow happens (`checkArray_exact_iff`).
Where the product wraps instead, an array of size `2 ^ 64` passes as one of size 0. -/
namespace ChaosKernel.RcoreMemory
open Base List

variable {H σ : Type} {M : MemoryHandler H σ}

/-- `ptr.add(count)`, which goes around the word. -/
def ptrAdd (ptr size count : Nat) : Nat := (ptr + size * count) % wordSize

namespace MemoryArea

/-- `check_read_array` of an area, for elements of `size` bytes. -/
def checkReadArray (area : MemoryArea H) (size ptr count : Nat) : Option Nat := do
  let minBound := max ptr (area.startAddr / pageSize * pageSize)
  let last ← add? area.endAddr pageSize
  let maxBound := min (ptrAdd ptr size count) ((last - 1) / pageSize * pageSize)
  pure (if maxBound ≥ minBound then maxBound - minBound else 0)

/-- `check_write_array` of an area. -/
def checkWriteArray (area : MemoryArea H) (size ptr count : Nat) : Option Nat :=
  if area.attr.readonly then some 0 else area.checkReadArray size ptr count

end MemoryArea

/-- The loop of both checks, with `valid` bytes found so far. It returns whether the array is accepted. -/
def checkLoop (covered : MemoryArea H → Option Nat) (size count : Nat) :
    (valid : Nat) → List (MemoryArea H) → Option Bool
  | _, [] => some false
  | valid, area :: rest => do
    let valid ← add? valid (← covered area)
    if valid = (← mul? size count) then
      some true
    else
      checkLoop covered size count valid rest

namespace MemorySet

/-- `check_read_array`: whether it returns the array. -/
def checkReadArray (vm : MemorySet H σ) (size ptr count : Nat) : Option Bool :=
  checkLoop (fun area => area.checkReadArray size ptr count) size count 0 vm.areas

/-- `check_write_array`. -/
def checkWriteArray (vm : MemorySet H σ) (size ptr count : Nat) : Option Bool :=
  checkLoop (fun area => area.checkWriteArray size ptr count) size count 0 vm.areas

end MemorySet

/-- An entry of the vector that `readv` and `writev` get. -/
structure IoVec where
  base : Nat
  len : Nat
  deriving DecidableEq, Repr

/-- The check of one buffer: a `readv` stores into it. -/
def checkBuf (vm : MemorySet H σ) (readv : Bool) (iov : IoVec) : Option Bool :=
  if readv then vm.checkWriteArray 1 iov.base iov.len else vm.checkReadArray 1 iov.base iov.len

/-- The loop of `IoVecs::check_and_new` over the entries: the slices, or `none` inside for the error of
a failed check. -/
def checkEntries (vm : MemorySet H σ) (readv : Bool) : List IoVec → Option (Option (List IoVec))
  | [] => some (some [])
  | iov :: rest =>
    if iov.len = 0 then
      checkEntries vm readv rest
    else do
      if ← checkBuf vm readv iov then do
        let slices ← checkEntries vm readv rest
        pure (slices.map (iov :: ·))
      else
        some none

/-- `IoVecs::check_and_new`, where user memory has the entries `iovs` at the pointer. -/
def checkAndNew (vm : MemorySet H σ) (iovPtr : Nat) (iovs : List IoVec) (readv : Bool) :
    Option (Option (List IoVec)) := do
  if ← vm.checkReadArray 16 iovPtr iovs.length then
    checkEntries vm readv iovs
  else
    some none

/-! ### The loop -/

/-- The `size * count` bytes at `ptr` are in the areas. -/
def Inside (areas : List (MemoryArea H)) (ptr bytes : Nat) : Prop :=
  ∀ x, ptr ≤ x → x < ptr + bytes → ∃ a ∈ areas, a.contains x

/-- What an area has of the array, if it is one of those that count. -/
def share (counts : MemoryArea H → Bool) (ptr last : Nat) (a : MemoryArea H) : Nat :=
  if counts a then areaSpans.overlap ptr last a else 0

/-- The end of the area can be rounded up. -/
def Roomy (a : MemoryArea H) : Prop := a.endAddr + pageSize < wordSize

instance (a : MemoryArea H) : Decidable (Roomy a) := inferInstanceAs (Decidable (_ < _))

variable {a : MemoryArea H} {size count ptr : Nat} {l areas : List (MemoryArea H)} {vm : MemorySet H σ}

theorem checkReadArray_eq (haligned : pageSize ∣ a.startAddr ∧ pageSize ∣ a.endAddr) (hroomy : Roomy a)
    (size ptr count : Nat) :
    a.checkReadArray size ptr count = some (areaSpans.overlap ptr (ptrAdd ptr size count) a) := by
  have hend : (a.endAddr + pageSize - 1) / pageSize * pageSize = a.endAddr := by
    unfold pageSize at *
    omega
  rw [MemoryArea.checkReadArray, add?_of_lt hroomy, Nat.div_mul_cancel haligned.1]
  show some (ite _ _ _) = some (min _ a.endAddr - max ptr a.startAddr)
  rw [hend]
  split
  · rfl
  · congr 1
    omega

theorem checkReadArray_of_not_roomy (h : ¬Roomy a) (size ptr count : Nat) :
    a.checkReadArray size ptr count = none := by
  rw [MemoryArea.checkReadArray, add?_of_ge (Nat.not_lt.mp h)]
  rfl

/-- The loop over areas whose shares are known: it stops at the first at which the size is reached,
and the shares together never exceed it. -/
theorem checkLoop_append {covered : MemoryArea H → Option Nat} {share : MemoryArea H → Nat}
    (hmul : size * count < wordSize) (rest : List (MemoryArea H))
    (hcov : ∀ a ∈ l, covered a = some (share a)) :
    ∀ {valid : Nat}, valid < size * count → valid + (l.map share).sum ≤ size * count →
      checkLoop covered size count valid (l ++ rest) =
        if valid + (l.map share).sum = size * count then some true
        else checkLoop covered size count (valid + (l.map share).sum) rest := by
  induction l with
  | nil =>
    intro valid hlt _
    rw [map_nil, sum_nil, Nat.add_zero, if_neg hlt.ne]
    rfl
  | cons a l ih =>
    intro valid hlt hle
    rw [map_cons, sum_cons] at *
    have hstep : checkLoop covered size count valid (a :: l ++ rest) =
        if valid + share a = size * count then some true
        else checkLoop covered size count (valid + share a) (l ++ rest) := by
      rw [cons_append, checkLoop, hcov a (mem_cons_self ..), mul?, if_pos hmul]
      show (add? valid (share a) >>= _) = _
      rw [add?_of_lt (by omega)]
      rfl
    rw [hstep]
    by_cases hfull : valid + share a = size * count
    · rw [if_pos hfull, if_pos (by omega)]
    · rw [if_neg hfull, ih (fun b hb => hcov b (mem_cons_of_mem a hb)) (by omega) (by omega), ← Nat.add_assoc]

theorem sum_share (counts : MemoryArea H → Bool) (ptr last : Nat) (l : List (MemoryArea H)) :
    (l.map (share counts ptr last)).sum = areaSpans.measure ptr last (l.filter counts) := by
  induction l with
  | nil => rfl
  | cons a l ih =>
    rw [map_cons, sum_cons, ih, share]
    by_cases hc : counts a
    · rw [if_pos hc, filter_cons_of_pos hc, Spans.measure_cons]
    · rw [if_neg hc, filter_cons_of_neg hc, Nat.zero_add]

/-- The shares are the size of the array exactly when the array is in the areas. An array that goes
around the word has no shares. -/
theorem measure_ptrAdd (h : Tidy l) (hmul : size * count < wordSize) (hpos : 1 ≤ size * count) :
    areaSpans.measure ptr (ptrAdd ptr size count) l ≤ size * count ∧
      (areaSpans.measure ptr (ptrAdd ptr size count) l = size * count ↔ Inside l ptr (size * count)) := by
  have hle := h.laid.measure_le (p := ptr) (q := ptrAdd ptr size count)
  rcases Nat.lt_or_ge (ptr + size * count) wordSize with hlt | hge
  · have hlast : ptrAdd ptr size count = ptr + size * count := Nat.mod_eq_of_lt hlt
    rw [hlast] at hle ⊢
    have hiff := h.laid.measure_eq_iff (p := ptr) (q := ptr + size * count)
    rw [Nat.add_sub_cancel_left] at hle hiff
    exact ⟨hle, hiff⟩
  · have hlast : ptrAdd ptr size count ≤ ptr := by
      rcases Nat.lt_or_ge ptr wordSize with hptr | hptr
      · rw [ptrAdd, Nat.mod_eq_sub_mod hge, Nat.mod_eq_of_lt (by omega)]
        omega
      · exact (Nat.mod_lt _ (by decide)).le.trans hptr
    have hzero : areaSpans.measure ptr (ptrAdd ptr size count) l = 0 := by omega
    rw [hzero]
    refine ⟨by omega, fun heq => absurd heq (by omega), fun hin => ?_⟩
    obtain ⟨a, ha, hx⟩ := hin (max ptr (wordSize - 1)) (le_max_left ..) (by omega)
    have := h.words a ha
    unfold MemoryArea.contains at hx
    omega

/-- Only the last area can reach up to the last page. -/
theorem Tidy.eq_nil_or_roomy (h : Tidy areas) :
    areas = [] ∨ ∃ below top, areas = below ++ [top] ∧ ∀ a ∈ below, Roomy a := by
  rcases eq_nil_or_concat areas with hnil | ⟨below, top, hconcat⟩
  · exact .inl hnil
  · rw [concat_eq_append] at hconcat
    refine .inr ⟨below, top, hconcat, fun a ha => ?_⟩
    subst hconcat
    have hmem : a ∈ below ++ [top] := mem_append_left _ ha
    have htop : top ∈ below ++ [top] := mem_append_right _ (mem_singleton_self top)
    have hsep : a.endAddr ≤ top.startAddr :=
      (Spans.laid_append (S := areaSpans).mp h.laid).2.2 a ha top (mem_singleton_self top)
    have := h.proper htop
    have := h.aligned a hmem
    have := h.aligned top htop
    have := h.words top htop
    unfold Roomy pageSize at *
    omega

/-! ### Both checks at once -/

section Checks
variable {areas : List (MemoryArea H)} {counts : MemoryArea H → Bool} {covered : MemoryArea H → Option Nat}
  {size ptr count : Nat}

/-- `covered` finds the shares of the areas that count, where it can round up their ends. -/
def Finds (counts : MemoryArea H → Bool) (covered : MemoryArea H → Option Nat) (size ptr count : Nat)
    (a : MemoryArea H) : Prop :=
  covered a = if counts a = true ∧ ¬Roomy a then none else some (share counts ptr (ptrAdd ptr size count) a)

theorem checkLoop_eq (h : Tidy areas) (hfinds : ∀ a ∈ areas, Finds counts covered size ptr count a)
    (hmul : size * count < wordSize) (hpos : 1 ≤ size * count) (hroomy : ∀ a ∈ areas, counts a = true → Roomy a) :
    ∃ ok, checkLoop covered size count 0 areas = some ok ∧
      (ok = true ↔ Inside (areas.filter counts) ptr (size * count)) := by
  have hcov : ∀ a ∈ areas, covered a = some (share counts ptr (ptrAdd ptr size count) a) := fun a ha => by
    rw [hfinds a ha, if_neg fun hc => hc.2 (hroomy a ha hc.1)]
  obtain ⟨hle, hiff⟩ := measure_ptrAdd (h.sublist filter_sublist) hmul hpos (l := areas.filter counts)
  have hloop := checkLoop_append hmul [] hcov hpos (by rw [Nat.zero_add, sum_share]; exact hle)
  rw [append_nil, Nat.zero_add, sum_share] at hloop
  rw [hloop]
  split
  · next heq => exact ⟨true, rfl, fun _ => hiff.mp heq, fun _ => rfl⟩
  · next hne => exact ⟨false, rfl, fun h => absurd h (by decide), fun hin => absurd (hiff.mpr hin) hne⟩

variable {below k : List (MemoryArea H)} {top : MemoryArea H} {bytes : Nat}

/-- Where the last area counts and its end cannot be rounded up, the check accepts before it gets
there or panics. -/
theorem checkLoop_top (h : Tidy (below ++ [top]))
    (hfinds : ∀ a ∈ below ++ [top], Finds counts covered size ptr count a) (hmul : size * count < wordSize)
    (hpos : 1 ≤ size * count) (hroomy : ∀ a ∈ below, Roomy a) (hcounts : counts top = true)
    (htop : ¬Roomy top) :
    (checkLoop covered size count 0 (below ++ [top]) = some true ∧ Inside (below.filter counts) ptr (size * count)) ∨
      (checkLoop covered size count 0 (below ++ [top]) = none ∧
        ¬Inside (below.filter counts) ptr (size * count)) := by
  have hcov : ∀ a ∈ below, covered a = some (share counts ptr (ptrAdd ptr size count) a) := fun a ha => by
    rw [hfinds a (mem_append_left _ ha), if_neg fun hc => hc.2 (hroomy a ha)]
  have hbelow : Tidy (below.filter counts) :=
    h.sublist (filter_sublist.trans (sublist_append_left below [top]))
  obtain ⟨hle, hiff⟩ := measure_ptrAdd hbelow hmul hpos
  have hloop := checkLoop_append hmul [top] hcov hpos (by rw [Nat.zero_add, sum_share]; exact hle)
  rw [Nat.zero_add, sum_share] at hloop
  rw [hloop]
  split
  · next heq => exact .inl ⟨rfl, hiff.mp heq⟩
  · next hne =>
    refine .inr ⟨?_, fun hin => hne (hiff.mpr hin)⟩
    rw [checkLoop, hfinds top (mem_append_right _ (mem_singleton_self top)), if_pos ⟨hcounts, htop⟩]
    rfl

theorem checkLoop_overflow (hmul : wordSize ≤ size * count) (hne : areas ≠ []) (valid : Nat) :
    checkLoop covered size count valid areas = none := by
  obtain ⟨a, rest, rfl⟩ := exists_cons_of_ne_nil hne
  have hnone : mul? size count = none := mul?_eq_none.mpr (Nat.not_lt.mpr hmul)
  rw [checkLoop, hnone]
  cases covered a with
  | none => rfl
  | some n =>
    show (add? valid n >>= _) = _
    cases add? valid n with
    | none => rfl
    | some _ => rfl

theorem Inside.mono (h : Inside l ptr bytes) (hsub : l ⊆ k) :
    Inside k ptr bytes := fun x hlo hhi => by
  obtain ⟨a, ha, hx⟩ := h x hlo hhi
  exact ⟨a, hsub ha, hx⟩

/-- A check returns, and accepts exactly the arrays inside the areas that count. -/
def Answers (counts : MemoryArea H → Bool) (areas : List (MemoryArea H)) (ptr bytes : Nat)
    (answer : Option Bool) : Prop :=
  (∃ ok, answer = some ok) ∧ (answer = some true ↔ Inside (areas.filter counts) ptr bytes)

theorem not_answers_none : ¬Answers counts areas ptr bytes none := by
  intro ⟨⟨ok, hok⟩, _⟩
  cases hok

/-- No overflow gets into the way: the size is a word, and so are the rounded ends of the areas that
are looked at. -/
def Countable (counts : MemoryArea H → Bool) (areas : List (MemoryArea H)) (ptr bytes : Nat) : Prop :=
  areas = [] ∨ bytes < wordSize ∧ ((∀ a ∈ areas, counts a = true → Roomy a) ∨
    Inside ((areas.filter counts).filter (Roomy ·)) ptr bytes)

theorem not_inside_nil (hpos : 1 ≤ size * count) : ¬Inside ([] : List (MemoryArea H)) ptr (size * count) := fun h => by
  obtain ⟨a, ha, _⟩ := h ptr le_rfl (by omega)
  exact not_mem_nil ha

theorem top_of_not_roomy (hroomy : ∀ a ∈ below, Roomy a)
    (hall : ¬∀ a ∈ below ++ [top], counts a = true → Roomy a) : ¬Roomy top ∧ counts top = true := by
  by_contra hnot
  refine hall fun a ha hc => ?_
  rcases mem_append.mp ha with ha | ha
  · exact hroomy a ha
  · rw [mem_singleton.mp ha] at hc ⊢
    by_contra htop
    exact hnot ⟨htop, hc⟩

theorem checkLoop_exact_iff (h : Tidy areas) (hfinds : ∀ a ∈ areas, Finds counts covered size ptr count a)
    (hpos : 1 ≤ size * count) :
    (Answers counts areas ptr (size * count) (checkLoop covered size count 0 areas) ↔
      Countable counts areas ptr (size * count)) ∧
    (checkLoop covered size count 0 areas = some true → Inside (areas.filter counts) ptr (size * count)) := by
  rcases h.eq_nil_or_roomy with rfl | ⟨below, top, rfl, hroomy⟩
  · have hfalse : checkLoop covered size count 0 [] = some false := rfl
    rw [hfalse]
    refine ⟨iff_of_true ⟨⟨false, rfl⟩, ?_⟩ (Or.inl rfl), fun heq => absurd heq (by decide)⟩
    exact iff_of_false (by decide) (not_inside_nil hpos)
  have hne : below ++ [top] ≠ [] := by simp
  rcases Nat.lt_or_ge (size * count) wordSize with hmul | hmul
  · by_cases hall : ∀ a ∈ below ++ [top], counts a = true → Roomy a
    · obtain ⟨ok, hok, hiff⟩ := checkLoop_eq h hfinds hmul hpos hall
      rw [hok]
      have hanswer : some ok = some true ↔ Inside ((below ++ [top]).filter counts) ptr (size * count) := by
        rw [Option.some.injEq]
        exact hiff
      exact ⟨iff_of_true ⟨⟨ok, rfl⟩, hanswer⟩ (Or.inr ⟨hmul, .inl hall⟩), hanswer.mp⟩
    · obtain ⟨htop, hcounts⟩ := top_of_not_roomy hroomy hall
      have hfilter : ((below ++ [top]).filter counts).filter (Roomy ·) = below.filter counts := by
        have hself : (below.filter counts).filter (Roomy ·) = below.filter counts :=
          filter_eq_self.mpr fun a ha => decide_eq_true (hroomy a (mem_filter.mp ha).1)
        rw [filter_append, filter_append, hself, filter_cons_of_pos hcounts, filter_nil,
          filter_cons_of_neg (by simpa using htop), filter_nil, append_nil]
      have hsub : below.filter counts ⊆ (below ++ [top]).filter counts :=
        filter_subset counts (subset_append_left below [top])
      rcases checkLoop_top h hfinds hmul hpos hroomy hcounts htop with ⟨heq, hin⟩ | ⟨heq, hout⟩
      · rw [heq]
        have hinside := hin.mono hsub
        rw [← hfilter] at hin
        exact ⟨iff_of_true ⟨⟨true, rfl⟩, iff_of_true rfl hinside⟩ (Or.inr ⟨hmul, .inr hin⟩), fun _ => hinside⟩
      · rw [heq]
        refine ⟨iff_of_false not_answers_none fun hcount => ?_, fun hsome => by cases hsome⟩
        rcases hcount with hnil | ⟨_, hroom | hin⟩
        · exact hne hnil
        · exact hall hroom
        · rw [hfilter] at hin
          exact hout hin
  · rw [checkLoop_overflow hmul hne]
    refine ⟨iff_of_false not_answers_none fun hcount => ?_, fun hsome => by cases hsome⟩
    rcases hcount with hnil | ⟨hlt, _⟩
    · exact hne hnil
    · exact absurd hlt (Nat.not_lt.mpr hmul)

end Checks

/-! ### What passes -/

/-- The areas a write may go to. -/
def writable (a : MemoryArea H) : Bool := !a.attr.readonly

theorem finds_read (h : Tidy areas) (size ptr count : Nat) :
    ∀ a ∈ areas, Finds (fun _ => true) (fun area => area.checkReadArray size ptr count) size ptr count a := by
  intro a ha
  unfold Finds
  by_cases hroomy : Roomy a
  · rw [if_neg fun hc => hc.2 hroomy]
    exact checkReadArray_eq (h.aligned a ha) hroomy size ptr count
  · rw [if_pos ⟨rfl, hroomy⟩]
    exact checkReadArray_of_not_roomy hroomy size ptr count

theorem finds_write (h : Tidy areas) (size ptr count : Nat) :
    ∀ a ∈ areas, Finds writable (fun area => area.checkWriteArray size ptr count) size ptr count a := by
  intro a ha
  have hread := finds_read h size ptr count a ha
  unfold Finds share at *
  cases hro : a.attr.readonly with
  | true => simp [MemoryArea.checkWriteArray, writable, hro]
  | false => simpa [MemoryArea.checkWriteArray, writable, hro] using hread

theorem tidy_pushes {ops : List (AreaOp H)} {pt : σ}
    (hops : ∀ op ∈ ops, op.Words ∧ ∃ s e attr handler name, op = .push s e attr handler name)
    (hrun : (areaSets M).run ⟨[], pt⟩ ops = some vm) : Tidy vm.areas := by
  refine System.always_of_guarded (I := fun vm : MemorySet H σ => Tidy vm.areas) (fun vm op vm' htidy hop hstep => ?_)
    tidy_nil (System.guarded_of_forall hops) ops vm (prefix_refl ops) hrun
  obtain ⟨hwords, s, e, attr, handler, name, rfl⟩ := hop
  rw [areaSets_step, areaStep, toOption_eq_some] at hstep
  exact htidy.push hwords.1 hstep

theorem inside_of_read (h : Tidy vm.areas) (hpos : 1 ≤ size * count)
    (hok : vm.checkReadArray size ptr count = some true) : Inside vm.areas ptr (size * count) := by
  have hin := (checkLoop_exact_iff h (finds_read h size ptr count) hpos).2 hok
  exact hin.mono (filter_subset_self vm.areas)

theorem inside_of_write (h : Tidy vm.areas) (hpos : 1 ≤ size * count)
    (hok : vm.checkWriteArray size ptr count = some true) :
    Inside (vm.areas.filter writable) ptr (size * count) :=
  (checkLoop_exact_iff h (finds_write h size ptr count) hpos).2 hok

/-- The areas that a call may reach: those it may write to if it stores what it reads. -/
def reach (vm : MemorySet H σ) (readv : Bool) : List (MemoryArea H) :=
  if readv then vm.areas.filter writable else vm.areas

theorem checkEntries_inside (h : Tidy vm.areas) {readv : Bool} {iovs : List IoVec} :
    ∀ {slices : List IoVec}, checkEntries vm readv iovs = some (some slices) →
      ∀ iov ∈ slices, Inside (reach vm readv) iov.base iov.len := by
  induction iovs with
  | nil =>
    intro slices hok iov hiov
    cases hok
    exact absurd hiov not_mem_nil
  | cons first rest ih =>
    intro slices hok iov hiov
    rw [checkEntries] at hok
    split at hok
    · exact ih hok iov hiov
    · next hlen =>
      obtain ⟨ok, hcheck, hok⟩ := Option.bind_eq_some_iff.mp hok
      cases ok with
      | false => cases hok
      | true =>
        obtain ⟨tail, htail, hslices⟩ := Option.bind_eq_some_iff.mp hok
        cases tail with
        | none => cases hslices
        | some tail =>
          cases hslices
          rcases mem_cons.mp hiov with rfl | hiov
          · have hpos : 1 ≤ 1 * iov.len := by omega
            rw [← Nat.one_mul iov.len]
            cases readv with
            | true => exact inside_of_write h hpos hcheck
            | false => exact inside_of_read h hpos hcheck
          · exact ih htail iov hiov

/-- **Which arrays pass.** On areas that pushes built, each check returns and accepts exactly the arrays
inside the areas it looks at, unless the size of the array or the rounded end of an area is no word.
With overflow checks, whatever passes is inside, also as a slice of the vector calls. -/
theorem checkArray_exact_iff {ops : List (AreaOp H)} {pt : σ} {vm : MemorySet H σ}
    (hops : ∀ op ∈ ops, op.Words ∧ ∃ s e attr handler name, op = .push s e attr handler name)
    (hrun : (areaSets M).run ⟨[], pt⟩ ops = some vm) (size ptr count : Nat) (hsize : 1 ≤ size) (hcount : 1 ≤ count) :
    (Answers (fun _ => true) vm.areas ptr (size * count) (vm.checkReadArray size ptr count) ↔
      Countable (fun _ => true) vm.areas ptr (size * count)) ∧
    (Answers writable vm.areas ptr (size * count) (vm.checkWriteArray size ptr count) ↔
      Countable writable vm.areas ptr (size * count)) ∧
    (vm.checkReadArray size ptr count = some true → Inside vm.areas ptr (size * count)) ∧
    (vm.checkWriteArray size ptr count = some true → Inside (vm.areas.filter writable) ptr (size * count)) ∧
    ∀ iovPtr iovs readv slices, checkAndNew vm iovPtr iovs readv = some (some slices) →
      ∀ iov ∈ slices, Inside (reach vm readv) iov.base iov.len := by
  have h := tidy_pushes hops hrun
  have hpos : 1 ≤ size * count := Nat.mul_pos hsize hcount
  refine ⟨(checkLoop_exact_iff h (finds_read h size ptr count) hpos).1,
    (checkLoop_exact_iff h (finds_write h size ptr count) hpos).1, inside_of_read h hpos, inside_of_write h hpos, ?_⟩
  intro iovPtr iovs readv slices hok
  obtain ⟨ok, _, hok⟩ := Option.bind_eq_some_iff.mp hok
  cases ok with
  | false => cases hok
  | true => exact checkEntries_inside h hok

theorem checkArray_exact_two_pages : ∃ (vm : MemorySet Nat _),
    (areaSets recorder).run ⟨[], []⟩ [.push 0x1000 0x3000 .default 7 "heap"] = some vm ∧
    Answers (fun _ => true) vm.areas 0x1ff0 (16 * 2) (vm.checkReadArray 16 0x1ff0 2) := by
  have hrun : (((areaSets recorder).run ⟨[], []⟩ [.push 0x1000 0x3000 .default 7 "heap"]).any fun vm =>
      ∀ a ∈ vm.areas, Roomy a) = true := by decide +kernel
  obtain ⟨vm, hrun, hroomy⟩ := System.exists_of_run_any hrun
  have hops : ∀ op ∈ [AreaOp.push 0x1000 0x3000 .default 7 "heap"],
      op.Words ∧ ∃ s e attr handler name, op = .push s e attr handler name := by
    intro op hop
    rw [mem_singleton.mp hop]
    exact ⟨by unfold AreaOp.Words; decide, _, _, _, _, _, rfl⟩
  exact ⟨vm, hrun, (checkArray_exact_iff hops hrun 16 0x1ff0 2 (by decide) (by decide)).1.mpr
    (.inr ⟨by decide, .inl fun a ha _ => hroomy a ha⟩)⟩

/-- A count whose size is no word makes a check panic, and so does an array in the page below the last. -/
theorem checkArray_panics :
    (((areaSets recorder).run ⟨[], []⟩ [.push 0x1000 0x3000 .default 7 "heap"]).any fun vm =>
      (vm.checkReadArray 16 0x1000 (2 ^ 60)).isNone) = true ∧
    (((areaSets recorder).run ⟨[], []⟩ [.push 0xFFFFFFFFFFFFE000 0xFFFFFFFFFFFFEFFF .default 7 "top"]).any fun vm =>
      vm.areas.map (fun a => (a.startAddr, a.endAddr)) = [(0xFFFFFFFFFFFFE000, 0xFFFFFFFFFFFFF000)] ∧
        (vm.checkReadArray 1 0xFFFFFFFFFFFFE000 1).isNone) = true := by
  decide +kernel

end ChaosKernel.RcoreMemory
