import Mathlib

/-! Bitmaps in which `true` marks a free slot.

An allocator over a bitmap is right when it takes only free slots and leaves the
rest alone. `Takes slots slots' taken` says that, for any way of choosing the
slots, and composes (`Takes.trans`), so an allocator that takes slots one by one
needs only a fact about one of them. `scanFrom` is the circular search from a
preferred place. `Owns slots held` says that the used slots are exactly the ones
somebody holds, each held once; taking and releasing slots keeps it. `freeIn` is
the number of free slots in a range. -/
namespace ChaosKernel.Base
open List

variable {slots slots' : List Bool} {i start k : Nat}

theorem getElem?_of_getD (h : slots.getD i false = true) : slots[i]? = some true := by
  rw [getD_eq_getElem?_getD] at h
  cases hget : slots[i]? with
  | none =>
    rw [hget] at h
    cases h
  | some b =>
    rw [hget] at h
    rw [show b = true from h]

/-- Exactly the slots `taken`, all of them free, have been marked used. -/
structure Takes (slots slots' : List Bool) (taken : List Nat) : Prop where
  nodup : taken.Nodup
  free : ∀ i ∈ taken, slots[i]? = some true
  marks : ∀ i : Nat, slots'[i]? = if i ∈ taken then some false else slots[i]?

namespace Takes
variable {slots slots' slots'' : List Bool} {taken taken' xs : List Nat}

theorem nothing (slots : List Bool) : Takes slots slots [] :=
  ⟨nodup_nil, fun _ hi => absurd hi not_mem_nil, fun _ => (if_neg not_mem_nil).symm⟩

/-- The used slots are the old ones and those that were taken. -/
theorem used_iff (h : Takes slots slots' taken) (i : Nat) :
    slots'[i]? = some false ↔ slots[i]? = some false ∨ i ∈ taken := by
  rw [h.marks i]
  by_cases hi : i ∈ taken
  · simp only [hi, if_true, or_true]
  · simp only [hi, if_false, or_false]

/-- What was taken is what is used and was free. -/
theorem mem_iff (h : Takes slots slots' taken) :
    i ∈ taken ↔ slots[i]? = some true ∧ slots'[i]? = some false := by
  constructor
  · intro hi
    exact ⟨h.free i hi, (h.used_iff i).mpr (.inr hi)⟩
  · intro hi
    rcases (h.used_iff i).mp hi.2 with hused | hi
    · rw [hi.1] at hused
      cases hused
    · exact hi

theorem one (hi : slots[i]? = some true) : Takes slots (slots.set i false) [i] := by
  refine ⟨nodup_singleton i, fun j hj => ?_, fun j => ?_⟩
  · rw [mem_singleton.mp hj]
    exact hi
  · have hlt : i < slots.length := (List.getElem?_eq_some_iff.mp hi).1
    rw [getElem?_set]
    by_cases h : i = j
    · subst h
      simp [hlt]
    · simp [h, Ne.symm h]

theorem trans (h : Takes slots slots' taken) (h' : Takes slots' slots'' taken') :
    Takes slots slots'' (taken ++ taken') := by
  have hnew : ∀ i ∈ taken', i ∉ taken := by
    intro i hi hin
    have := h'.free i hi
    rw [h.marks i, if_pos hin] at this
    cases this
  refine ⟨?_, ?_, ?_⟩
  · rw [nodup_append]
    exact ⟨h.nodup, h'.nodup, fun a ha b hb hab => hnew b hb (hab ▸ ha)⟩
  · intro i hi
    rcases mem_append.mp hi with hi | hi
    · exact h.free i hi
    · have := h'.free i hi
      rwa [h.marks i, if_neg (hnew i hi)] at this
  · intro i
    rw [h'.marks i, h.marks i]
    by_cases h1 : i ∈ taken <;> by_cases h2 : i ∈ taken' <;> simp [h1, h2]

theorem length (h : Takes slots slots' taken) : slots'.length = slots.length := by
  have hnone : ∀ i, slots'.length ≤ i ↔ slots.length ≤ i := by
    intro i
    rw [← List.getElem?_eq_none_iff, ← List.getElem?_eq_none_iff, h.marks i]
    split
    · rename_i hi
      rw [h.free i hi]
      simp
    · exact Iff.rfl
  exact le_antisymm ((hnone _).mpr (le_refl _)) ((hnone _).mp (le_refl _))

theorem perm (h : Takes slots slots' taken) (hperm : taken'.Perm taken) :
    Takes slots slots' taken' where
  nodup := hperm.nodup_iff.mpr h.nodup
  free i hi := h.free i (hperm.mem_iff.mp hi)
  marks i := by
    rw [h.marks i]
    simp only [hperm.mem_iff]

/-- Distinct free slots marked one after the other. -/
theorem each (hnodup : xs.Nodup) (hfree : ∀ i ∈ xs, slots[i]? = some true) :
    Takes slots (xs.foldl (fun slots i => slots.set i false) slots) xs := by
  induction xs generalizing slots with
  | nil => exact nothing slots
  | cons x rest ih =>
    obtain ⟨hx, hrest⟩ := nodup_cons.mp hnodup
    have hone := one (hfree x mem_cons_self)
    refine hone.trans (ih hrest fun i hi => ?_)
    have hne : i ≠ x := fun heq => hx (heq ▸ hi)
    rw [hone.marks i, if_neg (fun hin => hne (mem_singleton.mp hin))]
    exact hfree i (mem_cons_of_mem x hi)

/-- A slot in front that nothing happens to. -/
theorem skip (b : Bool) (h : Takes slots slots' taken) :
    Takes (b :: slots) (b :: slots') (taken.map (· + 1)) := by
  refine ⟨h.nodup.map (fun a c hac => Nat.succ.inj hac), ?_, ?_⟩
  · intro i hi
    obtain ⟨j, hj, rfl⟩ := mem_map.mp hi
    rw [getElem?_cons_succ]
    exact h.free j hj
  · intro i
    cases i with
    | zero => simp
    | succ j =>
      rw [getElem?_cons_succ, getElem?_cons_succ, h.marks j]
      simp

/-- A free slot in front, taken as well. -/
theorem front (h : Takes slots slots' taken) :
    Takes (true :: slots) (false :: slots') (0 :: taken.map (· + 1)) :=
  (one rfl : Takes (true :: slots) ((true :: slots).set 0 false) [0]).trans (h.skip false)

end Takes

/-- The first free slot at or after `start`, going round at the end. -/
def scanFrom (slots : List Bool) (start : Nat) : Option Nat :=
  ((List.range slots.length).map fun offset => (start + offset) % slots.length).find?
    fun i => slots.getD i false

theorem scanFrom_free (h : scanFrom slots start = some i) : slots[i]? = some true := by
  have hi := find?_some h
  exact getElem?_of_getD hi

/-- The scan misses no free slot. -/
theorem scanFrom_isSome (hfree : slots[i]? = some true) (start : Nat) : (scanFrom slots start).isSome := by
  have hlt : i < slots.length := (List.getElem?_eq_some_iff.mp hfree).1
  rw [scanFrom, find?_isSome]
  refine ⟨i, mem_map.mpr ⟨(i + (slots.length - start % slots.length)) % slots.length, ?_, ?_⟩, ?_⟩
  · exact mem_range.mpr (Nat.mod_lt _ (by omega))
  · have hmod := Nat.mod_lt start (by omega : 0 < slots.length)
    have hdiv := Nat.div_add_mod start slots.length
    have hround : start + (i + (slots.length - start % slots.length)) = i + slots.length * (start / slots.length + 1) := by
      rw [Nat.mul_add]
      omega
    rw [Nat.add_mod_mod, hround, Nat.add_mul_mod_self_left, Nat.mod_eq_of_lt hlt]
  · rw [getD_eq_getElem?_getD, hfree]
    rfl

/-- The search stops at the first free slot it meets. -/
theorem scanFrom_eq_some (hfree : slots[start + k]? = some true)
    (hused : ∀ j < k, slots[start + j]? = some false) : scanFrom slots start = some (start + k) := by
  have hlt : start + k < slots.length := (List.getElem?_eq_some_iff.mp hfree).1
  have hmod : ∀ j ≤ k, (start + j) % slots.length = start + j :=
    fun j hj => Nat.mod_eq_of_lt (by omega)
  have hfind : (List.range slots.length).find?
      ((fun i => slots.getD i false) ∘ fun offset => (start + offset) % slots.length) = some k := by
    rw [find?_range_eq_some]
    refine ⟨?_, mem_range.mpr (by omega), fun j hj => ?_⟩
    · simp only [Function.comp_apply, hmod k le_rfl, getD_eq_getElem?_getD, hfree,
        Option.getD_some]
    · simp only [Function.comp_apply, hmod j hj.le, getD_eq_getElem?_getD, hused j hj,
        Option.getD_some, Bool.not_false]
  rw [scanFrom, find?_map, hfind, Option.map_some, hmod k le_rfl]

/-! ### Ownership -/

/-- Every used slot is held, once, and every slot held is used. -/
structure Owns (slots : List Bool) (held : List Nat) : Prop where
  nodup : held.Nodup
  held : ∀ i : Nat, i ∈ held ↔ slots[i]? = some false

namespace Owns
variable {slots slots' : List Bool} {held taken xs : List Nat}

theorem all_free (n : Nat) : Owns (List.replicate n true) [] := by
  refine ⟨nodup_nil, fun i => ?_⟩
  simp [getElem?_replicate]

/-- The slots taken are new to their holder. -/
theorem takes (h : Owns slots held) (ht : Takes slots slots' taken) :
    Owns slots' (taken ++ held) := by
  refine ⟨?_, fun i => ?_⟩
  · rw [nodup_append]
    refine ⟨ht.nodup, h.nodup, fun a ha b hb hab => ?_⟩
    subst hab
    have := (h.held a).mp hb
    rw [ht.free a ha] at this
    cases this
  · rw [ht.used_iff i, mem_append, h.held i, or_comm]

theorem release (h : Owns slots held) (hi : i ∈ held) : Owns (slots.set i true) (held.erase i) := by
  refine ⟨h.nodup.erase i, fun j => ?_⟩
  have hlt : i < slots.length := (List.getElem?_eq_some_iff.mp ((h.held i).mp hi)).1
  rw [h.nodup.mem_erase_iff, getElem?_set, h.held j]
  by_cases hij : i = j
  · subst hij
    simp [hlt]
  · simp [hij, Ne.symm hij]

theorem release_all (h : Owns slots held) (hnodup : xs.Nodup) (hheld : ∀ i ∈ xs, i ∈ held) :
    Owns (xs.foldl (fun slots i => slots.set i true) slots)
      (xs.foldl (fun held i => held.erase i) held) := by
  induction xs generalizing slots held with
  | nil => exact h
  | cons x rest ih =>
    obtain ⟨hx, hrest⟩ := nodup_cons.mp hnodup
    refine ih (h.release (hheld x mem_cons_self)) hrest fun i hi => ?_
    have hne : i ≠ x := fun heq => hx (heq ▸ hi)
    exact (mem_erase_of_ne hne).mpr (hheld i (mem_cons_of_mem x hi))

/-- The free slots and the held ones are all the slots. -/
theorem count (h : Owns slots held) : (slots.countP fun f => f) + held.length = slots.length := by
  have hperm : held.Perm ((List.range slots.length).filter fun i => !slots.getD i true) := by
    rw [perm_ext_iff_of_nodup h.nodup (nodup_range.filter _)]
    intro i
    rw [h.held i, mem_filter, mem_range, getD_eq_getElem?_getD]
    by_cases hlt : i < slots.length
    · cases hget : slots[i] <;> simp [hlt, hget]
    · simp [hlt]
  have hlist : slots = (List.range slots.length).map fun i => slots.getD i true := by
    apply ext_getElem?
    intro i
    by_cases hlt : i < slots.length <;> simp [hlt]
  have hfree : (slots.countP fun f => f) =
      (List.range slots.length).countP fun i => slots.getD i true := by
    conv_lhs => rw [hlist]
    rw [countP_map]
    rfl
  have hall := length_eq_countP_add_countP (fun i => slots.getD i true)
    (l := List.range slots.length)
  rw [hperm.length_eq, ← countP_eq_length_filter, hfree]
  rw [length_range] at hall
  simp only [Bool.not_eq_true] at hall
  convert hall.symm using 3
  funext i
  cases slots.getD i true <;> rfl

/-- Whatever the slots are, somebody can hold the used ones. -/
theorem exists_held (slots : List Bool) : ∃ held, Owns slots held := by
  refine ⟨(List.range slots.length).filter fun i => slots[i]? = some false, nodup_range.filter _, fun i => ?_⟩
  rw [mem_filter, mem_range, decide_eq_true_eq, and_iff_right_iff_imp]
  intro hi
  exact (List.getElem?_eq_some_iff.mp hi).1

end Owns

/-- What is taken is no longer counted as free. -/
theorem Takes.count {taken : List Nat} (h : Takes slots slots' taken) :
    (slots'.countP fun f => f) + taken.length = slots.countP fun f => f := by
  obtain ⟨held, hheld⟩ := Owns.exists_held slots
  have hbefore := hheld.count
  have hafter := (hheld.takes h).count
  have hlen := h.length
  rw [length_append] at hafter
  omega

/-! ### Free slots of a range -/

/-- How many of the `n` slots from `lo` on are free. -/
def freeIn (slots : List Bool) (lo n : Nat) : Nat := (List.range' lo n).countP fun i => slots.getD i false

theorem freeIn_succ (slots : List Bool) (lo n : Nat) :
    freeIn slots lo (n + 1) = freeIn slots lo n + if slots.getD (lo + n) false then 1 else 0 := by
  rw [freeIn, range'_concat, Nat.one_mul, countP_append, countP_singleton]
  rfl

theorem freeIn_le (slots : List Bool) (lo n : Nat) : freeIn slots lo n ≤ n := by
  have hle := (List.range' lo n).countP_le_length (p := fun i => slots.getD i false)
  rwa [length_range'] at hle

/-- A slot that changes counts for what it was before and for what it is after, if it lies in the range. -/
theorem freeIn_set (hi : i < slots.length) (b : Bool) (lo n : Nat) :
    freeIn (slots.set i b) lo n + (if lo ≤ i ∧ i < lo + n ∧ slots.getD i false then 1 else 0) =
      freeIn slots lo n + if lo ≤ i ∧ i < lo + n ∧ b then 1 else 0 := by
  induction n with
  | zero =>
    rw [if_neg (by omega), if_neg (by omega)]
    rfl
  | succ n ih =>
    rw [freeIn_succ, freeIn_succ]
    by_cases hlast : i = lo + n
    · subst hlast
      rw [if_neg (by omega), if_neg (by omega)] at ih
      have hset : (slots.set (lo + n) b).getD (lo + n) false = b := by
        rw [getD_eq_getElem?_getD, getElem?_set_self hi, Option.getD_some]
      simp only [hset, Nat.le_add_right, true_and, show lo + n < lo + (n + 1) by omega]
      omega
    · have hset : (slots.set i b).getD (lo + n) false = slots.getD (lo + n) false := by
        rw [getD_eq_getElem?_getD, getElem?_set_ne hlast, ← getD_eq_getElem?_getD]
      have hin : i < lo + (n + 1) ↔ i < lo + n := by omega
      simp only [hset, hin]
      omega

end ChaosKernel.Base
