import Mathlib

/-! Words of 64 bits as sets of small numbers.

A set is asked for a member and changed by masks of one bit. The tests and the
changes are read off bit by bit, so that a fact about words is a fact about each
member. -/
namespace ChaosKernel.Base

/-- `1u64 << n`. -/
def bit (n : Nat) : BitVec 64 := 1#64 <<< n

/-- `(w & (1u64 << n)) != 0`. -/
def hasBit (w : BitVec 64) (n : Nat) : Bool := w &&& bit n != 0#64

/-- Every member of `v` is one of `w`. -/
def Within (v w : BitVec 64) : Prop := v &&& ~~~w = 0#64

instance (v w : BitVec 64) : Decidable (Within v w) := inferInstanceAs (Decidable (_ = _))

/-- The members of the set. -/
def members (w : BitVec 64) : Set Nat := {i | w.getLsbD i = true}

variable {n i : Nat} {w v : BitVec 64}

theorem getLsbD_bit : (bit n).getLsbD i = true ↔ i = n ∧ n < 64 := by
  unfold bit
  rw [BitVec.getLsbD_shiftLeft, BitVec.getLsbD_one]
  simp only [Bool.and_eq_true, Bool.not_eq_true', decide_eq_true_eq, decide_eq_false_iff_not]
  omega

theorem eq_zero_iff : w = 0#64 ↔ ∀ i, w.getLsbD i = false :=
  ⟨fun h i => by rw [h, BitVec.getLsbD_zero], fun h => BitVec.eq_of_getLsbD_eq fun i _ => by
    rw [h i, BitVec.getLsbD_zero]⟩

theorem getLsbD_diff : (v &&& ~~~w).getLsbD i = true ↔ v.getLsbD i = true ∧ w.getLsbD i = false := by
  rw [BitVec.getLsbD_and, BitVec.getLsbD_not, Bool.and_eq_true, Bool.and_eq_true, Bool.not_eq_true',
    decide_eq_true_eq]
  exact ⟨fun h => ⟨h.1, h.2.2⟩, fun h => ⟨h.1, BitVec.lt_of_getLsbD h.1, h.2⟩⟩

theorem within_iff : Within v w ↔ ∀ i, v.getLsbD i = true → w.getLsbD i = true := by
  unfold Within
  rw [eq_zero_iff]
  refine forall_congr' fun i => ?_
  rw [Bool.eq_false_iff, ne_eq, getLsbD_diff, not_and, Bool.not_eq_false]

theorem within_self (w : BitVec 64) : Within w w := within_iff.mpr fun _ h => h

@[simp] theorem hasBit_iff : hasBit w n = true ↔ w.getLsbD n = true := by
  unfold hasBit
  rw [bne_iff_ne, ne_eq, eq_zero_iff, not_forall]
  constructor
  · intro h
    obtain ⟨i, hi⟩ := h
    rw [BitVec.getLsbD_and, Bool.not_eq_false, Bool.and_eq_true, getLsbD_bit] at hi
    exact hi.2.1 ▸ hi.1
  · intro h
    refine ⟨n, ?_⟩
    rw [BitVec.getLsbD_and, h, Bool.true_and, Bool.not_eq_false]
    exact getLsbD_bit.mpr ⟨rfl, BitVec.lt_of_getLsbD h⟩

theorem getLsbD_insert (hn : n < 64) : (w ||| bit n).getLsbD i = true ↔ w.getLsbD i = true ∨ i = n := by
  rw [BitVec.getLsbD_or, Bool.or_eq_true, getLsbD_bit, and_iff_left hn]

theorem getLsbD_remove (hn : n < 64) : (w &&& ~~~bit n).getLsbD i = true ↔ w.getLsbD i = true ∧ i ≠ n := by
  rw [getLsbD_diff, Bool.eq_false_iff, ne_eq, getLsbD_bit, and_iff_left hn]

theorem members_or (v w : BitVec 64) : members (v ||| w) = members v ∪ members w := by
  ext i
  show (v ||| w).getLsbD i = true ↔ v.getLsbD i = true ∨ w.getLsbD i = true
  rw [BitVec.getLsbD_or, Bool.or_eq_true]

theorem members_diff (v w : BitVec 64) : members (v &&& ~~~w) = members v \ members w := by
  ext i
  show (v &&& ~~~w).getLsbD i = true ↔ v.getLsbD i = true ∧ ¬w.getLsbD i = true
  rw [getLsbD_diff, Bool.not_eq_true]

theorem members_bit (hn : n < 64) : members (bit n) = {n} := by
  ext i
  show (bit n).getLsbD i = true ↔ i = n
  rw [getLsbD_bit, and_iff_left hn]

end ChaosKernel.Base
