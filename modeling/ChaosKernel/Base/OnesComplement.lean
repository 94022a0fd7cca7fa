import Mathlib

/-! Ones-complement sums.

In base `B` the carry of a sum goes back in at the low end (`carry`). What is left
when nothing can be carried any more is the remainder modulo `B - 1`, written with
`B - 1` in place of zero unless the sum itself is zero (`ones`). A sum and the
complement of its folded value fold to `B - 1`, the other zero. -/
namespace ChaosKernel.Base

variable {B s t : Nat}

/-- One end-around carry. -/
def carry (B s : Nat) : Nat := s % B + s / B

/-- The folded sum. -/
def ones (B s : Nat) : Nat := if s = 0 then 0 else (s - 1) % (B - 1) + 1

theorem ones_zero (B : Nat) : ones B 0 = 0 := rfl

theorem carry_lt (hB : 1 < B) (h : B ≤ s) : carry B s < s := by
  have hq : 0 < s / B := Nat.div_pos h (by omega)
  have hmul : s / B * 1 < s / B * B := Nat.mul_lt_mul_of_pos_left hB hq
  have hdiv := Nat.div_add_mod' s B
  unfold carry
  omega

theorem carry_eq_zero : carry B s = 0 ↔ s = 0 := by
  constructor
  · intro h
    have hdiv := Nat.div_add_mod s B
    rw [carry, Nat.add_eq_zero_iff] at h
    rw [h.1, h.2] at hdiv
    omega
  · intro h
    rw [h, carry, Nat.zero_mod, Nat.zero_div]

/-- What a carry takes away is a multiple of `B - 1`. -/
theorem carry_add (hB : 0 < B) (s : Nat) : carry B s + s / B * (B - 1) = s := by
  have hdiv := Nat.div_add_mod' s B
  have hmul : s / B * (B - 1) + s / B = s / B * B := by
    obtain ⟨b, rfl⟩ := Nat.exists_eq_add_of_lt hB
    simp [Nat.mul_add]
  unfold carry
  omega

theorem ones_lt (hB : 1 < B) (s : Nat) : ones B s < B := by
  unfold ones
  split
  · omega
  · have := Nat.mod_lt (s - 1) (show 0 < B - 1 by omega)
    omega

theorem ones_of_lt (h : s < B) : ones B s = s := by
  unfold ones
  split
  · next hs => exact hs.symm
  · rw [Nat.mod_eq_of_lt (by omega)]
    omega

theorem ones_add_mul (hs : s ≠ 0) (k : Nat) : ones B (s + k * (B - 1)) = ones B s := by
  have hsub : s + k * (B - 1) - 1 = s - 1 + k * (B - 1) := by omega
  rw [ones, ones, if_neg hs, if_neg (by omega), hsub, Nat.add_mul_mod_self_right]

/-- A carry changes nothing in the folded sum. -/
theorem ones_carry (hB : 0 < B) (s : Nat) : ones B (carry B s) = ones B s := by
  by_cases hs : s = 0
  · rw [carry_eq_zero.mpr hs, hs]
  · have hne : carry B s ≠ 0 := fun h => hs (carry_eq_zero.mp h)
    rw [← ones_add_mul hne (s / B), carry_add hB]

/-- A nonzero sum is its folded value and a multiple of `B - 1`. -/
theorem exists_ones_add (hs : s ≠ 0) : ∃ k, s = ones B s + k * (B - 1) := by
  have hdiv := Nat.div_add_mod' (s - 1) (B - 1)
  refine ⟨(s - 1) / (B - 1), ?_⟩
  rw [ones, if_neg hs]
  omega

/-- A sum, with the complement of its folded value added, folds to `B - 1`. -/
theorem ones_add_complement (hB : 1 < B) (s : Nat) : ones B (s + (B - 1 - ones B s)) = B - 1 := by
  have hlt := ones_lt hB s
  by_cases hs : s = 0
  · rw [hs, ones_zero, Nat.zero_add, Nat.sub_zero, ones_of_lt (by omega)]
  · obtain ⟨k, hk⟩ := exists_ones_add (B := B) hs
    have hsum : s + (B - 1 - ones B s) = B - 1 + k * (B - 1) := by
      generalize ones B s = r at *
      omega
    rw [hsum, ones_add_mul (by omega), ones_of_lt (by omega)]

/-- The completed sum is the next multiple of `B - 1`, so it stays below every such multiple. -/
theorem add_complement_le (hB : 1 < B) {k : Nat} (hk : 0 < k) (h : s ≤ k * (B - 1)) :
    s + (B - 1 - ones B s) ≤ k * (B - 1) := by
  by_cases hs : s = 0
  · rw [hs, ones_zero, Nat.zero_add, Nat.sub_zero]
    exact Nat.le_mul_of_pos_left (B - 1) hk
  · obtain ⟨j, hj⟩ := exists_ones_add (B := B) hs
    have hpos : 0 < ones B s := by
      rw [ones, if_neg hs]
      omega
    have hlt := ones_lt hB s
    have hjk : j < k := by
      by_contra hge
      have := Nat.mul_le_mul_right (B - 1) (Nat.not_lt.mp hge)
      omega
    have hmul := Nat.mul_le_mul_right (B - 1) hjk
    rw [Nat.succ_mul] at hmul
    omega

end ChaosKernel.Base
