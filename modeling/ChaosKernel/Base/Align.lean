import ChaosKernel.Base.Rust

/-! Rounding up to a multiple.

Code rounds a word up to a multiple of a power of two by adding one less than it
and clearing the low bits. -/
namespace ChaosKernel.Base

/-- `a & !mask`. -/
def andNot (a mask : Nat) : Nat := a &&& (usizeMax ^^^ mask)

/-- The least multiple of `al` from `x` on. -/
def roundUp (al x : Nat) : Nat := (x + (al - 1)) / al * al

theorem andNot_two_pow {a k : Nat} (ha : a < wordSize) : andNot a (2 ^ k - 1) = a / 2 ^ k * 2 ^ k := by
  apply Nat.eq_of_testBit_eq
  intro i
  have hmax : usizeMax = 2 ^ 64 - 1 := rfl
  rw [andNot, hmax, Nat.testBit_and, Nat.testBit_xor, Nat.testBit_two_pow_sub_one, Nat.testBit_two_pow_sub_one,
    Nat.mul_comm, Nat.testBit_two_pow_mul, Nat.testBit_div_two_pow]
  by_cases hi : i < 64
  · by_cases hk : k ≤ i
    · simp [hk, hi, Nat.not_lt.mpr hk]
    · simp [hk, hi, Nat.lt_of_not_le hk]
  · have hhigh : a.testBit i = false :=
      Nat.testBit_lt_two_pow (lt_of_lt_of_le ha (Nat.pow_le_pow_right (by decide) (by omega)))
    by_cases hk : k ≤ i
    · simp [hk, hhigh]
    · simp [hk, hhigh]

theorem roundUp_two_pow {x k : Nat} (h : x + (2 ^ k - 1) < wordSize) :
    andNot (x + (2 ^ k - 1)) (2 ^ k - 1) = roundUp (2 ^ k) x := andNot_two_pow h

section RoundUp
variable {al x a : Nat}

theorem dvd_roundUp (al x : Nat) : al ∣ roundUp al x := Nat.dvd_mul_left al _

theorem le_roundUp (hal : 0 < al) : x ≤ roundUp al x := by
  have hmod := Nat.div_add_mod (x + (al - 1)) al
  have hlt := Nat.mod_lt (x + (al - 1)) hal
  rw [Nat.mul_comm] at hmod
  unfold roundUp
  omega

/-- No multiple lies in between. -/
theorem roundUp_le_iff (hal : 0 < al) (ha : al ∣ a) : roundUp al x ≤ a ↔ x ≤ a := by
  refine ⟨(le_roundUp hal).trans, fun hle => ?_⟩
  obtain ⟨m, rfl⟩ := ha
  have hdiv : (x + (al - 1)) / al ≤ m := by
    rw [← Nat.lt_succ_iff, Nat.div_lt_iff_lt_mul hal, Nat.succ_mul, Nat.mul_comm m]
    omega
  rw [roundUp, Nat.mul_comm al m]
  exact Nat.mul_le_mul_right al hdiv

end RoundUp
end ChaosKernel.Base
