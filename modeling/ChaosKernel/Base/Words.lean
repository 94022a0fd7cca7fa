import ChaosKernel.Base.Rust

/-! Checked arithmetic and conversions of machine words.

An operation that overflows, underflows or divides by zero panics, which is
`none` here. A conversion never panics: it keeps the low bits and reads them in
the new type. -/
namespace ChaosKernel.Base

/-- `a - b`. -/
def sub? (a b : Nat) : Option Nat := if b ≤ a then some (a - b) else none

/-- `a * b`. -/
def mul? (a b : Nat) : Option Nat := if a * b < wordSize then some (a * b) else none

/-- `a % b`. -/
def rem? (a b : Nat) : Option Nat := if b = 0 then none else some (a % b)

/-- `-a` of an `isize`. -/
def neg? (a : Int) : Option Int := if a = -2 ^ 63 then none else some (-a)

/-- `a + b` of two `i64`. -/
def addI64? (a b : Int) : Option Int := if -2 ^ 63 ≤ a + b ∧ a + b < 2 ^ 63 then some (a + b) else none

/-- A word read as an `isize` or `i64`. -/
def asIsize (a : Nat) : Int := (a : Int).bmod (2 ^ 64)

/-- A signed number as a word. -/
def asUsize (a : Int) : Nat := (a % 2 ^ 64).toNat

/-- A signed number or a word as an `i32`. -/
def asI32 (a : Int) : Int := a.bmod (2 ^ 32)

variable {a b : Nat}

theorem add?_eq_none : add? a b = none ↔ ¬a + b < wordSize := by
  unfold add?
  split <;> simp_all

theorem sub?_eq_none : sub? a b = none ↔ ¬b ≤ a := by
  unfold sub?
  split <;> simp_all

theorem mul?_eq_none : mul? a b = none ↔ ¬a * b < wordSize := by
  unfold mul?
  split <;> simp_all

theorem asIsize_eq (a : Nat) : asIsize a =
    if (a : Int) % 2 ^ 64 < 2 ^ 63 then (a : Int) % 2 ^ 64 else (a : Int) % 2 ^ 64 - 2 ^ 64 := by
  show (a : Int).bmod (2 ^ 64) = _
  rw [Int.bmod_def]
  push_cast
  split_ifs <;> omega

theorem asIsize_bounds (a : Nat) : -2 ^ 63 ≤ asIsize a ∧ asIsize a < 2 ^ 63 := by
  rw [asIsize_eq]
  split <;> omega

theorem neg?_eq_none {a : Int} : neg? a = none ↔ a = -2 ^ 63 := by
  unfold neg?
  split
  · next h => exact iff_of_true rfl h
  · next h => exact iff_of_false (Option.some_ne_none _) h

theorem neg?_eq_some {a b : Int} (h : neg? a = some b) : b = -a := by
  simp only [neg?, Option.ite_none_left_eq_some, Option.some.injEq] at h
  exact h.2.symm

theorem asUsize_of_nonneg {a : Int} (h : 0 ≤ a) (hlt : a < 2 ^ 64) : asUsize a = a.toNat := by
  rw [asUsize, Int.emod_eq_of_lt h hlt]

theorem asI32_lt (a : Int) : asI32 a < 2 ^ 31 := by
  have := Int.bmod_lt (x := a) (show 0 < 2 ^ 32 by decide)
  unfold asI32
  omega

/-- The negation of a negative number, as a word. -/
theorem asUsize_neg {b : Int} (hlt : asIsize a < 0) (hneg : neg? (asIsize a) = some b) :
    (asUsize b : Int) = b := by
  obtain ⟨hlow, _⟩ := asIsize_bounds a
  rw [neg?_eq_some hneg]
  generalize asIsize a = x at *
  rw [asUsize_of_nonneg (by omega) (by omega)]
  omega

end ChaosKernel.Base
