import ChaosKernel.Base.Bitmap

/-! Windows of free slots.

A window is a run of `sz` free slots that starts at a multiple of `al`. A search that goes
up from slot 0 finds the least one as long as it only passes places where no window starts:
a place that is no multiple, and every place up to a used slot that its run would hold. -/
namespace ChaosKernel.Base

/-- The least number with the property was found, or there is none. -/
def FindsLeast (P : Nat → Prop) (found : Option Nat) : Prop := ∀ i, found = some i ↔ IsLeast {i | P i} i

namespace FindsLeast
variable {P : Nat → Prop} {found found' : Option Nat} {i : Nat}

theorem here (hi : P i) (hbelow : ∀ j < i, ¬P j) : FindsLeast P (some i) := by
  have hleast : IsLeast {i | P i} i := ⟨hi, fun j hj => Nat.le_of_not_lt fun hlt => hbelow j hlt hj⟩
  intro j
  rw [Option.some_inj]
  constructor
  · intro hij
    exact hij ▸ hleast
  · intro hj
    exact hleast.unique hj

theorem nowhere (hnone : ∀ i, ¬P i) : FindsLeast P none := by
  intro i
  exact iff_of_false (fun h => by cases h) fun h => hnone i h.1

theorem none_iff (h : FindsLeast P found) : found = none ↔ ∀ i, ¬P i := by
  constructor
  · intro hnone i hi
    classical
    have hleast : IsLeast {i | P i} (Nat.find ⟨i, hi⟩) := ⟨Nat.find_spec _, fun j hj => Nat.find_min' _ hj⟩
    rw [(h _).mpr hleast] at hnone
    cases hnone
  · intro hnone
    cases hfound : found with
    | none => rfl
    | some i => exact absurd ((h i).mp hfound).1 (hnone i)

theorem unique (h : FindsLeast P found) (h' : FindsLeast P found') : found = found' := by
  apply Option.ext
  intro i
  exact (h i).trans (h' i).symm

end FindsLeast

/-- The `sz` slots from `i` on are free, and `i` is a multiple of `al`. -/
structure Window (slots : List Bool) (sz al i : Nat) : Prop where
  aligned : al ∣ i
  free : ∀ j, i ≤ j → j < i + sz → slots[j]? = some true

namespace Window
variable {slots : List Bool} {sz al i start : Nat}

/-- A window of at least one slot ends inside the bitmap. -/
theorem le_length (h : Window slots sz al i) (hsz : 1 ≤ sz) : i + sz ≤ slots.length := by
  have hlast := h.free (i + sz - 1) (by omega) (by omega)
  have hlt := (List.getElem?_eq_some_iff.mp hlast).1
  omega

/-- No window between a place and the next multiple. -/
theorem next_multiple_le (h : Window slots sz al i) (hal : 0 < al) (hstart : ¬start % al = 0) (hle : start ≤ i) :
    (start + al) / al * al ≤ i := by
  obtain ⟨k, rfl⟩ := h.aligned
  have hrem := Nat.pos_of_ne_zero hstart
  have hdiv := Nat.div_add_mod start al
  have hlt : al * (start / al) < al * k := by omega
  have hk : start / al < k := Nat.lt_of_mul_lt_mul_left hlt
  rw [Nat.add_div_right start hal, Nat.mul_comm]
  exact Nat.mul_le_mul_left al hk

/-- No window from a place whose own run holds a used slot up to that slot. -/
theorem past_used {j : Nat} (h : Window slots sz al i) (hj : slots[j]? ≠ some true) (hle : start ≤ i)
    (hlt : j < start + sz) : j < i := by
  by_contra hij
  exact hj (h.free j (by omega) (by omega))

end Window
end ChaosKernel.Base
