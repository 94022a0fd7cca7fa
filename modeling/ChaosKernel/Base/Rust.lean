import Mathlib

/-! The parts of the implementation language every model shares.

A call returns a value or stops short (`Stop`): with an error the caller sees, by
a panic, or never. `usize` is the natural numbers; where the width of a word is
visible, the bound is written out. Slices are lists, and a range that does not
lie inside its slice is a panic, which `slice?` and `overwrite?` report as
`none`. An ordered map is the extensional tree map of the standard library. -/
namespace ChaosKernel.Base
open List

/-- How a call ends without returning a value. -/
inductive Stop (ε : Type) where
  /-- It returns an error. -/
  | err (e : ε)
  /-- It panics: a range or index out of bounds, an overflow, a failed assertion. -/
  | panic
  /-- It never returns. -/
  | hang
  deriving DecidableEq, Repr

/-- The call came back to its caller, with a value or with an error. -/
def returned {ε α : Type} : Except (Stop ε) α → Bool
  | .ok _ => true
  | .error (.err _) => true
  | .error _ => false

theorem ok_bind {ε α β : Type} (a : α) (f : α → Except ε β) : ((Except.ok a : Except ε α) >>= f) = f a := rfl

abbrev Bytes := List UInt8

/-- `BTreeMap<usize, α>`. -/
abbrev BTreeMap (α : Type) := Std.ExtTreeMap Nat α

theorem get_insert {α : Type} (m : BTreeMap α) (k a : Nat) (v : α) :
    (m.insert k v)[a]? = if k = a then some v else m[a]? := by
  rw [Std.ExtTreeMap.getElem?_insert]
  simp only [Nat.compare_eq_eq]

theorem get_erase {α : Type} (m : BTreeMap α) (k a : Nat) :
    (m.erase k)[a]? = if k = a then none else m[a]? := by
  rw [Std.ExtTreeMap.getElem?_erase]
  simp only [Nat.compare_eq_eq]

theorem get_modify {α : Type} (m : BTreeMap α) (k a : Nat) (f : α → α) :
    (m.modify k f)[a]? = if k = a then m[a]?.map f else m[a]? := by
  rw [Std.ExtTreeMap.getElem?_modify]
  simp only [Nat.compare_eq_eq]
  split
  · next h => rw [h]
  · rfl

theorem insert_insert {α : Type} (m : BTreeMap α) (k : Nat) (v w : α) :
    (m.insert k v).insert k w = m.insert k w := by
  apply Std.ExtTreeMap.ext_getElem?
  intro a
  rw [get_insert, get_insert, get_insert]
  split <;> rfl

/-- One more than the largest word. -/
def wordSize : Nat := 2 ^ 64

def usizeMax : Nat := wordSize - 1

/-- `a + b`, which panics when the sum is no word. -/
def add? (a b : Nat) : Option Nat := if a + b < wordSize then some (a + b) else none

def wrappingAdd (a b : Nat) : Nat := (a + b) % wordSize

def wrappingSub (a b : Nat) : Nat := (a + (wordSize - b)) % wordSize

def wrappingMul (a b : Nat) : Nat := (a * b) % wordSize

variable {a b : Nat}

theorem add?_eq_some {c : Nat} (h : add? a b = some c) : c = a + b ∧ a + b < wordSize := by
  simp only [add?, Option.ite_none_right_eq_some, Option.some.injEq] at h
  exact ⟨h.2.symm, h.1⟩

theorem add?_of_lt (h : a + b < wordSize) : add? a b = some (a + b) := if_pos h

theorem add?_of_ge (h : wordSize ≤ a + b) : add? a b = none := if_neg (by omega)

section Slices
variable {α : Type}

/-- `xs[lo..hi]`. -/
def slice? (xs : List α) (lo hi : Nat) : Option (List α) :=
  if lo ≤ hi ∧ hi ≤ xs.length then some ((xs.drop lo).take (hi - lo)) else none

/-- `xs[lo..hi].copy_from_slice(src)`. -/
def overwrite? (xs : List α) (lo hi : Nat) (src : List α) : Option (List α) :=
  if lo ≤ hi ∧ hi ≤ xs.length ∧ src.length = hi - lo then
    some (xs.take lo ++ src ++ xs.drop hi)
  else none

variable {xs src : List α} {lo hi : Nat}

theorem slice?_eq_some (hlo : lo ≤ hi) (hhi : hi ≤ xs.length) :
    slice? xs lo hi = some ((xs.drop lo).take (hi - lo)) :=
  if_pos ⟨hlo, hhi⟩

theorem overwrite?_eq_some (hlo : lo ≤ hi) (hhi : hi ≤ xs.length) (hsrc : src.length = hi - lo) :
    overwrite? xs lo hi src = some (xs.take lo ++ src ++ xs.drop hi) :=
  if_pos ⟨hlo, hhi, hsrc⟩

/-- What a spliced list holds: the source inside the range, the old elements outside. -/
theorem getElem?_splice (hlo : lo ≤ xs.length) (hhi : lo ≤ hi) (hsrc : src.length = hi - lo) (i : Nat) :
    (xs.take lo ++ src ++ xs.drop hi)[i]? =
      if lo ≤ i ∧ i < hi then src[i - lo]? else xs[i]? := by
  have hlen : (xs.take lo).length = lo := length_take_of_le hlo
  by_cases h1 : i < lo
  · rw [if_neg (by omega), append_assoc, getElem?_append_left (by omega),
      getElem?_take_of_lt h1]
  · by_cases h2 : i < hi
    · rw [if_pos (by omega), append_assoc, getElem?_append_right (by omega), hlen,
        getElem?_append_left (by omega)]
    · have hlen2 : (xs.take lo ++ src).length = hi := by
        rw [length_append, hlen, hsrc]
        omega
      rw [if_neg (by omega), getElem?_append_right (by omega), hlen2, getElem?_drop]
      congr 1
      omega

theorem overwrite?_spec (hlo : lo ≤ hi) (hhi : hi ≤ xs.length) (hsrc : src.length = hi - lo) :
    ∃ ys, overwrite? xs lo hi src = some ys ∧ ys.length = xs.length ∧
      ∀ i : Nat, ys[i]? = if lo ≤ i ∧ i < hi then src[i - lo]? else xs[i]? := by
  refine ⟨_, overwrite?_eq_some hlo hhi hsrc, ?_, getElem?_splice (hlo.trans hhi) hlo hsrc⟩
  rw [length_append, length_append, hsrc, length_take, length_drop]
  omega

end Slices
end ChaosKernel.Base
