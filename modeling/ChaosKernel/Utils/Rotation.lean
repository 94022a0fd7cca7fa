import ChaosKernel.Base.Words

/-! `rotate_bits`.

A word of 64 bits is rotated within its low `width` bits. An amount that is a multiple
of the width returns the word before it is masked, so a word with higher bits keeps
them; `rotateBits_iff` says that the rotations act as they should on the others. -/
namespace ChaosKernel.Utils
open Base

def rotateBits (value amount width : Nat) : Nat :=
  if width = 0 ∨ width > 64 then value
  else
    let actual := amount % width
    if actual = 0 then value
    else
      let mask := if width = 64 then wordSize - 1 else 1 <<< width - 1
      let v := value &&& mask
      ((v <<< actual) % wordSize ||| v >>> (width - actual)) &&& mask

variable {w v : Nat}

theorem mask_eq (w : Nat) : (if w = 64 then wordSize - 1 else 1 <<< w - 1) = 2 ^ w - 1 := by
  split
  · next h => rw [h, wordSize]
  · rw [Nat.one_shiftLeft]

/-- Where a bit of the rotated word comes from. -/
theorem testBit_rotateBits (hw : 1 ≤ w ∧ w ≤ 64) (hv : v < 2 ^ w) (a i : Nat) :
    (rotateBits v a w).testBit i =
      (decide (i < w) && v.testBit (if a % w ≤ i then i - a % w else i + w - a % w)) := by
  have hlt : a % w < w := Nat.mod_lt a hw.1
  have hhigh (j : Nat) (hj : w ≤ j) : v.testBit j = false :=
    Nat.testBit_lt_two_pow (hv.trans_le (Nat.pow_le_pow_right Nat.two_pos hj))
  rw [rotateBits, if_neg (by omega), mask_eq]
  dsimp only
  by_cases hzero : a % w = 0
  · rw [if_pos hzero, hzero, if_pos i.zero_le, Nat.sub_zero]
    by_cases hi : i < w
    · rw [decide_eq_true hi, Bool.true_and]
    · rw [decide_eq_false hi, hhigh i (Nat.not_lt.mp hi), Bool.false_and]
  · rw [if_neg hzero, Nat.and_two_pow_sub_one_eq_mod, Nat.and_two_pow_sub_one_eq_mod, Nat.mod_eq_of_lt hv, wordSize,
      Nat.testBit_mod_two_pow, Nat.testBit_or, Nat.testBit_mod_two_pow, Nat.testBit_shiftLeft, Nat.testBit_shiftRight]
    by_cases hi : i < w
    · have hi64 : i < 64 := hi.trans_le hw.2
      by_cases hs : a % w ≤ i
      · rw [hhigh (w - a % w + i) (by omega)]
        simp [hs, hi64]
      · have : w - a % w + i = i + w - a % w := by omega
        simp [hs, this]
    · rw [decide_eq_false hi, Bool.false_and, Bool.false_and]

theorem rotateBits_lt (hw : 1 ≤ w ∧ w ≤ 64) (hv : v < 2 ^ w) (a : Nat) : rotateBits v a w < 2 ^ w := by
  refine Nat.lt_pow_two_of_testBit _ fun i hi => ?_
  rw [testBit_rotateBits hw hv, decide_eq_false (Nat.not_lt.mpr hi), Bool.false_and]

theorem rotateBits_rotateBits (hw : 1 ≤ w ∧ w ≤ 64) (hv : v < 2 ^ w) (a b : Nat) :
    rotateBits (rotateBits v a w) b w = rotateBits v (a + b) w := by
  refine Nat.eq_of_testBit_eq fun i => ?_
  rw [testBit_rotateBits hw (rotateBits_lt hw hv a), testBit_rotateBits hw hv, testBit_rotateBits hw hv]
  by_cases hi : i < w
  · -- both go back from `i` by the two amounts, around the width at most once each
    have ha : a % w < w := Nat.mod_lt a hw.1
    have hb : b % w < w := Nat.mod_lt b hw.1
    rw [decide_eq_true hi, Bool.true_and, Bool.true_and, Nat.add_mod_eq_ite, decide_eq_true, Bool.true_and]
    · congr 1
      split_ifs <;> omega
    · split_ifs <;> omega
  · rw [decide_eq_false hi, Bool.false_and, Bool.false_and]

theorem rotateBits_multiple (hw : 1 ≤ w ∧ w ≤ 64) (v k : Nat) : rotateBits v (k * w) w = v := by
  rw [rotateBits, if_neg (by omega), Nat.mul_mod_left]
  exact if_pos rfl

/-- **The rotations compose, read and write the low bits only, and come back after the width, exactly on the words
that have no higher bits.** -/
theorem rotateBits_iff (w v : Nat) (hw : 1 ≤ w ∧ w ≤ 64) :
    ((∀ a b, a + b < 2 ^ 32 → rotateBits (rotateBits v a w) b w = rotateBits v (a + b) w) ∧
      (∀ a < 2 ^ 32, rotateBits v a w = rotateBits (v % 2 ^ w) a w ∧ rotateBits v a w < 2 ^ w) ∧
      ∀ k, k * w < 2 ^ 32 → rotateBits v (k * w) w = v % 2 ^ w) ↔ v < 2 ^ w := by
  constructor
  · intro h
    have hback := h.2.2 0 (by rw [Nat.zero_mul]; decide)
    rw [rotateBits_multiple hw] at hback
    exact hback ▸ Nat.mod_lt v (Nat.two_pow_pos w)
  · intro hv
    rw [Nat.mod_eq_of_lt hv]
    exact ⟨fun a b _ => rotateBits_rotateBits hw hv a b, fun a _ => ⟨rfl, rotateBits_lt hw hv a⟩,
      fun k _ => rotateBits_multiple hw v k⟩

theorem rotateBits_iff_octet : rotateBits (rotateBits 0x81 3 8) 5 8 = rotateBits 0x81 8 8 :=
  ((rotateBits_iff 8 0x81 (by decide)).mpr (by decide)).1 3 5 (by decide)

/-- A word with a ninth bit, rotated by nothing within eight, keeps it. -/
theorem rotateBits_keeps_high : rotateBits 0x1FF 0 8 = 0x1FF ∧ 0x1FF % 2 ^ 8 = 0xFF ∧
    rotateBits (rotateBits 0x1FF 3 8) 5 8 ≠ rotateBits 0x1FF 8 8 := by
  decide

end ChaosKernel.Utils
