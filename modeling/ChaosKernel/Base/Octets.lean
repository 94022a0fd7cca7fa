import ChaosKernel.Base.Rust

/-! Numbers in a run of bytes.

`leAt` and `beAt` are the numbers that the bytes of a slice spell in the two orders.
Code puts such a number together from shifted bytes; since no two of the bytes
overlap, joining them with `or` is adding them. -/
namespace ChaosKernel.Base
open List

/-- A slice of bytes, which is no longer than the largest `isize`. -/
structure Octets where
  bytes : Bytes
  fits : bytes.length < 2 ^ 63

/-- The number that `n` bytes at `off` spell, the least significant byte first. -/
def leAt (data : Bytes) (off n : Nat) : Nat := Nat.ofDigits 256 (((data.drop off).take n).map UInt8.toNat)

/-- The number that `n` bytes at `off` spell, the most significant byte first. -/
def beAt (data : Bytes) (off n : Nat) : Nat := Nat.ofDigits 256 (((data.drop off).take n).reverse.map UInt8.toNat)

/-! ### Digits -/

theorem or_shift {a b i : Nat} (hb : b < 2 ^ i) : a <<< i ||| b = a * 2 ^ i + b := by
  rw [← Nat.shiftLeft_add_eq_or_of_lt hb, Nat.shiftLeft_eq]

theorem leAt_zero (data : Bytes) (off : Nat) : leAt data off 0 = 0 := rfl

variable {data : Bytes} {off n : Nat} {b b₀ b₁ b₂ b₃ : UInt8}

theorem leAt_succ (h : data[off + n]? = some b) :
    leAt data off (n + 1) = leAt data off n + b.toNat * 256 ^ n := by
  have hlt : off + n < data.length := (List.getElem?_eq_some_iff.mp h).1
  have hdrop : (data.drop off)[n]? = some b := by rw [getElem?_drop, h]
  have hlen : ((data.drop off).take n).length = n := by
    rw [length_take, length_drop]
    omega
  rw [leAt, take_add_one, hdrop, map_append, Nat.ofDigits_append, length_map, hlen]
  simp only [Option.toList_some, map_cons, map_nil, Nat.ofDigits_singleton]
  rw [Nat.mul_comm]
  rfl

theorem leAt_lt (data : Bytes) (off n : Nat) : leAt data off n < 256 ^ n := by
  have hlen : (((data.drop off).take n).map UInt8.toNat).length ≤ n := by
    rw [length_map]
    exact length_take_le ..
  refine (Nat.ofDigits_lt_base_pow_length (by decide) ?_).trans_le (Nat.pow_le_pow_right (by decide) hlen)
  intro d hd
  obtain ⟨b, _, rfl⟩ := mem_map.mp hd
  exact b.toNat_lt

theorem leAt_one (h : data[off]? = some b) : leAt data off 1 = b.toNat := by
  rw [leAt_succ (n := 0) h, leAt_zero, Nat.pow_zero, Nat.mul_one, Nat.zero_add]

theorem leAt_two (h₀ : data[off]? = some b₀) (h₁ : data[off + 1]? = some b₁) :
    leAt data off 2 = b₁.toNat <<< 8 ||| b₀.toNat := by
  rw [leAt_succ h₁, leAt_one h₀, or_shift b₀.toNat_lt]
  omega

theorem leAt_four (h₀ : data[off]? = some b₀) (h₁ : data[off + 1]? = some b₁)
    (h₂ : data[off + 2]? = some b₂) (h₃ : data[off + 3]? = some b₃) :
    leAt data off 4 = b₃.toNat <<< 24 ||| b₂.toNat <<< 16 ||| b₁.toNat <<< 8 ||| b₀.toNat := by
  have hb₀ := b₀.toNat_lt
  have hb₁ := b₁.toNat_lt
  have hb₂ := b₂.toNat_lt
  rw [leAt_succ h₃, leAt_succ h₂, leAt_succ h₁, leAt_one h₀, Nat.or_assoc, Nat.or_assoc, or_shift hb₀,
    or_shift (i := 16) (by omega), or_shift (i := 24) (by omega)]
  omega

theorem beAt_zero (data : Bytes) (off : Nat) : beAt data off 0 = 0 := rfl

theorem beAt_succ (h : data[off + n]? = some b) :
    beAt data off (n + 1) = beAt data off n * 256 + b.toNat := by
  have hdrop : (data.drop off)[n]? = some b := by rw [getElem?_drop, h]
  rw [beAt, take_add_one, hdrop, Option.toList_some, reverse_append, reverse_singleton,
    singleton_append, map_cons, Nat.ofDigits_cons, Nat.add_comm, Nat.mul_comm]
  rfl

theorem beAt_one (h : data[off]? = some b) : beAt data off 1 = b.toNat := by
  rw [beAt_succ (n := 0) h, beAt_zero, Nat.zero_mul, Nat.zero_add]

theorem beAt_two (h₀ : data[off]? = some b₀) (h₁ : data[off + 1]? = some b₁) :
    beAt data off 2 = b₀.toNat <<< 8 ||| b₁.toNat := by
  rw [beAt_succ h₁, beAt_one h₀, or_shift b₁.toNat_lt]
  rfl

theorem beAt_four (h₀ : data[off]? = some b₀) (h₁ : data[off + 1]? = some b₁)
    (h₂ : data[off + 2]? = some b₂) (h₃ : data[off + 3]? = some b₃) :
    beAt data off 4 = b₀.toNat <<< 24 ||| b₁.toNat <<< 16 ||| b₂.toNat <<< 8 ||| b₃.toNat := by
  have hb₁ := b₁.toNat_lt
  have hb₂ := b₂.toNat_lt
  have hb₃ := b₃.toNat_lt
  rw [beAt_succ h₃, beAt_succ h₂, beAt_succ h₁, beAt_one h₀, Nat.or_assoc, Nat.or_assoc, or_shift hb₃,
    or_shift (i := 16) (by omega), or_shift (i := 24) (by omega)]
  omega

end ChaosKernel.Base
