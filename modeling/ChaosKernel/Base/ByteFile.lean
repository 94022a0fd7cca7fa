import ChaosKernel.Base.Rust

/-! A file as a length and a function on places.

Past its end a file holds zeros, so that growing it is a matter of the length alone, and
what lies between the old end and a write beyond it needs no word of its own. A list of
bytes is such a file (`ofBytes`), and the ways to change the list are the ways to change
the file. -/
namespace ChaosKernel.Base
open List
variable {α : Type} [Zero α]

@[ext] structure ByteFile (α : Type) [Zero α] where
  len : Nat
  byte : Nat → α
  zero : ∀ i, len ≤ i → byte i = 0

namespace ByteFile

/-- The bytes of a list, and zeros. -/
def ofBytes (data : List α) : ByteFile α where
  len := data.length
  byte i := data.getD i 0
  zero i hi := by rw [getD_eq_getElem?_getD, getElem?_eq_none hi, Option.getD_none]

/-- At most `k` bytes from `off` on. -/
def bytesAt (f : ByteFile α) (off k : Nat) : List α := (List.range (min k (f.len - off))).map fun i => f.byte (off + i)

/-- The bytes `buf` from `off` on. -/
def put (f : ByteFile α) (off : Nat) (buf : List α) : ByteFile α where
  len := max f.len (off + buf.length)
  byte i := if off ≤ i ∧ i < off + buf.length then buf.getD (i - off) 0 else f.byte i
  zero i hi := by
    rw [if_neg (by omega)]
    exact f.zero i (by omega)

/-- The file cut off at `n`, or grown to it. -/
def setLen (f : ByteFile α) (n : Nat) : ByteFile α where
  len := n
  byte i := if i < n then f.byte i else 0
  zero _ hi := if_neg (Nat.not_lt_of_le hi)

/-- The file grown to `n` if it is shorter. -/
def reserve (f : ByteFile α) (n : Nat) : ByteFile α where
  len := max f.len n
  byte := f.byte
  zero i hi := f.zero i (Nat.le_trans (Nat.le_max_left _ _) hi)

/-! ### Lists -/

/-- `Vec::resize` with zeros. -/
def resize (data : List α) (n : Nat) : List α := data.take n ++ List.replicate (n - data.length) 0

theorem length_resize (data : List α) (n : Nat) : (resize data n).length = n := by
  rw [resize, length_append, length_take, length_replicate]
  omega

theorem bytesAt_ofBytes (data : List α) (off k : Nat) :
    (ofBytes data).bytesAt off k = (data.drop off).take (min k (data.length - off)) := by
  apply ext_getElem?
  intro i
  rw [bytesAt, getElem?_map, getElem?_take, getElem?_drop, show (ofBytes data).len = data.length from rfl]
  by_cases hi : i < min k (data.length - off)
  · rw [getElem?_range hi, if_pos hi, Option.map_some]
    show some (data.getD (off + i) 0) = _
    rw [getD_eq_getElem?_getD, getElem?_eq_getElem (by omega), Option.getD_some]
  · rw [if_neg hi, getElem?_eq_none (by rw [length_range]; exact Nat.le_of_not_lt hi), Option.map_none]

theorem ofBytes_resize (data : List α) (n : Nat) : ofBytes (resize data n) = (ofBytes data).setLen n := by
  apply ByteFile.ext
  · exact length_resize data n
  · funext i
    show (resize data n).getD i 0 = if i < n then data.getD i 0 else 0
    rw [resize, getD_eq_getElem?_getD, getD_eq_getElem?_getD, getElem?_append, length_take]
    by_cases hi : i < n
    · rw [if_pos hi]
      by_cases hlen : i < data.length
      · rw [if_pos (by omega), getElem?_take_of_lt hi]
      · rw [if_neg (by omega), getElem?_eq_none (Nat.le_of_not_lt hlen), getElem?_replicate, if_pos (by omega)]
        rfl
    · rw [if_neg hi, if_neg (by omega), getElem?_eq_none (by rw [length_replicate]; omega)]
      rfl

variable {data data' buf : List α} {n off : Nat}

theorem ofBytes_grow (h : data.length ≤ n) : ofBytes (resize data n) = (ofBytes data).reserve n := by
  rw [ofBytes_resize]
  apply ByteFile.ext
  · exact (Nat.max_eq_right h).symm
  · funext i
    show (if i < n then (ofBytes data).byte i else 0) = (ofBytes data).byte i
    split
    · rfl
    · next hi => exact ((ofBytes data).zero i (Nat.le_trans h (Nat.le_of_not_lt hi))).symm

theorem reserve_of_le {f : ByteFile α} (h : n ≤ f.len) : f.reserve n = f :=
  ByteFile.ext (Nat.max_eq_left h) rfl

/-- A write makes the room it needs. -/
theorem put_reserve (f : ByteFile α) (off : Nat) (buf : List α) :
    (f.reserve (off + buf.length)).put off buf = f.put off buf :=
  ByteFile.ext (by show max (max _ _) _ = max _ _; omega) rfl

theorem ofBytes_overwrite (h : overwrite? data off (off + buf.length) buf = some data') :
    ofBytes data' = (ofBytes data).put off buf := by
  have hle : off + buf.length ≤ data.length := by
    by_contra hlt
    rw [overwrite?, if_neg fun hall => hlt hall.2.1] at h
    cases h
  obtain ⟨ys, hys, hlen, hget⟩ := overwrite?_spec (Nat.le_add_right off buf.length) hle (by omega : buf.length = _)
  rw [h] at hys
  cases hys
  apply ByteFile.ext
  · show data'.length = max data.length (off + buf.length)
    omega
  · funext i
    show data'.getD i 0 = if off ≤ i ∧ i < off + buf.length then buf.getD (i - off) 0 else data.getD i 0
    rw [getD_eq_getElem?_getD, hget i]
    split
    · rw [getD_eq_getElem?_getD]
    · rw [getD_eq_getElem?_getD]

end ByteFile
end ChaosKernel.Base
