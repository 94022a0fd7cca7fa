import ChaosKernel.Fs.FileBytes

/-! One file with holes.

An array whose elements are bytes or holes is what a file should be after writes behind
its end and truncations that grow it. A file fits the array when it holds the bytes, and
is full when it also holds zeros in the holes. A change that leaves a gap keeps the file
full exactly when the gap lies in blocks that the file has, over bytes that are zero
(`Fits.full_cutTo_iff`, `Fits.full_write_iff`). -/
namespace ChaosKernel.Fs
open Base List

/-! ### Arrays with holes -/

/-- The array of length `n`, cut or filled up with holes. -/
def fit (bytes : List (Option UInt8)) (n : Nat) : List (Option UInt8) :=
  (bytes ++ List.replicate (n - bytes.length) none).take n

def writeAt (bytes : List (Option UInt8)) (offset : Nat) (buf : Bytes) : List (Option UInt8) :=
  fit bytes offset ++ buf.map some ++ bytes.drop (offset + buf.length)

variable (bytes : List (Option UInt8))

theorem fit_length (n : Nat) : (fit bytes n).length = n := by
  rw [fit, length_take, length_append, length_replicate]
  omega

theorem getElem?_fit (n p : Nat) :
    (fit bytes n)[p]? = if p < n then (if p < bytes.length then bytes[p]? else some none) else none := by
  by_cases hp : p < n
  · rw [if_pos hp, fit, getElem?_take_of_lt hp]
    split
    · next hlt => exact getElem?_append_left hlt
    · rw [getElem?_append_right (by omega), getElem?_replicate, if_pos (by omega)]
  · rw [if_neg hp]
    exact getElem?_eq_none (by rw [fit_length]; omega)

theorem writeAt_length (offset : Nat) (buf : Bytes) :
    (writeAt bytes offset buf).length = max bytes.length (offset + buf.length) := by
  rw [writeAt, length_append, length_append, fit_length, length_map, length_drop]
  omega

theorem getElem?_writeAt (offset : Nat) (buf : Bytes) (p : Nat) :
    (writeAt bytes offset buf)[p]? =
      if p < offset then (if p < bytes.length then bytes[p]? else some none)
      else if p < offset + buf.length then buf[p - offset]?.map some else bytes[p]? := by
  have hfit := fit_length bytes offset
  unfold writeAt
  by_cases hlo : p < offset
  · rw [if_pos hlo, append_assoc, getElem?_append_left (by omega), getElem?_fit, if_pos hlo]
  · rw [if_neg hlo]
    by_cases hhi : p < offset + buf.length
    · rw [if_pos hhi, append_assoc, getElem?_append_right (by omega), hfit,
        getElem?_append_left (by rw [length_map]; omega), getElem?_map]
    · have hlen : (fit bytes offset ++ buf.map some).length = offset + buf.length := by
        rw [length_append, hfit, length_map]
      rw [if_neg hhi, getElem?_append_right (by omega), hlen, getElem?_drop]
      congr 1
      omega

/-! ### Files -/

/-- The file has no block too many, and the bytes that were written are in its blocks. -/
structure Fits (view : Nat → Bytes) (inode : Inode) (bytes : List (Option UInt8)) : Prop where
  size : bytes.length = inode.size
  blocks : inode.blocks.length ≤ (inode.size + blockSz - 1) / blockSz
  written : ∀ p b, bytes[p]? = some (some b) → byteAt view inode.blocks p = some b

/-- The holes are zeros in the blocks of the file. -/
def Full (view : Nat → Bytes) (inode : Inode) (bytes : List (Option UInt8)) : Prop :=
  ∀ p, bytes[p]? = some none → byteAt view inode.blocks p = some 0

/-- The bytes `inode.size` to `stop` of the blocks of the file are zeros. -/
def GapIsZero (view : Nat → Bytes) (inode : Inode) (stop : Nat) : Prop :=
  ∀ p, inode.size ≤ p → p < stop → byteAt view inode.blocks p = some 0

section
variable {view view' : Nat → Bytes} {inode : Inode} {bytes : List (Option UInt8)}

theorem byteAt_lt {blocks : List Nat} {p : Nat} {b : UInt8} (h : byteAt view blocks p = some b) :
    p / blockSz < blocks.length := by
  obtain ⟨blk, hblk, _⟩ := Option.bind_eq_some_iff.mp h
  exact (List.getElem?_eq_some_iff.mp hblk).1

theorem Fits.holds (h : Fits view inode bytes) (hfull : Full view inode bytes) :
    Holds view inode (bytes.map fun b => b.getD 0) := by
  have hbytes (p : Nat) (hp : p < inode.size) :
      byteAt view inode.blocks p = (bytes.map fun b => b.getD 0)[p]? := by
    rw [getElem?_map]
    rw [← h.size] at hp
    cases hb : bytes[p] with
    | none =>
      have hget : bytes[p]? = some none := by rw [getElem?_eq_getElem hp, hb]
      rw [hfull p hget, hget]
      rfl
    | some b =>
      have hget : bytes[p]? = some (some b) := by rw [getElem?_eq_getElem hp, hb]
      rw [h.written p b hget, hget]
      rfl
  refine ⟨by rw [length_map, h.size], le_antisymm h.blocks ?_, hbytes⟩
  by_cases hzero : inode.size = 0
  · rw [hzero]
    simp only [blockSz]
    omega
  · have hlast := hbytes (inode.size - 1) (by omega)
    have hlen : inode.size - 1 < (bytes.map fun b => b.getD 0).length := by
      rw [length_map, h.size]
      omega
    rw [getElem?_eq_getElem hlen] at hlast
    have hlt := byteAt_lt hlast
    simp only [blockSz] at *
    omega

theorem Fits.congr (h : Fits view inode bytes) (hview : ∀ k ∈ inode.blocks, view' k = view k) :
    Fits view' inode bytes :=
  ⟨h.size, h.blocks, fun p b hb => (byteAt_congr hview p).trans (h.written p b hb)⟩

theorem full_congr (hview : ∀ k ∈ inode.blocks, view' k = view k) : Full view' inode bytes ↔ Full view inode bytes :=
  forall_congr' fun p => imp_congr_right fun _ => by rw [byteAt_congr hview]

/-! ### Truncations -/

/-- The file cut or grown to `size`. -/
def cutTo (inode : Inode) (size : Nat) : Inode :=
  {inode with blocks := inode.blocks.take ((size + blockSz - 1) / blockSz), size := size}

theorem byteAt_cutTo {size p : Nat} (hp : p < size) :
    byteAt view (cutTo inode size).blocks p = byteAt view inode.blocks p := by
  have hblk : p / blockSz < (size + blockSz - 1) / blockSz := by
    simp only [blockSz]
    omega
  simp only [byteAt, cutTo, getElem?_take_of_lt hblk]

theorem Fits.cutTo (h : Fits view inode bytes) (size : Nat) : Fits view (cutTo inode size) (fit bytes size) := by
  refine ⟨fit_length bytes size, ?_, fun p b hb => ?_⟩
  · exact (length_take_le ..)
  · rw [getElem?_fit] at hb
    split at hb
    · next hp =>
      rw [byteAt_cutTo hp]
      split at hb
      · exact h.written p b hb
      · cases hb
    · cases hb

theorem Fits.full_cutTo_iff (h : Fits view inode bytes) (hfull : Full view inode bytes) (size : Nat) :
    Full view (Fs.cutTo inode size) (fit bytes size) ↔ GapIsZero view inode size := by
  constructor
  · intro hafter p hle hlt
    rw [← byteAt_cutTo hlt]
    refine hafter p ?_
    rw [getElem?_fit, if_pos hlt, if_neg (by rw [h.size]; omega)]
  · intro hgap p hp
    rw [getElem?_fit] at hp
    split at hp
    · next hlt =>
      rw [byteAt_cutTo hlt]
      split at hp
      · exact hfull p hp
      · next hout => exact hgap p (by rw [h.size] at hout; omega) hlt
    · cases hp

/-! ### Writes -/

/-- The file after a write, with the blocks it needed added at the end of its list. -/
def grown (inode : Inode) (extra : List Nat) (stop : Nat) : Inode :=
  {inode with blocks := inode.blocks ++ extra, size := if inode.size < stop then stop else inode.size}

section Write
variable {extra : List Nat} {offset last : Nat} {buf : Bytes}

theorem Written.byteAt_old (hnodup : (inode.blocks ++ extra).Nodup)
    (hwritten : Written (inode.blocks ++ extra) offset last buf (offset / blockSz) view view') {p : Nat}
    (hp : p / blockSz < inode.blocks.length) (hout : ¬(offset ≤ p ∧ p ≤ last)) :
    Fs.byteAt view' (inode.blocks ++ extra) p = Fs.byteAt view inode.blocks p := by
  have hlt : p / blockSz < (inode.blocks ++ extra).length := by
    rw [length_append]
    omega
  rw [hwritten.byteAt hnodup hlt, if_neg hout]
  simp only [Fs.byteAt, getElem?_append_left hp]

theorem Fits.write (h : Fits view inode bytes) (hbuf : last + 1 = offset + buf.length)
    (hnodup : (inode.blocks ++ extra).Nodup)
    (hlen : (inode.blocks ++ extra).length = max inode.blocks.length (last / blockSz + 1))
    (hwritten : Written (inode.blocks ++ extra) offset last buf (offset / blockSz) view view') :
    Fits view' (grown inode extra (offset + buf.length)) (writeAt bytes offset buf) := by
  have hsize : (grown inode extra (offset + buf.length)).size = max inode.size (offset + buf.length) := by
    simp only [grown]
    split <;> omega
  have hold (p : Nat) (b : UInt8) (hb : bytes[p]? = some (some b)) (hout : ¬(offset ≤ p ∧ p ≤ last)) :
      byteAt view' (inode.blocks ++ extra) p = some b := by
    have hbyte := h.written p b hb
    rw [hwritten.byteAt_old hnodup (byteAt_lt hbyte) hout, hbyte]
  refine ⟨by rw [writeAt_length, h.size, hsize], ?_, fun p b hb => ?_⟩
  · have hblocks := h.blocks
    show (inode.blocks ++ extra).length ≤ _
    rw [hlen, hsize]
    simp only [blockSz] at *
    omega
  · rw [getElem?_writeAt] at hb
    split at hb
    · next hlo =>
      split at hb
      · exact hold p b hb (by omega)
      · cases hb
    · split at hb
      · next hlo hhi =>
        obtain ⟨b', hb', heq⟩ := Option.map_eq_some_iff.mp hb
        cases heq
        have hdiv : p / blockSz ≤ last / blockSz := Nat.div_le_div_right (by omega)
        show byteAt view' (inode.blocks ++ extra) p = some b
        rw [hwritten.byteAt hnodup (by omega), if_pos (by omega), hb']
      · exact hold p b hb (by omega)

theorem Fits.full_write_iff (h : Fits view inode bytes) (hfull : Full view inode bytes)
    (hbuf : last + 1 = offset + buf.length) (hnodup : (inode.blocks ++ extra).Nodup)
    (hfresh : ∀ k ∈ extra, view k = List.replicate blockSz 0xAA)
    (hwritten : Written (inode.blocks ++ extra) offset last buf (offset / blockSz) view view') :
    Full view' (grown inode extra (offset + buf.length)) (writeAt bytes offset buf) ↔
      GapIsZero view inode offset := by
  have hkeep (p : Nat) (hp : byteAt view inode.blocks p = some 0) (hout : ¬(offset ≤ p ∧ p ≤ last)) :
      byteAt view' (inode.blocks ++ extra) p = some 0 := by
    rw [hwritten.byteAt_old hnodup (byteAt_lt hp) hout, hp]
  constructor
  · intro hafter p hle hlt
    have hhole : (writeAt bytes offset buf)[p]? = some none := by
      rw [getElem?_writeAt, if_pos hlt, if_neg (by rw [h.size]; omega)]
    have hzero : byteAt view' (inode.blocks ++ extra) p = some 0 := hafter p hhole
    by_cases hold : p / blockSz < inode.blocks.length
    · rw [← hwritten.byteAt_old hnodup hold (by omega), hzero]
    · -- the block is new, and nobody has written to the disk there
      have hin := byteAt_lt hzero
      rw [hwritten.byteAt hnodup hin, if_neg (by omega)] at hzero
      obtain ⟨k, hk, hbyte⟩ := Option.bind_eq_some_iff.mp hzero
      rw [getElem?_append_right (by omega)] at hk
      rw [hfresh k (mem_of_getElem? hk), getElem?_replicate, if_pos (Nat.mod_lt _ (by decide))] at hbyte
      exact absurd hbyte (by decide)
  · intro hgap p hp
    show byteAt view' (inode.blocks ++ extra) p = some 0
    rw [getElem?_writeAt] at hp
    split at hp
    · next hlo =>
      split at hp
      · exact hkeep p (hfull p hp) (by omega)
      · next hout => exact hkeep p (hgap p (by rw [h.size] at hout; omega) hlo) (by omega)
    · split at hp
      · obtain ⟨b, _, hb⟩ := Option.map_eq_some_iff.mp hp
        cases hb
      · exact hkeep p (hfull p hp) (by omega)

end Write
end

end ChaosKernel.Fs
