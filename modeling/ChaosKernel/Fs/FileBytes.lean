import ChaosKernel.Fs.SimpleFS

/-! The bytes of a file in its blocks.

A file `Holds` an array of bytes when each byte of the array is the byte at its
place in its block. `readLoop_holds` and `writeLoop_view` say what the two loops
do over a store of blocks: a read collects a range of the array, and a write
changes exactly the bytes of its range (`Written`). -/
namespace ChaosKernel.Fs
open Base List

/-! ### Places in blocks -/

variable {offset last j q a b c p bi blk hi lo : Nat} {view before after view' : Nat → Bytes} {blocks : List Nat} {inode : Inode}
  {content buf new : Bytes} {st : Storage}

/-- The part of block `bi` that an access to the bytes `offset` to `last` touches. -/
theorem blkRange_spec (bi : Nat) (hle : offset ≤ last) (hlo : offset / blockSz ≤ bi)
    (hhi : bi ≤ last / blockSz) :
    ∃ lo hi, SimpleFS.blkRange (offset / blockSz) (last / blockSz) offset last bi = (lo, hi) ∧
      lo < hi ∧ hi ≤ blockSz ∧ bi * blockSz + lo = max offset (bi * blockSz) ∧
      bi * blockSz + hi = min (last + 1) ((bi + 1) * blockSz) := by
  refine ⟨if bi = offset / blockSz then offset % blockSz else 0,
    if bi = last / blockSz then last % blockSz + 1 else blockSz, rfl, ?_⟩
  by_cases hs : bi = offset / blockSz <;> by_cases he : bi = last / blockSz
  · rw [if_pos hs, if_pos he]
    simp only [blockSz] at *
    omega
  · rw [if_pos hs, if_neg he]
    simp only [blockSz] at *
    omega
  · rw [if_neg hs, if_pos he]
    simp only [blockSz] at *
    omega
  · rw [if_neg hs, if_neg he]
    simp only [blockSz] at *
    omega

theorem place_div (hq : q < blockSz) : (j * blockSz + q) / blockSz = j := by
  simp only [blockSz] at *
  omega

theorem place_mod (hq : q < blockSz) : (j * blockSz + q) % blockSz = q := by
  simp only [blockSz] at *
  omega

theorem place_succ (p : Nat) : (p + 1) / blockSz = p / blockSz + 1 ∨
    (p + 1) / blockSz = p / blockSz ∧ p % blockSz + 1 = (p + 1) % blockSz := by
  simp only [blockSz]
  omega

/-- The byte at position `p` of a file with these blocks. -/
def byteAt (view : Nat → Bytes) (blocks : List Nat) (p : Nat) : Option UInt8 :=
  blocks[p / blockSz]?.bind fun blk => (view blk)[p % blockSz]?

theorem byteAt_congr (hview : ∀ k ∈ blocks, view' k = view k) (p : Nat) :
    byteAt view' blocks p = byteAt view blocks p :=
  Option.bind_congr fun k hk => by rw [hview k (mem_of_getElem? hk)]

/-- The file `inode` has the bytes `content`. -/
structure Holds (view : Nat → Bytes) (inode : Inode) (content : Bytes) : Prop where
  size : content.length = inode.size
  blocks : inode.blocks.length = (inode.size + blockSz - 1) / blockSz
  bytes : ∀ p, p < inode.size → byteAt view inode.blocks p = content[p]?

theorem extract_append {α : Type} (xs : List α) (hab : a ≤ b) (hbc : b ≤ c) :
    xs.extract a b ++ xs.extract b c = xs.extract a c := by
  have hc : c - a = (b - a) + (c - b) := by omega
  have hb : b = a + (b - a) := by omega
  rw [List.extract, List.extract, List.extract, hc, take_add, drop_drop, ← hb]

theorem Holds.block (h : Holds view inode content) (hp : p < inode.size) :
    p / blockSz < inode.blocks.length := by
  rw [h.blocks]
  simp only [blockSz]
  omega

theorem Holds.part (h : Holds view inode content) (lo : Nat) (hblk : inode.blocks[bi]? = some blk)
    (hhi : hi ≤ blockSz) (hsize : bi * blockSz + hi ≤ inode.size) :
    ((view blk).drop lo).take (hi - lo) = content.extract (bi * blockSz + lo) (bi * blockSz + hi) := by
  apply ext_getElem?
  intro i
  have hlen : bi * blockSz + hi - (bi * blockSz + lo) = hi - lo := by omega
  rw [List.extract, hlen]
  by_cases hi' : i < hi - lo
  · have hq : lo + i < blockSz := by omega
    have hbyte := h.bytes (bi * blockSz + (lo + i)) (by omega)
    simp only [byteAt, place_div hq, place_mod hq, hblk, Option.bind_some] at hbyte
    rw [getElem?_take_of_lt hi', getElem?_take_of_lt hi', getElem?_drop,
      getElem?_drop, hbyte, Nat.add_assoc]
  · rw [getElem?_take_eq_none (by omega), getElem?_take_eq_none (by omega)]

/-! ### Reading -/

theorem readLoop_holds (hle : offset ≤ last) (hlast : last < inode.size) (m bi : Nat) (result : Bytes)
    (hst : st.Healthy) (hholds : Holds st.view inode content) (hlo : offset / blockSz ≤ bi)
    (hm : bi + m = last / blockSz + 1)
    (hresult : result = content.extract offset (min (max offset (bi * blockSz)) (last + 1))) :
    (SimpleFS.readLoop inode.blocks (offset / blockSz) (last / blockSz) offset last
      (List.range' bi m) result st).1 = .ok (content.extract offset (last + 1)) := by
  induction m generalizing bi result st with
  | zero =>
    have hmin : min (max offset (bi * blockSz)) (last + 1) = last + 1 := by
      simp only [blockSz] at *
      omega
    show Except.ok result = _
    rw [hresult, hmin]
  | succ m ih =>
    obtain ⟨lo, hi, hrange, hlohi, hhi, hstart, hstop⟩ :=
      blkRange_spec bi hle hlo (by omega)
    have hpos : bi * blockSz ≤ last := by
      simp only [blockSz] at *
      omega
    have hbi : bi < inode.blocks.length := by
      have := hholds.block (p := last) hlast
      omega
    have hblk := getElem?_eq_getElem hbi
    obtain ⟨st', hfetch, hst', hview⟩ := Storage.fetch_view hst inode.blocks[bi]
    have hpart := hholds.part lo hblk hhi (by omega)
    have hslice := slice?_eq_some hlohi.le (hhi.trans_eq (hst.view_length inode.blocks[bi]).symm)
    simp only [range'_succ, SimpleFS.readLoop, hblk, hfetch, hrange, hslice]
    apply ih (bi + 1) _ hst' (by rw [hview]; exact hholds) (by omega) (by omega)
    rw [hpart, hresult, hstart, hstop]
    have hmin : min (max offset (bi * blockSz)) (last + 1) = max offset (bi * blockSz) := by omega
    rw [hmin, extract_append _ (by omega) (by omega)]
    congr 1
    simp only [blockSz] at *
    omega

/-! ### Writing -/

/-- What a write to the bytes `offset` to `last` leaves of the blocks with indices from
`bi` on: blocks outside keep what they hold, and inside the written bytes are `buf`'s. -/
structure Written (blocks : List Nat) (offset last : Nat) (buf : Bytes) (bi : Nat)
    (before after : Nat → Bytes) : Prop where
  others : ∀ k, (∀ j, bi ≤ j → j ≤ last / blockSz → blocks[j]? ≠ some k) → after k = before k
  bytes : ∀ j k, bi ≤ j → j ≤ last / blockSz → blocks[j]? = some k → ∀ q, q < blockSz →
    (after k)[q]? = if offset ≤ j * blockSz + q ∧ j * blockSz + q ≤ last
      then buf[j * blockSz + q - offset]? else (before k)[q]?

theorem Written.byteAt (hnodup : blocks.Nodup)
    (h : Written blocks offset last buf (offset / blockSz) before after) (hp : p / blockSz < blocks.length) :
    byteAt after blocks p = if offset ≤ p ∧ p ≤ last then buf[p - offset]? else byteAt before blocks p := by
  have hblk := getElem?_eq_getElem hp
  have hq : p % blockSz < blockSz := Nat.mod_lt _ (by decide)
  have hplace : p / blockSz * blockSz + p % blockSz = p := Nat.div_add_mod' p blockSz
  simp only [Fs.byteAt, hblk, Option.bind_some]
  by_cases hmid : offset / blockSz ≤ p / blockSz ∧ p / blockSz ≤ last / blockSz
  · rw [h.bytes _ _ hmid.1 hmid.2 hblk _ hq, hplace]
  · have hout : ¬(offset ≤ p ∧ p ≤ last) := fun hin =>
      hmid ⟨Nat.div_le_div_right hin.1, Nat.div_le_div_right hin.2⟩
    rw [if_neg hout, h.others]
    intro j hj hj' hsame
    have := (getElem?_inj hp hnodup).mp (hblk.trans hsame.symm)
    omega

theorem copyPart_spec (data buf : Bytes) (total : Nat) (hlohi : lo < hi) (hhi : hi ≤ data.length)
    (hfit : total + (hi - lo) ≤ buf.length) :
    ∃ part new, slice? buf total (total + (hi - lo)) = some part ∧
      overwrite? data lo (lo + (hi - lo)) part = some new ∧ new.length = data.length ∧
      ∀ q, new[q]? = if lo ≤ q ∧ q < hi then buf[total + (q - lo)]? else data[q]? := by
  have hslice := slice?_eq_some (Nat.le_add_right total (hi - lo)) hfit
  have hstop : lo + (hi - lo) = hi := by omega
  have hpart : ((buf.drop total).take (total + (hi - lo) - total)).length = hi - lo := by
    rw [length_take, length_drop]
    omega
  obtain ⟨new, hover, hlen, hget⟩ := overwrite?_spec hlohi.le hhi hpart
  rw [hstop]
  refine ⟨_, new, hslice, hover, hlen, fun q => ?_⟩
  rw [hget]
  by_cases hq : lo ≤ q ∧ q < hi
  · rw [if_pos hq, if_pos hq, getElem?_take_of_lt (by omega), getElem?_drop]
  · rw [if_neg hq, if_neg hq]

theorem Written.cons (hnodup : blocks.Nodup) (hbi : bi < blocks.length) (hin : bi ≤ last / blockSz)
    (hnew : ∀ q, q < blockSz → new[q]? = if offset ≤ bi * blockSz + q ∧ bi * blockSz + q ≤ last
      then buf[bi * blockSz + q - offset]? else (before blocks[bi])[q]?)
    (hrest : Written blocks offset last buf (bi + 1) (Function.update before blocks[bi] new) after) :
    Written blocks offset last buf bi before after := by
  have hblk : blocks[bi]? = some blocks[bi] := getElem?_eq_getElem hbi
  have honly : ∀ j, blocks[j]? = some blocks[bi] → j = bi := fun j hj =>
    ((getElem?_inj hbi hnodup).mp (hblk.trans hj.symm)).symm
  refine ⟨fun k hk => ?_, fun j k hj hj' hk q hq => ?_⟩
  · rw [hrest.others k (fun j hj hj' => hk j (by omega) hj')]
    apply Function.update_of_ne
    intro heq
    exact hk bi (le_refl _) hin (heq ▸ hblk)
  · by_cases hjb : j = bi
    · subst hjb
      obtain rfl : blocks[j] = k := Option.some.inj (hblk.symm.trans hk)
      have hkeep : after blocks[j] = new := by
        rw [hrest.others _ fun i hi _ hsame => absurd (honly i hsame) (by omega), Function.update_self]
      rw [hkeep, hnew q hq]
    · have hne : k ≠ blocks[bi] := fun heq => hjb (honly j (heq ▸ hk))
      rw [hrest.bytes j k (by omega) hj' hk q hq, Function.update_of_ne hne]

theorem writeLoop_view (hnodup : blocks.Nodup) (hlast : last + 1 = offset + buf.length)
    (hle : offset ≤ last) (hend : last / blockSz < blocks.length) (m bi total : Nat) (hst : st.Healthy)
    (hlo : offset / blockSz ≤ bi) (hm : bi + m = last / blockSz + 1)
    (htotal : offset + total = min (max offset (bi * blockSz)) (last + 1)) :
    ∃ st', SimpleFS.writeLoop
        ((blocks.drop (offset / blockSz)).take (last / blockSz + 1 - offset / blockSz))
        (offset / blockSz) (last / blockSz) offset last buf (List.range' bi m) total st =
          (.ok (), st') ∧
      st'.Healthy ∧ Written blocks offset last buf bi st.view st'.view := by
  induction m generalizing bi total st with
  | zero =>
    refine ⟨st, rfl, hst, fun _ _ => rfl, fun j k hj hj' => ?_⟩
    omega
  | succ m ih =>
    obtain ⟨lo, hi, hrange, hlohi, hhi, hstart, hstop⟩ := blkRange_spec bi hle hlo (by omega)
    have hpos : bi * blockSz ≤ last := by
      simp only [blockSz] at *
      omega
    have hsucc : (bi + 1) * blockSz = bi * blockSz + blockSz := Nat.succ_mul ..
    have hbi : bi < blocks.length := by omega
    have hlist : ((blocks.drop (offset / blockSz)).take (last / blockSz + 1 - offset / blockSz))[
        bi - offset / blockSz]? = some blocks[bi] := by
      rw [getElem?_take_of_lt (by omega), getElem?_drop, ← getElem?_eq_getElem hbi]
      congr 1
      omega
    obtain ⟨st₁, hfetch, hst₁, hview₁⟩ := Storage.fetch_view hst blocks[bi]
    have hlen := hst.view_length blocks[bi]
    have hat : bi * blockSz + lo = offset + total := by omega
    obtain ⟨part, new, hslice, hover, hnew, hget⟩ := copyPart_spec (st.view blocks[bi]) buf total hlohi
      (by omega) (by omega)
    obtain ⟨st₂, hput, hst₂, hview₂⟩ := Storage.put_view hst₁ blocks[bi] (hnew.trans hlen)
    obtain ⟨st₃, hrest, hst₃, hwritten⟩ :=
      ih (bi + 1) (total + (hi - lo)) hst₂ (by omega) (by omega) (by omega)
    refine ⟨st₃, ?_, hst₃, .cons hnodup hbi (by omega) (fun q hq => ?_) (by rwa [hview₂, hview₁] at hwritten)⟩
    · simp only [range'_succ, SimpleFS.writeLoop, hlist, hfetch, hrange, hslice, hover, hput]
      exact hrest
    · rw [hget]
      by_cases hin : offset ≤ bi * blockSz + q ∧ bi * blockSz + q ≤ last
      · rw [if_pos hin, if_pos (by omega)]
        congr 1
        omega
      · rw [if_neg hin, if_neg (by omega)]

end ChaosKernel.Fs
