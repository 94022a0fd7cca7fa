import Mathlib

/-! Texts and the bytes that encode them.

A text is measured, compared and cut at its bytes. `textBytes_prefix_iff` says
that comparing bytes is comparing characters, `sliceFrom_append` that the bytes
of a text that starts another one end at a character of it, and
`ofList_textBytes_eq_iff` which texts stay the same when their bytes are read as
characters. -/
namespace ChaosKernel.Base
open List

/-- `s.as_bytes()`. -/
def textBytes (s : String) : List UInt8 := s.toList.flatMap String.utf8EncodeChar

/-- `s.len()`. -/
def byteLen (s : String) : Nat := (textBytes s).length

/-- The loop over `0..n` that compares two byte strings. -/
def agreeUpTo (n : Nat) (a b : List UInt8) : Bool := (List.range n).all fun j => a[j]? == b[j]?

/-- The characters from byte `n` on; `none` where `n` is past the end or inside a character. -/
def dropBytes : Nat → List Char → Option (List Char)
  | 0, cs => some cs
  | _ + 1, [] => none
  | n + 1, c :: cs => if c.utf8Size ≤ n + 1 then dropBytes (n + 1 - c.utf8Size) cs else none

/-- `&s[n..]`. -/
def sliceFrom? (s : String) (n : Nat) : Option String := (dropBytes n s.toList).map String.ofList

/-- `p` starts the text `s`. -/
def Starts (p s : String) : Prop := ∃ rest, s = p ++ rest

theorem textBytes_append (s t : String) : textBytes (s ++ t) = textBytes s ++ textBytes t := by
  unfold textBytes
  rw [String.toList_append, flatMap_append]

theorem byteLen_append (s t : String) : byteLen (s ++ t) = byteLen s + byteLen t := by
  unfold byteLen
  rw [textBytes_append, length_append]

variable {s t p q : String}

theorem byteLen_pos (h : s ≠ "") : 0 < byteLen s := by
  obtain ⟨c, cs, hs⟩ := exists_cons_of_ne_nil fun hnil => h (String.toList_eq_nil_iff.mp hnil)
  unfold byteLen textBytes
  rw [hs, flatMap_cons, length_append, String.length_utf8EncodeChar]
  exact Nat.add_pos_left c.utf8Size_pos _

/-- Comparing as many bytes as one text has is asking whether it starts the other. -/
theorem agreeUpTo_iff {a b : List UInt8} : agreeUpTo a.length a b = true ↔ a <+: b := by
  unfold agreeUpTo
  rw [List.all_eq_true, prefix_iff_getElem?]
  constructor
  · intro hall i hi
    have := beq_iff_eq.mp (hall i (mem_range.mpr hi))
    rw [← this, getElem?_eq_getElem hi]
  · intro hpre i hi
    have hi' := mem_range.mp hi
    rw [hpre i hi', getElem?_eq_getElem hi']
    exact beq_self_eq_true _

theorem textBytes_prefix_iff : textBytes s <+: textBytes t ↔ Starts s t := by
  constructor
  · intro h
    obtain ⟨bs, hbs⟩ := h
    have henc : s.toList.utf8Encode ++ bs.toByteArray = t.toList.utf8Encode := by
      unfold List.utf8Encode
      rw [← toByteArray_append]
      exact congrArg List.toByteArray hbs
    obtain ⟨cs, hcs⟩ := isPrefix_of_utf8Encode_append_eq_utf8Encode _ henc
    refine ⟨String.ofList cs, String.toList_inj.mp ?_⟩
    rw [String.toList_append, String.toList_ofList, hcs]
  · intro h
    obtain ⟨rest, hrest⟩ := h
    rw [hrest, textBytes_append]
    exact prefix_append _ _

/-- Of the texts that start a third one, the shorter starts the longer. -/
theorem Starts.of_byteLen_le (hp : Starts p s) (hq : Starts q s) (h : byteLen p ≤ byteLen q) : Starts p q :=
  textBytes_prefix_iff.mp
    (prefix_of_prefix_length_le (textBytes_prefix_iff.mpr hp) (textBytes_prefix_iff.mpr hq) h)

theorem Starts.byteLen_le (h : Starts p s) : byteLen p ≤ byteLen s :=
  (textBytes_prefix_iff.mpr h).length_le

theorem Starts.eq_of_byteLen_le (h : Starts p s) (hle : byteLen s ≤ byteLen p) : p = s := by
  obtain ⟨rest, hs⟩ := h
  by_cases hrest : rest = ""
  · rw [hs, hrest, String.append_empty]
  · have := byteLen_pos hrest
    rw [hs, byteLen_append] at hle
    omega

theorem dropBytes_append (cs rest : List Char) :
    dropBytes (cs.flatMap String.utf8EncodeChar).length (cs ++ rest) = some rest := by
  induction cs with
  | nil => rw [flatMap_nil, length_nil, nil_append, dropBytes]
  | cons c cs ih =>
    have hpos := c.utf8Size_pos
    obtain ⟨n, hn⟩ : ∃ n, ((c :: cs).flatMap String.utf8EncodeChar).length = n + 1 := by
      refine Nat.exists_eq_succ_of_ne_zero ?_
      rw [flatMap_cons, length_append, String.length_utf8EncodeChar]
      omega
    have hlen : n + 1 - c.utf8Size = (cs.flatMap String.utf8EncodeChar).length := by
      rw [← hn, flatMap_cons, length_append, String.length_utf8EncodeChar]
      omega
    rw [flatMap_cons, length_append, String.length_utf8EncodeChar] at hn
    rw [flatMap_cons, length_append, String.length_utf8EncodeChar, hn, cons_append, dropBytes,
      if_pos (by omega), hlen]
    exact ih

/-- A text is cut where one that starts it ends. -/
theorem sliceFrom_append (s rest : String) : sliceFrom? (s ++ rest) (byteLen s) = some rest := by
  unfold sliceFrom? byteLen textBytes
  rw [String.toList_append, dropBytes_append, Option.map_some, String.ofList_toList]

/-! ### One byte for each character -/

/-- Every character is a byte of its own. -/
def IsAscii (s : String) : Prop := ∀ c ∈ s.toList, c.utf8Size = 1

theorem toList_loop (bytes : ByteArray) (i : Nat) (r : List UInt8) :
    ByteArray.toList.loop bytes i r = r.reverse ++ bytes.data.toList.drop i := by
  induction i, r using ByteArray.toList.loop.induct bytes with
  | case1 i r hi ih =>
    have hlt : i < bytes.data.toList.length := hi
    rw [ByteArray.toList.loop, if_pos hi, ih, reverse_cons, append_assoc, drop_eq_getElem_cons hlt]
    simp only [ByteArray.get!, singleton_append, Array.getElem_toList]
    rw [getElem!_pos bytes.data i hi]
  | case2 i r hi =>
    have hle : bytes.data.toList.length ≤ i := Nat.le_of_not_lt hi
    rw [ByteArray.toList.loop, if_neg hi, drop_of_length_le hle, append_nil]

theorem toUTF8_toList (s : String) : s.toUTF8.toList = textBytes s := by
  rw [ByteArray.toList, toList_loop, reverse_nil, nil_append, drop_zero, String.toUTF8,
    ← String.utf8Encode_toList]
  exact toList_data_toByteArray

theorem length_le_length_flatMap (cs : List Char) : cs.length ≤ (cs.flatMap String.utf8EncodeChar).length := by
  induction cs with
  | nil => exact Nat.le_refl _
  | cons c cs ih =>
    have hpos := c.utf8Size_pos
    rw [flatMap_cons, length_append, String.length_utf8EncodeChar, length_cons]
    omega

theorem length_flatMap_eq_iff (cs : List Char) :
    (cs.flatMap String.utf8EncodeChar).length = cs.length ↔ ∀ c ∈ cs, c.utf8Size = 1 := by
  induction cs with
  | nil => exact iff_of_true rfl nofun
  | cons c cs ih =>
    have hpos := c.utf8Size_pos
    have hle := length_le_length_flatMap cs
    rw [forall_mem_cons, ← ih, flatMap_cons, length_append, String.length_utf8EncodeChar,
      length_cons]
    omega

theorem ofNat_ascii {c : Char} (h : c.utf8Size = 1) : Char.ofNat c.val.toUInt8.toNat = c := by
  have hle : c.val.toNat ≤ 127 := UInt32.le_iff_toNat_le.mp (Char.utf8Size_eq_one_iff.mp h)
  rw [UInt32.toNat_toUInt8, Nat.mod_eq_of_lt (by omega)]
  exact Char.ofNat_toNat c

/-- A text whose bytes are read as characters is the same text if and only if it is ASCII. -/
theorem ofList_textBytes_eq_iff (s : String) :
    String.ofList ((textBytes s).map fun b => Char.ofNat b.toNat) = s ↔ IsAscii s := by
  constructor
  · intro h
    have hlen := congrArg (List.length ∘ String.toList) h
    simp only [Function.comp_apply, String.toList_ofList, length_map] at hlen
    exact (length_flatMap_eq_iff _).mp hlen
  · intro h
    refine String.toList_inj.mp ?_
    rw [String.toList_ofList, textBytes, map_flatMap]
    refine Eq.trans (flatMap_congr fun c hc => ?_) (flatMap_singleton' s.toList)
    rw [String.utf8EncodeChar_eq_singleton (h c hc), map_singleton, ofNat_ascii (h c hc)]

end ChaosKernel.Base
