import ChaosKernel.Net.Checksum

/-! Which packets pass for IPv4.

`parse_ipv4_header` reads the fields of the header at their places. It also adds up
words of the packet, but only half of those in the header, and the sum is compared
with nothing; nor is the total length. So a packet that passes the first checks is
returned with its fields, whether its header is damaged or not
(`parseIpv4Header_sound_iff`). -/
namespace ChaosKernel.Net
open Base List

structure Ipv4Header where
  srcIp : Nat
  dstIp : Nat
  protocol : Nat
  totalLen : Nat
  deriving DecidableEq, Repr

/-- One round of the loop that adds up words of the packet. -/
def addWord (pkt : Bytes) (sum j : Nat) : Option Nat :=
  let offset := j * 2
  if offset + 1 < pkt.length then do
    let hi ← pkt[offset]?
    let lo ← pkt[offset + 1]?
    addU32? sum (hi.toNat <<< 8 ||| lo.toNat)
  else some sum

/-- The sum the parser makes. It is not used. -/
def hdrChecksum (pkt : Bytes) (ihl : Nat) : Option Nat := do
  let sum ← (List.range ihl).foldlM (addWord pkt) 0
  pure (foldCarries sum)

/-- `parse_ipv4_header`. The outer `none` is a panic. -/
def parseIpv4Header (pkt : Bytes) : Option (Option Ipv4Header) :=
  if pkt.length < 20 then some none
  else do
    let first : UInt8 ← pkt[0]?
    let version := first >>> 4
    if version ≠ 4 then some none
    else
      let ihl := (first &&& 0x0F).toNat
      if ihl < 5 ∨ pkt.length < ihl * 4 then some none
      else do
        let len₀ : UInt8 ← pkt[2]?
        let len₁ : UInt8 ← pkt[3]?
        let protocol : UInt8 ← pkt[9]?
        let src₀ : UInt8 ← pkt[12]?
        let src₁ : UInt8 ← pkt[13]?
        let src₂ : UInt8 ← pkt[14]?
        let src₃ : UInt8 ← pkt[15]?
        let dst₀ : UInt8 ← pkt[16]?
        let dst₁ : UInt8 ← pkt[17]?
        let dst₂ : UInt8 ← pkt[18]?
        let dst₃ : UInt8 ← pkt[19]?
        let _sum ← hdrChecksum pkt ihl
        some (some
          { srcIp := src₀.toNat <<< 24 ||| src₁.toNat <<< 16 ||| src₂.toNat <<< 8 ||| src₃.toNat
            dstIp := dst₀.toNat <<< 24 ||| dst₁.toNat <<< 16 ||| dst₂.toNat <<< 8 ||| dst₃.toNat
            protocol := protocol.toNat
            totalLen := len₀.toNat <<< 8 ||| len₁.toNat })

/-! ### What a header should be -/

/-- The version the first byte names. -/
def version (pkt : Bytes) : Nat := (pkt.getD 0 0).toNat / 16

/-- The length of the header in words of four bytes, from the first byte. -/
def ihl (pkt : Bytes) : Nat := (pkt.getD 0 0).toNat % 16

/-- The header lies in the packet. -/
structure Framed (pkt : Bytes) : Prop where
  version : version pkt = 4
  ihl : 5 ≤ ihl pkt
  long : Net.ihl pkt * 4 ≤ pkt.length

/-- The ones-complement sum of the words of the header. -/
def headerSum (pkt : Bytes) : Nat := ones 0x10000 (wordSum (pkt.take (ihl pkt * 4)))

/-- The fields at their places. -/
def fields (pkt : Bytes) : Ipv4Header := ⟨beAt pkt 12 4, beAt pkt 16 4, beAt pkt 9 1, beAt pkt 2 2⟩

theorem ihl_le (pkt : Bytes) : ihl pkt ≤ 15 := Nat.le_of_lt_succ (Nat.mod_lt _ (by decide))

/-- The header is so short that its sum fits. -/
theorem headerSum_eq_iff (pkt : Bytes) :
    headerSum pkt = 0xFFFF ↔ computeInetChecksum (pkt.take (ihl pkt * 4)) = some 0 := by
  have hihl := ihl_le pkt
  have hlen : (pkt.take (ihl pkt * 4)).length ≤ ihl pkt * 4 := length_take_le ..
  have hsum := wordSum_le (pkt.take (ihl pkt * 4))
  have hones := ones_lt (B := 0x10000) (by decide) (wordSum (pkt.take (ihl pkt * 4)))
  rw [computeInetChecksum_eq_some, headerSum]
  omega

/-! ### What the parser does -/

variable {sum n : Nat} {pkt : Bytes}

theorem addWord_le (pkt : Bytes) (h : sum ≤ 15 * 0xFFFF) (j : Nat) :
    ∃ sum', addWord pkt sum j = some sum' ∧ sum' ≤ sum + 0xFFFF := by
  unfold addWord
  by_cases hin : j * 2 + 1 < pkt.length
  · have hhi := pkt[j * 2].toNat_lt
    have hlo := pkt[j * 2 + 1].toNat_lt
    rw [if_pos hin, getElem?_eq_getElem (Nat.lt_of_succ_lt hin), getElem?_eq_getElem hin]
    show ∃ sum', addU32? sum (pkt[j * 2].toNat <<< 8 ||| pkt[j * 2 + 1].toNat) = some sum' ∧ _
    rw [or_shift hlo, addU32?, if_pos (by omega)]
    exact ⟨_, rfl, by omega⟩
  · rw [if_neg hin]
    exact ⟨sum, rfl, by omega⟩

/-- The sum the parser makes cannot overflow, so making it changes nothing. -/
theorem hdrChecksum_isSome (pkt : Bytes) (hn : n ≤ 15) : ∃ sum, hdrChecksum pkt n = some sum := by
  have hfold : ∃ sum, (List.range n).foldlM (addWord pkt) 0 = some sum ∧ sum ≤ n * 0xFFFF := by
    induction n with
    | zero => exact ⟨0, rfl, le_rfl⟩
    | succ n ih =>
      obtain ⟨sum, hsum, hle⟩ := ih (by omega)
      have hbound : sum ≤ 15 * 0xFFFF := hle.trans (Nat.mul_le_mul_right _ (Nat.le_of_succ_le hn))
      obtain ⟨sum', hsum', hle'⟩ := addWord_le pkt hbound n
      refine ⟨sum', ?_, Nat.succ_mul n _ ▸ hle'.trans (Nat.add_le_add_right hle _)⟩
      rw [range_succ, foldlM_append, hsum]
      show List.foldlM (addWord pkt) sum [n] = _
      rw [foldlM_cons, hsum']
      rfl
  obtain ⟨sum, hsum, _⟩ := hfold
  rw [hdrChecksum, hsum]
  exact ⟨_, rfl⟩

theorem version_eq_iff (b : UInt8) : b >>> 4 = 4 ↔ b.toNat / 16 = 4 := by
  rw [← UInt8.toNat_inj, UInt8.toNat_shiftRight]
  show b.toNat >>> 4 = 4 ↔ _
  rw [Nat.shiftRight_eq_div_pow]

theorem low_nibble (b : UInt8) : (b &&& 0x0F).toNat = b.toNat % 16 := by
  rw [UInt8.toNat_and]
  exact Nat.and_two_pow_sub_one_eq_mod _ 4

/-- The first checks of the parser, on a packet of twenty bytes. -/
theorem framed_iff (h : 20 ≤ pkt.length) : Framed pkt ↔
    ¬(pkt[0] >>> 4 ≠ 4) ∧ ¬((pkt[0] &&& 0x0F).toNat < 5 ∨ pkt.length < (pkt[0] &&& 0x0F).toNat * 4) := by
  have hget : pkt.getD 0 0 = pkt[0] := getD_eq_getElem ..
  simp only [not_not, version_eq_iff, low_nibble, not_or, Nat.not_lt, ← hget]
  exact ⟨fun hf => ⟨hf.version, hf.ihl, hf.long⟩, fun ⟨hv, hi, hl⟩ => ⟨hv, hi, hl⟩⟩

theorem Framed.twenty (h : Framed pkt) : 20 ≤ pkt.length := by
  have := h.ihl
  have := h.long
  omega

theorem parseIpv4Header_of_not_framed (h : ¬Framed pkt) : parseIpv4Header pkt = some none := by
  rw [parseIpv4Header]
  by_cases hshort : pkt.length < 20
  · rw [if_pos hshort]
  · rw [framed_iff (Nat.not_lt.mp hshort)] at h
    rw [if_neg hshort, getElem?_eq_getElem (by omega), Option.bind_eq_bind, Option.bind_some]
    dsimp only
    by_cases hv : pkt[0] >>> 4 ≠ 4
    · rw [if_pos hv]
    · rw [if_neg hv, if_pos (not_not.mp fun hi => h ⟨hv, hi⟩)]

theorem parseIpv4Header_of_framed (h : Framed pkt) : parseIpv4Header pkt = some (some (fields pkt)) := by
  have hlong := h.twenty
  have hget : ∀ i, (hi : i < 20) → pkt[i]? = some pkt[i] := fun i hi => getElem?_eq_getElem (hi.trans_le hlong)
  obtain ⟨hv, hi⟩ := (framed_iff hlong).mp h
  have hnibble : (pkt[0] &&& 0x0F).toNat ≤ 15 := by
    rw [low_nibble]
    exact Nat.le_of_lt_succ (Nat.mod_lt _ (by decide))
  obtain ⟨sum, hsum⟩ := hdrChecksum_isSome pkt hnibble
  rw [parseIpv4Header, if_neg (Nat.not_lt.mpr hlong), hget 0 (by decide), Option.bind_eq_bind, Option.bind_some]
  dsimp only
  rw [if_neg hv, if_neg hi, hsum, hget 2 (by decide), hget 3 (by decide), hget 9 (by decide), hget 12 (by decide),
    hget 13 (by decide), hget 14 (by decide), hget 15 (by decide), hget 16 (by decide), hget 17 (by decide),
    hget 18 (by decide), hget 19 (by decide), fields,
    beAt_four (hget 12 (by decide)) (hget 13 (by decide)) (hget 14 (by decide)) (hget 15 (by decide)),
    beAt_four (hget 16 (by decide)) (hget 17 (by decide)) (hget 18 (by decide)) (hget 19 (by decide)),
    beAt_one (hget 9 (by decide)), beAt_two (hget 2 (by decide)) (hget 3 (by decide))]
  rfl

/-- **Which packets are returned.** The parser returns on every packet. What it returns is the header of
a sound packet exactly when no packet that passes the first checks has a short total length or a wrong
checksum. -/
theorem parseIpv4Header_sound_iff (pkt : Bytes) : (∃ r, parseIpv4Header pkt = some r) ∧
    ((∀ hdr, parseIpv4Header pkt = some (some hdr) → Framed pkt ∧ ihl pkt * 4 ≤ beAt pkt 2 2 ∧
      headerSum pkt = 0xFFFF ∧ computeInetChecksum (pkt.take (ihl pkt * 4)) = some 0 ∧ hdr = fields pkt) ↔
    (Framed pkt → ihl pkt * 4 ≤ beAt pkt 2 2 ∧ headerSum pkt = 0xFFFF)) := by
  by_cases h : Framed pkt
  · rw [parseIpv4Header_of_framed h]
    refine ⟨⟨_, rfl⟩, fun hsound _ => ?_, fun hintact hdr heq => ?_⟩
    · obtain ⟨_, hlen, hsum, _⟩ := hsound _ rfl
      exact ⟨hlen, hsum⟩
    · cases heq
      obtain ⟨hlen, hsum⟩ := hintact h
      exact ⟨h, hlen, hsum, (headerSum_eq_iff pkt).mp hsum, rfl⟩
  · rw [parseIpv4Header_of_not_framed h]
    exact ⟨⟨_, rfl⟩, fun _ hf => absurd hf h, fun _ hdr heq => by cases heq⟩

/-- Nothing but a version and a header length. -/
def damaged : Bytes := 0x45 :: List.replicate 19 0

/-- Its total length is zero and its checksum wrong, and it is returned. -/
theorem parseIpv4Header_damaged : parseIpv4Header damaged = some (some ⟨0, 0, 0, 0⟩) ∧ ihl damaged * 4 = 20 ∧
    beAt damaged 2 2 = 0 ∧ headerSum damaged = 0x4500 := by
  have hframed : Framed damaged := ⟨by decide, by decide, by decide⟩
  rw [parseIpv4Header_of_framed hframed]
  decide +kernel

end ChaosKernel.Net
