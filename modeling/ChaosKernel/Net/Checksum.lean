import ChaosKernel.Base.Octets
import ChaosKernel.Base.OnesComplement

/-! Internet checksums.

`compute_inet_checksum` adds the 16-bit words of its data in 32 bits, folds the
carries in and complements the result. `tcp_checksum` does the same for a payload
behind a pseudo header that it does not build; the two agree, and neither sum
overflows for a payload a length field can name. A payload that carries its own
checksum has checksum zero (`tcpChecksum_consistent`). -/
namespace ChaosKernel.Net
open Base List

/-- `a + b` in 32 bits, which panics when the sum does not fit. -/
def addU32? (a b : Nat) : Option Nat := if a + b < 2 ^ 32 then some (a + b) else none

/-- The loop over the pairs of bytes, and the byte that is left of an odd number. -/
def sumWords (sum : Nat) : Bytes → Option Nat
  | [] => some sum
  | [b] => addU32? sum (b.toNat <<< 8)
  | b₀ :: b₁ :: rest => do
    let sum ← addU32? sum (b₀.toNat <<< 8 ||| b₁.toNat)
    sumWords sum rest

theorem carry_eq (sum : Nat) : (sum &&& 0xFFFF) + sum >>> 16 = carry 0x10000 sum := by
  rw [carry, show sum &&& 0xFFFF = sum % 0x10000 from Nat.and_two_pow_sub_one_eq_mod sum 16, Nat.shiftRight_eq_div_pow]

/-- `while sum > 0xFFFF`. -/
def foldCarries (sum : Nat) : Nat :=
  if sum > 0xFFFF then foldCarries ((sum &&& 0xFFFF) + sum >>> 16) else sum
termination_by sum
decreasing_by
  rw [carry_eq]
  exact carry_lt (by decide) (by omega)

/-- `!sum as u16`. -/
def complement (sum : Nat) : Nat := (0xFFFFFFFF - sum) % 0x10000

/-- `compute_inet_checksum`. -/
def computeInetChecksum (data : Bytes) : Option Nat := do
  let sum ← sumWords 0 data
  pure (complement (foldCarries sum))

/-- `tcp_checksum`. -/
def tcpChecksum (srcIp dstIp : UInt32) (payload : Bytes) : Option Nat := do
  let sum ← addU32? 0 ((srcIp >>> 16) &&& 0xFFFF).toNat
  let sum ← addU32? sum (srcIp &&& 0xFFFF).toNat
  let sum ← addU32? sum ((dstIp >>> 16) &&& 0xFFFF).toNat
  let sum ← addU32? sum (dstIp &&& 0xFFFF).toNat
  let sum ← addU32? sum 6
  let sum ← addU32? sum (payload.length % 2 ^ 32)
  let sum ← sumWords sum payload
  pure (complement (foldCarries sum))

/-- `build_pseudo_header`. -/
def buildPseudoHeader (src dst : UInt32) (proto : UInt8) (length : UInt16) : Bytes :=
  [(src >>> 24).toUInt8, (src >>> 16).toUInt8, (src >>> 8).toUInt8, src.toUInt8,
    (dst >>> 24).toUInt8, (dst >>> 16).toUInt8, (dst >>> 8).toUInt8, dst.toUInt8,
    0, proto, (length >>> 8).toUInt8, length.toUInt8]

/-! ### Sums as numbers -/

/-- The sum of the words, as a number. -/
def wordSum : Bytes → Nat
  | [] => 0
  | [b] => b.toNat * 256
  | b₀ :: b₁ :: rest => b₀.toNat * 256 + b₁.toNat + wordSum rest

theorem wordSum_append {a : Bytes} (ha : Even a.length) (b : Bytes) : wordSum (a ++ b) = wordSum a + wordSum b := by
  match a, ha with
  | [], _ => rw [nil_append, wordSum, Nat.zero_add]
  | [x], ha => exact absurd ha (by simp)
  | x :: y :: rest, ha =>
    have hrest : Even rest.length := by
      simpa [Nat.even_add_one, Nat.not_even_iff_odd] using ha
    rw [cons_append, cons_append, wordSum, wordSum, wordSum_append hrest b]
    omega

/-- Each pair of bytes adds less than `2 ^ 16`. -/
theorem wordSum_le (data : Bytes) : wordSum data ≤ (data.length + 1) / 2 * 0xFFFF := by
  match data with
  | [] => exact Nat.zero_le _
  | [b] =>
    have := b.toNat_lt
    rw [wordSum, length_singleton]
    omega
  | b₀ :: b₁ :: rest =>
    have h₀ := b₀.toNat_lt
    have h₁ := b₁.toNat_lt
    have ih := wordSum_le rest
    rw [wordSum, length_cons, length_cons]
    omega

theorem addU32?_bind_eq_some {a b : Nat} {α : Type} {f : Nat → Option α} {r : α} :
    (addU32? a b >>= f) = some r ↔ a + b < 2 ^ 32 ∧ f (a + b) = some r := by
  unfold addU32?
  by_cases h : a + b < 2 ^ 32
  · rw [if_pos h]
    exact (and_iff_right h).symm
  · rw [if_neg h]
    exact ⟨nofun, fun h' => absurd h'.1 h⟩

/-- The words are added up unless their sum does not fit. -/
theorem sumWords_eq_some {sum n : Nat} {data : Bytes} (h : sum < 2 ^ 32) :
    sumWords sum data = some n ↔ sum + wordSum data < 2 ^ 32 ∧ n = sum + wordSum data := by
  match data with
  | [] =>
    rw [sumWords, wordSum, Option.some.injEq, Nat.add_zero, eq_comm]
    exact (and_iff_right h).symm
  | [b] =>
    rw [sumWords, wordSum, addU32?, Option.ite_none_right_eq_some, Option.some.injEq, Nat.shiftLeft_eq, eq_comm]
  | b₀ :: b₁ :: rest =>
    have hword : b₀.toNat <<< 8 ||| b₁.toNat = b₀.toNat * 256 + b₁.toNat := or_shift b₁.toNat_lt
    rw [sumWords, wordSum, addU32?_bind_eq_some, hword, ← Nat.add_assoc sum (b₀.toNat * 256 + b₁.toNat) (wordSum rest)]
    constructor
    · intro ⟨hfits, hrest⟩
      exact (sumWords_eq_some hfits).mp hrest
    · intro ⟨hsum, hn⟩
      have hfits := (Nat.le_add_right _ _).trans_lt hsum
      exact ⟨hfits, (sumWords_eq_some hfits).mpr ⟨hsum, hn⟩⟩

theorem foldCarries_eq (sum : Nat) : foldCarries sum = ones 0x10000 sum := by
  induction sum using Nat.strongRecOn with
  | ind sum ih =>
    rw [foldCarries]
    split
    · next h =>
      rw [carry_eq, ih _ (carry_lt (by decide) (by omega)), ones_carry (by decide)]
    · next h => rw [ones_of_lt (by omega)]

theorem complement_foldCarries (sum : Nat) : complement (foldCarries sum) = 0xFFFF - ones 0x10000 sum := by
  have hlt := ones_lt (B := 0x10000) (by decide) sum
  rw [foldCarries_eq, complement]
  omega

variable {c : Nat} (ip : UInt32)

theorem checksum_eq_some {sum : Nat} {data : Bytes} (h : sum < 2 ^ 32) :
    (do let sum ← sumWords sum data
        pure (complement (foldCarries sum))) = some c ↔
      sum + wordSum data < 2 ^ 32 ∧ c = 0xFFFF - ones 0x10000 (sum + wordSum data) := by
  simp only [Option.bind_eq_bind, Option.bind_eq_some_iff, Option.pure_def, Option.some.injEq,
    complement_foldCarries, sumWords_eq_some h]
  constructor
  · intro ⟨n, ⟨hfits, hn⟩, hc⟩
    exact ⟨hfits, by rw [← hc, hn]⟩
  · intro ⟨hfits, hc⟩
    exact ⟨_, ⟨hfits, rfl⟩, hc.symm⟩

theorem computeInetChecksum_eq_some {data : Bytes} : computeInetChecksum data = some c ↔
    wordSum data < 2 ^ 32 ∧ c = 0xFFFF - ones 0x10000 (wordSum data) := by
  rw [computeInetChecksum, checksum_eq_some (by decide), Nat.zero_add]

/-! ### The pseudo header -/

/-- The two words of an address. -/
def addrSum (ip : UInt32) : Nat := ip.toNat / 0x10000 + ip.toNat % 0x10000

/-- What the pseudo header of a payload adds, for the protocol number of TCP. -/
def pseudoSum (src dst : UInt32) (length : Nat) : Nat := addrSum src + addrSum dst + 6 + length

theorem addrSum_le : addrSum ip ≤ 2 * 0xFFFF := by
  have := ip.toNat_lt
  unfold addrSum
  omega

theorem high_word : ((ip >>> 16) &&& 0xFFFF).toNat = ip.toNat / 0x10000 := by
  have := ip.toNat_lt
  rw [UInt32.toNat_and, UInt32.toNat_shiftRight]
  show (ip.toNat >>> 16) &&& (2 ^ 16 - 1) = _
  rw [Nat.and_two_pow_sub_one_eq_mod, Nat.shiftRight_eq_div_pow]
  omega

theorem low_word : (ip &&& 0xFFFF).toNat = ip.toNat % 0x10000 := by
  rw [UInt32.toNat_and]
  exact Nat.and_two_pow_sub_one_eq_mod _ 16

theorem tcpChecksum_eq_some {src dst : UInt32} {payload : Bytes} : tcpChecksum src dst payload = some c ↔
    pseudoSum src dst (payload.length % 2 ^ 32) + wordSum payload < 2 ^ 32 ∧
      c = 0xFFFF - ones 0x10000 (pseudoSum src dst (payload.length % 2 ^ 32) + wordSum payload) := by
  have hsum : 0 + src.toNat / 0x10000 + src.toNat % 0x10000 + dst.toNat / 0x10000 + dst.toNat % 0x10000 + 6 +
      payload.length % 2 ^ 32 = pseudoSum src dst (payload.length % 2 ^ 32) := by
    unfold pseudoSum addrSum
    omega
  rw [tcpChecksum, high_word src, high_word dst, low_word src, low_word dst]
  simp only [addU32?_bind_eq_some, hsum]
  constructor
  · intro ⟨_, _, _, _, _, hfits, hrest⟩
    exact (checksum_eq_some hfits).mp hrest
  · intro ⟨hfits, hc⟩
    have hhead := (Nat.le_add_right _ _).trans_lt hfits
    exact ⟨by omega, by omega, by omega, by omega, by omega, hhead, (checksum_eq_some hhead).mpr ⟨hfits, hc⟩⟩

theorem shifted_byte {k : UInt32} (hk : k.toNat < 32) :
    (ip >>> k).toUInt8.toNat = ip.toNat / 2 ^ k.toNat % 256 := by
  rw [UInt32.toNat_toUInt8, UInt32.toNat_shiftRight, Nat.mod_eq_of_lt hk, Nat.shiftRight_eq_div_pow]

theorem wordSum_addr (rest : Bytes) :
    wordSum ((ip >>> 24).toUInt8 :: (ip >>> 16).toUInt8 :: (ip >>> 8).toUInt8 :: ip.toUInt8 :: rest) =
      addrSum ip + wordSum rest := by
  have h := ip.toNat_lt
  have h24 : (ip >>> 24).toUInt8.toNat = ip.toNat / 2 ^ 24 % 256 := shifted_byte ip (by decide)
  have h16 : (ip >>> 16).toUInt8.toNat = ip.toNat / 2 ^ 16 % 256 := shifted_byte ip (by decide)
  have h8 : (ip >>> 8).toUInt8.toNat = ip.toNat / 2 ^ 8 % 256 := shifted_byte ip (by decide)
  rw [wordSum, wordSum, h24, h16, h8, UInt32.toNat_toUInt8, addrSum]
  omega

theorem wordSum_pseudoHeader (src dst : UInt32) (length : UInt16) :
    wordSum (buildPseudoHeader src dst 6 length) = pseudoSum src dst length.toNat := by
  have h := length.toNat_lt
  have h8 : (length >>> 8).toUInt8.toNat = length.toNat / 2 ^ 8 % 256 := by
    rw [UInt16.toNat_toUInt8, UInt16.toNat_shiftRight]
    exact congrArg (· % 256) (Nat.shiftRight_eq_div_pow ..)
  have h6 : (0 : UInt8).toNat * 256 + (6 : UInt8).toNat = 6 := rfl
  rw [buildPseudoHeader, wordSum_addr, wordSum_addr, wordSum, wordSum, wordSum, h8, UInt16.toNat_toUInt8, h6, pseudoSum]
  omega

/-! ### Checksums of whole segments -/

/-- The bytes of a checksum, in the order of the network. -/
def checksumBytes (c : Nat) : Bytes := [UInt8.ofNat (c >>> 8), UInt8.ofNat c]

theorem wordSum_checksumBytes (h : c < 0x10000) : wordSum (checksumBytes c) = c := by
  rw [checksumBytes, wordSum, wordSum, UInt8.toNat_ofNat', UInt8.toNat_ofNat', Nat.shiftRight_eq_div_pow]
  omega

/-- A payload that a 16-bit length can name does not overflow the sum, nor does one of two bytes more. -/
theorem sum_lt (src dst : UInt32) (payload : Bytes) (h : payload.length ≤ 0x10001) :
    pseudoSum src dst (payload.length % 2 ^ 32) + wordSum payload < 2 ^ 32 := by
  have hs := addrSum_le src
  have hd := addrSum_le dst
  have hw := wordSum_le payload
  unfold pseudoSum
  omega

/-- **TCP checksums are consistent.** The checksum of a segment is that of its pseudo header and
payload, and neither sum overflows; a segment of even length that carries the checksum computed
with zeros in its place has checksum zero. -/
theorem tcpChecksum_consistent (src dst : UInt32) (payload : Bytes) :
    (payload.length < 65536 → ∃ c, tcpChecksum src dst payload = some c ∧
      computeInetChecksum (buildPseudoHeader src dst 6 (UInt16.ofNat payload.length) ++ payload) = some c) ∧
    (Even payload.length →
      (payload.length < 65536 → ∃ c, tcpChecksum src dst (payload ++ [0, 0]) = some c) ∧
      ∀ c, tcpChecksum src dst (payload ++ [0, 0]) = some c →
        tcpChecksum src dst (payload ++ checksumBytes c) = some 0) := by
  refine ⟨fun hlen => ?_, fun heven => ⟨fun hlen => ?_, fun c hc => ?_⟩⟩
  · have hsum : wordSum (buildPseudoHeader src dst 6 (UInt16.ofNat payload.length) ++ payload) =
        pseudoSum src dst (payload.length % 2 ^ 32) + wordSum payload := by
      have heven : Even (buildPseudoHeader src dst 6 (UInt16.ofNat payload.length)).length := ⟨6, rfl⟩
      rw [wordSum_append heven, wordSum_pseudoHeader, UInt16.toNat_ofNat', Nat.mod_eq_of_lt hlen,
        Nat.mod_eq_of_lt (hlen.trans (by decide))]
    have hfits := sum_lt src dst payload (by omega)
    exact ⟨_, tcpChecksum_eq_some.mpr ⟨hfits, rfl⟩, computeInetChecksum_eq_some.mpr ⟨hsum ▸ hfits, by rw [hsum]⟩⟩
  · have hlen' : (payload ++ [0, 0]).length ≤ 0x10001 := by
      rw [length_append]
      exact Nat.add_le_add_right (Nat.le_of_lt_succ hlen) 2
    exact ⟨_, tcpChecksum_eq_some.mpr ⟨sum_lt src dst _ hlen', rfl⟩⟩
  · obtain ⟨hfits, hval⟩ := tcpChecksum_eq_some.mp hc
    have hzero : wordSum (payload ++ [0, 0]) = wordSum payload := wordSum_append heven [0, 0]
    have hbytes : wordSum (payload ++ checksumBytes c) = wordSum payload + c := by
      rw [wordSum_append heven, wordSum_checksumBytes (by omega)]
    have hlength : (payload ++ checksumBytes c).length = (payload ++ [0, 0]).length := by
      rw [length_append, length_append]
      rfl
    rw [hzero] at hfits hval
    rw [tcpChecksum_eq_some, hlength, hbytes, ← Nat.add_assoc]
    generalize pseudoSum src dst ((payload ++ [0, 0]).length % 2 ^ 32) + wordSum payload = sum at *
    rw [hval]
    have htop := add_complement_le (B := 0x10000) (k := 0x10001) (by decide) (by decide) (show sum ≤ _ by omega)
    exact ⟨by omega, by rw [ones_add_complement (by decide)]⟩

theorem tcpChecksum_consistent_four : ∃ c, tcpChecksum 0x7f000001 0x7f000001 [1, 2, 3, 4, 0, 0] = some c ∧
    tcpChecksum 0x7f000001 0x7f000001 ([1, 2, 3, 4] ++ checksumBytes c) = some 0 ∧
    ∃ d, tcpChecksum 0x7f000001 0x7f000001 [1, 2, 3, 4] = some d ∧
      computeInetChecksum (buildPseudoHeader 0x7f000001 0x7f000001 6 4 ++ [1, 2, 3, 4]) = some d := by
  have h := tcpChecksum_consistent 0x7f000001 0x7f000001 [1, 2, 3, 4]
  obtain ⟨c, hc⟩ := (h.2 ⟨2, rfl⟩).1 (by decide)
  exact ⟨c, hc, (h.2 ⟨2, rfl⟩).2 c hc, h.1 (by decide)⟩

end ChaosKernel.Net
