import ChaosKernel.Base.Octets
import ChaosKernel.Base.Words

/-! Which files pass for executables.

`validate_elf_header` reads the fixed part of an ELF header, checks that the table of
program headers lies in the file and looks for a segment to load. `Header` and
`Loadable` say what it looks for, in terms of the numbers in the file. The end of
the table is computed in a word before it is compared, so a file whose table would
end beyond the words makes it panic instead (`validateElfHeader_exact_iff`). -/
namespace ChaosKernel.Proc
open Base List

/-- The error strings of `validate_elf_header`. -/
inductive ElfErr where
  | tooShort | badMagic | not64bit | notLe | badVersion | notExec | noPhdrs | phOverflow | noLoad
  deriving DecidableEq, Repr

namespace Elf

abbrev ElfM := Except (Stop ElfErr)

/-- `if p { return Err(e); }`. -/
def reject (p : Prop) [Decidable p] (e : ElfErr) : ElfM Unit := if p then .error (.err e) else .ok ()

/-- Arithmetic that panics without a result. -/
def orPanic {α : Type} : Option α → ElfM α
  | some a => .ok a
  | none => .error .panic

/-- `data[i]`. -/
def byte (data : Bytes) (i : Nat) : ElfM UInt8 := orPanic data[i]?

/-- `(data[off + 1] as u16) << 8 | data[off] as u16`. -/
def half (data : Bytes) (off : Nat) : ElfM Nat := do
  let hi ← byte data (off + 1)
  let lo ← byte data off
  pure (hi.toNat <<< 8 ||| lo.toNat)

/-- The loop that puts the eight bytes at `off` together. -/
def long (data : Bytes) (off : Nat) : ElfM Nat :=
  (List.range 8).foldlM (fun v i => do
    let b ← byte data (off + i)
    pure (v ||| b.toNat <<< (i * 8))) 0

/-- `p_type` of the program header at `base`. -/
def pType (data : Bytes) (base : Nat) : ElfM Nat := do
  let b₃ ← byte data (base + 3)
  let b₂ ← byte data (base + 2)
  let b₁ ← byte data (base + 1)
  let b₀ ← byte data base
  pure (b₃.toNat <<< 24 ||| b₂.toNat <<< 16 ||| b₁.toNat <<< 8 ||| b₀.toNat)

/-- `load_count` and `interp_found`. -/
structure Found where
  loadCount : Nat
  interpFound : Bool

/-- The loop over the program headers, with `n` of them left. -/
def scanPhdrs (data : Bytes) (phoff phentsize : Nat) : (n idx : Nat) → Found → ElfM Found
  | 0, _, found => .ok found
  | n + 1, idx, found => do
    let skip ← orPanic (mul? idx phentsize)
    let base ← orPanic (add? phoff skip)
    let fin ← orPanic (add? base 4)
    if fin > data.length then
      .ok found
    else do
      let t ← pType data base
      scanPhdrs data phoff phentsize n (idx + 1)
        (if t = 1 then {found with loadCount := found.loadCount + 1}
        else if t = 3 then {found with interpFound := true}
        else found)

/-- `validate_elf_header`. -/
def validateElfHeader (data : Bytes) : ElfM Nat := do
  reject (data.length < 64) .tooShort
  let b₀ ← byte data 0
  let b₁ ← byte data 1
  let b₂ ← byte data 2
  let b₃ ← byte data 3
  reject (b₀ ≠ 0x7f ∨ b₁ ≠ 0x45 ∨ b₂ ≠ 0x4c ∨ b₃ ≠ 0x46) .badMagic
  let eiClass ← byte data 4
  reject (eiClass ≠ 2) .not64bit
  let eiData ← byte data 5
  reject (eiData ≠ 1) .notLe
  let eiVersion ← byte data 6
  reject (eiVersion ≠ 1) .badVersion
  let eType ← half data 16
  reject (eType ≠ 2 ∧ eType ≠ 3) .notExec
  let _eMachine ← half data 18
  let eEntry ← long data 24
  let ePhoff ← long data 32
  let ePhentsize ← half data 54
  let ePhnum ← half data 56
  reject (ePhnum = 0) .noPhdrs
  let table ← orPanic (mul? ePhentsize ePhnum)
  let phEnd ← orPanic (add? ePhoff table)
  reject (phEnd > data.length) .phOverflow
  let found ← scanPhdrs data ePhoff ePhentsize ePhnum 0 ⟨0, false⟩
  reject (found.loadCount = 0) .noLoad
  pure eEntry

/-! ### Reading -/

theorem orPanic_bind {α β : Type} (a : α) (f : α → ElfM β) : (orPanic (some a) >>= f) = f a := rfl

variable {data l : Bytes} {off n phoff phentsize : Nat}

theorem byte_eq (h : off < data.length) : byte data off = .ok data[off] := by
  rw [byte, getElem?_eq_getElem h]
  rfl

theorem half_eq (h : off + 1 < data.length) : half data off = .ok (leAt data off 2) := by
  rw [half, byte_eq h, byte_eq (Nat.lt_of_succ_lt h), leAt_two (getElem?_eq_getElem (Nat.lt_of_succ_lt h))
    (getElem?_eq_getElem h)]
  rfl

theorem pType_eq (h : off + 3 < data.length) : pType data off = .ok (leAt data off 4) := by
  rw [pType, byte_eq h, byte_eq (by omega), byte_eq (by omega), byte_eq (by omega),
    leAt_four (getElem?_eq_getElem (by omega)) (getElem?_eq_getElem (by omega))
      (getElem?_eq_getElem (by omega)) (getElem?_eq_getElem h)]
  rfl

/-- After `n` bytes the loop has the number they spell. -/
theorem long_prefix (h : off + n ≤ data.length) :
    (List.range n).foldlM (fun v i => do
      let b ← byte data (off + i)
      pure (v ||| b.toNat <<< (i * 8))) 0 = (.ok (leAt data off n) : ElfM Nat) := by
  induction n with
  | zero => rfl
  | succ n ih =>
    have hlt : off + n < data.length := by omega
    have hsmall : leAt data off n < 2 ^ (n * 8) := by
      rw [Nat.mul_comm, Nat.pow_mul]
      exact leAt_lt data off n
    rw [range_succ, foldlM_append, ih (by omega), leAt_succ (getElem?_eq_getElem hlt)]
    rw [ok_bind, foldlM_cons, byte_eq hlt]
    show Except.ok (leAt data off n ||| data[off + n].toNat <<< (n * 8)) = _
    rw [Nat.or_comm, or_shift hsmall, Nat.mul_comm n 8, Nat.pow_mul, Nat.add_comm]

theorem long_eq (h : off + 8 ≤ data.length) : long data off = .ok (leAt data off 8) := long_prefix h

/-! ### What a file has to look like -/

/-- The checks on the fixed part of the header. -/
structure Header (data : Bytes) : Prop where
  long : 64 ≤ data.length
  magic : data.take 4 = [0x7f, 0x45, 0x4c, 0x46]
  is64bit : data[4]? = some 2
  le : data[5]? = some 1
  version : data[6]? = some 1
  exec : leAt data 16 2 = 2 ∨ leAt data 16 2 = 3
  phdrs : 1 ≤ leAt data 56 2

/-- Where the `i`-th program header starts. -/
def phdr (data : Bytes) (i : Nat) : Nat := leAt data 32 8 + i * leAt data 54 2

/-- Where the table of program headers ends, as a number. -/
def phEnd (data : Bytes) : Nat := leAt data 32 8 + leAt data 54 2 * leAt data 56 2

/-- A file with a segment to load, and its table of program headers in the file. -/
structure Loadable (data : Bytes) : Prop where
  header : Header data
  table : phEnd data ≤ data.length
  load : ∃ i < leAt data 56 2, phdr data i + 4 ≤ data.length ∧ leAt data (phdr data i) 4 = 1

/-- The rest of the function, on a file with a right header. -/
def checkPhdrs (data : Bytes) : ElfM Nat := do
  let table ← orPanic (mul? (leAt data 54 2) (leAt data 56 2))
  let phEnd ← orPanic (add? (leAt data 32 8) table)
  reject (phEnd > data.length) .phOverflow
  let found ← scanPhdrs data (leAt data 32 8) (leAt data 54 2) (leAt data 56 2) 0 ⟨0, false⟩
  reject (found.loadCount = 0) .noLoad
  pure (leAt data 24 8)

theorem reject_bind {p : Prop} [Decidable p] {e : ElfErr} {α : Type} (f : Unit → ElfM α) :
    (reject p e >>= f) = if p then .error (.err e) else f () := by
  unfold reject
  split <;> rfl

theorem validateElfHeader_of_long (h : 64 ≤ data.length) : validateElfHeader data =
    if data[0] ≠ 0x7f ∨ data[1] ≠ 0x45 ∨ data[2] ≠ 0x4c ∨ data[3] ≠ 0x46 then .error (.err .badMagic)
    else if data[4] ≠ 2 then .error (.err .not64bit)
    else if data[5] ≠ 1 then .error (.err .notLe)
    else if data[6] ≠ 1 then .error (.err .badVersion)
    else if leAt data 16 2 ≠ 2 ∧ leAt data 16 2 ≠ 3 then .error (.err .notExec)
    else if leAt data 56 2 = 0 then .error (.err .noPhdrs)
    else checkPhdrs data := by
  have hb : ∀ i, (hi : i < 64) → byte data i = .ok (data[i]) := fun i hi => byte_eq (hi.trans_le h)
  have hh : ∀ i, i + 1 < 64 → half data i = .ok (leAt data i 2) := fun i hi => half_eq (hi.trans_le h)
  have hl : ∀ i, i + 8 ≤ 64 → Elf.long data i = .ok (leAt data i 8) := fun i hi => long_eq (hi.trans h)
  rw [validateElfHeader, reject_bind, if_neg (by omega), hb 0 (by decide), hb 1 (by decide), hb 2 (by decide),
    hb 3 (by decide), hb 4 (by decide), hb 5 (by decide), hb 6 (by decide), hh 16 (by decide), hh 18 (by decide),
    hl 24 (by decide), hl 32 (by decide), hh 54 (by decide), hh 56 (by decide)]
  simp only [ok_bind, reject_bind, checkPhdrs]

theorem take_four (h : 4 ≤ l.length) {a b c d : UInt8} :
    l.take 4 = [a, b, c, d] ↔ l[0] = a ∧ l[1] = b ∧ l[2] = c ∧ l[3] = d := by
  match l, h with
  | w :: x :: y :: z :: rest, _ => simp

theorem header_iff (h : 64 ≤ data.length) : Header data ↔
    ¬(data[0] ≠ 0x7f ∨ data[1] ≠ 0x45 ∨ data[2] ≠ 0x4c ∨ data[3] ≠ 0x46) ∧ ¬data[4] ≠ 2 ∧ ¬data[5] ≠ 1 ∧
      ¬data[6] ≠ 1 ∧ ¬(leAt data 16 2 ≠ 2 ∧ leAt data 16 2 ≠ 3) ∧ ¬leAt data 56 2 = 0 := by
  have hget : ∀ i, (hi : i < 64) → ∀ b, data[i]? = some b ↔ data[i] = b := fun i hi b => by
    rw [getElem?_eq_getElem (hi.trans_le h), Option.some.injEq]
  have hmagic : data.take 4 = [0x7f, 0x45, 0x4c, 0x46] ↔
      ¬(data[0] ≠ 0x7f ∨ data[1] ≠ 0x45 ∨ data[2] ≠ 0x4c ∨ data[3] ≠ 0x46) := by
    rw [take_four (by omega)]
    simp only [not_or, not_not]
  constructor
  · intro hd
    exact ⟨hmagic.mp hd.magic, not_not.mpr ((hget 4 (by decide) 2).mp hd.is64bit),
      not_not.mpr ((hget 5 (by decide) 1).mp hd.le), not_not.mpr ((hget 6 (by decide) 1).mp hd.version),
      fun hne => hd.exec.elim hne.1 hne.2, fun h0 => by have := hd.phdrs; omega⟩
  · intro ⟨hm, h4, h5, h6, he, hp⟩
    exact ⟨h, hmagic.mpr hm, (hget 4 (by decide) 2).mpr (not_not.mp h4), (hget 5 (by decide) 1).mpr (not_not.mp h5),
      (hget 6 (by decide) 1).mpr (not_not.mp h6), by omega, by omega⟩

theorem validateElfHeader_of_header (h : Header data) : validateElfHeader data = checkPhdrs data := by
  obtain ⟨hm, h4, h5, h6, he, hp⟩ := (header_iff h.long).mp h
  rw [validateElfHeader_of_long h.long, if_neg hm, if_neg h4, if_neg h5, if_neg h6, if_neg he, if_neg hp]

theorem validateElfHeader_of_not_header (h : ¬Header data) : ∃ e, validateElfHeader data = .error (.err e) := by
  by_cases hlong : 64 ≤ data.length
  · rw [header_iff hlong] at h
    rw [validateElfHeader_of_long hlong]
    split_ifs with hm h4 h5 h6 he hp
    case neg => exact absurd ⟨hm, h4, h5, h6, he, hp⟩ h
    all_goals exact ⟨_, rfl⟩
  · rw [validateElfHeader, reject_bind, if_pos (by omega)]
    exact ⟨_, rfl⟩

/-! ### The program headers -/

theorem loadCount_ne_zero (found : Found) (t : Nat) :
    (if t = 1 then {found with loadCount := found.loadCount + 1}
      else if t = 3 then {found with interpFound := true}
      else found).loadCount ≠ 0 ↔ found.loadCount ≠ 0 ∨ t = 1 := by
  split
  · next h => simp [h]
  · next h =>
    split
    · simp [h]
    · simp [h]

/-- The loop finds a segment to load if there is one among the headers that are left. It may stop
early, but only where no later header is in the file either. -/
theorem scanPhdrs_eq (hfits : data.length < 2 ^ 63) :
    ∀ (n idx : Nat) (found : Found), phoff + phentsize * (idx + n) ≤ data.length →
      ∃ found', scanPhdrs data phoff phentsize n idx found = .ok found' ∧
        (found'.loadCount ≠ 0 ↔ found.loadCount ≠ 0 ∨ ∃ i, idx ≤ i ∧ i < idx + n ∧
          phoff + i * phentsize + 4 ≤ data.length ∧ leAt data (phoff + i * phentsize) 4 = 1)
  | 0, idx, found, _ => by
    refine ⟨found, rfl, Iff.symm (or_iff_left ?_)⟩
    intro ⟨i, hlo, hhi, _⟩
    omega
  | n + 1, idx, found, hroom => by
    have hbase : ∀ i, idx ≤ i → phoff + idx * phentsize ≤ phoff + i * phentsize := fun i hi =>
      Nat.add_le_add_left (Nat.mul_le_mul_right phentsize hi) phoff
    have hle : phoff + idx * phentsize ≤ data.length := by
      refine (Nat.add_le_add_left ?_ phoff).trans hroom
      rw [Nat.mul_comm]
      exact Nat.mul_le_mul_left phentsize (Nat.le_add_right ..)
    have hword : 2 ^ 63 + 4 < wordSize := by decide
    have hskip : mul? idx phentsize = some (idx * phentsize) := if_pos (by omega)
    rw [scanPhdrs, hskip, orPanic_bind, add?_of_lt (by omega), orPanic_bind, add?_of_lt (by omega), orPanic_bind]
    by_cases hfin : phoff + idx * phentsize + 4 > data.length
    · rw [if_pos hfin]
      refine ⟨found, rfl, Iff.symm (or_iff_left ?_)⟩
      intro ⟨i, hlo, _, hin, _⟩
      have := hbase i hlo
      omega
    · rw [if_neg hfin, pType_eq (by omega), ok_bind]
      have hroom' : phoff + phentsize * (idx + 1 + n) ≤ data.length := by rwa [Nat.add_right_comm idx 1 n]
      obtain ⟨found', hrun, hiff⟩ := scanPhdrs_eq hfits n (idx + 1) _ hroom'
      refine ⟨found', hrun, hiff.trans ?_⟩
      rw [loadCount_ne_zero, or_assoc]
      refine or_congr_right ⟨?_, ?_⟩
      · intro h
        rcases h with hload | ⟨i, hlo, hhi, hin⟩
        · exact ⟨idx, le_rfl, by omega, by omega, hload⟩
        · exact ⟨i, by omega, by omega, hin⟩
      · intro ⟨i, hlo, hhi, hin, hload⟩
        rcases Nat.eq_or_lt_of_le hlo with heq | hlt
        · exact .inl (heq ▸ hload)
        · exact .inr ⟨i, hlt, by omega, hin, hload⟩

theorem table_lt (data : Bytes) : leAt data 54 2 * leAt data 56 2 < wordSize := by
  have h := Nat.mul_lt_mul'' (leAt_lt data 54 2) (leAt_lt data 56 2)
  exact h.trans (by decide)

theorem checkPhdrs_of_overflow (h : wordSize ≤ phEnd data) : checkPhdrs data = .error .panic := by
  rw [checkPhdrs, mul?, if_pos (table_lt data), orPanic_bind, add?_of_ge h]
  rfl

theorem checkPhdrs_of_lt (hfits : data.length < 2 ^ 63) (hd : Header data) (h : phEnd data < wordSize) :
    (Loadable data ∧ checkPhdrs data = .ok (leAt data 24 8)) ∨
      (¬Loadable data ∧ ∃ e, checkPhdrs data = .error (.err e)) := by
  rw [checkPhdrs, mul?, if_pos (table_lt data), orPanic_bind, add?_of_lt h, orPanic_bind, reject_bind]
  by_cases htable : leAt data 32 8 + leAt data 54 2 * leAt data 56 2 > data.length
  · rw [if_pos htable]
    exact .inr ⟨fun hload => absurd hload.table (Nat.not_le.mpr htable), _, rfl⟩
  · have hroom : leAt data 32 8 + leAt data 54 2 * (0 + leAt data 56 2) ≤ data.length := by
      rw [Nat.zero_add]
      exact Nat.not_lt.mp htable
    obtain ⟨found, hscan, hiff⟩ := scanPhdrs_eq hfits (leAt data 56 2) 0 ⟨0, false⟩ hroom
    rw [if_neg htable, hscan, ok_bind, reject_bind]
    by_cases hcount : found.loadCount = 0
    · rw [if_pos hcount]
      refine .inr ⟨fun hload => ?_, _, rfl⟩
      obtain ⟨i, hi, hin⟩ := hload.load
      exact hiff.mpr (.inr ⟨i, Nat.zero_le i, by omega, hin⟩) hcount
    · rw [if_neg hcount]
      obtain ⟨i, _, hi, hin⟩ := (hiff.mp hcount).resolve_left (fun h => h rfl)
      exact .inl ⟨⟨hd, Nat.not_lt.mp htable, i, by omega, hin⟩, rfl⟩

/-- **Which files pass.** The function returns, and accepts exactly the loadable files with their entry
points, unless a file with a right header puts the end of its table beyond the words. -/
theorem validateElfHeader_exact_iff (data : Octets) :
    (returned (validateElfHeader data.bytes) = true ∧ ∀ entry, validateElfHeader data.bytes = .ok entry ↔
      Loadable data.bytes ∧ entry = leAt data.bytes 24 8) ↔
      ¬(Header data.bytes ∧ wordSize ≤ phEnd data.bytes) := by
  by_cases hd : Header data.bytes
  · rw [validateElfHeader_of_header hd]
    rcases Nat.lt_or_ge (phEnd data.bytes) wordSize with hlt | hge
    · refine ⟨fun _ h => absurd h.2 (by omega), fun _ => ?_⟩
      rcases checkPhdrs_of_lt data.fits hd hlt with ⟨hload, heq⟩ | ⟨hload, e, heq⟩
      · rw [heq]
        refine ⟨rfl, fun entry => ?_⟩
        rw [Except.ok.injEq, eq_comm]
        exact (and_iff_right hload).symm
      · rw [heq]
        exact ⟨rfl, fun entry => ⟨nofun, fun h => absurd h.1 hload⟩⟩
    · rw [checkPhdrs_of_overflow hge]
      refine ⟨fun h => ?_, fun h => absurd ⟨hd, hge⟩ h⟩
      cases h.1
  · obtain ⟨e, heq⟩ := validateElfHeader_of_not_header hd
    rw [heq]
    refine ⟨fun _ h => hd h.1, fun _ => ⟨rfl, fun entry => ?_⟩⟩
    exact ⟨nofun, fun h => absurd h.1.header hd⟩

/-- A header of 64 bytes whose one program header should start at the last address. -/
def lastPhoff : Octets where
  bytes := [0x7f, 0x45, 0x4c, 0x46, 2, 1, 1, 0] ++ List.replicate 8 0 ++ [2, 0, 0x3e, 0, 1, 0, 0, 0] ++
    List.replicate 8 0 ++ List.replicate 8 0xff ++ List.replicate 8 0 ++ [0, 0, 0, 0, 0x40, 0, 0x38, 0] ++
    [1, 0, 0, 0, 0, 0, 0, 0]
  fits := by decide

/-- The end of the table is computed before it is looked at. -/
theorem validateElfHeader_panics : validateElfHeader lastPhoff.bytes = .error .panic ∧
    leAt lastPhoff.bytes 32 8 = 2 ^ 64 - 1 ∧ leAt lastPhoff.bytes 54 2 = 56 ∧ leAt lastPhoff.bytes 56 2 = 1 := by
  decide +kernel

end Elf
end ChaosKernel.Proc
