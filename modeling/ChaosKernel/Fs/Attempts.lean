import ChaosKernel.Fs.Disk

/-! Reads with a limit.

`read_block_n` tries as `read_block` does and gives up after `lim` attempts, if `lim`
is not zero. An attempt uses up one fault or succeeds. So the faults of the disk are a
budget that the reads share: a read with a limit takes at most that many of them, and
reads that are made until one succeeds leave the disk as one read without a limit
does (`readBlockN_attempts`).

`ops` counts here without a bound; the counter of the source is this modulo 2^64. -/
namespace ChaosKernel.Fs
open Base List

namespace Disk
variable {d d' : Disk} {blk : Nat} {out buffer : Bytes} {lim n fuel attempt : Nat}

/-- The retry loop of `read_block_n` after `attempt` attempts, with the buffer; a run out of `fuel` has not
returned. -/
def readLoopN (blk lim : Nat) : Nat → Nat → Bytes → Disk → Except (Stop Errno) Nat × Bytes × Disk
  | 0, _, out, d => (.error .hang, out, d)
  | fuel + 1, attempt, out, d =>
    let attempt := attempt + 1
    let d := {d with ops := d.ops + 1}
    if d.errs = 0 then (.ok attempt, d.contents blk out.length, d)
    else
      let d := if d.errs = usizeMax then d else {d with errs := d.errs - 1}
      if 0 < lim ∧ lim ≤ attempt then (.error (.err .limit), out, d)
      else readLoopN blk lim fuel attempt out d

/-- The loop makes at most `lim` rounds, or `errs + 1` without a limit unless it makes infinitely many. -/
def readBlockN (d : Disk) (blk : Nat) (out : Bytes) (lim : Nat) : Except (Stop Errno) Nat × Bytes × Disk :=
  readLoopN blk lim (d.errs + lim + 1) 0 out d

/-! ### What a buffer holds -/

/-- Byte `i` of a block, as a read shows it. -/
def byteOf (d : Disk) (blk i : Nat) : UInt8 := d.blocks[blk]?.elim 0xAA fun data => data.bytes.getD i 0

theorem contents_eq_bytes (d : Disk) (blk len : Nat) : d.contents blk len = (List.range len).map (d.byteOf blk) := by
  unfold contents byteOf
  cases d.blocks[blk]? with
  | none =>
    show List.replicate len 0xAA = (List.range len).map fun _ => 0xAA
    rw [map_const', length_range]
  | some data =>
    have hsize := data.size
    refine ext_getElem? fun i => ?_
    show (data.bytes.take (min len blockSz) ++ List.replicate (len - min len blockSz) 0)[i]? =
      ((List.range len).map fun i => data.bytes.getD i 0)[i]?
    rw [getElem?_append, length_take, hsize, getElem?_map, getElem?_take, getElem?_replicate]
    by_cases hlen : i < len
    · rw [getElem?_range hlen, Option.map_some, getD_eq_getElem?_getD]
      by_cases hin : i < blockSz
      · have hlt : i < data.bytes.length := hsize ▸ hin
        rw [if_pos (by omega), if_pos (by omega), getElem?_eq_getElem hlt, Option.getD_some]
      · rw [if_neg (by omega), if_pos (by omega), getElem?_eq_none (by omega), Option.getD_none]
    · have hnone : (List.range len)[i]? = none := getElem?_eq_none (by rw [length_range]; omega)
      rw [hnone, if_neg (by omega), if_neg (by omega), Option.map_none]

/-! ### The loop -/

/-- After an attempt that met a fault. -/
def faulted (d : Disk) : Disk :=
  {d with ops := d.ops + 1, errs := if d.errs = usizeMax then d.errs else d.errs - 1}

/-- A round that meets a fault. -/
theorem readLoopN_round (h0 : d.errs ≠ 0) (fuel attempt : Nat) : readLoopN blk lim (fuel + 1) attempt out d =
    if 0 < lim ∧ lim ≤ attempt + 1 then (.error (.err .limit), out, d.faulted)
    else readLoopN blk lim fuel (attempt + 1) out d.faulted := by
  have hfaulted : (if d.errs = usizeMax then {d with ops := d.ops + 1}
      else {d with ops := d.ops + 1, errs := d.errs - 1}) = d.faulted := by
    unfold faulted
    split <;> rfl
  rw [readLoopN]
  dsimp only
  rw [if_neg h0, hfaulted]

theorem readLoopN_succeeds (hn : d.errs = n) (hfinite : n < usizeMax) (hfuel : n < fuel)
    (hlim : lim = 0 ∨ attempt + n < lim) : readLoopN blk lim fuel attempt out d =
      (.ok (attempt + n + 1), d.contents blk out.length, {d with errs := 0, ops := d.ops + n + 1}) := by
  induction n generalizing fuel attempt d with
  | zero =>
    obtain ⟨fuel, rfl⟩ : ∃ rest, fuel = rest + 1 := ⟨fuel - 1, by omega⟩
    rw [readLoopN]
    dsimp only
    rw [if_pos hn, hn]
    rfl
  | succ n ih =>
    obtain ⟨fuel, rfl⟩ : ∃ rest, fuel = rest + 1 := ⟨fuel - 1, by omega⟩
    have hgo : ¬(0 < lim ∧ lim ≤ attempt + 1) := by omega
    have hnext : d.faulted = {d with errs := n, ops := d.ops + 1} := by
      rw [faulted, if_neg (by omega), hn]
      rfl
    rw [readLoopN_round (by omega), if_neg hgo, hnext, ih rfl (by omega) (by omega) (by omega),
      Nat.add_right_comm attempt]
    show (_, _, (⟨d.blocks, 0, d.ops + 1 + n + 1⟩ : Disk)) = _
    rw [Nat.add_right_comm d.ops]
    rfl

theorem readLoopN_limited (hn : lim = attempt + n + 1) (hfuel : n < fuel) (hlim : n < d.errs)
    (hword : d.errs < wordSize) : readLoopN blk lim fuel attempt out d =
      (.error (.err .limit), out, {d with
        errs := if d.errs = usizeMax then d.errs else d.errs - (n + 1), ops := d.ops + (n + 1)}) := by
  induction n generalizing fuel attempt d with
  | zero =>
    obtain ⟨fuel, rfl⟩ : ∃ rest, fuel = rest + 1 := ⟨fuel - 1, by omega⟩
    rw [readLoopN_round (by omega), if_pos (by omega), faulted]
  | succ n ih =>
    obtain ⟨fuel, rfl⟩ : ∃ rest, fuel = rest + 1 := ⟨fuel - 1, by omega⟩
    have hleft : n < d.faulted.errs := by
      simp only [faulted]
      split <;> omega
    have hbound : d.faulted.errs < wordSize := by
      simp only [faulted]
      split <;> omega
    rw [readLoopN_round (by omega), if_neg (by omega), ih (by omega) (by omega) hleft hbound]
    have hops : d.ops + 1 + (n + 1) = d.ops + (n + 1 + 1) := by omega
    simp only [faulted, hops]
    by_cases hmax : d.errs = usizeMax
    · simp only [hmax, if_true]
    · have hne : ¬d.errs - 1 = usizeMax := by
        unfold usizeMax
        omega
      have herrs : d.errs - 1 - (n + 1) = d.errs - (n + 1 + 1) := by omega
      simp only [hmax, hne, if_false, herrs]

/-! ### One read -/

/-- The number of attempts, what they do to the disk and what the buffer holds after them. -/
structure CountsAttempts (d : Disk) (blk : Nat) (out : Bytes) (lim : Nat) : Prop where
  succeeds : d.errs ≠ usizeMax → lim = 0 ∨ d.errs < lim → d.readBlockN blk out lim =
    (.ok (d.errs + 1), (List.range out.length).map (d.byteOf blk), {d with errs := 0, ops := d.ops + d.errs + 1})
  limited : 0 < lim → lim ≤ d.errs → d.readBlockN blk out lim =
    (.error (.err .limit), out,
      {d with errs := if d.errs = usizeMax then d.errs else d.errs - lim, ops := d.ops + lim})

theorem countsAttempts (hword : d.errs < wordSize) (blk : Nat) (out : Bytes) (lim : Nat) :
    d.CountsAttempts blk out lim := by
  refine ⟨fun hfinite hlim => ?_, fun hpos hlim => ?_⟩
  · rw [readBlockN, readLoopN_succeeds rfl (finite_of_ne hword hfinite) (by omega) (by omega), Nat.zero_add, contents_eq_bytes]
  · obtain ⟨n, rfl⟩ : ∃ n, lim = n + 1 := ⟨lim - 1, by omega⟩
    exact readLoopN_limited (by omega) (by omega) hlim hword

/-! ### Reads one after the other -/

/-- A read with a limit. -/
structure LimitedRead where
  blk : Nat
  out : Bytes
  lim : Nat
  lim_pos : 0 < lim

/-- What each read returns, with its buffer, and the disk after them all. -/
def readAll (d : Disk) : List LimitedRead → List (Except (Stop Errno) Nat × Bytes) × Disk
  | [] => ([], d)
  | r :: rest =>
    let (answer, out, d) := d.readBlockN r.blk r.out r.lim
    let (answers, d) := readAll d rest
    ((answer, out) :: answers, d)

def limits (reads : List LimitedRead) : Nat := (reads.map LimitedRead.lim).sum

/-- The reads take from the faults what their limits allow. Reads that fail up to one that does not find, all
together, what a read without a limit finds, and leave the disk as it does. -/
structure SharesFaults (d : Disk) (reads : List LimitedRead) : Prop where
  faults : (d.readAll reads).2.errs = d.errs - limits reads
  untilOne : ∀ failing last, reads = failing ++ [last] → limits failing ≤ d.errs → d.errs < limits reads →
    d.readAll reads =
      (failing.map (fun r => (.error (.err .limit), r.out)) ++
        [(.ok (d.errs - limits failing + 1), (d.readBlockN last.blk last.out 0).2.1)],
      (d.readBlockN last.blk last.out 0).2.2)

theorem limits_cons (r : LimitedRead) (rest : List LimitedRead) : limits (r :: rest) = r.lim + limits rest := by
  rw [limits, map_cons, sum_cons]
  rfl

theorem readAll_cons {answer : Except (Stop Errno) Nat} {r : LimitedRead}
    (hread : d.readBlockN r.blk r.out r.lim = (answer, buffer, d')) (rest : List LimitedRead) :
    d.readAll (r :: rest) = ((answer, buffer) :: (d'.readAll rest).1, (d'.readAll rest).2) := by
  rw [readAll, hread]

section Finite
variable (hfinite : d.errs < usizeMax)
include hfinite

variable {r last : LimitedRead}

theorem readBlockN_succeeds (hlim : d.errs < r.lim) : d.readBlockN r.blk r.out r.lim =
    (.ok (d.errs + 1), (d.readBlockN r.blk r.out 0).2.1, (d.readBlockN r.blk r.out 0).2.2) := by
  have hword : d.errs < wordSize := Nat.lt_of_lt_of_le hfinite (Nat.sub_le _ _)
  have hne := Nat.ne_of_lt hfinite
  rw [(countsAttempts hword r.blk r.out r.lim).succeeds hne (.inr hlim),
    (countsAttempts hword r.blk r.out 0).succeeds hne (.inl rfl)]

theorem readBlockN_limited (hlim : r.lim ≤ d.errs) : d.readBlockN r.blk r.out r.lim =
    (.error (.err .limit), r.out, {d with errs := d.errs - r.lim, ops := d.ops + r.lim}) := by
  have hword : d.errs < wordSize := Nat.lt_of_lt_of_le hfinite (Nat.sub_le _ _)
  rw [(countsAttempts hword r.blk r.out r.lim).limited r.lim_pos hlim, if_neg (Nat.ne_of_lt hfinite)]

theorem readBlockN_unlimited (blk : Nat) (out : Bytes) : d.readBlockN blk out 0 =
    (.ok (d.errs + 1), d.contents blk out.length, {d with errs := 0, ops := d.ops + d.errs + 1}) := by
  have hword : d.errs < wordSize := Nat.lt_of_lt_of_le hfinite (Nat.sub_le _ _)
  rw [(countsAttempts hword blk out 0).succeeds (Nat.ne_of_lt hfinite) (.inl rfl), contents_eq_bytes]

theorem readAll_faults (reads : List LimitedRead) : (d.readAll reads).2.errs = d.errs - limits reads := by
  induction reads generalizing d with
  | nil => rfl
  | cons r rest ih =>
    rw [limits_cons]
    by_cases hlim : d.errs < r.lim
    · have hzero : (0 : Nat) < usizeMax := Nat.zero_lt_of_lt hfinite
      rw [readAll_cons (readBlockN_succeeds hfinite hlim), readBlockN_unlimited hfinite, ih hzero]
      show 0 - limits rest = _
      omega
    · rw [readAll_cons (readBlockN_limited hfinite (Nat.not_lt.mp hlim)), ih (by dsimp only; omega)]
      exact Nat.sub_sub ..

/-- A read that fails leaves the disk to the next one as a read without a limit would find it. -/
theorem readAll_untilOne {failing : List LimitedRead} (hfailing : limits failing ≤ d.errs)
    (hlast : d.errs < limits failing + last.lim) :
    d.readAll (failing ++ [last]) =
      (failing.map (fun r => (.error (.err .limit), r.out)) ++
        [(.ok (d.errs - limits failing + 1), (d.readBlockN last.blk last.out 0).2.1)],
      (d.readBlockN last.blk last.out 0).2.2) := by
  induction failing generalizing d with
  | nil =>
    have hlim : d.errs < last.lim := by
      rw [← Nat.zero_add last.lim]
      exact hlast
    show d.readAll [last] = _
    rw [readAll_cons (readBlockN_succeeds hfinite hlim)]
    rfl
  | cons r rest ih =>
    rw [limits_cons] at hfailing hlast
    have hfinite' : d.errs - r.lim < usizeMax := by omega
    have hrest := @ih {d with errs := d.errs - r.lim, ops := d.ops + r.lim} hfinite' (by dsimp only; omega)
      (by dsimp only; omega)
    rw [cons_append, readAll_cons (readBlockN_limited hfinite (by omega)), hrest, readBlockN_unlimited hfinite,
      readBlockN_unlimited hfinite', limits_cons]
    have hops : d.ops + r.lim + (d.errs - r.lim) + 1 = d.ops + d.errs + 1 := by omega
    dsimp only
    rw [hops, Nat.sub_sub]
    rfl

end Finite
end Disk

/-- **Attempts and faults** of `read_block_n`, for one read and for a sequence of them. -/
theorem readBlockN_attempts (d : Disk) (hword : d.errs < wordSize) :
    (∀ blk out lim, d.CountsAttempts blk out lim) ∧
      ∀ reads, d.errs ≠ usizeMax → d.SharesFaults reads := by
  refine ⟨fun blk out lim => Disk.countsAttempts hword blk out lim, fun reads hne => ?_⟩
  have hfinite := Disk.finite_of_ne hword hne
  refine ⟨Disk.readAll_faults hfinite reads, fun failing last hreads hfailing hlast => ?_⟩
  have hlimits : Disk.limits reads = Disk.limits failing + last.lim := by
    rw [hreads, Disk.limits, map_append, sum_append]
    rfl
  rw [hlimits] at hlast
  rw [hreads]
  exact Disk.readAll_untilOne hfinite hfailing hlast

/-- Five faults, and three reads that try twice. -/
theorem readBlockN_attempts_five : (Disk.failing 5).errs < wordSize ∧
    (∀ blk out lim, (Disk.failing 5).CountsAttempts blk out lim) ∧
      (Disk.failing 5).SharesFaults (List.replicate 3 ⟨0, [], 2, Nat.two_pos⟩) := by
  have hword : (Disk.failing 5).errs < wordSize := by decide
  obtain ⟨hcounts, hshares⟩ := readBlockN_attempts (Disk.failing 5) hword
  exact ⟨hword, hcounts, hshares _ (by decide)⟩

end ChaosKernel.Fs
