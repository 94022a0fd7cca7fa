import ChaosKernel.Base.ByteFile
import ChaosKernel.Base.Run
import ChaosKernel.Memory.FrameAlloc
import ChaosKernel.Proc.Files

/-! A file handle as bytes with an offset.

A handle and its copies share one open file. What the calls should do is said by
`OpenFile`, a file and an offset; the calls of the source do the same but for two. A write
that appends moves the offset from where it was, not from the end of the file where the
bytes went, and a seek to a negative position ends at a position near the largest word
(`handle_bytes_iff`). A splice moves the offset of its source before the target has the
bytes (`splice_iff`). -/
namespace ChaosKernel.Proc
open Base Memory Option

/-- What a call returns, and the caller's buffer after it. -/
abbrev FileAnswer := Except Errno Nat × Bytes

inductive FileOp where
  | read (buf : Bytes)
  | readAt (off : Nat) (buf : Bytes)
  | write (buf : Bytes)
  | writeAt (off : Nat) (buf : Bytes)
  | seek (pos : FSeek)
  | setLen (len : Nat)
  | fallocate (off len : Nat)

/-! ### The calls -/

/-- A vector of more bytes cannot be asked for. -/
def resize? (data : Bytes) (n : Nat) : Option Bytes := if isizeMax < n then none else some (ByteFile.resize data n)

/-- `n` bytes at least. -/
def grown? (data : Bytes) (n : Nat) : Option Bytes := if data.length < n then resize? data n else some data

namespace FdState

/-- A handle that does not block reads in the same way. -/
def readAt (d : FdState) (off : Nat) (buf : Bytes) : FileAnswer :=
  if !d.opt.rd then (.error .ebadf, buf)
  else if d.data.length ≤ off then (.ok 0, buf)
  else
    let n := min buf.length (d.data.length - off)
    (.ok n, (d.data.drop off).take n ++ buf.drop n)

/-- The offset goes on after a result. -/
def advance (d : FdState) (ans : FileAnswer) : Option (FileAnswer × FdState) :=
  match ans.1 with
  | .error _ => some (ans, d)
  | .ok len => (add? d.off len).map fun off => (ans, {d with off := off})

def read (d : FdState) (buf : Bytes) : Option (FileAnswer × FdState) := d.advance (d.readAt d.off buf)

def writeAt (d : FdState) (off : Nat) (buf : Bytes) : Option (FileAnswer × FdState) :=
  if !d.opt.wr then some ((.error .ebadf, []), d)
  else do
    let stop ← add? off buf.length
    let data ← grown? d.data stop
    let data ← overwrite? data off stop buf
    pure ((.ok buf.length, []), {d with data := data})

def write (d : FdState) (buf : Bytes) : Option (FileAnswer × FdState) := do
  let off := if d.opt.ap then d.data.length else d.off
  let (ans, d) ← d.writeAt off buf
  d.advance ans

def setLen (d : FdState) (len : Nat) : Option (FileAnswer × FdState) :=
  if !d.opt.wr then some ((.error .ebadf, []), d)
  else (resize? d.data len).map fun data => ((.ok 0, []), {d with data := data})

def fallocate (d : FdState) (off len : Nat) : Option (FileAnswer × FdState) :=
  if !d.opt.wr then some ((.error .ebadf, []), d)
  else do
    let needed ← add? off len
    let data ← grown? d.data needed
    pure ((.ok 0, []), {d with data := data})

/-- A call on the open file; `none` is a panic. -/
def perform (d : FdState) : FileOp → Option (FileAnswer × FdState)
  | .read buf => d.read buf
  | .readAt off buf => some (d.readAt off buf, d)
  | .write buf => d.write buf
  | .writeAt off buf => d.writeAt off buf
  | .seek pos => (d.moved pos).map fun off => ((.ok off, []), {d with off := off})
  | .setLen len => d.setLen len
  | .fallocate off len => d.fallocate off len

end FdState

/-- A call on a handle. -/
def Files.perform (files : Files) (fh : FHandle) (op : FileOp) : Option (FileAnswer × Files) :=
  files.descs[fh.desc]?.bind fun d => (d.perform op).map fun (ans, d) =>
    (ans, {files with descs := files.descs.set fh.desc d})

/-! ### Bytes and an offset -/

/-- A file that is open at an offset. -/
structure OpenFile where
  file : ByteFile UInt8
  off : Nat

namespace OpenFile

/-- The open file of the source. -/
def of (d : FdState) : OpenFile := ⟨.ofBytes d.data, d.off⟩

/-- The position a seek asks for. -/
def target (s : OpenFile) : FSeek → Int
  | .start o => o
  | .fromEnd o => s.file.len + o
  | .cur o => s.off + o

/-- The buffer with what a read got in front. -/
def filled (got buf : Bytes) : FileAnswer := (.ok got.length, got ++ buf.drop got.length)

def refused (buf : Bytes) : FileAnswer := (.error .ebadf, buf)

/-- What a call should do. -/
def perform (opt : FdOpt) (s : OpenFile) : FileOp → FileAnswer × OpenFile
  | .read buf =>
    if !opt.rd then (refused buf, s)
    else
      let got := s.file.bytesAt s.off buf.length
      (filled got buf, {s with off := s.off + got.length})
  | .readAt off buf => if !opt.rd then (refused buf, s) else (filled (s.file.bytesAt off buf.length) buf, s)
  | .write buf =>
    if !opt.wr then (refused [], s)
    else
      let off := if opt.ap then s.file.len else s.off
      ((.ok buf.length, []), ⟨s.file.put off buf, off + buf.length⟩)
  | .writeAt off buf =>
    if !opt.wr then (refused [], s) else ((.ok buf.length, []), {s with file := s.file.put off buf})
  | .seek pos =>
    if s.target pos < 0 then ((.error .einval, []), s)
    else ((.ok (s.target pos).toNat, []), {s with off := (s.target pos).toNat})
  | .setLen len => if !opt.wr then (refused [], s) else ((.ok 0, []), {s with file := s.file.setLen len})
  | .fallocate off len =>
    if !opt.wr then (refused [], s) else ((.ok 0, []), {s with file := s.file.reserve (off + len)})

/-- No seek asks for a position that is no word. -/
def Small (s : OpenFile) : FileOp → Prop
  | .seek pos => s.target pos < wordSize
  | _ => True

end OpenFile

/-! ### One call -/

/-- The offset is a word, and the bytes are a vector. -/
structure FdState.Sized (d : FdState) : Prop where
  off : d.off < wordSize
  len : d.data.length ≤ isizeMax

open OpenFile ByteFile

section Call
variable {d d' : FdState} {ans : FileAnswer}

theorem readAt_eq (d : FdState) (off : Nat) (buf : Bytes) : d.readAt off buf =
    if !d.opt.rd then refused buf else filled ((ofBytes d.data).bytesAt off buf.length) buf := by
  unfold FdState.readAt
  split
  · rfl
  · rw [bytesAt_ofBytes, filled]
    split
    · next hend => rw [Nat.sub_eq_zero_of_le hend, Nat.min_zero, List.take_zero, List.length_nil, List.drop_zero,
        List.nil_append]
    · rw [List.length_take, List.length_drop, Nat.min_eq_left (Nat.min_le_right _ _)]

variable {data data' buf : Bytes} {off len n base : Nat} {pos : FSeek} {s : OpenFile} {op : FileOp}

theorem resize?_eq_some (h : resize? data n = some data') :
    data' = resize data n ∧ data'.length ≤ isizeMax := by
  simp only [resize?, ite_none_left_eq_some, some.injEq] at h
  obtain ⟨hmax, rfl⟩ := h
  exact ⟨rfl, by rw [length_resize]; exact Nat.le_of_not_lt hmax⟩

theorem grown?_eq_some (hlen : data.length ≤ isizeMax) (h : grown? data n = some data') :
    ofBytes data' = (ofBytes data).reserve n ∧ data'.length ≤ isizeMax := by
  unfold grown? at h
  split at h
  · next hlt =>
    obtain ⟨rfl, hmax⟩ := resize?_eq_some h
    exact ⟨ofBytes_grow hlt.le, hmax⟩
  · next hge =>
    cases h
    exact ⟨(reserve_of_le (Nat.le_of_not_lt hge)).symm, hlen⟩

/-- What a write at a place does. -/
inductive WroteAt (d : FdState) (off : Nat) (buf : Bytes) : FileAnswer × FdState → Prop
  | refused (hwr : d.opt.wr = false) : WroteAt d off buf (refused [], d)
  | done {data : Bytes} (hwr : d.opt.wr = true) (hdata : ofBytes data = (ofBytes d.data).put off buf)
    (hlen : data.length ≤ isizeMax) : WroteAt d off buf ((.ok buf.length, []), {d with data := data})

theorem writeAt_wrote (hd : d.Sized) {r : FileAnswer × FdState} (h : d.writeAt off buf = some r) :
    WroteAt d off buf r := by
  unfold FdState.writeAt at h
  cases hwr : d.opt.wr with
  | false =>
    rw [hwr] at h
    cases h
    exact .refused hwr
  | true =>
    rw [hwr] at h
    simp only [Bool.not_true, Bool.false_eq_true, if_false] at h
    obtain ⟨stop, hstop, h⟩ := bind_eq_some_iff.mp h
    obtain ⟨rfl, _⟩ := add?_eq_some hstop
    obtain ⟨grown, hgrown, h⟩ := bind_eq_some_iff.mp h
    obtain ⟨data, hdata, h⟩ := bind_eq_some_iff.mp h
    cases h
    obtain ⟨hreserve, hlen⟩ := grown?_eq_some hd.len hgrown
    have hput := ofBytes_overwrite hdata
    have hsame : data.length = max grown.length (off + buf.length) := congrArg ByteFile.len hput
    have hroom : grown.length = max d.data.length (off + buf.length) := congrArg ByteFile.len hreserve
    rw [hreserve, put_reserve] at hput
    exact .done hwr hput (by omega)

theorem asUsize_moved {o : Int} (h : (addI64? (asIsize base) o).map asUsize = some off)
    (hle : 0 ≤ (base : Int) + o) (hlt : (base : Int) + o < (wordSize : Int)) :
    off = ((base : Int) + o).toNat := by
  obtain ⟨sum, hsum, hoff⟩ := map_eq_some_iff.mp h
  unfold addI64? at hsum
  rw [ite_none_right_eq_some] at hsum
  have hmod : (asIsize base + o) % 2 ^ 64 = ((base : Int) + o) % 2 ^ 64 := by
    rw [asIsize_eq]
    split <;> omega
  have hword : (wordSize : Int) = 2 ^ 64 := by norm_num [wordSize]
  rw [← hoff, ← some.inj hsum.2, asUsize, hmod, Int.emod_eq_of_lt hle (hword ▸ hlt)]

theorem moved_eq_target (h : d.moved pos = some off) (hle : 0 ≤ (OpenFile.of d).target pos)
    (hlt : (OpenFile.of d).target pos < wordSize) : off = ((OpenFile.of d).target pos).toNat := by
  cases pos with
  | start o =>
    cases h
    rfl
  | fromEnd o => exact asUsize_moved h hle hlt
  | cur o => exact asUsize_moved h hle hlt

/-- Only a position from the start is taken as it is. -/
theorem moved_lt (h : d.moved pos = some off) (hlt : s.target pos < wordSize) : off < wordSize := by
  have hword (a : Int) : asUsize a < wordSize := by
    simp only [asUsize, wordSize]
    omega
  cases pos with
  | start o =>
    cases h
    exact Int.ofNat_lt.mp hlt
  | fromEnd o =>
    rw [FdState.moved] at h
    obtain ⟨sum, _, hoff⟩ := map_eq_some_iff.mp h
    rw [← hoff]
    exact hword sum
  | cur o =>
    rw [FdState.moved] at h
    obtain ⟨sum, _, hoff⟩ := map_eq_some_iff.mp h
    rw [← hoff]
    exact hword sum

/-- The calls that may go wrong, where they do not: an append finds the offset at the end, and a seek goes to a
position that is not negative. -/
def FdState.Careful (d : FdState) : FileOp → Prop
  | .write _ => d.opt.wr = true → d.opt.ap = true → d.off = d.data.length
  | .seek pos => 0 ≤ (OpenFile.of d).target pos
  | _ => True

theorem advance_eq_some (h : d.advance (.ok len, buf) = some (ans, d')) :
    ans = (.ok len, buf) ∧ d' = {d with off := d.off + len} ∧ d.off + len < wordSize := by
  obtain ⟨off, hoff, h⟩ := map_eq_some_iff.mp h
  obtain ⟨rfl, hlt⟩ := add?_eq_some hoff
  cases h
  exact ⟨rfl, rfl, hlt⟩

/-- What stays in its type. -/
structure Kept (d d' : FdState) : Prop where
  sized : d'.Sized
  opt : d'.opt = d.opt

theorem read_spec (hd : d.Sized) (h : d.read buf = some (ans, d')) :
    (ans, OpenFile.of d') = (OpenFile.of d).perform d.opt (.read buf) ∧ Kept d d' := by
  rw [FdState.read, readAt_eq] at h
  rw [OpenFile.perform]
  cases hrd : d.opt.rd with
  | false =>
    rw [hrd] at h
    cases h
    exact ⟨rfl, hd, rfl⟩
  | true =>
    rw [hrd] at h
    obtain ⟨rfl, rfl, hlt⟩ := advance_eq_some h
    exact ⟨rfl, ⟨hlt, hd.len⟩, rfl⟩

theorem readAt_spec (d : FdState) (off : Nat) (buf : Bytes) :
    (d.readAt off buf, OpenFile.of d) = (OpenFile.of d).perform d.opt (.readAt off buf) := by
  rw [readAt_eq, OpenFile.perform]
  cases d.opt.rd <;> rfl

theorem writeAt_spec (hd : d.Sized) (h : d.writeAt off buf = some (ans, d')) :
    (ans, OpenFile.of d') = (OpenFile.of d).perform d.opt (.writeAt off buf) ∧ Kept d d' := by
  rw [OpenFile.perform]
  cases writeAt_wrote hd h with
  | refused hwr =>
    rw [hwr]
    exact ⟨rfl, hd, rfl⟩
  | done hwr hdata hlen =>
    rw [hwr, OpenFile.of, hdata]
    exact ⟨rfl, ⟨hd.off, hlen⟩, rfl⟩

/-- An append moves the offset from where it was. -/
theorem write_spec (hd : d.Sized) (h : d.write buf = some (ans, d')) :
    ((ans, OpenFile.of d') = (OpenFile.of d).perform d.opt (.write buf) ↔ d.Careful (.write buf)) ∧ Kept d d' := by
  obtain ⟨⟨ans₁, d₁⟩, hwrite, h⟩ := bind_eq_some_iff.mp h
  rw [OpenFile.perform, FdState.Careful]
  cases writeAt_wrote hd hwrite with
  | refused hwr =>
    cases h
    rw [hwr]
    exact ⟨iff_of_true rfl fun hwr => absurd hwr Bool.false_ne_true, hd, rfl⟩
  | done hwr hdata hlen =>
    obtain ⟨rfl, rfl, hlt⟩ := advance_eq_some h
    refine ⟨?_, ⟨hlt, hlen⟩, rfl⟩
    rw [hwr, OpenFile.of, hdata]
    cases hap : d.opt.ap with
    | false => exact iff_of_true rfl fun _ hap => absurd hap Bool.false_ne_true
    | true =>
      simp only [Bool.not_true, Bool.false_eq_true, if_false, if_true, Prod.mk.injEq, true_and, OpenFile.mk.injEq,
        forall_const, Nat.add_right_cancel_iff]
      show _ ∧ d.off = d.data.length ↔ _
      exact and_iff_right rfl

/-- A seek to a negative position ends somewhere else. -/
theorem seek_spec (hsmall : (OpenFile.of d).target pos < wordSize)
    (h : d.perform (.seek pos) = some (ans, d')) :
    (ans, OpenFile.of d') = (OpenFile.of d).perform d.opt (.seek pos) ↔ 0 ≤ (OpenFile.of d).target pos := by
  obtain ⟨off, hmoved, h⟩ := map_eq_some_iff.mp h
  cases h
  rw [OpenFile.perform]
  by_cases hneg : (OpenFile.of d).target pos < 0
  · rw [if_pos hneg]
    exact iff_of_false (fun h => by cases h) (Int.not_le.mpr hneg)
  · rw [if_neg hneg, ← moved_eq_target hmoved (Int.not_lt.mp hneg) hsmall]
    exact iff_of_true rfl (Int.not_lt.mp hneg)

theorem setLen_spec (hd : d.Sized) (h : d.setLen len = some (ans, d')) :
    (ans, OpenFile.of d') = (OpenFile.of d).perform d.opt (.setLen len) ∧ Kept d d' := by
  rw [FdState.setLen] at h
  rw [OpenFile.perform]
  cases hwr : d.opt.wr with
  | false =>
    rw [hwr] at h
    cases h
    exact ⟨rfl, hd, rfl⟩
  | true =>
    rw [hwr] at h
    obtain ⟨data, hdata, h⟩ := map_eq_some_iff.mp h
    obtain ⟨rfl, hlen⟩ := resize?_eq_some hdata
    cases h
    rw [OpenFile.of, ofBytes_resize]
    exact ⟨rfl, ⟨hd.off, hlen⟩, rfl⟩

theorem fallocate_spec (hd : d.Sized) (h : d.fallocate off len = some (ans, d')) :
    (ans, OpenFile.of d') = (OpenFile.of d).perform d.opt (.fallocate off len) ∧ Kept d d' := by
  rw [FdState.fallocate] at h
  rw [OpenFile.perform]
  cases hwr : d.opt.wr with
  | false =>
    rw [hwr] at h
    cases h
    exact ⟨rfl, hd, rfl⟩
  | true =>
    rw [hwr] at h
    obtain ⟨needed, hneeded, h⟩ := bind_eq_some_iff.mp h
    obtain ⟨rfl, _⟩ := add?_eq_some hneeded
    obtain ⟨data, hdata, h⟩ := bind_eq_some_iff.mp h
    obtain ⟨hreserve, hlen⟩ := grown?_eq_some hd.len hdata
    cases h
    rw [OpenFile.of, hreserve]
    exact ⟨rfl, ⟨hd.off, hlen⟩, rfl⟩

theorem perform_kept (hd : d.Sized) (hsmall : s.Small op) (h : d.perform op = some (ans, d')) : Kept d d' := by
  cases op with
  | read buf => exact (read_spec hd h).2
  | readAt off buf =>
    cases h
    exact ⟨hd, rfl⟩
  | write buf => exact (write_spec hd h).2
  | writeAt off buf => exact (writeAt_spec hd h).2
  | seek pos =>
    obtain ⟨off, hmoved, h⟩ := map_eq_some_iff.mp h
    cases h
    exact ⟨⟨moved_lt hmoved hsmall, hd.len⟩, rfl⟩
  | setLen len => exact (setLen_spec hd h).2
  | fallocate off len => exact (fallocate_spec hd h).2

/-- A call does what it should exactly where it is careful. -/
theorem perform_spec (hd : d.Sized) (hsmall : (OpenFile.of d).Small op) (h : d.perform op = some (ans, d')) :
    (ans, OpenFile.of d') = (OpenFile.of d).perform d.opt op ↔ d.Careful op := by
  cases op with
  | read buf => exact iff_of_true (read_spec hd h).1 trivial
  | readAt off buf =>
    cases h
    exact iff_of_true (readAt_spec d off buf) trivial
  | write buf => exact (write_spec hd h).1
  | writeAt off buf => exact iff_of_true (writeAt_spec hd h).1 trivial
  | seek pos => exact seek_spec hsmall h
  | setLen len => exact iff_of_true (setLen_spec hd h).1 trivial
  | fallocate off len => exact iff_of_true (fallocate_spec hd h).1 trivial

end Call

/-! ### The calls through `FLike::File` -/

namespace FdState

def flikeRead (d : FdState) (buf : Bytes) : Option (FileAnswer × FdState) :=
  if buf = [] then some ((.ok 0, buf), d)
  else if !d.opt.rd then some ((.error .ebadf, buf), d)
  else if d.data.length ≤ d.off then some ((.ok 0, buf), d)
  else
    let avail := d.data.length - d.off
    let n := if buf.length < avail then buf.length else avail
    d.advance (.ok n, (d.data.drop d.off).take n ++ buf.drop n)

/-- The offset ends behind the bytes, also after an append. -/
def flikeWrite (d : FdState) (buf : Bytes) : Option (FileAnswer × FdState) :=
  if buf = [] then some ((.ok 0, []), d)
  else if !d.opt.wr then some ((.error .ebadf, []), d)
  else do
    let off := if d.opt.ap then d.data.length else d.off
    let stop ← add? off buf.length
    let data ← grown? d.data stop
    let data ← overwrite? data off stop buf
    pure ((.ok buf.length, []), {d with data := data, off := stop})

variable {d : FdState} {buf : Bytes}

theorem advance_ok {len : Nat} (h : d.off + len < wordSize) :
    d.advance (.ok len, buf) = some ((.ok len, buf), {d with off := d.off + len}) := by
  rw [advance]
  exact congrArg (Option.map _) (add?_of_lt h)

theorem flikeRead_eq (hd : d.Sized) (hbuf : buf ≠ []) : d.flikeRead buf = d.read buf := by
  rw [flikeRead, if_neg hbuf, read, readAt]
  cases d.opt.rd with
  | false => rfl
  | true =>
    simp only [Bool.not_true, Bool.false_eq_true, if_false, ← min_def_lt]
    split
    · exact (advance_ok hd.off).symm
    · rfl

theorem write_eq_flikeWrite (hbuf : buf ≠ []) (hoff : d.off + buf.length < wordSize) (hwr : d.opt.wr = true) :
    d.write buf = (d.flikeWrite buf).map fun r => (r.1, {r.2 with off := d.off + buf.length}) := by
  rw [flikeWrite, if_neg hbuf, write, writeAt, hwr]
  generalize (if d.opt.ap then d.data.length else d.off) = off
  simp only [Bool.not_true, Bool.false_eq_true, if_false, bind_eq_bind]
  cases add? off buf.length with
  | none => rfl
  | some stop =>
    rw [bind_some, bind_some]
    cases grown? d.data stop with
    | none => rfl
    | some grown =>
      rw [bind_some, bind_some]
      cases overwrite? grown off stop buf with
      | none => rfl
      | some data => exact advance_ok hoff

theorem flikeWrite_append (hbuf : buf ≠ []) (hwr : d.opt.wr = true) (hap : d.opt.ap = true) :
    (∃ r, d.flikeWrite buf = some r) ↔ d.data.length + buf.length ≤ isizeMax := by
  have hlt : d.data.length < d.data.length + buf.length := Nat.lt_add_of_pos_right (List.length_pos_iff.mpr hbuf)
  rw [flikeWrite, if_neg hbuf, hwr, hap]
  simp only [Bool.not_true, Bool.false_eq_true, if_false, if_true, bind_eq_bind]
  constructor
  · intro h
    obtain ⟨r, h⟩ := h
    obtain ⟨stop, hstop, h⟩ := bind_eq_some_iff.mp h
    obtain ⟨rfl, _⟩ := add?_eq_some hstop
    obtain ⟨grown, hgrown, _⟩ := bind_eq_some_iff.mp h
    rw [grown?, if_pos hlt, resize?, ite_none_left_eq_some] at hgrown
    exact Nat.le_of_not_lt hgrown.1
  · intro h
    have hword : isizeMax < wordSize := by decide +kernel
    rw [add?_of_lt (h.trans_lt hword), bind_some, grown?, if_pos hlt, resize?, if_neg (Nat.not_lt.mpr h),
      bind_some, overwrite?_eq_some (Nat.le_add_right _ _) (ByteFile.length_resize ..).ge (by omega)]
    exact ⟨_, rfl⟩

theorem flikeWrite_off {r : FileAnswer × FdState} (hbuf : buf ≠ []) (hwr : d.opt.wr = true)
    (h : d.flikeWrite buf = some r) : r.2.off = (if d.opt.ap then d.data.length else d.off) + buf.length := by
  rw [flikeWrite, if_neg hbuf, hwr] at h
  obtain ⟨stop, hstop, h⟩ := bind_eq_some_iff.mp h
  obtain ⟨grown, _, h⟩ := bind_eq_some_iff.mp h
  obtain ⟨data, _, h⟩ := bind_eq_some_iff.mp h
  cases h
  exact (add?_eq_some hstop).1

/-- **A file reads and writes in the same way through both interfaces exactly where it does not append away from its
offset.** -/
theorem flike_agrees_iff (d : FdState) (buf : Bytes) (hd : d.Sized) (hbuf : buf ≠ [])
    (hoff : d.off + buf.length < wordSize) :
    (d.flikeRead buf = d.read buf ∧ d.flikeWrite buf = d.write buf) ↔
      ¬(d.opt.wr = true ∧ d.opt.ap = true ∧ d.off ≠ d.data.length ∧ d.data.length + buf.length ≤ isizeMax) := by
  rw [and_iff_right (flikeRead_eq hd hbuf)]
  cases hwr : d.opt.wr with
  | false =>
    rw [flikeWrite, if_neg hbuf, write, writeAt, hwr]
    exact iff_of_true rfl (by simp)
  | true =>
    rw [write_eq_flikeWrite hbuf hoff hwr]
    cases hw : d.flikeWrite buf with
    | none =>
      refine iff_of_true rfl fun h => ?_
      obtain ⟨r, hr⟩ := (flikeWrite_append hbuf hwr h.2.1).mpr h.2.2.2
      exact some_ne_none r (hr.symm.trans hw)
    | some r =>
      have hend := flikeWrite_off hbuf hwr hw
      have heq : some r = some (r.1, {r.2 with off := d.off + buf.length}) ↔ r.2.off = d.off + buf.length :=
        ⟨fun h => congrArg (fun r => r.2.off) (some.inj h), fun h => by rw [← h]⟩
      rw [map_some, heq, hend]
      cases hap : d.opt.ap with
      | false => exact iff_of_true rfl (by simp)
      | true =>
        have hfits := (flikeWrite_append hbuf hwr hap).mp ⟨r, hw⟩
        simp only [if_true, true_and]
        omega

theorem flike_agrees_iff_inside : flikeWrite ⟨1, ⟨true, true, false, false⟩, 0, [7, 8]⟩ [9] =
    write ⟨1, ⟨true, true, false, false⟩, 0, [7, 8]⟩ [9] :=
  ((flike_agrees_iff _ [9] ⟨by decide, by decide +kernel⟩ (by decide) (by decide)).mpr (by simp)).2

/-- A byte is appended to two, at offset 0. -/
theorem flike_append_moves :
    (flikeWrite ⟨0, ⟨true, true, true, false⟩, 0, [7, 8]⟩ [9]).map (fun r => (r.2.data, r.2.off)) =
      some ([7, 8, 9], 3) ∧
    (write ⟨0, ⟨true, true, true, false⟩, 0, [7, 8]⟩ [9]).map (fun r => (r.2.data, r.2.off)) =
      some ([7, 8, 9], 1) := by
  decide +kernel

end FdState

/-! ### `splice_to` -/

def Files.spliceTo (files : Files) (src dst : FHandle) (count : Nat) : Option (Except Errno Nat × Files) :=
  files.descs[src.desc]?.bind fun s =>
    if s.data.length ≤ s.off then some (.ok 0, files)
    else
      let n := min count (s.data.length - s.off)
      let chunk := (s.data.drop s.off).take n
      let files := {files with descs := files.descs.set src.desc {s with off := s.off + n}}
      (files.perform dst (.write chunk)).map fun r => (r.1.1, r.2)

/-- All the bytes there are go to the target in one write, or nothing changes. -/
def Spliced (files files' : Files) (src dst : FHandle) (s d : FdState) (count : Nat) : Except Errno Nat → Prop
  | .ok n => n = min count (s.data.length - s.off) ∧
    files'.descs[src.desc]?.map FdState.off = some (s.off + n) ∧
    (s.data.length ≤ s.off ∨ ∃ d', d.write ((s.data.drop s.off).take n) = some ((.ok n, []), d') ∧
      files'.descs[dst.desc]? = some d')
  | .error _ => files'.descs = files.descs

theorem FdState.write_some {d : FdState} {buf : Bytes} {r : FileAnswer × FdState} (h : d.write buf = some r) :
    d.opt.wr = false ∧ r = ((.error .ebadf, []), d) ∨
      d.opt.wr = true ∧ r.1 = (.ok buf.length, []) ∧ r.2.off = d.off + buf.length := by
  obtain ⟨⟨ans, d'⟩, hat, h⟩ := bind_eq_some_iff.mp h
  rw [writeAt] at hat
  cases hwr : d.opt.wr with
  | false =>
    rw [hwr] at hat
    cases hat
    cases h
    exact .inl ⟨rfl, rfl⟩
  | true =>
    rw [hwr] at hat
    obtain ⟨stop, _, hat⟩ := bind_eq_some_iff.mp hat
    obtain ⟨grown, _, hat⟩ := bind_eq_some_iff.mp hat
    obtain ⟨data, _, hat⟩ := bind_eq_some_iff.mp hat
    cases hat
    obtain ⟨hans, hd', _⟩ := advance_eq_some h
    exact .inr ⟨rfl, hans, by rw [hd']⟩

theorem set_off_eq_self_iff {descs : List FdState} {i n : Nat} {s : FdState} (hs : descs[i]? = some s) :
    descs.set i {s with off := s.off + n} = descs ↔ n = 0 := by
  obtain ⟨hlt, rfl⟩ := List.getElem?_eq_some_iff.mp hs
  constructor
  · intro heq
    have hoff := congrArg (fun l => l[i]?.map FdState.off) heq
    simpa [hlt] using hoff
  · rintro rfl
    exact List.set_getElem_self hlt

/-- **A splice is all or nothing exactly where there is nothing to move, or the target takes the bytes and is another
open file.** -/
theorem splice_iff (files files' : Files) (src dst : FHandle) (s d : FdState) (count : Nat) (ans : Except Errno Nat)
    (hs : files.descs[src.desc]? = some s) (hd : files.descs[dst.desc]? = some d)
    (h : files.spliceTo src dst count = some (ans, files')) :
    Spliced files files' src dst s d count ans ↔
      min count (s.data.length - s.off) = 0 ∨ d.opt.wr = true ∧ src.desc ≠ dst.desc := by
  rw [Files.spliceTo, hs, bind_some] at h
  split at h
  · next hend =>
    cases h
    have hzero : min count (s.data.length - s.off) = 0 := by omega
    exact iff_of_true ⟨hzero.symm, by rw [hs]; rfl, .inl hend⟩ (.inl hzero)
  · next hlt =>
    generalize hn : min count (s.data.length - s.off) = n at *
    have hlen : ((s.data.drop s.off).take n).length = n := by
      rw [List.length_take, List.length_drop]
      omega
    have hsrc := (List.getElem?_eq_some_iff.mp hs).1
    obtain ⟨⟨_, _⟩, hperform, h⟩ := map_eq_some_iff.mp h
    cases h
    obtain ⟨d₁, hd₁, hperform⟩ := bind_eq_some_iff.mp hperform
    obtain ⟨⟨ans₁, d'⟩, hwrite, hperform⟩ := map_eq_some_iff.mp hperform
    cases hperform
    by_cases hsd : src.desc = dst.desc
    · rw [← hsd] at hd hd₁
      obtain rfl := some.inj (hs.symm.trans hd)
      obtain rfl := some.inj ((List.getElem?_set_self hsrc).symm.trans hd₁)
      simp only [← hsd, ne_eq, not_true, and_false, or_false]
      rcases FdState.write_some hwrite with ⟨hwr, heq⟩ | ⟨hwr, heq, hoff⟩
      · cases heq
        rw [Spliced, List.set_set, set_off_eq_self_iff hs]
      · cases heq
        rw [Spliced, List.set_set, hlen, hn, List.getElem?_set_self hsrc]
        constructor
        · intro h
          have := some.inj h.2.1
          dsimp only at hoff
          omega
        · rintro rfl
          exact ⟨rfl, congrArg some hoff, .inr ⟨d', hwrite, by rw [← hsd]; exact List.getElem?_set_self hsrc⟩⟩
    · obtain rfl := some.inj (hd₁.symm.trans ((List.getElem?_set_ne hsd).trans hd))
      rcases FdState.write_some hwrite with ⟨hwr, heq⟩ | ⟨hwr, heq, _⟩
      · cases heq
        obtain ⟨hlt₁, heq⟩ := List.getElem?_eq_some_iff.mp hd₁
        rw [Spliced, ← heq, List.set_getElem_self, set_off_eq_self_iff hs, heq, hwr]
        simp
      · cases heq
        rw [hlen] at *
        refine iff_of_true ⟨hn.symm, ?_, .inr ⟨d', hwrite, List.getElem?_set_self ?_⟩⟩ (.inr ⟨hwr, hsd⟩)
        · rw [List.getElem?_set_ne (Ne.symm hsd), List.getElem?_set_self hsrc]
          rfl
        · rw [List.length_set]
          exact (List.getElem?_eq_some_iff.mp hd).1

def twoFiles : Files :=
  ⟨∅, [⟨0, ⟨true, true, false, false⟩, 0, [7, 8]⟩, ⟨0, ⟨true, true, false, false⟩, 0, [5]⟩], []⟩

theorem splice_iff_other : ∃ ans files' s d,
    twoFiles.spliceTo ⟨"a", 1, 0, false, false⟩ ⟨"b", 2, 1, false, false⟩ 1 = some (ans, files') ∧
      Spliced twoFiles files' ⟨"a", 1, 0, false, false⟩ ⟨"b", 2, 1, false, false⟩ s d 1 ans :=
  ⟨_, _, _, _, rfl, (splice_iff _ _ _ _ _ _ _ _ rfl rfl rfl).mpr (.inr ⟨rfl, by decide⟩)⟩

end ChaosKernel.Proc
