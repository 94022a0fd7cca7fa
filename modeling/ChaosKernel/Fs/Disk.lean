import ChaosKernel.Consts

/-! The simulated disk.

Blocks are 512 bytes. A block that was never written reads as `0xAA`. `errs`
injects faults: a write fails while it is not zero, and a read counts it down and
tries again, forever when it is the largest word. -/
namespace ChaosKernel.Fs
open Base List

/-- `[u8; 512]`. -/
structure Block where
  bytes : Bytes
  size : bytes.length = blockSz
  deriving DecidableEq

/-- The first 512 bytes of `data`, filled up with zeros. -/
def Block.ofBytes (data : Bytes) : Block where
  bytes := data.take blockSz ++ List.replicate (blockSz - data.length) 0
  size := by
    rw [length_append, length_take, length_replicate]
    omega

theorem Block.ofBytes_bytes {data : Bytes} (h : data.length = blockSz) :
    (Block.ofBytes data).bytes = data := by
  simp [Block.ofBytes, h, take_of_length_le]

structure Disk where
  blocks : BTreeMap Block
  errs : Nat
  ops : Nat

namespace Disk

def new : Disk := ⟨∅, 0, 0⟩

/-- The first `n` attempts fail. -/
def failing (n : Nat) : Disk := ⟨∅, n, 0⟩

/-- What a read that succeeds leaves in a buffer of `len` bytes. -/
def contents (d : Disk) (blk len : Nat) : Bytes :=
  match d.blocks[blk]? with
  | some data => data.bytes.take (min len blockSz) ++ List.replicate (len - min len blockSz) 0
  | none => List.replicate len 0xAA

/-- The retry loop of `read_block`; a run out of `fuel` has not returned. -/
def readLoop (blk len : Nat) : Nat → Disk → Except (Stop Errno) Bytes × Disk
  | 0, d => (.error .hang, d)
  | fuel + 1, d =>
    let d := {d with ops := d.ops + 1}
    if d.errs = 0 then (.ok (d.contents blk len), d)
    else readLoop blk len fuel (if d.errs = usizeMax then d else {d with errs := d.errs - 1})

/-- `errs + 1` rounds are all the loop makes, unless it makes infinitely many. -/
def readBlock (d : Disk) (blk len : Nat) : Except (Stop Errno) Bytes × Disk :=
  readLoop blk len (d.errs + 1) d

def writeBlock (d : Disk) (blk : Nat) (data : Bytes) : Except (Stop Errno) Unit × Disk :=
  let d := {d with ops := d.ops + 1}
  if d.errs = 0 then (.ok (), {d with blocks := d.blocks.insert blk (Block.ofBytes data)})
  else (.error (.err .ioError), if d.errs = usizeMax then d else {d with errs := d.errs - 1})

/-! ### A disk without faults -/

theorem contents_length (d : Disk) (blk : Nat) : (d.contents blk blockSz).length = blockSz := by
  unfold contents
  split
  · rename_i data _
    have := data.size
    rw [length_append, length_take, length_replicate]
    omega
  · exact length_replicate

variable {d : Disk}

theorem readBlock_healthy (h : d.errs = 0) (blk len : Nat) :
    d.readBlock blk len = (.ok (d.contents blk len), {d with ops := d.ops + 1}) := by
  simp only [readBlock, readLoop, h, if_true]
  rfl

theorem writeBlock_healthy (h : d.errs = 0) (blk : Nat) (data : Bytes) :
    d.writeBlock blk data =
      (.ok (), {d with ops := d.ops + 1, blocks := d.blocks.insert blk (Block.ofBytes data)}) := by
  simp only [writeBlock, h, if_true]

theorem writeBlock_errs_le (d : Disk) (blk : Nat) (data : Bytes) : (d.writeBlock blk data).2.errs ≤ d.errs := by
  unfold writeBlock
  dsimp only
  split
  · exact Nat.le_refl _
  · split
    · exact Nat.le_refl _
    · exact Nat.sub_le ..

theorem writeBlock_contents {blk other : Nat} (hne : blk ≠ other) (data : Bytes) (len : Nat) :
    (d.writeBlock blk data).2.contents other len = d.contents other len := by
  have hget : (d.writeBlock blk data).2.blocks[other]? = d.blocks[other]? := by
    simp only [writeBlock]
    split
    · rw [get_insert, if_neg hne]
    · split <;> rfl
  simp only [contents, hget]

theorem writeBlock_contents_self (h : d.errs = 0) (blk : Nat) {data : Bytes} (hdata : data.length = blockSz) :
    (d.writeBlock blk data).2.contents blk blockSz = data := by
  simp only [writeBlock_healthy h, contents, get_insert, if_true, Block.ofBytes_bytes hdata, Nat.min_self,
    Nat.sub_self, replicate_zero, append_nil]
  exact take_of_length_le (Nat.le_of_eq hdata)

/-! ### A disk with some faults left -/

theorem finite_of_ne (hword : d.errs < wordSize) (hne : d.errs ≠ usizeMax) : d.errs < usizeMax := by
  unfold usizeMax at hne ⊢
  omega

theorem readLoop_finite (blk len n : Nat) (hn : d.errs = n) (h : n < usizeMax) :
    readLoop blk len (n + 1) d = (.ok (d.contents blk len), {d with errs := 0, ops := d.ops + n + 1}) := by
  induction n generalizing d with
  | zero =>
    simp only [readLoop, hn, if_true]
    rfl
  | succ n ih =>
    have hne : ¬d.errs = 0 := by omega
    have hmax : ¬d.errs = usizeMax := by omega
    have hrest := @ih {d with ops := d.ops + 1, errs := d.errs - 1} (by rw [hn]; rfl) (by omega)
    rw [readLoop]
    simp only [hne, hmax, if_false]
    rw [hrest]
    simp only [Prod.mk.injEq, Disk.mk.injEq, true_and]
    exact ⟨rfl, by omega⟩

theorem readBlock_finite (h : d.errs < usizeMax) (blk len : Nat) :
    d.readBlock blk len =
      (.ok (d.contents blk len), {d with errs := 0, ops := d.ops + d.errs + 1}) :=
  readLoop_finite blk len d.errs rfl h

theorem writeBlock_faulty (h0 : d.errs ≠ 0) (h : d.errs < usizeMax) (blk : Nat) (data : Bytes) :
    d.writeBlock blk data = (.error (.err .ioError), {d with ops := d.ops + 1, errs := d.errs - 1}) := by
  simp only [writeBlock, h0, Nat.ne_of_lt h, if_false]

end Disk
end ChaosKernel.Fs
