import ChaosKernel.Consts

/-! Pipes.

A pipe is a queue of bytes that its nodes share. A node is a read end or a write
end of one pipe. The pipe keeps a single number for all its nodes, `ends`, and
every question about the other side is answered from it. -/
namespace ChaosKernel.Ipc
open Base

inductive PipeDir where
  | rd
  | wr
  deriving DecidableEq, Repr

structure PipeBuf where
  buf : Bytes
  /-- The flags of the event bus. -/
  ev : Nat
  ends : Int

/-- An end of the pipe `data`. -/
structure PipeNode where
  data : Nat
  dir : PipeDir
  deriving DecidableEq, Repr

namespace PipeBuf

def new : PipeBuf := ⟨[], 0, 2⟩

/-- `Drop` of a node. The count is an `i32`. -/
def dropNode (pipe : PipeBuf) : Option PipeBuf :=
  if pipe.ends = -2 ^ 31 then none
  else some {pipe with ends := pipe.ends - 1, ev := pipe.ev ||| evClosed}

def canWrite (pipe : PipeBuf) (dir : PipeDir) : Bool := dir = .wr ∧ pipe.ends = 2

/-- `read_at` with a buffer of `len` bytes. -/
def readAt (pipe : PipeBuf) (dir : PipeDir) (len : Nat) : Except (Stop Errno) Bytes × PipeBuf :=
  if len = 0 then (.ok [], pipe)
  else if dir ≠ .rd then (.ok [], pipe)
  else if pipe.buf = [] ∧ pipe.ends = 2 then (.error (.err .again), pipe)
  else
    let n := min len pipe.buf.length
    let left := pipe.buf.drop n
    -- the flags are a `u32`
    let ev := if left = [] then pipe.ev &&& (2 ^ 32 - 1 - evReadable) else pipe.ev
    (.ok (pipe.buf.take n), {pipe with buf := left, ev := ev})

def writeAt (pipe : PipeBuf) (dir : PipeDir) (buf : Bytes) : Nat × PipeBuf :=
  if dir ≠ .wr then (0, pipe)
  else (buf.length, {pipe with buf := pipe.buf ++ buf, ev := pipe.ev ||| evReadable})

theorem readAt_ends (pipe : PipeBuf) (dir : PipeDir) (len : Nat) : (pipe.readAt dir len).2.ends = pipe.ends := by
  unfold readAt
  split
  · rfl
  · split
    · rfl
    · split <;> rfl

theorem writeAt_ends (pipe : PipeBuf) (dir : PipeDir) (buf : Bytes) : (pipe.writeAt dir buf).2.ends = pipe.ends := by
  unfold writeAt
  split <;> rfl

theorem readAt_again {pipe : PipeBuf} (hempty : pipe.buf = []) {len : Nat} (hlen : 0 < len) :
    (pipe.readAt .rd len).1 = .error (.err .again) ↔ pipe.ends = 2 := by
  rw [readAt, if_neg (by omega), if_neg (fun h => h rfl)]
  by_cases hends : pipe.ends = 2
  · rw [if_pos ⟨hempty, hends⟩]
    exact iff_of_true rfl hends
  · rw [if_neg (fun h => hends h.2)]
    simp [hends]

theorem canWrite_iff (pipe : PipeBuf) : pipe.canWrite .wr = true ↔ pipe.ends = 2 := by
  simp only [canWrite, decide_eq_true_eq, true_and]

end PipeBuf

end ChaosKernel.Ipc
