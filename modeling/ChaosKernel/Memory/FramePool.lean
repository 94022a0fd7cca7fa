import ChaosKernel.Base.Bitmap
import ChaosKernel.Consts

/-! The pool of physical frames.

`slots` marks the free frames, and `frameData` holds the bytes of the frames that
were ever written; a frame that never was reads as zeros. -/
namespace ChaosKernel.Memory
open Base List

/-- `[u8; 4096]`. -/
structure Frame where
  bytes : Bytes
  size : bytes.length = pageSz
  deriving DecidableEq

def Frame.zero : Frame := ⟨List.replicate pageSz 0, length_replicate⟩

/-- The frame with `data` stored from `offset` on. What does not fit is dropped. -/
def Frame.write (frame : Frame) (offset : Nat) (data : Bytes) (h : offset ≤ pageSz) : Frame where
  bytes :=
    let n := min data.length (pageSz - offset)
    frame.bytes.take offset ++ data.take n ++ frame.bytes.drop (offset + n)
  size := by
    simp only [length_append, length_take, length_drop, frame.size]
    omega

theorem Frame.write_bytes (frame : Frame) {offset : Nat} (data : Bytes) (h : offset ≤ pageSz)
    (q : Nat) :
    (frame.write offset data h).bytes[q]? =
      if offset ≤ q ∧ q < offset + min data.length (pageSz - offset)
      then data[q - offset]? else frame.bytes[q]? := by
  show (frame.bytes.take offset ++ data.take _ ++ frame.bytes.drop _)[q]? = _
  rw [getElem?_splice (by rw [frame.size]; exact h) (by omega) (by rw [length_take]; omega)]
  by_cases hin : offset ≤ q ∧ q < offset + min data.length (pageSz - offset)
  · rw [if_pos hin, if_pos hin, getElem?_take_of_lt (by omega)]
  · rw [if_neg hin, if_neg hin]

structure FramePool where
  slots : List Bool
  cap : Nat
  frameData : BTreeMap Frame

namespace FramePool

def new (n : Nat) : FramePool := ⟨List.replicate n true, n, ∅⟩

def freeCount (pool : FramePool) : Nat := pool.slots.countP fun f => f

def avail (pool : FramePool) (idx : Nat) : Bool := pool.slots.getD idx false

/-! ### The bytes of a frame -/

def readFrame (pool : FramePool) (frameId : Nat) : Frame := pool.frameData[frameId]?.getD Frame.zero

/-- An `offset` past the end of the frame panics. -/
def writeFrame (pool : FramePool) (frameId offset : Nat) (data : Bytes) : Option FramePool :=
  if h : offset ≤ pageSz then
    let frame := (pool.readFrame frameId).write offset data h
    some {pool with frameData := pool.frameData.insert frameId frame}
  else none

variable {pool pool' : FramePool} {frameId offset : Nat} {data : Bytes}

theorem writeFrame_eq_some (h : pool.writeFrame frameId offset data = some pool') :
    ∃ hoffset : offset ≤ pageSz, pool' = ⟨pool.slots, pool.cap,
      pool.frameData.insert frameId ((pool.readFrame frameId).write offset data hoffset)⟩ := by
  simp only [writeFrame] at h
  split at h
  · exact ⟨‹_›, (Option.some.inj h).symm⟩
  · cases h

theorem readFrame_writeFrame (h : pool.writeFrame frameId offset data = some pool') (f q : Nat) :
    (pool'.readFrame f).bytes[q]? =
      if f = frameId ∧ offset ≤ q ∧ q < offset + min data.length (pageSz - offset)
      then data[q - offset]? else (pool.readFrame f).bytes[q]? := by
  obtain ⟨hoffset, rfl⟩ := writeFrame_eq_some h
  by_cases hf : f = frameId
  · subst hf
    have hread : readFrame ⟨pool.slots, pool.cap,
        pool.frameData.insert f ((pool.readFrame f).write offset data hoffset)⟩ f =
          (pool.readFrame f).write offset data hoffset := by
      simp only [readFrame, get_insert, if_pos, Option.getD_some]
    rw [hread, Frame.write_bytes]
    simp only [true_and]
  · rw [if_neg (fun h => hf h.1)]
    simp only [readFrame, get_insert, if_neg (Ne.symm hf)]

/-! ### One frame -/

/-- The first free frame. -/
def getInner (pool : FramePool) : Option Nat × FramePool :=
  match pool.slots.findIdx? fun f => f with
  | some i => (some i, {pool with slots := pool.slots.set i false})
  | none => (none, pool)

def put (pool : FramePool) (idx : Nat) : FramePool := {pool with slots := pool.slots.set idx true}

/-- What `getInner` does: it marks a free frame used, or finds none. -/
theorem getInner_cases (pool : FramePool) :
    (pool.getInner = (none, pool) ∧ ∀ i : Nat, pool.slots[i]? ≠ some true) ∨
      ∃ i, pool.slots[i]? = some true ∧
        pool.getInner = (some i, {pool with slots := pool.slots.set i false}) := by
  unfold getInner
  cases hfind : pool.slots.findIdx? fun f => f with
  | none =>
    refine .inl ⟨rfl, fun i hi => ?_⟩
    have := findIdx?_eq_none_iff.mp hfind true (mem_of_getElem? hi)
    cases this
  | some i =>
    obtain ⟨hlt, hi, _⟩ := findIdx?_eq_some_iff_getElem.mp hfind
    exact .inr ⟨i, by rw [getElem?_eq_getElem hlt, hi], rfl⟩

end FramePool
end ChaosKernel.Memory
