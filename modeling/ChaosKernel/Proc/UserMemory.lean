import ChaosKernel.Proc.Task

/-! The kernel's access to user memory.

The running task is the one in slot 0 of the processors. A write to user memory
first sees to it that every page of the range can be written
(`ensureUserRange`), then copies into the frames behind the pages; a read copies
from whatever frames are there, and leaves the buffer as it is where there is
none. -/
namespace ChaosKernel.Proc
open Base Memory

structure Kernel where
  tasks : TaskTable
  pool : FramePool
  cpus : List (Option Nat)

namespace Kernel

def maxCpu : Nat := 8

def new (nf : Nat) : Kernel := ⟨TaskTable.new, FramePool.new nf, List.replicate maxCpu none⟩

def curTask (k : Kernel) (cpu : Nat) : Option Nat := k.cpus[cpu]?.bind fun slot => slot

def setCur (k : Kernel) (cpu : Nat) (t : Option Nat) : Kernel := {k with cpus := k.cpus.set cpu t}

/-- The first task. -/
def procInit (k : Kernel) : Kernel :=
  let (root, tasks) := k.tasks.spawnRoot
  {k with tasks := tasks.modify root fun task => {task with threads := task.threads ++ [root]}}

/-- The running task, as an object. -/
def running (k : Kernel) : Option (Nat × Task) :=
  (k.curTask 0).bind fun t => k.tasks.heap[t]?.map fun task => (t, task)

def setSpace (k : Kernel) (t : Nat) (task : Task) (space : AddrSpace) : Kernel :=
  {k with tasks := k.tasks.setTask t {task with addrSpace := space}}

/-! ### Faults -/

/-- Whether the access may go on; a write, bit 1 of `access`, gets a frame it may write to. -/
def handlePgfault (k : Kernel) (addr access : Nat) : Except (Stop Errno) Bool × Kernel :=
  let writing := access &&& 2 != 0
  match k.running with
  | none => (.ok false, k)
  | some (t, task) =>
    match task.addrSpace.vmMap.find addr with
    | .error e => (.error e, k)
    | .ok none => (.ok false, k)
    | .ok (some region) =>
      if writing then
        if region.writable then
          let (res, space, pool) := task.addrSpace.handleCowFault addr k.pool
          let k := {k.setSpace t task space with pool := pool}
          match res with
          | .ok _ => (.ok true, k)
          | .error (.err _) => (.ok false, k)
          | .error e => (.error e, k)
        else (.ok false, k)
      else (.ok region.readable, k)

/-- The loop of `ensure_user_range` from page `addr` to page `pageEnd`. There are `2^52` pages, so
a loop that makes more rounds than that never ends. -/
def ensureLoop (pageEnd access : Nat) : Nat → Nat → Kernel → Except (Stop Errno) Unit × Kernel
  | 0, _, k => (.error .hang, k)
  | fuel + 1, addr, k =>
    if addr ≤ pageEnd then
      match k.handlePgfault addr access with
      | (.error e, k) => (.error e, k)
      | (.ok false, k) => (.error (.err .efault), k)
      | (.ok true, k) => ensureLoop pageEnd access fuel (wrappingAdd addr pageSz) k
    else (.ok (), k)

def ensureUserRange (k : Kernel) (start len : Nat) (writing : Bool) :
    Except (Stop Errno) Unit × Kernel :=
  if len = 0 then (.ok (), k)
  else
    -- `start.wrapping_add(len).wrapping_sub(1)`
    let last := wrappingAdd (wrappingAdd start len) (wordSize - 1)
    ensureLoop (pageAddr last) (if writing then 2 else 0) (wordSize / pageSz + 1) (pageAddr start) k

section Keeps
variable {γ : Type} {f : Kernel → γ}

theorem ensureLoop_keeps {access : Nat} (hfault : ∀ k addr, f (handlePgfault k addr access).2 = f k)
    (pageEnd fuel addr : Nat) (k : Kernel) : f (ensureLoop pageEnd access fuel addr k).2 = f k := by
  induction fuel generalizing addr k with
  | zero => rfl
  | succ fuel ih =>
    have hone := hfault k addr
    unfold ensureLoop
    split
    · split <;> next heq =>
        rw [heq] at hone
        first | exact hone | exact (ih _ _).trans hone
    · rfl

theorem ensureUserRange_keeps {writing : Bool}
    (hfault : ∀ k addr, f (handlePgfault k addr (if writing then 2 else 0)).2 = f k) (k : Kernel) (start len : Nat) :
    f (k.ensureUserRange start len writing).2 = f k := by
  unfold ensureUserRange
  split
  · rfl
  · exact ensureLoop_keeps hfault _ _ _ k

end Keeps

/-- The loop of `copy_to_user`; every round copies at least one byte. -/
def copyToLoop (cow : BTreeMap PgFrame) (start : Nat) (data : Bytes) :
    Nat → Nat → FramePool → Except (Stop Errno) Unit × FramePool
  | 0, _, pool => (.error .hang, pool)
  | fuel + 1, offset, pool =>
    if offset < data.length then
      match add? start offset with
      | none => (.error .panic, pool)
      | some addr =>
        let off := addr % pageSz
        let n := min (data.length - offset) (pageSz - off)
        match cow[pageAddr addr]? with
        | none => copyToLoop cow start data fuel (offset + n) pool
        | some frame =>
          match pool.writeFrame frame.frameId off ((data.drop offset).take n) with
          | none => (.error .panic, pool)
          | some pool => copyToLoop cow start data fuel (offset + n) pool
    else (.ok (), pool)

def copyToUser (k : Kernel) (start : Nat) (data : Bytes) : Except (Stop Errno) Unit × Kernel :=
  match k.running with
  | none => (.error (.err .esrch), k)
  | some (_, task) =>
    let (res, pool) := copyToLoop task.addrSpace.cowPages start data (data.length + 1) 0 k.pool
    (res, {k with pool := pool})

/-- The loop of `copy_from_user`, with the buffer as it is filled. -/
def copyFromLoop (cow : BTreeMap PgFrame) (pool : FramePool) (start : Nat) :
    Nat → Nat → Bytes → Except (Stop Errno) Bytes
  | 0, _, _ => .error .hang
  | fuel + 1, offset, buf =>
    if offset < buf.length then
      match add? start offset with
      | none => .error .panic
      | some addr =>
        let off := addr % pageSz
        let n := min (buf.length - offset) (pageSz - off)
        match cow[pageAddr addr]? with
        | none => copyFromLoop cow pool start fuel (offset + n) buf
        | some frame =>
          let frameData := (pool.readFrame frame.frameId).bytes
          match overwrite? buf offset (offset + n) ((frameData.drop off).take n) with
          | none => .error .panic
          | some buf => copyFromLoop cow pool start fuel (offset + n) buf
    else .ok buf

def copyFromUser (k : Kernel) (start : Nat) (buf : Bytes) : Except (Stop Errno) Bytes :=
  match k.running with
  | none => .error (.err .esrch)
  | some (_, task) => copyFromLoop task.addrSpace.cowPages k.pool start (buf.length + 1) 0 buf

/-! ### Fork -/

def doFork (k : Kernel) (parentId : Nat) : Except (Stop Errno) Nat × Kernel :=
  match (k.tasks.find parentId).bind fun t => k.tasks.heap[t]?.map fun task => (t, task) with
  | none => (.error (.err .esrch), k)
  | some (parent, task) =>
    let (childId, tasks) := k.tasks.forkTask parent task
    let (res, space) := task.addrSpace.forkFrom (childId % 2 ^ 16)
    let tasks := tasks.modify parent fun task => {task with addrSpace := space}
    match res with
    | .error e => (.error e, {k with tasks := tasks})
    | .ok childSpace =>
      let tasks := tasks.modify childId fun child =>
        {child with addrSpace := childSpace, vmToken := task.vmToken}
      (.ok childId, {k with tasks := tasks})

end Kernel
end ChaosKernel.Proc
