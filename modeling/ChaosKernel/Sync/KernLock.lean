import ChaosKernel.Base.Run
import ChaosKernel.Base.Threads

/-! The kernel lock.

A re-entrant lock made of separate atomics: `flag`, a stack of holder ids with
`depth` as its pointer, and the id of the owning thread. Taking and releasing it
are sequences of single accesses, and `access` performs one of them: a program
counter says which one is next, and carries the values read so far. The reads that
only feed the debug output are accesses too. A failed assertion and an index past
the stack panic; a `leave` that does not match reports it.

Clients are any threads that nest `enter`, `tryEnter` and `leave` properly. -/
namespace ChaosKernel.Sync
open Base

def holderStackCap : Nat := 16

structure KernLock where
  flag : Bool
  holderStack : Fin holderStackCap → Nat
  depth : Nat
  ownerTid : Nat

namespace KernLock

def new : KernLock := ⟨false, fun _ => 0, 0, 0⟩

def level (lock : KernLock) : Nat := lock.depth

/-- The id on top of the stack, `0` for an empty one. -/
def owner (lock : KernLock) : Nat :=
  if h : 0 < lock.depth ∧ lock.depth - 1 < holderStackCap then lock.holderStack ⟨lock.depth - 1, h.2⟩ else 0

/-- `holder_stack[i].store(id)`. -/
def store (lock : KernLock) (i : Fin holderStackCap) (id : Nat) : KernLock :=
  {lock with holderStack := Function.update lock.holderStack i id}

end KernLock

/-- The next access of a thread. -/
inductive Pc where
  | idle
  | panicked
  /-- `enter`: the three loads at its start. -/
  | enterOwner (id : Nat)
  | enterDepth (id owner : Nat)
  | enterFlag (id owner d : Nat)
  /-- The owner pushes one more level. -/
  | pushSlot (id : Nat) (d : Fin holderStackCap)
  | pushDepth (id : Nat)
  /-- The top of the stack, for the debug output of a waiting thread. -/
  | topDepth (id spinCnt : Nat)
  | topSlot (id spinCnt d : Nat)
  /-- The `compare_exchange` of the waiting loop. -/
  | swap (id spinCnt : Nat)
  /-- The stores after the flag was taken. -/
  | clear (id : Nat) (i : Fin holderStackCap)
  | setSlot (id : Nat)
  | setDepth (id : Nat)
  | setOwner (id : Nat)
  /-- `leave`. -/
  | leaveDepth (id : Nat)
  | leaveTop (id d : Nat)
  | popSlot (d : Nat) (top : Fin holderStackCap)
  | popDepth (d : Nat)
  | releaseClear (i : Fin holderStackCap)
  | releaseDepth
  | releaseOwner
  | releaseFlag
  /-- `try_enter`. -/
  | tryOwner (id : Nat)
  | tryDepth (id : Nat)
  | trySwap (id : Nat)
  deriving DecidableEq

/-- A thread with the ids of its open acquisitions, the innermost first, and whether one of its
`leave`s has reported a mismatch. -/
structure LockThread where
  pc : Pc
  held : List Nat
  mismatch : Bool
  deriving DecidableEq

def LockThread.goto (th : LockThread) (pc : Pc) : LockThread := ⟨pc, th.held, th.mismatch⟩

/-- The operation has returned with one more level held. -/
def LockThread.entered (th : LockThread) (id : Nat) : LockThread := ⟨.idle, id :: th.held, th.mismatch⟩

def LockThread.left (th : LockThread) : LockThread := ⟨.idle, th.held.tail, th.mismatch⟩

/-- One access of the thread `tid`. -/
def access (tid : Nat) (lock : KernLock) (th : LockThread) : Option (KernLock × LockThread) :=
  match th.pc with
  | .idle | .panicked => none
  | .enterOwner id => some (lock, th.goto (.enterDepth id lock.ownerTid))
  | .enterDepth id owner => some (lock, th.goto (.enterFlag id owner lock.depth))
  | .enterFlag id owner d =>
    if owner = tid ∧ id ≠ 0 then
      if h : d < holderStackCap then some (lock, th.goto (.pushSlot id ⟨d, h⟩))
      else some (lock, th.goto .panicked)
    else if lock.flag then some (lock, th.goto (.topDepth id 0))
    else some (lock, th.goto (.swap id 0))
  | .pushSlot id d => some (lock.store d id, th.goto (.pushDepth id))
  | .pushDepth id => some ({lock with depth := lock.depth + 1}, th.entered id)
  | .topDepth id spinCnt =>
    if lock.depth = 0 then some (lock, th.goto (.swap id spinCnt))
    else some (lock, th.goto (.topSlot id spinCnt lock.depth))
  | .topSlot id spinCnt d =>
    if d - 1 < holderStackCap then some (lock, th.goto (.swap id spinCnt))
    else some (lock, th.goto .panicked)
  | .swap id spinCnt =>
    if lock.flag then
      if (spinCnt + 1) % 10000000 = 1 then some (lock, th.goto (.topDepth id (spinCnt + 1)))
      else some (lock, th.goto (.swap id (spinCnt + 1)))
    else some ({lock with flag := true}, th.goto (.clear id ⟨0, by decide⟩))
  | .clear id i =>
    if h : i.val + 1 < holderStackCap then some (lock.store i 0, th.goto (.clear id ⟨i.val + 1, h⟩))
    else some (lock.store i 0, th.goto (.setSlot id))
  | .setSlot id => some (lock.store ⟨0, by decide⟩ id, th.goto (.setDepth id))
  | .setDepth id => some ({lock with depth := 1}, th.goto (.setOwner id))
  | .setOwner id => some ({lock with ownerTid := tid}, th.entered id)
  | .leaveDepth id =>
    if 0 < lock.depth then some (lock, th.goto (.leaveTop id lock.depth))
    else some (lock, th.goto (.releaseClear ⟨0, by decide⟩))
  | .leaveTop id d =>
    if h : d - 1 < holderStackCap then
      let th := {th with mismatch := th.mismatch || lock.holderStack ⟨d - 1, h⟩ != id}
      if 1 < d then some (lock, th.goto (.popSlot d ⟨d - 1, h⟩))
      else some (lock, th.goto (.releaseClear ⟨0, by decide⟩))
    else some (lock, th.goto .panicked)
  | .popSlot d top => some (lock.store top 0, th.goto (.popDepth d))
  | .popDepth d => some ({lock with depth := d - 1}, th.left)
  | .releaseClear i =>
    if h : i.val + 1 < holderStackCap then some (lock.store i 0, th.goto (.releaseClear ⟨i.val + 1, h⟩))
    else some (lock.store i 0, th.goto .releaseDepth)
  | .releaseDepth => some ({lock with depth := 0}, th.goto .releaseOwner)
  | .releaseOwner => some ({lock with ownerTid := 0}, th.goto .releaseFlag)
  | .releaseFlag => some ({lock with flag := false}, th.left)
  | .tryOwner id =>
    if lock.ownerTid = tid ∧ id ≠ 0 then some (lock, th.goto (.tryDepth id))
    else some (lock, th.goto (.trySwap id))
  | .tryDepth id =>
    if h : lock.depth < holderStackCap then some (lock, th.goto (.pushSlot id ⟨lock.depth, h⟩))
    else some (lock, th.goto .panicked)
  | .trySwap id =>
    if lock.flag then some (lock, th.goto .idle)
    else some ({lock with flag := true}, th.goto (.clear id ⟨0, by decide⟩))

/-! ### Clients -/

inductive LockStep (τ : Type*) where
  | enter (t : τ) (id : Nat)
  | tryEnter (t : τ) (id : Nat)
  | leave (t : τ) (id : Nat)
  | tick (t : τ)

abbrev LockWorld (τ : Type*) := Threads τ KernLock LockThread

namespace LockWorld
variable {τ : Type*} [DecidableEq τ]

def new : LockWorld τ := ⟨KernLock.new, fun _ => ⟨.idle, [], false⟩⟩

/-- The thread, idle and allowed to by `allowed`, begins an operation. -/
def begin (w : LockWorld τ) (t : τ) (pc : Pc) (allowed : Prop) [Decidable allowed] : Option (LockWorld τ) :=
  if (w.locals t).pc = .idle ∧ allowed then some (w.set t w.shared ((w.locals t).goto pc)) else none

/-- Threads nest at most `holderStackCap` levels, and leave the innermost one. -/
def step (tid : τ → Nat) (w : LockWorld τ) : LockStep τ → Option (LockWorld τ)
  | .enter t id => w.begin t (.enterOwner id) (id ≠ 0 ∧ (w.locals t).held.length < holderStackCap)
  | .tryEnter t id => w.begin t (.tryOwner id) (id ≠ 0 ∧ (w.locals t).held.length < holderStackCap)
  | .leave t id => w.begin t (.leaveDepth id) ((w.locals t).held.head? = some id)
  | .tick t => (access (tid t) w.shared (w.locals t)).map fun res => w.set t res.1 res.2

end LockWorld

def kernLocks {τ : Type*} [DecidableEq τ] (tid : τ → Nat) : System (LockWorld τ) (LockStep τ) :=
  ⟨LockWorld.step tid⟩

end ChaosKernel.Sync
