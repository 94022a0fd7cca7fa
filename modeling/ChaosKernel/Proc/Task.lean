import ChaosKernel.Memory.AddrSpace

/-! Tasks and the table that finds them.

A task is an object with an identity, shared between the table, its parent and
the processor slots. Identities are the numbers `seq` hands out, one for each
object made, so a reference is that number and `heap` holds the objects. The
table proper, `map`, holds the tasks that can be found. -/
namespace ChaosKernel.Proc
open Base Memory

structure Context where
  r : Vector Nat nRegs
  ip : Nat
  flags : Nat

def Context.new : Context := ⟨Vector.replicate nRegs 0, 0, 0⟩

/-- The stack pointer is the last register. -/
def Context.sp (c : Context) : Nat := c.r.get ⟨nRegs - 1, by decide⟩

def Context.setSp (c : Context) (v : Nat) : Context := {c with r := c.r.set (nRegs - 1) v (by decide)}

def Context.setIp (c : Context) (v : Nat) : Context := {c with ip := v}

theorem Context.sp_setSp (c : Context) (v : Nat) : (c.setSp v).sp = v := by
  exact Vector.getElem_set_self (by decide)

structure ThdCtx where
  uctx : Context
  clearTid : Nat
  smask : Nat

def ThdCtx.default : ThdCtx := ⟨Context.new, 0, 0⟩

structure Task where
  id : Nat
  tag : String
  status : Option Int
  parent : Option Nat
  subtasks : List Nat
  cwd : String
  execPath : String
  pid : Nat
  pgid : Int
  threads : List Nat
  /-- The flags of the event bus. -/
  ev : Nat
  exitCode : Nat
  /-- Signals with their senders. -/
  sigQueue : List (Int × Int)
  sigMask : Nat
  thdCtx : Option ThdCtx
  vmToken : Nat
  addrSpace : AddrSpace

def Task.make (id : Nat) (tag : String) : Task where
  id := id
  tag := tag
  status := none
  parent := none
  subtasks := []
  cwd := "/"
  execPath := ""
  pid := 0
  pgid := 0
  threads := []
  ev := 0
  exitCode := 0
  sigQueue := []
  sigMask := 0
  thdCtx := some ThdCtx.default
  vmToken := 0
  addrSpace := AddrSpace.new 0

structure TaskTable where
  heap : BTreeMap Task
  map : BTreeMap Nat
  seq : Nat
  root : Option Nat

namespace TaskTable

def new : TaskTable := ⟨∅, ∅, 1, none⟩

def find (tasks : TaskTable) (id : Nat) : Option Nat := tasks.map[id]?

def setTask (tasks : TaskTable) (t : Nat) (task : Task) : TaskTable :=
  {tasks with heap := tasks.heap.insert t task}

/-- A change to one task object. -/
def modify (tasks : TaskTable) (t : Nat) (f : Task → Task) : TaskTable :=
  match tasks.heap[t]? with
  | none => tasks
  | some task => tasks.setTask t (f task)

/-- A new task and its reference. -/
def spawn (tasks : TaskTable) (tag : String) : Nat × TaskTable :=
  let id := tasks.seq
  (id, {tasks with
    seq := tasks.seq + 1
    heap := tasks.heap.insert id (Task.make id tag)
    map := tasks.map.insert id id})

def spawnRoot (tasks : TaskTable) : Nat × TaskTable :=
  let (t, tasks) := tasks.spawn "init"
  (t, {tasks with root := some t})

/-- Each byte of the path becomes a character of its own. -/
def copyPath (path : String) : String :=
  String.ofList (path.toUTF8.toList.map fun b => Char.ofNat b.toNat)

/-- The child of `src`, with an address space that is still empty. -/
def forkTask (tasks : TaskTable) (src : Nat) (source : Task) : Nat × TaskTable :=
  let nid := tasks.seq
  let child := {Task.make nid source.tag with
    cwd := copyPath source.cwd
    execPath := source.execPath
    pgid := source.pgid
    sigMask := source.sigMask
    parent := some src
    pid := nid
    threads := [nid]}
  let source := {source with subtasks := source.subtasks ++ [nid]}
  (nid, {tasks with
    seq := tasks.seq + 1
    heap := (tasks.heap.insert src source).insert nid child
    map := tasks.map.insert nid nid})

theorem heap_modify (tasks : TaskTable) (t : Nat) (f : Task → Task) (y : Nat) :
    (tasks.modify t f).heap[y]? = if y = t then tasks.heap[t]?.map f else tasks.heap[y]? := by
  unfold modify
  cases htask : tasks.heap[t]? with
  | none =>
    by_cases hy : y = t
    · rw [if_pos hy, hy, Option.map_none]
      exact htask
    · rw [if_neg hy]
  | some task =>
    simp only [setTask, get_insert, Option.map_some, eq_comm]

theorem seq_modify (tasks : TaskTable) (t : Nat) (f : Task → Task) :
    (tasks.modify t f).seq = tasks.seq := by
  unfold modify
  split <;> rfl

end TaskTable
end ChaosKernel.Proc
