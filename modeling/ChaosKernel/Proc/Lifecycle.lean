import ChaosKernel.Base.Run
import ChaosKernel.Proc.UserMemory

/-! The end of a task.

`SYS_EXIT` ends the running task and gives its children to task 1, `reap` takes a
task out of the table and gives its children to the root, and `do_wait` reports the
first child of the caller that has ended and reaps it. None of them takes a task out
of its parent's list of children; `SYS_EXIT` also leaves the children in the list of
the task that ends.

The callbacks of the event buses are not part of the model. -/
namespace ChaosKernel.Proc
open Base Memory

namespace Task

def done (task : Task) : Bool := task.status.isSome

def sendSig (task : Task) (signo senderTid : Int) : Task :=
  {task with sigQueue := task.sigQueue ++ [(signo, senderTid)], ev := task.ev ||| evRecvSig}

/-- What `exit_proc` does to the task itself. -/
def exitProc (task : Task) (code : Nat) : Task :=
  {task with
    ev := task.ev ||| evProcQuit
    exitCode := (code &&& 0xFF) ||| ((code >>> 8) <<< 8)
    threads := []
    status := some (code &&& 0xFF : Nat)}

theorem exitProc_exitCode (task : Task) (code : Nat) : (task.exitProc code).exitCode = code := by
  show (code &&& 0xFF) ||| ((code >>> 8) <<< 8) = code
  have hlow : code &&& 0xFF = code % 2 ^ 8 := Nat.and_two_pow_sub_one_eq_mod code 8
  rw [hlow, Nat.or_comm, Nat.shiftLeft_eq, Nat.shiftRight_eq_div_pow, Nat.mul_comm,
    ← Nat.two_pow_add_eq_or_of_lt (Nat.mod_lt _ (Nat.two_pow_pos 8)), Nat.div_add_mod]

end Task

namespace TaskTable

/-- `c.link_parent(r); r.link_child(&c)`. -/
def adopt (tasks : TaskTable) (r c : Nat) : TaskTable :=
  (tasks.modify c fun task => {task with parent := some r}).modify r
    fun task => {task with subtasks := task.subtasks ++ [c]}

/-- The task ends, and its parent's bus is told. -/
def exitProc (tasks : TaskTable) (t : Nat) (parent : Option Nat) (code : Nat) : TaskTable :=
  let tasks := tasks.modify t fun task => task.exitProc code
  match parent with
  | none => tasks
  | some p => tasks.modify p fun task => {task with ev := task.ev ||| evChildQuit}

def reap (tasks : TaskTable) (id : Nat) : TaskTable :=
  match (tasks.find id).bind fun t => tasks.heap[t]?.map fun task => (t, task) with
  | none => tasks
  | some (t, task) =>
    let tasks := tasks.setTask t {task with status := some 0, subtasks := []}
    let tasks := match tasks.root with
      | none => tasks
      | some r => task.subtasks.foldl (fun tasks c => tasks.adopt r c) tasks
    {tasks with map := tasks.map.erase id}

/-- Whether a wait for `targetPid` is a wait for this child. The negation of the smallest `isize`
overflows; a group is an `i32`. -/
def childMatches (targetPid : Int) (parent child : Task) : Option Bool :=
  if targetPid = -1 then some true
  else if targetPid = 0 then some (child.pgid = parent.pgid)
  else if 0 < targetPid then some (child.id = targetPid.toNat)
  else if targetPid = -2 ^ 63 then none
  else some (child.pgid = (-targetPid).bmod (2 ^ 32))

/-- Whether the object behind a reference has a property. -/
def holds (tasks : TaskTable) (p : Task → Bool) (t : Nat) : Bool := tasks.heap[t]?.any p

/-- The loop of `do_wait` over the children. -/
def findZombie (tasks : TaskTable) (targetPid : Int) (parent : Task) :
    List Nat → Except (Stop Errno) (Option (Nat × Nat))
  | [] => .ok none
  | c :: rest =>
    match tasks.heap[c]? with
    | none => findZombie tasks targetPid parent rest
    | some child =>
      match childMatches targetPid parent child with
      | none => .error .panic
      | some hit =>
        if hit && child.done then .ok (some (child.id, child.exitCode))
        else findZombie tasks targetPid parent rest

end TaskTable

namespace Kernel

/-- `SYS_EXIT`, which returns `Ok(0)`. -/
def sysExit (k : Kernel) (status : Nat) : Kernel :=
  match k.running with
  | none => k
  | some (t, task) =>
    let tasks := k.tasks.exitProc t task.parent status
    let tasks := match task.parent with
      | none => tasks
      | some p => tasks.modify p fun parent => parent.sendSig sigchld t
    {k with tasks := task.subtasks.foldl (fun tasks child =>
      match tasks.find 1 with
      | none => tasks
      | some init => tasks.adopt init child) tasks}

def doWait (k : Kernel) (parentId : Nat) (targetPid : Int) (options : Nat) :
    Except (Stop Errno) (Nat × Nat) × Kernel :=
  match (k.tasks.find parentId).bind fun t => k.tasks.heap[t]? with
  | none => (.error (.err .esrch), k)
  | some parent =>
    let wnohang := options &&& 1 != 0
    if parent.subtasks = [] then (.error (.err .echild), k)
    else
      match k.tasks.findZombie targetPid parent parent.subtasks with
      | .error e => (.error e, k)
      | .ok (some (id, code)) => (.ok (id, code), {k with tasks := k.tasks.reap id})
      | .ok none => if wnohang then (.ok (0, 0), k) else (.error (.err .echild), k)

end Kernel

/-! ### Runs -/

/-- The kernel, with a record of the codes given at the exits and of what the waits have returned. -/
structure ProcWorld where
  kernel : Kernel
  exits : BTreeMap Nat
  waited : List (Nat × Nat)

inductive ProcStep where
  | fork (id : Nat)
  | setCur (id : Nat)
  | exit (status : Nat)
  | reap (id : Nat)
  | wait (parentId : Nat) (targetPid : Int) (options : Nat)

namespace ProcWorld

/-- Only the root is there. -/
def new (nf : Nat) : ProcWorld := ⟨{Kernel.new nf with tasks := TaskTable.new.spawnRoot.2}, ∅, []⟩

/-- The task of the table with this id, as an object. -/
def lookup (w : ProcWorld) (id : Nat) : Option (Nat × Task) :=
  (w.kernel.tasks.find id).bind fun t => w.kernel.tasks.heap[t]?.map fun task => (t, task)

/-- A task that has not ended forks; a task of the table becomes the running one; the running one
exits; a task other than the root that has ended is reaped; anybody waits. -/
def step (w : ProcWorld) : ProcStep → Option ProcWorld
  | .fork id => (w.lookup id).bind fun (t, task) =>
    if task.done then none
    else some {w with kernel := {w.kernel with tasks := (w.kernel.tasks.forkTask t task).2}}
  | .setCur id => (w.lookup id).map fun (t, _) => {w with kernel := w.kernel.setCur 0 (some t)}
  | .exit status => w.kernel.running.map fun (t, _) =>
    {w with kernel := w.kernel.sysExit status, exits := w.exits.insert t status}
  | .reap id => (w.lookup id).bind fun (t, task) =>
    if task.done ∧ w.kernel.tasks.root ≠ some t then
      some {w with kernel := {w.kernel with tasks := w.kernel.tasks.reap id}}
    else none
  | .wait parentId targetPid options =>
    match w.kernel.doWait parentId targetPid options with
    | (.ok (0, _), k) => some {w with kernel := k}
    | (.ok (id, code), k) => some {w with kernel := k, waited := w.waited ++ [(id, code)]}
    | (.error (.err _), k) => some {w with kernel := k}
    | (.error _, _) => none

end ProcWorld

def procs : System ProcWorld ProcStep := ⟨ProcWorld.step⟩

end ChaosKernel.Proc
