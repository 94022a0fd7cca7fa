import ChaosKernel.Base.Utf8
import ChaosKernel.Ipc.Semaphore
import ChaosKernel.Proc.Files
import ChaosKernel.Proc.TableFamily

/-! What a child has from its parent.

`fork_task` copies each resource in its own way: a string is cloned or pushed byte
by byte, a descriptor is duplicated so that it refers to the same open file, the
contexts of the semaphores and of the shared memory are cloned, the first without
its records. `ProcState` has all of them, the fields of a task that a fork does not
look at included. -/
namespace ChaosKernel.Ipc
open Base

/-- The pages are shared: a reference to their list. -/
structure ShmTag where
  addr : Nat
  pages : Nat
  deriving DecidableEq

structure ShmCtx where
  ids : BTreeMap ShmTag

def ShmCtx.clone (ctx : ShmCtx) : ShmCtx := ⟨ctx.ids⟩

end ChaosKernel.Ipc

namespace ChaosKernel.Proc
open Base Memory Ipc

/-- The fields of a task besides those of `Task` and its descriptors. The futex buckets and the kernel
stack are references. -/
structure TaskHeld where
  fds : List String
  futexes : BTreeMap Nat
  semCtx : SemCtx
  shmCtx : ShmCtx
  epInst : BTreeMap EpInst
  kstk : Option Nat

/-- What `Task::make` gives. -/
def TaskHeld.make : TaskHeld := ⟨[], ∅, ⟨∅, ∅⟩, ⟨∅⟩, ∅, none⟩

/-- What the child of a task that holds this gets. -/
def TaskHeld.forked (held : TaskHeld) : TaskHeld :=
  {TaskHeld.make with semCtx := held.semCtx.clone, shmCtx := held.shmCtx.clone}

/-- All tasks with all they have. The next number belongs to no task yet. -/
structure ProcState where
  tasks : TaskTable
  files : Files
  held : BTreeMap TaskHeld
  fresh : ∀ t : Nat, (tasks.heap[t]?).isSome → t < tasks.seq

namespace ProcState

def heldBy (p : ProcState) (t : Nat) : TaskHeld := p.held[t]?.getD .make

theorem forkTask_fresh (p : ProcState) {src : Nat} {source : Task} (hsrc : p.tasks.heap[src]? = some source) (t : Nat)
    (h : ((p.tasks.forkTask src source).2.heap[t]?).isSome) : t < (p.tasks.forkTask src source).2.seq := by
  show t < p.tasks.seq + 1
  rw [TaskTable.heap_forkTask] at h
  split at h
  · omega
  · split at h
    · next heq =>
      have hlt := p.fresh src (by rw [hsrc]; rfl)
      omega
    · exact Nat.lt_succ_of_lt (p.fresh t h)

/-- The whole of `fork_task`. -/
def forkTask (p : ProcState) (src : Nat) : Option (Nat × ProcState) :=
  match hsrc : p.tasks.heap[src]? with
  | none => none
  | some source =>
    let nid := p.tasks.seq
    some (nid, {
      tasks := (p.tasks.forkTask src source).2
      files := p.files.forkTable src nid
      held := p.held.insert nid (p.heldBy src).forked
      fresh := p.forkTask_fresh hsrc})

end ProcState

/-- What a descriptor refers to: an open file with its data and its offset, an end of a pipe, or a
list of events. -/
inductive Backing where
  | opened (desc : Nat)
  | pipe (node : PipeNode)
  | events (inst : EpInst)

def FLike.backing : FLike → Backing
  | .file fh => .opened fh.desc
  | .pipe node => .pipe node
  | .ep inst => .events inst

/-- All that `child`, the task `nid` of the state `p'`, has from the task `src` of the state `p`, its directory
apart. -/
structure ProcState.Inherits (p : ProcState) (src : Nat) (source : Task) (p' : ProcState) (nid : Nat)
    (child : Task) : Prop where
  registered : p'.tasks.find nid = some nid
  execPath : child.execPath = source.execPath
  pgid : child.pgid = source.pgid
  sigMask : child.sigMask = source.sigMask
  sigQueue : child.sigQueue = []
  arrays : (p'.heldBy nid).semCtx.arrays = (p.heldBy src).semCtx.arrays
  undos : (p'.heldBy nid).semCtx.undos = ∅
  shmIds : (p'.heldBy nid).shmCtx.ids = (p.heldBy src).shmCtx.ids
  descriptors : ∀ fd, (p'.files.getFile nid fd).map FLike.backing = (p.files.getFile src fd).map FLike.backing
  opened : p'.files.descs = p.files.descs ∧ p'.files.pipes = p.files.pipes
  source : ∃ subtasks, p'.tasks.heap[src]? = some {source with subtasks := subtasks}
  sourceFiles : p'.files.table src = p.files.table src
  sourceHeld : p'.heldBy src = p.heldBy src

/-! ### Descriptors -/

namespace Files

theorem table_setTable (files : Files) (t : Nat) (table : BTreeMap FLike) (u : Nat) :
    (files.setTable t table).table u = if t = u then table else files.table u := by
  simp only [Files.table, setTable, get_insert]
  split <;> rfl

theorem getFile_forkTable (files : Files) (src child fd : Nat) :
    (files.forkTable src child).getFile child fd = (files.getFile src fd).map fun fl => fl.dup false := by
  rw [getFile, forkTable, table_setTable, if_pos rfl, Std.ExtTreeMap.getElem?_map]
  rfl

end Files

theorem FLike.backing_dup (fl : FLike) (cloexec : Bool) : (fl.dup cloexec).backing = fl.backing := by
  cases fl <;> rfl

theorem TaskTable.copyPath_eq_iff (path : String) : copyPath path = path ↔ IsAscii path := by
  rw [copyPath, toUTF8_toList]
  exact ofList_textBytes_eq_iff path

/-! ### Forks -/

namespace ProcState

theorem forkTask_eq {p : ProcState} {src : Nat} {source : Task} (hsrc : p.tasks.heap[src]? = some source) :
    ∃ p', p.forkTask src = some (p.tasks.seq, p') ∧ p'.tasks = (p.tasks.forkTask src source).2 ∧
      p'.files = p.files.forkTable src p.tasks.seq ∧
      ∀ t, p'.heldBy t = if p.tasks.seq = t then (p.heldBy src).forked else p.heldBy t := by
  unfold forkTask
  split
  · next hnone =>
    rw [hsrc] at hnone
    cases hnone
  · next source' hsome =>
    rw [hsrc] at hsome
    cases hsome
    refine ⟨_, rfl, rfl, rfl, fun t => ?_⟩
    simp only [heldBy, get_insert]
    split <;> rfl

/-- **A fork gives a registered child that has all but the directory from its parent, and leaves all of the parent
but the list of its children; the child has the parent's directory if and only if that is ASCII.** -/
theorem fork_inherits_iff (p : ProcState) (src : Nat) (source : Task) (hsrc : p.tasks.heap[src]? = some source) :
    ∃ nid p' child, p.forkTask src = some (nid, p') ∧ p'.tasks.heap[nid]? = some child ∧
      p.Inherits src source p' nid child ∧ (child.cwd = source.cwd ↔ IsAscii source.cwd) := by
  obtain ⟨p', hfork, htasks, hfiles, hheld⟩ := forkTask_eq hsrc
  have hne : p.tasks.seq ≠ src := fun heq => by
    have hlt := p.fresh src (by rw [hsrc]; rfl)
    omega
  have hchild := TaskTable.heap_forkTask p.tasks src source p.tasks.seq
  have hparent := TaskTable.heap_forkTask p.tasks src source src
  rw [if_pos rfl, ← htasks] at hchild
  rw [if_neg hne, if_pos rfl, ← htasks] at hparent
  refine ⟨p.tasks.seq, p', _, hfork, hchild, ?_, TaskTable.copyPath_eq_iff source.cwd⟩
  refine ⟨?_, rfl, rfl, rfl, rfl, ?_, ?_, ?_, fun fd => ?_, ?_, ?_, ?_, ?_⟩
  · rw [htasks, TaskTable.find_forkTask, if_pos rfl]
  · rw [hheld, if_pos rfl]
    rfl
  · rw [hheld, if_pos rfl]
    rfl
  · rw [hheld, if_pos rfl]
    rfl
  · rw [hfiles, Files.getFile_forkTable, Option.map_map]
    exact congrArg (Option.map · _) (funext fun fl => fl.backing_dup false)
  · rw [hfiles]
    exact ⟨rfl, rfl⟩
  · exact ⟨_, hparent⟩
  · rw [hfiles, Files.forkTable, Files.table_setTable, if_neg hne]
  · rw [hheld, if_neg hne]

/-- A task in some directory that masks a signal and has another one pending, with an open file, a semaphore array
that it owes a unit and a shared memory. -/
def inDir (cwd : String) : ProcState where
  tasks := ⟨(∅ : BTreeMap Task).insert 1 {Task.make 1 "init" with cwd := cwd, sigMask := 4, sigQueue := [(10, 1)]},
    (∅ : BTreeMap Nat).insert 1 1, 2, some 1⟩
  files := ⟨(∅ : BTreeMap _).insert 1 ((∅ : BTreeMap _).insert 3 (.file ⟨"/a", 1, 0, false, true⟩)),
    [FdState.create ⟨true, true, false, false⟩], []⟩
  held := (∅ : BTreeMap _).insert 1 {TaskHeld.make with
    semCtx := ⟨(∅ : BTreeMap _).insert 0 5, (∅ : PairMap _).insert (0, 0) 1⟩
    shmCtx := ⟨(∅ : BTreeMap _).insert 2 ⟨0x1000, 8⟩⟩}
  fresh t h := by
    simp only [get_insert, Std.ExtTreeMap.getElem?_empty] at h
    split at h
    · show t < 2
      omega
    · cases h

theorem heap_inDir (cwd : String) : (inDir cwd).tasks.heap[1]? =
    some {Task.make 1 "init" with cwd := cwd, sigMask := 4, sigQueue := [(10, 1)]} := by
  rw [inDir, get_insert, if_pos rfl]

theorem fork_inherits_iff_home : ∃ nid p' child, (inDir "/home").forkTask 1 = some (nid, p') ∧
    p'.tasks.heap[nid]? = some child ∧ child.cwd = "/home" ∧ child.sigMask = 4 ∧ child.sigQueue = [] ∧
    (p'.files.getFile nid 3).map FLike.backing = some (.opened 0) ∧ (p'.heldBy nid).semCtx.arrays[0]? = some 5 ∧
    (p'.heldBy nid).semCtx.undos = ∅ ∧ (p'.heldBy nid).shmCtx.ids[2]? = some ⟨0x1000, 8⟩ := by
  obtain ⟨nid, p', child, hfork, hchild, h, hcwd⟩ := fork_inherits_iff (inDir "/home") 1 _ (heap_inDir "/home")
  refine ⟨nid, p', child, hfork, hchild, hcwd.mpr ((ofList_textBytes_eq_iff _).mp (by decide)), h.sigMask, h.sigQueue, ?_, ?_,
    h.undos, ?_⟩
  · rw [h.descriptors]
    rfl
  · rw [h.arrays]
    rfl
  · rw [h.shmIds]
    rfl

/-- The letter é is two bytes, and two letters in the child's directory. -/
theorem directory_garbled : ∃ nid p', (inDir "/é").forkTask 1 = some (nid, p') ∧
    (p'.tasks.heap[nid]?).map (fun child => child.cwd) = some "/Ã©" ∧ "/Ã©" ≠ "/é" := by
  obtain ⟨p', hfork, htasks, _⟩ := forkTask_eq (heap_inDir "/é")
  refine ⟨_, p', hfork, ?_, by decide⟩
  rw [htasks, TaskTable.heap_forkTask, if_pos rfl, Option.map_some]
  show some (TaskTable.copyPath "/é") = some "/Ã©"
  rw [TaskTable.copyPath, toUTF8_toList]
  decide

end ProcState
end ChaosKernel.Proc
