import ChaosKernel.Proc.TaskTree

/-! What the waits return.

A task that has ended keeps its code, so a wait always returns the code given at the
last exit of the child. The child is then taken out of the table but stays in its
parent's list, where the next wait finds it again: a wait keeps the promise that no
child is returned twice exactly when the first child in the list that it is for and
that has ended is still in the table (`waits_once_iff`). -/
namespace ChaosKernel.Proc
open Base Memory Option List

/-- The code of a task that has ended. -/
def Task.ended (task : Task) : Option Nat := if task.done then some task.exitCode else none

namespace TaskTable
variable {tasks tasks' tasks'' : TaskTable}

def ended (tasks : TaskTable) (i : Nat) : Option Nat := tasks.heap[i]?.bind Task.ended

/-- The same objects are there, the same are found, and the same have ended. -/
structure Agrees (tasks tasks' : TaskTable) : Prop where
  heap : ∀ i : Nat, (tasks'.heap[i]?).isSome = (tasks.heap[i]?).isSome
  find : ∀ i, tasks'.find i = tasks.find i
  ended : ∀ i, tasks'.ended i = tasks.ended i

theorem Agrees.refl (tasks : TaskTable) : tasks.Agrees tasks := ⟨fun _ => rfl, fun _ => rfl, fun _ => rfl⟩

theorem Agrees.trans (h : tasks.Agrees tasks') (h' : tasks'.Agrees tasks'') : tasks.Agrees tasks'' :=
  ⟨fun i => (h'.heap i).trans (h.heap i), fun i => (h'.find i).trans (h.find i),
    fun i => (h'.ended i).trans (h.ended i)⟩

theorem ended_modify (tasks : TaskTable) (t : Nat) (f : Task → Task) (i : Nat) :
    (tasks.modify t f).ended i = if i = t then tasks.heap[t]?.bind fun task => (f task).ended else tasks.ended i := by
  simp only [ended, heap_modify]
  split
  · rw [bind_map]
    rfl
  · rfl

variable {t src id : Nat}

theorem Agrees.modify {f : Task → Task}
    (hf : ∀ task, tasks.heap[t]? = some task → (f task).ended = task.ended) :
    tasks.Agrees (tasks.modify t f) := by
  refine ⟨fun i => isSome_modify .., fun i => find_modify .., fun i => ?_⟩
  rw [ended_modify]
  split
  · next hi =>
    rw [hi, TaskTable.ended]
    exact Option.bind_congr hf
  · rfl

theorem Agrees.adopt (tasks : TaskTable) (r c : Nat) : tasks.Agrees (tasks.adopt r c) := by
  have hparent : tasks.Agrees (tasks.modify c fun task => {task with parent := some r}) :=
    Agrees.modify fun _ _ => rfl
  refine hparent.trans ?_
  exact Agrees.modify fun _ _ => rfl

theorem Agrees.adoptAll (tasks : TaskTable) (r : Nat) (cs : List Nat) :
    tasks.Agrees (cs.foldl (fun tasks c => tasks.adopt r c) tasks) := by
  induction cs generalizing tasks with
  | nil => exact Agrees.refl tasks
  | cons c cs ih => exact (Agrees.adopt tasks r c).trans (ih (tasks.adopt r c))

variable {source task : Task}

theorem isSome_forkTask (hsrc : tasks.heap[src]? = some source) (i : Nat) :
    ((tasks.forkTask src source).2.heap[i]?).isSome = (decide (tasks.seq = i) || (tasks.heap[i]?).isSome) := by
  rw [heap_forkTask]
  split
  · next hi => simp [hi]
  · next hi =>
    split
    · next his =>
      subst his
      simp [hsrc]
    · simp [hi]

theorem ended_forkTask (hsrc : tasks.heap[src]? = some source) (i : Nat) :
    (tasks.forkTask src source).2.ended i = if tasks.seq = i then none else tasks.ended i := by
  simp only [ended, heap_forkTask]
  split
  · rfl
  · split
    · next hi =>
      subst hi
      rw [hsrc]
      rfl
    · rfl

theorem reap_agrees (h : tasks.Formed) (htask : tasks.heap[id]? = some task) (hdone : task.done = true) :
    (∀ i : Nat, ((tasks.reap id).heap[i]?).isSome = (tasks.heap[i]?).isSome) ∧
      (∀ i, (tasks.reap id).find i = if id = i then none else tasks.find i) ∧
      ∀ i, (tasks.reap id).ended i = tasks.ended i := by
  cases hfind : tasks.find id with
  | none =>
    have hsame : tasks.reap id = tasks := by
      rw [reap, hfind]
      rfl
    rw [hsame]
    refine ⟨fun _ => rfl, fun i => ?_, fun _ => rfl⟩
    split
    · next hi => rw [← hi, hfind]
    · rfl
  | some j =>
    obtain ⟨rfl, _⟩ := h.find id j hfind
    have hdrain : tasks.Agrees (tasks.modify j fun task => {task with status := some 0, subtasks := []}) := by
      refine Agrees.modify fun task' htask' => ?_
      rw [htask] at htask'
      cases htask'
      simp only [Task.ended, hdone]
      rfl
    have hall := hdrain.trans (Agrees.adoptAll _ 1 task.subtasks)
    rw [reap_eq h hfind htask]
    refine ⟨hall.heap, fun i => ?_, hall.ended⟩
    rw [← hall.find i]
    exact get_erase ..

end TaskTable

namespace Kernel
variable {k : Kernel}
variable {t parentId : Nat} {task parent : Task}

theorem sysExit_agrees (h : k.tasks.Formed) (hrun : k.running = some (t, task)) (status : Nat) :
    (k.tasks.modify t fun task => task.exitProc status).Agrees (k.sysExit status).tasks := by
  rw [sysExit_eq h hrun]
  refine TaskTable.Agrees.trans ?_ (TaskTable.Agrees.adoptAll _ 1 task.subtasks)
  cases task.parent with
  | none => exact TaskTable.Agrees.refl _
  | some p =>
    have hev : (k.tasks.modify t fun task => task.exitProc status).Agrees
        (k.tasks.exitProc t (some p) status) := TaskTable.Agrees.modify fun _ _ => rfl
    refine hev.trans ?_
    exact TaskTable.Agrees.modify fun _ _ => rfl

/-- At the smallest `isize` a wait of a task with children stops. -/
theorem doWait_panic (h : k.tasks.Formed) (hfind : k.tasks.find parentId = some parentId)
    (hparent : k.tasks.heap[parentId]? = some parent) (hne : parent.subtasks ≠ []) (options : Nat) :
    (k.doWait parentId (-2 ^ 63) options).1 = .error .panic := by
  obtain ⟨c, rest, hcs⟩ := exists_cons_of_ne_nil hne
  have hmem : c ∈ k.tasks.family.children parentId := by
    rw [TaskTable.family_children hparent, hcs]
    exact mem_cons_self
  obtain ⟨child, hchild⟩ := isSome_iff_exists.mp (h.children parentId c hmem).2
  have hloop : k.tasks.findZombie (-2 ^ 63) parent parent.subtasks = .error .panic := by
    rw [hcs, TaskTable.findZombie]
    simp only [hchild, childMatches_none.mpr]
  simp only [doWait, hfind, bind_some, hparent, hne, if_false, hloop]

end Kernel

namespace ProcWorld
variable {w w' : ProcWorld}

def waitedIds (w : ProcWorld) : List Nat := w.waited.map Prod.fst

/-- A wait of a task of the table returns; a child it returns has not been returned before and comes
with the code of its exit; and one that does not block returns no child when all the children that
have ended have been returned. -/
def WaitsOnce (w : ProcWorld) : ProcStep → Prop
  | .wait parentId targetPid options => ∀ t parent, w.lookup parentId = some (t, parent) →
    (w.kernel.doWait parentId targetPid options).1 ≠ .error .panic ∧
      (∀ id code, (w.kernel.doWait parentId targetPid options).1 = .ok (id, code) → id ≠ 0 →
        id ∉ w.waitedIds ∧ w.exits[id]? = some code) ∧
      (options &&& 1 ≠ 0 →
        (∀ c ∈ parent.subtasks, ∀ child, w.kernel.tasks.heap[c]? = some child → child.done = true →
          c ∈ w.waitedIds) →
        (w.kernel.doWait parentId targetPid options).1 = .ok (0, 0) ∨
          (w.kernel.doWait parentId targetPid options).1 = .error (.err .echild))
  | _ => True

/-- A wait of a task with children is not for the smallest `isize`, and the first child in the list that
it is for and that has ended is in the table. -/
def FindsFresh (w : ProcWorld) : ProcStep → Prop
  | .wait parentId targetPid _ => ∀ t parent, w.lookup parentId = some (t, parent) →
    (targetPid = -2 ^ 63 → parent.subtasks = []) ∧
      ∀ c, w.kernel.tasks.firstEnded targetPid parent = some c → (w.kernel.tasks.find c).isSome
  | _ => True

/-- The codes are kept, and who is gone has been returned. -/
structure Recorded (w : ProcWorld) : Prop where
  formed : w.kernel.tasks.Formed
  ended : ∀ i code, w.kernel.tasks.ended i = some code → w.exits[i]? = some code
  waited : ∀ i, i ∈ w.waitedIds ↔ (w.kernel.tasks.heap[i]?).isSome ∧ w.kernel.tasks.find i = none

theorem Recorded.waitsOnce_iff (h : w.Recorded) (a : ProcStep) : w.WaitsOnce a ↔ w.FindsFresh a := by
  cases a with
  | wait parentId targetPid options =>
    refine forall_congr' fun t => forall_congr' fun parent => imp_congr_right fun hlookup => ?_
    obtain ⟨rfl, hfind, hparent⟩ := lookup_some h.formed hlookup
    have hmin (hreturns : (w.kernel.doWait t targetPid options).1 ≠ .error .panic)
        (htarget : targetPid = -2 ^ 63) : parent.subtasks = [] := by
      by_contra hne
      rw [htarget] at hreturns
      exact hreturns (w.kernel.doWait_panic h.formed hfind hparent hne options)
    rcases w.kernel.doWait_cases h.formed t targetPid options with
      ⟨_, hnobody, hnone⟩ | ⟨parent', id, code, child, _, hparent', hfirst, hchild, hdone, hcode, hwait⟩
    · rw [hnobody parent hfind hparent]
      rcases hnone with ⟨_, hgone⟩ | he | ⟨he, htarget⟩ | hzero
      · rw [hfind] at hgone
        cases hgone
      · rw [he]
        rw [he] at hmin
        exact iff_of_true ⟨nofun, nofun, fun _ _ => .inr rfl⟩ ⟨hmin nofun, nofun⟩
      · rw [he]
        refine iff_of_false (fun honce => honce.1 rfl) fun hfresh => ?_
        simp only [Kernel.doWait, hfind, bind_some, hparent, hfresh.1 htarget, if_true] at he
        cases he
      · rw [hzero]
        rw [hzero] at hmin
        refine iff_of_true ⟨nofun, fun id code hok hid => ?_, fun _ _ => .inl rfl⟩ ⟨hmin nofun, nofun⟩
        cases hok
        exact absurd rfl hid
    · rw [hparent] at hparent'
      cases hparent'
      have hpos := (h.formed.heap id child hchild).2.1
      have hstale : id ∈ w.waitedIds ↔ w.kernel.tasks.find id = none := by
        rw [h.waited, hchild]
        exact and_iff_right rfl
      have hended : w.kernel.tasks.ended id = some code := by
        simp only [TaskTable.ended, hchild, bind_some, Task.ended, hdone, if_true, hcode]
      rw [hwait, hfirst]
      constructor
      · intro honce
        refine ⟨hmin (by rw [hwait]; exact honce.1), fun c hc => ?_⟩
        cases hc
        have hnot := (honce.2.1 id code rfl (by omega)).1
        rw [hstale] at hnot
        exact ne_none_iff_isSome.mp hnot
      · intro hfresh
        have hsome := hfresh.2 id rfl
        have hnot : id ∉ w.waitedIds := by
          rw [hstale]
          exact ne_none_iff_isSome.mpr hsome
        refine ⟨nofun, fun id' code' hok _ => ?_, fun _ hall => ?_⟩
        · cases hok
          exact ⟨hnot, h.ended id code hended⟩
        · exact absurd (hall id (mem_of_find?_eq_some hfirst) child hchild hdone) hnot
  | fork id => exact Iff.rfl
  | setCur id => exact Iff.rfl
  | exit status => exact Iff.rfl
  | reap id => exact Iff.rfl

/-! ### Runs -/

theorem new_recorded (nf : Nat) : (new nf).Recorded := by
  refine ⟨new_formed nf, fun i code hended => ?_, fun i => ?_⟩
  · simp only [TaskTable.ended, new_heap] at hended
    split at hended
    · cases hended
    · cases hended
  · rw [new_heap, new_find]
    refine iff_of_false not_mem_nil fun h => ?_
    split at h
    · cases h.2
    · cases h.1

end ProcWorld

/-- Forks, exits and waits; the table is asked to reap by the waits only. -/
def waits : System ProcWorld ProcStep where
  step w
    | .reap _ => none
    | a => procs.step w a

namespace ProcWorld
variable {w w' : ProcWorld}
variable {a : ProcStep} {task child : Task}

theorem procs_step (hstep : waits.step w a = some w') : procs.step w a = some w' := by
  cases a with
  | reap id => cases hstep
  | fork id => exact hstep
  | setCur id => exact hstep
  | exit status => exact hstep
  | wait parentId targetPid options => exact hstep

variable {id t : Nat}

theorem Recorded.fork (h : w.Recorded) (hfind : w.kernel.tasks.find id = some id)
    (htask : w.kernel.tasks.heap[id]? = some task) :
    Recorded {w with kernel := {w.kernel with tasks := (w.kernel.tasks.forkTask id task).2}} := by
  refine ⟨h.formed.forkTask hfind htask, fun i code hended => ?_, fun i => ?_⟩
  · dsimp only at hended
    rw [TaskTable.ended_forkTask htask] at hended
    split at hended
    · cases hended
    · exact h.ended i code hended
  · dsimp only
    rw [TaskTable.isSome_forkTask htask, TaskTable.find_forkTask]
    refine (h.waited i).trans ?_
    by_cases hi : w.kernel.tasks.seq = i
    · rw [if_pos hi, ← hi]
      refine iff_of_false (fun hold => ?_) fun hnew => some_ne_none _ hnew.2
      obtain ⟨old, hold⟩ := isSome_iff_exists.mp hold.1
      exact Nat.lt_irrefl _ (h.formed.heap _ old hold).2.2
    · simp only [hi, decide_false, Bool.false_or, if_false]

theorem Recorded.exit (h : w.Recorded) (hrun : w.kernel.running = some (t, task)) (status : Nat) :
    Recorded {w with kernel := w.kernel.sysExit status, exits := w.exits.insert t status} := by
  have hagrees := Kernel.sysExit_agrees h.formed hrun status
  refine ⟨(Kernel.sysExit_formed h.formed hrun status).1, fun i code hended => ?_, fun i => ?_⟩
  · dsimp only at hended ⊢
    rw [hagrees.ended, TaskTable.ended_modify] at hended
    rw [get_insert]
    split at hended
    · next hi =>
      rw [if_pos hi.symm, ← hended, Kernel.running_heap hrun, bind_some, Task.ended]
      exact congrArg some (task.exitProc_exitCode status).symm
    · next hi =>
      rw [if_neg (Ne.symm hi)]
      exact h.ended i code hended
  · dsimp only
    rw [hagrees.heap, hagrees.find, TaskTable.isSome_modify, TaskTable.find_modify]
    exact h.waited i

theorem Recorded.wait (h : w.Recorded) (hchild : w.kernel.tasks.heap[id]? = some child)
    (hdone : child.done = true) (hone : id ≠ 1) (code : Nat) :
    Recorded {w with
      kernel := {w.kernel with tasks := w.kernel.tasks.reap id}
      waited := w.waited ++ [(id, code)]} := by
  have hids (i : Nat) : i ∈ (w.waited ++ [(id, code)]).map Prod.fst ↔ i ∈ w.waitedIds ∨ i = id := by
    simp only [waitedIds, map_append, mem_append, map_cons, map_nil, mem_singleton]
  obtain ⟨hheap, hfind, hended⟩ := TaskTable.reap_agrees h.formed hchild hdone
  refine ⟨h.formed.reap_any hchild hone, fun i code' hi => ?_, fun i => ?_⟩
  · dsimp only at hi
    rw [hended] at hi
    exact h.ended i code' hi
  · refine (hids i).trans ?_
    rw [h.waited]
    dsimp only
    rw [hheap, hfind]
    by_cases hi : id = i
    · rw [← hi, if_pos rfl, hchild]
      exact iff_of_true (.inr rfl) ⟨rfl, rfl⟩
    · rw [if_neg hi]
      exact or_iff_left (Ne.symm hi)

theorem Recorded.step (h : w.Recorded) (hstep : waits.step w a = some w') : w'.Recorded := by
  cases step_cases h.formed (procs_step hstep) with
  | fork hfind htask => exact h.fork hfind htask
  | setCur => exact ⟨h.formed, h.ended, h.waited⟩
  | exit hrun => exact h.exit hrun _
  | reap => cases hstep
  | waitNone => exact h
  | waitChild _ hparent hfirst hchild hdone =>
    exact h.wait hchild hdone (h.formed.children _ _ (Kernel.firstEnded_mem hparent hfirst)).1 _

end ProcWorld

/-- **A child is waited for once**, and with its code, at every wait of a run exactly when each time the first
child that has ended is still in the table. -/
theorem waits_once_iff (nf : Nat) (steps : List ProcStep) :
    waits.Asks ProcWorld.WaitsOnce (ProcWorld.new nf) steps ↔
      waits.Asks ProcWorld.FindsFresh (ProcWorld.new nf) steps := by
  refine System.asks_iff (J := ProcWorld.Recorded) (fun _ _ _ h hstep => h.step hstep)
    (fun _ a h => h.waitsOnce_iff a) (ProcWorld.new_recorded nf) steps

/-- The second wait returns the same child. -/
theorem waited_twice : ¬waits.Asks ProcWorld.WaitsOnce (ProcWorld.new 0)
    [.fork 1, .setCur 2, .exit 7, .wait 1 (-1) 1, .wait 1 (-1) 1] := by
  intro hall
  have hrun : ((waits.run (ProcWorld.new 0) [.fork 1, .setCur 2, .exit 7, .wait 1 (-1) 1]).any fun w =>
      (w.lookup 1).isSome ∧ w.waitedIds = [2] ∧ (w.kernel.doWait 1 (-1) 1).1.toOption = some (2, 7)) = true := by
    decide +kernel
  obtain ⟨w, hrun, hsome, hwaited, hwait⟩ := System.exists_of_run_any hrun
  obtain ⟨⟨t, parent⟩, hlookup⟩ := isSome_iff_exists.mp hsome
  have honce := (hall _ (.wait 1 (-1) 1) w prefix_rfl hrun t parent hlookup).2.1
  have hok : (w.kernel.doWait 1 (-1) 1).1 = .ok (2, 7) := by
    cases hres : (w.kernel.doWait 1 (-1) 1).1 with
    | error e =>
      rw [hres] at hwait
      cases hwait
    | ok r =>
      rw [hres] at hwait
      exact congrArg Except.ok (some.inj hwait)
  refine (honce 2 7 hok (by decide)).1 ?_
  rw [hwaited]
  exact mem_singleton_self 2

end ChaosKernel.Proc
