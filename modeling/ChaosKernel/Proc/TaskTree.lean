import ChaosKernel.Proc.TableFamily

/-! The tree of tasks.

The tree is kept along a run exactly as long as nobody with children exits and nobody
is reaped (`tree_along_iff`): an exit is an adoption of the children by task 1 that
leaves them where they were. -/
namespace ChaosKernel.Proc
open Base Memory Option List

namespace Kernel
variable {k : Kernel}

/-! ### Exits -/

variable {t code : Nat} {task parent child : Task} {tasks : TaskTable} {targetPid : Int} {cs : List Nat}

theorem running_heap (h : k.running = some (t, task)) : k.tasks.heap[t]? = some task := by
  obtain ⟨t', _, hmap⟩ := bind_eq_some_iff.mp h
  obtain ⟨task', htask, heq⟩ := map_eq_some_iff.mp hmap
  cases heq
  exact htask

theorem foldl_init (h : tasks.find 1 = some 1) (cs : List Nat) :
    cs.foldl (fun tasks child =>
      match tasks.find 1 with
      | none => tasks
      | some init => tasks.adopt init child) tasks = cs.foldl (fun tasks c => tasks.adopt 1 c) tasks := by
  induction cs generalizing tasks with
  | nil => rfl
  | cons c cs ih =>
    rw [foldl_cons, foldl_cons]
    simp only [h]
    exact ih (by rw [TaskTable.find_adopt, h])

theorem exitProc_beside (code : Nat) : TaskTable.Beside fun task => task.exitProc code :=
  ⟨fun _ => rfl, fun _ => rfl, fun _ => rfl⟩

theorem ev_beside (flag : Nat) : TaskTable.Beside fun task => {task with ev := task.ev ||| flag} :=
  ⟨fun _ => rfl, fun _ => rfl, fun _ => rfl⟩

theorem sendSig_beside (signo senderTid : Int) : TaskTable.Beside fun task => task.sendSig signo senderTid :=
  ⟨fun _ => rfl, fun _ => rfl, fun _ => rfl⟩

/-- The table of an exit, before the children are given away. -/
def exitTasks (k : Kernel) (t : Nat) (parent : Option Nat) (status : Nat) : TaskTable :=
  match parent with
  | none => k.tasks.exitProc t parent status
  | some p => (k.tasks.exitProc t parent status).modify p fun parent => parent.sendSig sigchld t

theorem exitTasks_formed (h : k.tasks.Formed) (t : Nat) (parent : Option Nat) (status : Nat) :
    (k.exitTasks t parent status).Formed ∧ (k.exitTasks t parent status).family = k.tasks.family ∧
      ∀ i : Nat, ((k.exitTasks t parent status).heap[i]?).isSome = (k.tasks.heap[i]?).isSome := by
  cases parent with
  | none =>
    exact ⟨h.modify (exitProc_beside status) t, TaskTable.family_modify (exitProc_beside status) t,
      fun i => TaskTable.isSome_modify ..⟩
  | some p =>
    refine ⟨((h.modify (exitProc_beside status) t).modify (ev_beside _) p).modify (sendSig_beside _ _) p, ?_,
      fun i => ?_⟩
    · exact (TaskTable.family_modify (sendSig_beside _ _) p).trans
        ((TaskTable.family_modify (ev_beside _) p).trans (TaskTable.family_modify (exitProc_beside status) t))
    · exact (TaskTable.isSome_modify ..).trans
        ((TaskTable.isSome_modify ..).trans (TaskTable.isSome_modify ..))

theorem sysExit_eq (h : k.tasks.Formed) (hrun : k.running = some (t, task)) (status : Nat) :
    k.sysExit status = {k with
      tasks := task.subtasks.foldl (fun tasks c => tasks.adopt 1 c) (k.exitTasks t task.parent status)} := by
  simp only [sysExit, hrun]
  exact congrArg (fun tasks => {k with tasks})
    (foldl_init (k.exitTasks_formed h t task.parent status).1.findRoot task.subtasks)

theorem sysExit_formed (h : k.tasks.Formed) (hrun : k.running = some (t, task)) (status : Nat) :
    (k.sysExit status).tasks.Formed ∧
      (k.sysExit status).tasks.family = k.tasks.family.adopt 1 task.subtasks := by
  obtain ⟨hformed, hfamily, hsome⟩ := k.exitTasks_formed h t task.parent status
  have hcs : ∀ c ∈ task.subtasks, c ≠ 1 ∧ ((k.exitTasks t task.parent status).heap[c]?).isSome := by
    intro c hc
    rw [hsome]
    rw [← TaskTable.family_children (running_heap hrun)] at hc
    exact h.children t c hc
  rw [sysExit_eq h hrun, ← hfamily]
  exact hformed.adoptAll hcs

end Kernel

/-! ### Waits -/

/-- A task that has ended and that a wait for `pid` by `parent` is a wait for. -/
def waitedFor (pid : Int) (parent child : Task) : Bool :=
  child.done && decide (TaskTable.childMatches pid parent child = some true)

/-- The first such child in the list of `parent`. -/
def TaskTable.firstEnded (tasks : TaskTable) (pid : Int) (parent : Task) : Option Nat :=
  parent.subtasks.find? (tasks.holds (waitedFor pid parent))

namespace Kernel
variable {k : Kernel} {code : Nat} {parent child : Task} {tasks : TaskTable} {targetPid : Int} {cs : List Nat}

theorem childMatches_none : TaskTable.childMatches targetPid parent child = none ↔ targetPid = -2 ^ 63 := by
  unfold TaskTable.childMatches
  constructor
  · intro h
    split at h
    · cases h
    · split at h
      · cases h
      · split at h
        · cases h
        · split at h
          · assumption
          · cases h
  · intro h
    subst h
    rfl

/-- The loop stops only at the smallest `isize`, and there at the first child. -/
theorem findZombie_error {e : Stop Errno} (h : tasks.findZombie targetPid parent cs = .error e) :
    e = .panic ∧ targetPid = -2 ^ 63 := by
  induction cs with
  | nil => cases h
  | cons c rest ih =>
    rw [TaskTable.findZombie] at h
    split at h
    · exact ih h
    · split at h
      · next hmatch =>
        cases h
        exact ⟨rfl, childMatches_none.mp hmatch⟩
      · split at h
        · cases h
        · exact ih h

theorem firstEnded_mem {t c : Nat} (hparent : tasks.heap[t]? = some parent)
    (h : tasks.firstEnded targetPid parent = some c) : c ∈ tasks.family.children t := by
  rw [TaskTable.family_children hparent]
  exact mem_of_find?_eq_some h

/-- The smallest `isize` names nobody. -/
theorem waitedFor_min (parent : Task) (h : targetPid = -2 ^ 63) : waitedFor targetPid parent = fun _ => false := by
  funext child
  simp [waitedFor, childMatches_none.mpr h]

/-- A loop that does not stop finds the first child that has ended, with its code. -/
theorem findZombie_ok (h : tasks.Formed) {found : Option (Nat × Nat)}
    (hok : tasks.findZombie targetPid parent cs = .ok found) :
    cs.find? (tasks.holds (waitedFor targetPid parent)) = found.map Prod.fst ∧
      ∀ id code, found = some (id, code) →
        ∃ child, tasks.heap[id]? = some child ∧ child.done = true ∧ child.exitCode = code := by
  induction cs with
  | nil =>
    cases hok
    exact ⟨rfl, nofun⟩
  | cons c rest ih =>
    rw [TaskTable.findZombie] at hok
    rw [find?_cons, TaskTable.holds]
    split at hok
    · next hgone =>
      rw [hgone]
      exact ih hok
    · next child hchild =>
      split at hok
      · cases hok
      · next hit hmatches =>
        have hwaited : waitedFor targetPid parent child = (hit && child.done) := by
          simp [waitedFor, hmatches, Bool.and_comm]
        rw [hchild, any_some, hwaited]
        split at hok
        · next hfound =>
          cases hok
          rw [hfound, (h.heap c child hchild).1]
          refine ⟨rfl, fun id code heq => ?_⟩
          cases heq
          exact ⟨child, hchild, (Bool.and_eq_true_iff.mp hfound).2, rfl⟩
        · next hnot =>
          rw [Bool.eq_false_iff.mpr hnot]
          exact ih hok

/-- A wait changes nothing and returns no child, or it reaps the child that it returns: the first one in the
list that has ended. -/
theorem doWait_cases (h : k.tasks.Formed) (parentId : Nat) (targetPid : Int) (options : Nat) :
    ((k.doWait parentId targetPid options).2 = k ∧
        (∀ parent, k.tasks.find parentId = some parentId → k.tasks.heap[parentId]? = some parent →
          k.tasks.firstEnded targetPid parent = none) ∧
        (((k.doWait parentId targetPid options).1 = .error (.err .esrch) ∧ k.tasks.find parentId = none) ∨
          (k.doWait parentId targetPid options).1 = .error (.err .echild) ∨
          ((k.doWait parentId targetPid options).1 = .error .panic ∧ targetPid = -2 ^ 63) ∨
          (k.doWait parentId targetPid options).1 = .ok (0, 0))) ∨
      ∃ parent id code child, k.tasks.find parentId = some parentId ∧
        k.tasks.heap[parentId]? = some parent ∧ k.tasks.firstEnded targetPid parent = some id ∧
        k.tasks.heap[id]? = some child ∧ child.done = true ∧ child.exitCode = code ∧
        k.doWait parentId targetPid options = (.ok (id, code), {k with tasks := k.tasks.reap id}) := by
  unfold doWait
  split
  · next hnone =>
    have hgone : k.tasks.find parentId = none := by
      cases hfind : k.tasks.find parentId with
      | none => rfl
      | some t =>
        obtain ⟨rfl, hsome⟩ := h.find _ _ hfind
        rw [hfind, bind_some] at hnone
        rw [hnone] at hsome
        cases hsome
    refine .inl ⟨rfl, fun parent hfind _ => ?_, .inl ⟨rfl, hgone⟩⟩
    rw [hgone] at hfind
    cases hfind
  · next parent hparent =>
    obtain ⟨t, hfind, hheap⟩ := bind_eq_some_iff.mp hparent
    obtain ⟨rfl, _⟩ := h.find _ _ hfind
    have hnobody (hnone : k.tasks.firstEnded targetPid parent = none) (parent' : Task)
        (_ : k.tasks.find t = some t) (hheap' : k.tasks.heap[t]? = some parent') :
        k.tasks.firstEnded targetPid parent' = none := by
      cases hheap.symm.trans hheap'
      exact hnone
    dsimp only
    split
    · next hempty => exact .inl ⟨rfl, hnobody (by rw [TaskTable.firstEnded, hempty]; rfl), .inr (.inl rfl)⟩
    · split
      · next e herror =>
        obtain ⟨rfl, htarget⟩ := findZombie_error herror
        refine .inl ⟨rfl, hnobody ?_, .inr (.inr (.inl ⟨rfl, htarget⟩))⟩
        refine find?_eq_none.mpr fun c _ => ?_
        simp [TaskTable.holds, waitedFor_min parent htarget]
      · next id code hfound =>
        obtain ⟨hfirst, hended⟩ := findZombie_ok h hfound
        obtain ⟨child, hchild, hdone, hcode⟩ := hended id code rfl
        exact .inr ⟨parent, id, code, child, hfind, hheap, hfirst, hchild, hdone, hcode, rfl⟩
      · next hfound =>
        have hnone : k.tasks.firstEnded targetPid parent = none := (findZombie_ok h hfound).1
        split
        · exact .inl ⟨rfl, hnobody hnone, .inr (.inr (.inr rfl))⟩
        · exact .inl ⟨rfl, hnobody hnone, .inr (.inl rfl)⟩

end Kernel

/-! ### Runs -/

/-- No exit of a task with children, no reap, no wait by a task of whose children one that it waits for
has ended. -/
def ProcWorld.KeepsTree (w : ProcWorld) : ProcStep → Prop
  | .fork _ | .setCur _ => True
  | .exit _ => ∀ t task, w.kernel.running = some (t, task) → task.subtasks = []
  | .reap _ => False
  | .wait parentId targetPid _ =>
    ∀ t parent, w.lookup parentId = some (t, parent) → w.kernel.tasks.firstEnded targetPid parent = none

/-- The table agrees with the lists of children. -/
def TaskTable.IsTree (tasks : TaskTable) : Prop := ∃ r, tasks.root = some r ∧ tasks.family.Tree r

variable {tasks : TaskTable} {task : Task}

theorem TaskTable.Formed.isTree_iff (h : tasks.Formed) : tasks.IsTree ↔ tasks.family.Tree 1 := by
  constructor
  · intro htree
    obtain ⟨r, hr, htree⟩ := htree
    rw [h.root] at hr
    cases hr
    exact htree
  · exact fun htree => ⟨1, h.root, htree⟩

theorem TaskTable.Formed.adopt_tree_iff (h : tasks.Formed) (htree : tasks.family.Tree 1) {t : Nat}
    (htask : tasks.heap[t]? = some task) :
    (tasks.family.adopt 1 task.subtasks).Tree 1 ↔ task.subtasks = [] := by
  rw [← TaskTable.family_children htask]
  constructor
  · intro hafter
    by_contra hne
    obtain ⟨c, hc⟩ := exists_mem_of_ne_nil _ hne
    have halive : tasks.family.alive t := by
      cases hfind : tasks.find t with
      | none => exact absurd (h.gone t hfind) hne
      | some _ => exact TaskTable.alive_of_find hfind
    exact Family.Tree.not_of_adopt halive hc (h.children t c hc).1 (htree.closed t halive c hc) hafter
  · intro hnil
    rw [hnil, Family.adopt_nil]
    exact htree

theorem TaskTable.Formed.reap_not_tree (h : tasks.Formed) (htree : tasks.family.Tree 1) {id : Nat}
    (hfind : tasks.find id = some id) (htask : tasks.heap[id]? = some task) (hid : id ≠ 1) :
    ¬(tasks.reap id).family.Tree 1 := by
  rw [(h.reap hfind htask hid).2]
  exact htree.not_of_bury (TaskTable.alive_of_find hfind) hid (TaskTable.alive_of_find h.findRoot)

namespace ProcWorld
variable {w w' : ProcWorld}

theorem lookup_some (h : w.kernel.tasks.Formed) {id t : Nat} (hlookup : w.lookup id = some (t, task)) :
    t = id ∧ w.kernel.tasks.find id = some id ∧ w.kernel.tasks.heap[id]? = some task := by
  obtain ⟨t', hfind, hmap⟩ := bind_eq_some_iff.mp hlookup
  obtain ⟨task', htask, heq⟩ := map_eq_some_iff.mp hmap
  cases heq
  obtain ⟨rfl, _⟩ := h.find _ _ hfind
  exact ⟨rfl, hfind, htask⟩

theorem lookup_of_find {id t : Nat} (hfind : w.kernel.tasks.find id = some t)
    (htask : w.kernel.tasks.heap[t]? = some task) : w.lookup id = some (t, task) := by
  rw [lookup, hfind, bind_some, htask, map_some]

variable (nf i : Nat) {a : ProcStep}

theorem new_heap : (new nf).kernel.tasks.heap[i]? = if 1 = i then some (Task.make 1 "init") else none := by
  have hempty : (∅ : BTreeMap Task)[i]? = none := Std.ExtTreeMap.getElem?_empty
  rw [← hempty]
  exact get_insert ..

theorem new_find : (new nf).kernel.tasks.find i = if 1 = i then some 1 else none := by
  have hempty : (∅ : BTreeMap Nat)[i]? = none := Std.ExtTreeMap.getElem?_empty
  rw [← hempty]
  exact get_insert ..

theorem new_children : (new nf).kernel.tasks.family.children i = [] := by
  simp only [TaskTable.family, new_heap]
  split <;> rfl

theorem new_formed : (new nf).kernel.tasks.Formed := by
  refine ⟨rfl, by rw [new_find, if_pos rfl], fun i j hij => ?_, fun i task hi => ?_, fun i c hc => ?_,
    fun i _ => new_children nf i⟩
  · rw [new_find] at hij
    rw [new_heap]
    split at hij
    · next heq =>
      cases hij
      rw [if_pos heq]
      exact ⟨heq, rfl⟩
    · cases hij
  · rw [new_heap] at hi
    split at hi
    · next heq =>
      cases hi
      subst heq
      exact ⟨rfl, Nat.one_pos, Nat.one_lt_two⟩
    · cases hi
  · rw [new_children] at hc
    cases hc

theorem new_isTree : (new nf).kernel.tasks.IsTree := by
  refine ⟨1, rfl, fun i hi hne => ?_, fun q _ c hc => ?_⟩
  · have hi : ((new nf).kernel.tasks.find i).isSome := hi
    rw [new_find, if_neg (Ne.symm hne)] at hi
    cases hi
  · rw [new_children] at hc
    cases hc

/-- What a step does. -/
inductive Steps (w : ProcWorld) : ProcStep → ProcWorld → Prop where
  | fork {id : Nat} {task : Task} (find : w.kernel.tasks.find id = some id)
    (heap : w.kernel.tasks.heap[id]? = some task) :
    Steps w (.fork id) {w with kernel := {w.kernel with tasks := (w.kernel.tasks.forkTask id task).2}}
  | setCur {id : Nat} : Steps w (.setCur id) {w with kernel := w.kernel.setCur 0 (some id)}
  | exit {t status : Nat} {task : Task} (running : w.kernel.running = some (t, task)) :
    Steps w (.exit status) {w with kernel := w.kernel.sysExit status, exits := w.exits.insert t status}
  | reap {id : Nat} {task : Task} (find : w.kernel.tasks.find id = some id)
    (heap : w.kernel.tasks.heap[id]? = some task) (ne : id ≠ 1) :
    Steps w (.reap id) {w with kernel := {w.kernel with tasks := w.kernel.tasks.reap id}}
  | waitNone {parentId options : Nat} {targetPid : Int}
    (none : ∀ parent, w.kernel.tasks.find parentId = some parentId →
      w.kernel.tasks.heap[parentId]? = some parent → w.kernel.tasks.firstEnded targetPid parent = none) :
    Steps w (.wait parentId targetPid options) w
  | waitChild {parentId options id code : Nat} {targetPid : Int} {parent child : Task}
    (find : w.kernel.tasks.find parentId = some parentId) (heap : w.kernel.tasks.heap[parentId]? = some parent)
    (first : w.kernel.tasks.firstEnded targetPid parent = some id)
    (found : w.kernel.tasks.heap[id]? = some child) (done : child.done = true) :
    Steps w (.wait parentId targetPid options) {w with
      kernel := {w.kernel with tasks := w.kernel.tasks.reap id}
      waited := w.waited ++ [(id, code)]}

theorem step_wait (h : w.kernel.tasks.Formed) {parentId options : Nat} {targetPid : Int}
    (hstep : procs.step w (.wait parentId targetPid options) = some w') :
    w.Steps (.wait parentId targetPid options) w' := by
  rcases w.kernel.doWait_cases h parentId targetPid options with
    ⟨hsame, hnobody, hnone⟩ | ⟨parent, id, code, child, hfind, hparent, hfirst, hchild, hdone, _, hwait⟩
  · have hpair := Prod.mk.eta (p := w.kernel.doWait parentId targetPid options)
    rw [hsame] at hpair
    rcases hnone with ⟨he, _⟩ | he | ⟨he, _⟩ | he <;> rw [he] at hpair <;>
      simp only [procs, step, ← hpair] at hstep <;> cases hstep <;> exact .waitNone hnobody
  · -- The id of a child is not the 0 that stands for no child.
    obtain ⟨n, rfl⟩ := Nat.exists_eq_succ_of_ne_zero (Nat.ne_of_gt (h.heap id child hchild).2.1)
    simp only [procs, step, hwait] at hstep
    cases hstep
    exact .waitChild hfind hparent hfirst hchild hdone

theorem step_cases (h : w.kernel.tasks.Formed) (hstep : procs.step w a = some w') : w.Steps a w' := by
  cases a with
  | fork id =>
    obtain ⟨⟨t, task⟩, hlookup, hthen⟩ := bind_eq_some_iff.mp hstep
    obtain ⟨rfl, hfind, htask⟩ := lookup_some h hlookup
    dsimp only at hthen
    split at hthen
    · cases hthen
    · cases hthen
      exact .fork hfind htask
  | setCur id =>
    obtain ⟨⟨t, task⟩, hlookup, rfl⟩ := map_eq_some_iff.mp hstep
    obtain ⟨rfl, _, _⟩ := lookup_some h hlookup
    exact .setCur
  | exit status =>
    obtain ⟨⟨t, task⟩, hrun, rfl⟩ := map_eq_some_iff.mp hstep
    exact .exit hrun
  | reap id =>
    obtain ⟨⟨t, task⟩, hlookup, hthen⟩ := bind_eq_some_iff.mp hstep
    obtain ⟨rfl, hfind, htask⟩ := lookup_some h hlookup
    dsimp only at hthen
    split at hthen
    · next hreap =>
      cases hthen
      exact .reap hfind htask fun heq => hreap.2 (heq ▸ h.root)
    · cases hthen
  | wait parentId targetPid options => exact step_wait h hstep

theorem step_formed (h : w.kernel.tasks.Formed) (hstep : procs.step w a = some w') :
    w'.kernel.tasks.Formed := by
  cases step_cases h hstep with
  | fork hfind htask => exact h.forkTask hfind htask
  | setCur => exact h
  | exit hrun => exact (Kernel.sysExit_formed h hrun _).1
  | reap hfind htask hne => exact (h.reap hfind htask hne).1
  | waitNone => exact h
  | waitChild _ hparent hfirst hchild =>
    exact h.reap_any hchild (h.children _ _ (Kernel.firstEnded_mem hparent hfirst)).1

theorem step_isTree_iff (h : w.kernel.tasks.Formed) (htree : w.kernel.tasks.family.Tree 1)
    (hstep : procs.step w a = some w') : w'.kernel.tasks.family.Tree 1 ↔ w.KeepsTree a := by
  cases step_cases h hstep with
  | fork hfind htask =>
    refine iff_of_true ?_ trivial
    rw [TaskTable.forkTask_family htask (h.heap _ _ htask).2.2]
    refine htree.birth (TaskTable.alive_of_find hfind) ?_
    show ¬(w.kernel.tasks.find w.kernel.tasks.seq).isSome
    rw [h.fresh]
    exact Bool.false_ne_true
  | setCur => exact iff_of_true htree trivial
  | exit hrun =>
    rw [(Kernel.sysExit_formed h hrun _).2, h.adopt_tree_iff htree (Kernel.running_heap hrun)]
    constructor
    · intro hnil t' task' hrun'
      rw [hrun] at hrun'
      cases hrun'
      exact hnil
    · exact fun hkeeps => hkeeps _ _ hrun
  | reap hfind htask hne => exact iff_of_false (h.reap_not_tree htree hfind htask hne) not_false
  | waitNone hnone =>
    refine iff_of_true htree fun t parent hlookup => ?_
    obtain ⟨_, hfind, hparent⟩ := lookup_some h hlookup
    exact hnone parent hfind hparent
  | waitChild hfind hparent hfirst hchild =>
    have hmem := Kernel.firstEnded_mem hparent hfirst
    obtain ⟨j, hj⟩ := isSome_iff_exists.mp (htree.closed _ (TaskTable.alive_of_find hfind) _ hmem)
    obtain ⟨rfl, _⟩ := h.find _ j hj
    refine iff_of_false (h.reap_not_tree htree hj hchild (h.children _ _ hmem).1) fun hkeeps => ?_
    rw [hkeeps _ _ (lookup_of_find hfind hparent)] at hfirst
    cases hfirst

end ProcWorld

/-- **The table stays a tree** in all states of a run exactly when no task with children exits, no
task is reaped and no child that a wait is for has ended. -/
theorem tree_along_iff (nf : Nat) (steps : List ProcStep) :
    procs.Always (fun w => w.kernel.tasks.IsTree) (ProcWorld.new nf) steps ↔
      procs.Guarded ProcWorld.KeepsTree (ProcWorld.new nf) steps := by
  refine System.always_iff_guarded (J := fun w => w.kernel.tasks.Formed)
    (fun _ _ _ h hstep => ProcWorld.step_formed h hstep) (fun w a w' h htree hstep => ?_)
    (ProcWorld.new_formed nf) (ProcWorld.new_isTree nf)
  rw [(ProcWorld.step_formed h hstep).isTree_iff]
  exact ProcWorld.step_isTree_iff h (h.isTree_iff.mp htree) hstep

/-- A child forks and exits: the grandchild is in two lists. -/
theorem exit_breaks_tree : ¬procs.Always (fun w => w.kernel.tasks.IsTree) (ProcWorld.new 0)
    [.fork 1, .fork 2, .setCur 2, .exit 0] := by
  intro hall
  have hrun : ((procs.run (ProcWorld.new 0) [.fork 1, .fork 2, .setCur 2, .exit 0]).any fun w =>
      w.kernel.tasks.root = some 1 ∧ (w.kernel.tasks.find 2).isSome ∧ (w.kernel.tasks.find 3).isSome ∧
        w.kernel.tasks.family.parent 3 = some 1 ∧ w.kernel.tasks.family.children 2 = [3]) = true := by
    decide +kernel
  obtain ⟨w, hrun, hroot, htwo, hthree, hparent, hchildren⟩ := System.exists_of_run_any hrun
  obtain ⟨r, hr, htree⟩ := hall _ w prefix_rfl hrun
  rw [hroot] at hr
  cases hr
  obtain ⟨p, hp, _, _, honly⟩ := htree.parent 3 hthree (by decide)
  rw [hparent] at hp
  cases hp
  refine honly 2 htwo (by decide) ?_
  rw [hchildren]
  exact mem_singleton_self 3

end ChaosKernel.Proc
