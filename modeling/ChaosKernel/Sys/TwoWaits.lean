import ChaosKernel.Proc.TaskTree
import ChaosKernel.Sys.Delivery

/-! The two waits.

`do_wait` goes through the children of the caller. `SYS_WAIT4` goes through the
tasks of the table that the pid names, whosever children they are, and takes the
first that has ended, or for the caller's own group the last. The two agree exactly
when that task is a child of the caller, or nobody that the pid names has ended in
the table and among the children (`waits_agree_iff`). -/
namespace ChaosKernel.Sys
open Base Memory Proc Call

/-- The ids under which the table has such a task. -/
def endedTasks (tasks : TaskTable) (pid : Int) (parent : Task) : List Nat := tasks.idsOf (waitedFor pid parent)

/-- A child of the caller that has ended and that the pid names. -/
def EndedChild (tasks : TaskTable) (pid : Int) (parent : Task) (c : Nat) : Prop :=
  c ∈ parent.subtasks ∧ tasks.holds (waitedFor pid parent) c = true

/-- `SYS_WAIT4` with null pointers returns no child but one that has ended and that the pid names, and
it returns one exactly when `do_wait` does. -/
def WaitsAgree (m : Machine) (p : Nat) (parent : Task) (a0 options : Nat) : Prop :=
  (∀ c m', sysWait4 a0 0 options 0 m = (.ok c, m') → c ≠ 0 → EndedChild m.kernel.tasks (asIsize a0) parent c) ∧
  ((∃ c m', sysWait4 a0 0 options 0 m = (.ok c, m') ∧ c ≠ 0) ↔
    ∃ c code k, m.kernel.doWait p (asIsize a0) options = (.ok (c, code), k) ∧ c ≠ 0)

/-- The first of the ended tasks, or the last in the caller's own group. -/
def Chosen (tasks : TaskTable) (pid : Int) (parent : Task) (c : Nat) : Prop :=
  c ∈ endedTasks tasks pid parent ∧ ∀ i ∈ endedTasks tasks pid parent, if pid = 0 then i ≤ c else c ≤ i

/-- The chosen task is a child of the caller, and there is one wherever a child has ended. -/
def ChoosesChild (tasks : TaskTable) (pid : Int) (parent : Task) : Prop :=
  (∀ c, Chosen tasks pid parent c → c ∈ parent.subtasks) ∧
  ∀ c, EndedChild tasks pid parent c → endedTasks tasks pid parent ≠ []

/-! ### The ended tasks of a group -/

variable {tasks : TaskTable} {pid : Int} {parent : Task}

theorem groupDone_eq (h : tasks.Formed) (pgid : Int) :
    groupDone tasks pgid = tasks.idsOf fun task => task.done && decide (task.pgid = pgid) := by
  unfold groupDone TaskTable.pgidGroup TaskTable.idsOf
  rw [List.filter_map, List.filterMap_map, List.filterMap_filter, ← List.filterMap_eq_map, List.filterMap_filter]
  refine List.filterMap_congr fun entry hentry => ?_
  obtain ⟨i, t⟩ := entry
  have hfind : tasks.find i = some t := Std.ExtTreeMap.mem_toList_iff_getElem?_eq_some.mp hentry
  obtain ⟨rfl, hsome⟩ := h.find i t hfind
  obtain ⟨task, htask⟩ := Option.isSome_iff_exists.mp hsome
  have hid := (h.heap t task htask).1
  simp only [Function.comp_apply, TaskTable.holds, htask, hid, hfind, Option.any_some, Option.bind_some]
  by_cases hpgid : task.pgid = pgid <;> simp [hpgid]

variable {c p : Nat}

theorem mem_endedTasks (h : tasks.Formed) :
    c ∈ endedTasks tasks pid parent ↔ tasks.find c = some c ∧ tasks.holds (waitedFor pid parent) c = true := by
  rw [endedTasks, TaskTable.mem_idsOf]
  constructor
  · intro hc
    obtain ⟨t, hfind, hholds⟩ := hc
    obtain ⟨rfl, _⟩ := h.find c t hfind
    exact ⟨hfind, hholds⟩
  · intro hc
    exact ⟨c, hc⟩

theorem pos_of_mem_endedTasks (h : tasks.Formed) (hc : c ∈ endedTasks tasks pid parent) : c ≠ 0 := by
  obtain ⟨hfind, _⟩ := (mem_endedTasks h).mp hc
  obtain ⟨task, htask⟩ := Option.isSome_iff_exists.mp (h.find c c hfind).2
  exact (h.heap c task htask).2.1.ne'

/-! ### `SYS_WAIT4` -/

section Wait4
variable {m : Machine} {p c : Nat} {parent : Task}

/-- The end of each form: the chosen task, or nothing. -/
def pick (o : Option Nat) (wnohang : Bool) : SysM Nat :=
  match o with
  | some id => pure id
  | none => noChild wnohang

theorem pick_ok_iff {o : Option Nat} (hpos : ∀ c, o = some c → c ≠ 0) (wnohang : Bool) (c : Nat) :
    (∃ m', pick o wnohang m = (.ok c, m') ∧ c ≠ 0) ↔ o = some c := by
  cases o with
  | some id =>
    constructor
    · intro h
      obtain ⟨m', hok, _⟩ := h
      cases hok
      rfl
    · intro h
      cases h
      exact ⟨m, rfl, hpos c rfl⟩
  | none =>
    refine iff_of_false (fun h => ?_) (by simp)
    obtain ⟨m', hok, hc⟩ := h
    cases wnohang with
    | false => cases hok
    | true =>
      cases hok
      exact hc rfl

variable {pid : Int}

theorem chosen_iff_head? (hpid : pid ≠ 0) (tasks : TaskTable) (c : Nat) :
    Chosen tasks pid parent c ↔ (endedTasks tasks pid parent).head? = some c := by
  have hsorted : (endedTasks tasks pid parent).Pairwise (· < ·) := TaskTable.idsOf_pairwise tasks _
  rw [head?_eq_some_iff_le hsorted]
  simp only [Chosen, hpid, if_false]

theorem head?_pos (h : m.kernel.tasks.Formed) (hc : (endedTasks m.kernel.tasks pid parent).head? = some c) :
    c ≠ 0 :=
  pos_of_mem_endedTasks h (List.mem_of_mem_head? hc)

theorem waitAny_ok_iff (h : m.kernel.tasks.Formed) (wnohang : Bool) (c : Nat) :
    (∃ m', waitAny wnohang m = (.ok c, m') ∧ c ≠ 0) ↔ Chosen m.kernel.tasks (-1) parent c := by
  have hended : endedTasks m.kernel.tasks (-1) parent = m.kernel.tasks.zombieTasks := by
    refine congrArg m.kernel.tasks.idsOf (funext fun task => ?_)
    simp [waitedFor, TaskTable.childMatches]
  have hpick : waitAny wnohang m = pick m.kernel.tasks.zombieTasks.head? wnohang m := by
    rw [waitAny, get_bind]
    cases m.kernel.tasks.zombieTasks <;> rfl
  rw [hpick, chosen_iff_head? (by omega), ← hended]
  exact pick_ok_iff (fun c hc => head?_pos h hc) wnohang c

theorem waitOwnGroup_ok_iff (h : m.kernel.tasks.Formed) (hrun : m.kernel.running = some (p, parent)) (wnohang : Bool)
    (c : Nat) : (∃ m', waitOwnGroup wnohang m = (.ok c, m') ∧ c ≠ 0) ↔ Chosen m.kernel.tasks 0 parent c := by
  have hended : endedTasks m.kernel.tasks 0 parent = groupDone m.kernel.tasks parent.pgid := by
    rw [groupDone_eq h]
    refine congrArg m.kernel.tasks.idsOf (funext fun task => ?_)
    simp [waitedFor, TaskTable.childMatches]
  have hpick : waitOwnGroup wnohang m = pick (groupDone m.kernel.tasks parent.pgid).getLast? wnohang m := by
    rw [waitOwnGroup, get_bind, hrun]
    rfl
  have hchosen : Chosen m.kernel.tasks 0 parent c ↔ (endedTasks m.kernel.tasks 0 parent).getLast? = some c :=
    (getLast?_eq_some_iff_le (TaskTable.idsOf_pairwise m.kernel.tasks _)).symm
  rw [hpick, hchosen, hended]
  refine pick_ok_iff (fun c hc => ?_) wnohang c
  rw [← hended] at hc
  exact pos_of_mem_endedTasks h (List.mem_of_getLast? hc)

theorem waitGroup_ok_iff (h : m.kernel.tasks.Formed) (hpid : pid < -1) (wnohang : Bool) (c : Nat) :
    (∃ m', waitGroup pid wnohang m = (.ok c, m') ∧ c ≠ 0) ↔ Chosen m.kernel.tasks pid parent c := by
  rw [chosen_iff_head? (by omega)]
  cases hneg : neg? pid with
  | none =>
    have hended : endedTasks m.kernel.tasks pid parent = [] := by
      refine List.eq_nil_iff_forall_not_mem.mpr fun c hc => ?_
      obtain ⟨_, hholds⟩ := (mem_endedTasks h).mp hc
      simp [TaskTable.holds, Kernel.waitedFor_min parent (neg?_eq_none.mp hneg)] at hholds
    rw [hended]
    refine iff_of_false (fun hok => ?_) (by simp)
    obtain ⟨m', hok, _⟩ := hok
    rw [waitGroup, hneg] at hok
    cases hok
  | some rawPgid =>
    have hended : endedTasks m.kernel.tasks pid parent = groupDone m.kernel.tasks (asI32 rawPgid) := by
      rw [groupDone_eq h, neg?_eq_some hneg]
      refine congrArg m.kernel.tasks.idsOf (funext fun task => ?_)
      have hsmall : pid ≠ -2 ^ 63 := fun heq => by rw [neg?_eq_none.mpr heq] at hneg; cases hneg
      have hmatches : TaskTable.childMatches pid parent task = some (decide (task.pgid = asI32 (-pid))) := by
        rw [TaskTable.childMatches, if_neg (by omega), if_neg (by omega), if_neg (by omega), if_neg hsmall]
        rfl
      simp [waitedFor, hmatches]
    by_cases hgroup : m.kernel.tasks.pgidGroup (asI32 rawPgid) = []
    · have hnobody : endedTasks m.kernel.tasks pid parent = [] := by
        rw [hended, groupDone, hgroup]
        rfl
      rw [hnobody]
      refine iff_of_false (fun hok => ?_) (by simp)
      obtain ⟨m', hok, _⟩ := hok
      rw [waitGroup, hneg, own_some_bind, get_bind, failIf_bind_eq_ok] at hok
      exact hok.1 hgroup
    · have hpick : waitGroup pid wnohang m = pick (groupDone m.kernel.tasks (asI32 rawPgid)).head? wnohang m := by
        rw [waitGroup, hneg, own_some_bind, get_bind, failIf, if_neg hgroup]
        rfl
      rw [hpick, ← hended]
      exact pick_ok_iff (fun c hc => head?_pos h hc) wnohang c

theorem waitPid_ok_iff (h : m.kernel.tasks.Formed) (hpid : 0 < pid) (wnohang : Bool) (c : Nat) :
    (∃ m', waitPid pid.toNat wnohang m = (.ok c, m') ∧ c ≠ 0) ↔ Chosen m.kernel.tasks pid parent c := by
  have hmem : ∀ i, i ∈ endedTasks m.kernel.tasks pid parent ↔
      i = pid.toNat ∧ m.kernel.tasks.find i = some i ∧ m.kernel.tasks.holds Task.done i = true := by
    intro i
    rw [mem_endedTasks h]
    by_cases hfind : m.kernel.tasks.find i = some i
    · obtain ⟨task, htask⟩ := Option.isSome_iff_exists.mp (h.find i i hfind).2
      have hmatches : TaskTable.childMatches pid parent task = some (decide (i = pid.toNat)) := by
        rw [TaskTable.childMatches, if_neg (by omega), if_neg (by omega), if_pos hpid, (h.heap i task htask).1]
      simp [TaskTable.holds, htask, waitedFor, hmatches, hfind, and_comm]
    · simp [hfind]
  have hchosen : Chosen m.kernel.tasks pid parent c ↔ c ∈ endedTasks m.kernel.tasks pid parent := by
    refine and_iff_left_of_imp fun hc i hi => ?_
    rw [if_neg (by omega), ((hmem c).mp hc).1, ((hmem i).mp hi).1]
  rw [hchosen, hmem]
  cases hfind : m.kernel.tasks.find pid.toNat with
  | none =>
    refine iff_of_false (fun hok => ?_) (by grind)
    obtain ⟨m', hok, _⟩ := hok
    rw [waitPid, get_bind, hfind] at hok
    cases hok
  | some t =>
    obtain ⟨rfl, _⟩ := h.find _ _ hfind
    have hpick : waitPid pid.toNat wnohang m =
        pick (if m.kernel.tasks.holds Task.done pid.toNat then some pid.toNat else none) wnohang m := by
      rw [waitPid, get_bind, hfind]
      dsimp only
      split <;> rfl
    rw [hpick, pick_ok_iff (fun c hc => by grind)]
    grind

theorem waitFor_ok_iff (h : m.kernel.tasks.Formed) (hrun : m.kernel.running = some (p, parent)) (pid : Int)
    (wnohang : Bool) (c : Nat) :
    (∃ m', waitFor pid wnohang m = (.ok c, m') ∧ c ≠ 0) ↔ Chosen m.kernel.tasks pid parent c := by
  unfold waitFor
  split
  · next hany =>
    rw [hany]
    exact waitAny_ok_iff h wnohang c
  · split
    · next hzero =>
      rw [hzero]
      exact waitOwnGroup_ok_iff h hrun wnohang c
    · split
      · next hpos => exact waitPid_ok_iff h hpos wnohang c
      · exact waitGroup_ok_iff h (by omega) wnohang c

theorem sysWait4_eq (m : Machine) (a0 options : Nat) :
    sysWait4 a0 0 options 0 m = waitFor (asIsize a0) (options &&& 1 != 0) m := rfl

end Wait4

/-! ### `do_wait` -/

theorem doWait_ok_iff {k : Kernel} (h : k.tasks.Formed) (hfind : k.tasks.find p = some p)
    (hparent : k.tasks.heap[p]? = some parent) (pid : Int) (options : Nat) :
    (∃ c code k', k.doWait p pid options = (.ok (c, code), k') ∧ c ≠ 0) ↔ ∃ c, EndedChild k.tasks pid parent c := by
  rcases k.doWait_cases h p pid options with
    ⟨_, hnobody, hnone⟩ | ⟨parent', id, code, child, _, hparent', hfirst, hchild, _, _, hwait⟩
  · refine iff_of_false (fun hok => ?_) fun hended => ?_
    · obtain ⟨c, code, k', hok, hc⟩ := hok
      simp only [hok] at hnone
      rcases hnone with ⟨he, _⟩ | he | ⟨he, _⟩ | he <;> cases he
      exact hc rfl
    · obtain ⟨c, hmem, hholds⟩ := hended
      exact List.find?_eq_none.mp (hnobody parent hfind hparent) c hmem hholds
  · cases hparent.symm.trans hparent'
    refine iff_of_true ⟨id, code, _, hwait, (h.heap id child hchild).2.1.ne'⟩ ⟨id, ?_, ?_⟩
    · exact List.mem_of_find?_eq_some hfirst
    · exact List.find?_some hfirst

/-! ### Agreement -/

theorem exists_chosen_iff (tasks : TaskTable) (pid : Int) (parent : Task) :
    (∃ c, Chosen tasks pid parent c) ↔ endedTasks tasks pid parent ≠ [] := by
  constructor
  · intro h
    obtain ⟨c, hc⟩ := h
    exact List.ne_nil_of_mem hc.1
  · intro h
    by_cases hpid : pid = 0
    · subst hpid
      have hlast := List.getLast?_eq_some_getLast h
      exact ⟨_, (getLast?_eq_some_iff_le (TaskTable.idsOf_pairwise tasks _)).mp hlast⟩
    · exact ⟨_, (chosen_iff_head? hpid tasks _).mpr (List.head?_eq_some_head h)⟩

/-- **In every well-formed table and whatever task of it runs, `SYS_WAIT4` agrees with `do_wait` on a pid
exactly when the task it chooses, the first that has ended among those the pid names or in the caller's own
group the last, is a child of the caller, and some task of the table is chosen if a child has ended.** -/
theorem waits_agree_iff {m : Machine} {p : Nat} {parent : Task} (h : m.kernel.tasks.Formed)
    (hrun : m.kernel.running = some (p, parent)) (hfind : m.kernel.tasks.find p = some p) (a0 options : Nat) :
    WaitsAgree m p parent a0 options ↔ ChoosesChild m.kernel.tasks (asIsize a0) parent := by
  have hwait4 := fun c => waitFor_ok_iff h hrun (asIsize a0) (options &&& 1 != 0) c
  have hdoWait := doWait_ok_iff h hfind (Kernel.running_heap hrun) (asIsize a0) options
  unfold WaitsAgree
  rw [hdoWait]
  simp only [sysWait4_eq]
  generalize asIsize a0 = pid at *
  have hchosen := exists_chosen_iff m.kernel.tasks pid parent
  have hchild : ∀ c, Chosen m.kernel.tasks pid parent c →
      (EndedChild m.kernel.tasks pid parent c ↔ c ∈ parent.subtasks) :=
    fun c hc => and_iff_left ((mem_endedTasks h).mp hc.1).2
  constructor
  · intro hagree
    obtain ⟨honly, hexact⟩ := hagree
    refine ⟨fun c hc => ?_, fun c hc => ?_⟩
    · obtain ⟨m', hok, hpos⟩ := (hwait4 c).mpr hc
      exact (honly c m' hok hpos).1
    · obtain ⟨c', m', hok, hpos⟩ := hexact.mpr ⟨c, hc⟩
      exact hchosen.mp ⟨c', (hwait4 c').mp ⟨m', hok, hpos⟩⟩
  · intro hchooses
    obtain ⟨honly, hsome⟩ := hchooses
    refine ⟨fun c m' hok hpos => ?_, ?_, ?_⟩
    · have hc := (hwait4 c).mp ⟨m', hok, hpos⟩
      exact (hchild c hc).mpr (honly c hc)
    · intro hok
      obtain ⟨c, m', hok, hpos⟩ := hok
      have hc := (hwait4 c).mp ⟨m', hok, hpos⟩
      exact ⟨c, (hchild c hc).mpr (honly c hc)⟩
    · intro hended
      obtain ⟨c, hc⟩ := hended
      obtain ⟨c', hc'⟩ := hchosen.mpr (hsome c hc)
      obtain ⟨m', hok, hpos⟩ := (hwait4 c').mpr hc'
      exact ⟨c', m', hok, hpos⟩

/-- A child that has ended is found by both. -/
theorem waits_agree_child : ∃ m parent, m.kernel.running = some (1, parent) ∧
    EndedChild m.kernel.tasks (-1) parent 2 ∧ WaitsAgree m 1 parent (2 ^ 64 - 1) 0 := by
  have hrun : ((procs.run (ProcWorld.new 4) [.fork 1, .setCur 2, .exit 7, .setCur 1]).any fun w =>
      w.kernel.tasks.find 1 = some 1 ∧ w.kernel.running.any fun cur => cur.1 = 1 ∧ cur.2.subtasks = [2] ∧
        w.kernel.tasks.holds (waitedFor (-1) cur.2) 2 ∧ endedTasks w.kernel.tasks (-1) cur.2 = [2]) = true := by
    decide +kernel
  simp only [Option.any_eq_true, decide_eq_true_eq] at hrun
  obtain ⟨w, hw, hfind, ⟨p, parent⟩, hcur, rfl, hchildren, hholds, hended⟩ := hrun
  have hformed : w.kernel.tasks.Formed :=
    System.invariant_run (I := fun w : ProcWorld => w.kernel.tasks.Formed) (fun _ _ _ h hstep => ProcWorld.step_formed h hstep)
      (ProcWorld.new_formed 4) hw
  have hchildren : parent.subtasks = [2] := hchildren
  have hchild : EndedChild w.kernel.tasks (-1) parent 2 := ⟨by simp [hchildren], hholds⟩
  refine ⟨{Machine.boot 4 with kernel := w.kernel}, parent, hcur, hchild, ?_⟩
  have hpid : asIsize (2 ^ 64 - 1) = -1 := rfl
  refine (waits_agree_iff hformed hcur hfind (2 ^ 64 - 1) 0).mpr ?_
  rw [hpid]
  refine ⟨fun c hc => ?_, fun _ _ => ?_⟩
  · have hc : c ∈ endedTasks w.kernel.tasks (-1) parent := hc.1
    rw [hended] at hc
    rw [hchildren]
    exact hc
  · show endedTasks w.kernel.tasks (-1) parent ≠ []
    simp [hended]

/-- `SYS_WAIT4` returns a grandchild. -/
theorem grandchild_waited_for : ∃ m parent,
    signals.run (Machine.boot 4) [.fork 1, .fork 2, .setCur 3, .syscall .exit ⟨0, 0, 0, 0, 0, 0⟩, .setCur 1] = some m ∧
      m.kernel.running = some (1, parent) ∧ ¬WaitsAgree m 1 parent (2 ^ 64 - 1) 0 := by
  have hrun : ((signals.run (Machine.boot 4)
      [.fork 1, .fork 2, .setCur 3, .syscall .exit ⟨0, 0, 0, 0, 0, 0⟩, .setCur 1]).any fun m =>
        m.kernel.running.any (fun cur => cur.1 = 1 ∧ cur.2.subtasks = [2]) ∧
          (sysWait4 (2 ^ 64 - 1) 0 0 0 m).1.toOption = some 3) = true := by
    decide +kernel
  simp only [Option.any_eq_true, decide_eq_true_eq] at hrun
  obtain ⟨m, hm, ⟨⟨p, parent⟩, hcur, rfl, hchildren⟩, hwait⟩ := hrun
  refine ⟨m, parent, hm, hcur, fun hagree => ?_⟩
  rcases hres : sysWait4 (2 ^ 64 - 1) 0 0 0 m with ⟨e | c, m'⟩
  · rw [hres] at hwait
    cases hwait
  · rw [hres] at hwait
    cases hwait
    have hchild := (hagree.1 3 m' hres (by decide)).1
    rw [hchildren] at hchild
    exact absurd hchild (by decide)

end ChaosKernel.Sys
