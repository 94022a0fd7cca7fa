import ChaosKernel.Proc.TaskTree
import ChaosKernel.Sys.Kill

/-! Signals to the first task.

Before a `SIGKILL` or `SIGSTOP`, `SYS_KILL` looks at the number it was given and
refuses 0, 1 and -1. A number below -1 names a group, and the first task may be in
any group: it starts in group 0, which is what the low half of `-2 ^ 32` names, and
`SYS_SETPGID` and `SYS_SETSID` move it to others (`init_spared_iff`). -/
namespace ChaosKernel.Sys
open Base Memory Proc Call

/-! ### Runs -/

inductive KillStep where
  | setCur (id : Nat)
  | kill (a0 sig : Nat)
  | setpgid (pid pgid : Nat)
  | setsid

def KillStep.call : KillStep → SysM Nat
  | .setCur id => onKernel fun k => (.ok 0, k.setCur 0 (k.tasks.find id))
  | .kill a0 sig => sysKill a0 sig
  | .setpgid pid pgid => sysSetpgid pid pgid
  | .setsid => sysSetsid

def kills : System Machine KillStep where
  step m a := settle (a.call m) (fun _ m' => m') fun m' => m'

/-- The queue of the first task holds neither of the two signals. -/
def InitSpared (m : Machine) : Prop :=
  ∀ box, m.kernel.tasks.inbox 1 = some box → ∀ entry ∈ box.queue, entry.1 ≠ sigkill ∧ entry.1 ≠ sigstop

/-- The pid names the group of the first task. -/
def NamesInitGroup (tasks : TaskTable) (pid : Int) : Prop :=
  pid < -1 ∧ (neg? pid).any (fun pgid => tasks.holds (fun task => task.pgid = asI32 pgid) 1) = true

instance (tasks : TaskTable) (pid : Int) : Decidable (NamesInitGroup tasks pid) :=
  inferInstanceAs (Decidable (_ ∧ _))

/-- `SIGKILL` and `SIGSTOP` go to no group that the first task is in. -/
def SparesInit (m : Machine) : KillStep → Prop
  | .kill a0 sig => sig = sigkill ∨ sig = sigstop → ¬NamesInitGroup m.kernel.tasks (asIsize a0)
  | _ => True

instance (m : Machine) : (a : KillStep) → Decidable (SparesInit m a)
  | .kill _ _ => inferInstanceAs (Decidable (_ → _))
  | .setCur _ | .setpgid _ _ | .setsid => .isTrue trivial

/-! ### Recipients -/

theorem sendAll_formed {tasks : TaskTable} (h : tasks.Formed) (signo senderTid : Int) (ts : List Nat) :
    (tasks.sendAll signo senderTid ts).Formed := by
  unfold TaskTable.sendAll
  induction ts generalizing tasks with
  | nil => exact h
  | cons t rest ih => exact ih (h.modify (Kernel.sendSig_beside signo senderTid) t)

variable {sig : Nat} {m m' : Machine} {a : KillStep} (nf : Nat)

theorem one_mem_killRecipients {k : Kernel} (h : k.tasks.Formed) {pid : Int}
    (hsig : sig = sigkill ∨ sig = sigstop) (hallowed : KillAllowed pid sig) :
    1 ∈ killRecipients k pid sig ↔ NamesInitGroup k.tasks pid := by
  obtain ⟨target, htarget, hgt⟩ := hallowed.2 hsig
  unfold killRecipients NamesInitGroup
  split
  · next hzero =>
    have hrefused : guardedPid? pid = some 0 := by rw [hzero]; rfl
    grind
  · split
    · next hall =>
      have hrefused : guardedPid? pid = some 1 := by rw [hall]; rfl
      grind
    · split
      · next hpos =>
        refine iff_of_false (fun hmem => ?_) (by omega)
        have hfind : k.tasks.find pid.toNat = some 1 := Option.mem_toList.mp (List.mem_of_mem_filter hmem)
        have hone : pid = 1 := by
          have := (h.find _ _ hfind).1
          omega
        have hrefused : guardedPid? pid = some 1 := by rw [hone]; rfl
        grind
      · next hzero hall hpos =>
        have hlt : pid < -1 := by omega
        cases neg? pid with
        | none => simp
        | some pgid =>
          simp only [Option.elim_some, TaskTable.mem_pgidGroup, Option.any_some, hlt, true_and, and_iff_right_iff_imp]
          exact fun _ => ⟨1, h.findRoot⟩

theorem killAllowed_of_lt {a0 : Nat} (hsig : sig = sigkill ∨ sig = sigstop) (hlt : asIsize a0 < -1)
    {pgid : Int} (hpgid : neg? (asIsize a0) = some pgid) : KillAllowed (asIsize a0) sig := by
  have hword := asUsize_neg (by omega) hpgid
  have hneg := neg?_eq_some hpgid
  generalize asIsize a0 = pid at *
  refine ⟨by simp only [sigkill, sigstop] at hsig; simp only [nsig]; omega, fun _ => ⟨asUsize pgid, ?_, by omega⟩⟩
  rw [guardedPid?, if_pos (by omega), hpgid]
  rfl

/-! ### Steps -/

/-- A step that changes no queue and leaves the table as it should be. -/
def Regroups (m m' : Machine) : Prop :=
  (m.kernel.tasks.Formed → m'.kernel.tasks.Formed) ∧ ∀ r, m'.kernel.tasks.inbox r = m.kernel.tasks.inbox r

theorem regroups_refl (m : Machine) : Regroups m m := ⟨fun h => h, fun _ => rfl⟩

theorem setPgid_regroups (m : Machine) (t : Nat) (pgid : Int) :
    Regroups m (m.withTasks (m.kernel.tasks.modify t fun task => {task with pgid := pgid})) := by
  constructor
  · intro h
    refine h.modify ?_ t
    exact ⟨fun _ => rfl, fun _ => rfl, fun _ => rfl⟩
  · intro r
    refine TaskTable.inbox_modify ?_ m.kernel.tasks t r
    exact fun _ => rfl

theorem sysSetpgid_meets (m : Machine) (pid pgid : Nat) :
    (sysSetpgid pid pgid).Meets m (fun _ => Regroups m) (Regroups m) := by
  rw [sysSetpgid, meets_get_bind, meets_failIf_bind]
  refine ⟨fun _ => regroups_refl m, fun _ => ?_⟩
  split
  · exact regroups_refl m
  · exact setPgid_regroups m _ _

theorem sysSetsid_meets (m : Machine) : sysSetsid.Meets m (fun _ => Regroups m) (Regroups m) := by
  rw [sysSetsid, meets_curTask_bind]
  split
  · exact regroups_refl m
  · exact meets_failIf_bind.mpr ⟨fun _ => regroups_refl m, fun _ => setPgid_regroups m _ _⟩

theorem step_kill {a0 : Nat} (hstep : kills.step m (.kill a0 sig) = some m') :
    (KillAllowed (asIsize a0) sig ∧
      m' = m.withTasks (m.kernel.tasks.sendAll sig (-1) (killRecipients m.kernel (asIsize a0) sig))) ∨
    ¬(sysKill a0 sig).Returns m ∧ m' = m := by
  have hmeets := sysKill_meets m a0 sig
  by_cases hreturns : (sysKill a0 sig).Returns m
  · obtain ⟨n, t, hok⟩ := hreturns
    have hm' : some t = some m' := by
      rw [← hstep]
      show _ = settle (sysKill a0 sig m) _ _
      rw [hok]
      rfl
    cases hm'
    exact .inl (hmeets.ok hok)
  · rcases hmeets.settle hstep with ⟨n, t, hok, _⟩ | ⟨t, hsame, rfl⟩
    · exact absurd ⟨n, t, hok⟩ hreturns
    · exact .inr ⟨hreturns, hsame⟩

theorem step_cases (hstep : kills.step m a = some m') :
    (∃ a0 sig, a = .kill a0 sig) ∨ SparesInit m a ∧ Regroups m m' := by
  have hmeets : (∃ a0 sig, a = .kill a0 sig) ∨ SparesInit m a ∧ a.call.Meets m (fun _ => Regroups m) (Regroups m) := by
    cases a with
    | setCur id => exact .inr ⟨trivial, regroups_refl m⟩
    | kill a0 sig => exact .inl ⟨a0, sig, rfl⟩
    | setpgid pid pgid => exact .inr ⟨trivial, sysSetpgid_meets m pid pgid⟩
    | setsid => exact .inr ⟨trivial, sysSetsid_meets m⟩
  refine hmeets.imp_right fun h => ⟨h.1, ?_⟩
  rcases h.2.settle hstep with ⟨_, _, _, hregroups, rfl⟩ | ⟨_, hregroups, rfl⟩
  · exact hregroups
  · exact hregroups

theorem step_formed (h : m.kernel.tasks.Formed) (hstep : kills.step m a = some m') :
    m'.kernel.tasks.Formed := by
  rcases step_cases hstep with ⟨a0, sig, rfl⟩ | ⟨_, hregroups⟩
  · rcases step_kill hstep with ⟨_, rfl⟩ | ⟨_, rfl⟩
    · generalize killRecipients m.kernel (asIsize a0) sig = ts
      exact sendAll_formed h sig (-1) ts
    · exact h
  · exact hregroups.1 h

theorem sendAll_initSpared_iff (h : m.kernel.tasks.Formed) (hspared : InitSpared m) (sig : Nat)
    (ts : List Nat) : InitSpared (m.withTasks (m.kernel.tasks.sendAll sig (-1) ts)) ↔
      (sig = sigkill ∨ sig = sigstop → 1 ∉ ts) := by
  obtain ⟨task, htask⟩ := Option.isSome_iff_exists.mp (h.find 1 1 h.findRoot).2
  have hbox : m.kernel.tasks.inbox 1 = some task.inbox := by rw [TaskTable.inbox, htask, Option.map_some]
  have hold := hspared task.inbox hbox
  unfold InitSpared
  show (∀ box, (m.kernel.tasks.sendAll sig (-1) ts).inbox 1 = some box → _) ↔ _
  rw [TaskTable.inbox_sendAll, hbox]
  simp only [Option.map_some, Option.some.injEq, forall_eq', Inbox.push, List.mem_append, List.mem_replicate]
  constructor
  · intro hall hsig hmem
    have hcount : ts.count 1 ≠ 0 := fun hzero => List.count_eq_zero.mp hzero hmem
    have hnew := hall (sig, -1) (.inr ⟨hcount, rfl⟩)
    grind
  · intro hsig entry hentry
    rcases hentry with hentry | ⟨hcount, rfl⟩
    · exact hold entry hentry
    · have hmem : 1 ∈ ts := by
        by_contra hnot
        exact hcount (List.count_eq_zero.mpr hnot)
      grind

theorem step_initSpared_iff (h : m.kernel.tasks.Formed) (hspared : InitSpared m)
    (hstep : kills.step m a = some m') : InitSpared m' ↔ SparesInit m a := by
  rcases step_cases hstep with ⟨a0, sig, rfl⟩ | ⟨hspares, _, hinbox⟩
  · rcases step_kill hstep with ⟨hallowed, rfl⟩ | ⟨hfails, rfl⟩
    · rw [sendAll_initSpared_iff h hspared]
      refine forall_congr' fun hsig => not_congr ?_
      exact one_mem_killRecipients h hsig hallowed
    · refine iff_of_true hspared fun hsig hnames => hfails ?_
      obtain ⟨pgid, hpgid, _⟩ := (Option.any_eq_true _ _).mp hnames.2
      have hallowed := killAllowed_of_lt hsig hnames.1 hpgid
      exact sysKill_returns hallowed (List.ne_nil_of_mem ((one_mem_killRecipients h hsig hallowed).mpr hnames))
  · refine iff_of_true (fun box hbox => hspared box ?_) hspares
    rw [← hinbox]
    exact hbox

/-- **Along every run of kills, group changes and sessions, from every well-formed table, the first task is
spared exactly when no `SIGKILL` or `SIGSTOP` is sent to a number that names its group.** -/
theorem init_spared_iff {m : Machine} (h : m.kernel.tasks.Formed) (hspared : InitSpared m) (steps : List KillStep) :
    kills.Always InitSpared m steps ↔ kills.Guarded SparesInit m steps :=
  System.always_iff_guarded (J := fun m => m.kernel.tasks.Formed) (fun _ _ _ h hstep => step_formed h hstep)
    (fun _ _ _ h hspared hstep => step_initSpared_iff h hspared hstep) h hspared

theorem boot_tasks : (Machine.boot nf).kernel.tasks =
    (ProcWorld.new nf).kernel.tasks.modify 1 fun task => {task with threads := task.threads ++ [1]} := rfl

theorem boot_formed : (Machine.boot nf).kernel.tasks.Formed := by
  rw [boot_tasks]
  refine (ProcWorld.new_formed nf).modify ?_ 1
  exact ⟨fun _ => rfl, fun _ => rfl, fun _ => rfl⟩

theorem boot_initSpared : InitSpared (Machine.boot nf) := by
  intro box hbox entry hentry
  rw [boot_tasks, TaskTable.inbox, TaskTable.heap_modify, if_pos rfl, ProcWorld.new_heap] at hbox
  cases hbox
  cases hentry

theorem init_spared_other_group : kills.Always InitSpared (Machine.boot 4)
    [.setpgid 0 5, .kill (2 ^ 64 - 6) 9, .kill (2 ^ 64 - 1) 9, .kill 0 9, .kill 1 19] :=
  (init_spared_iff (boot_formed 4) (boot_initSpared 4) _).mpr (by decide +kernel)

/-- Task 1 starts in group 0, and the pid `-2 ^ 32` names that group. -/
theorem init_killed : ¬kills.Always InitSpared (Machine.boot 4) [.kill (2 ^ 64 - 2 ^ 32) 9] := by
  intro h
  have hrun : ((kills.run (Machine.boot 4) [.kill (2 ^ 64 - 2 ^ 32) 9]).any fun m =>
      (m.kernel.tasks.inbox 1).any fun box => (9, -1) ∈ box.queue) = true := by
    decide +kernel
  simp only [Option.any_eq_true, decide_eq_true_eq] at hrun
  obtain ⟨m, hm, box, hbox, hentry⟩ := hrun
  exact (h _ m (List.prefix_refl _) hm box hbox _ hentry).1 rfl

end ChaosKernel.Sys
