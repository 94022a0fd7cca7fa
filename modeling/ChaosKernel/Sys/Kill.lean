import ChaosKernel.Base.Outcomes
import ChaosKernel.Proc.Inboxes
import ChaosKernel.Sys.ProcessCalls

/-! What `SYS_KILL` does.

Each form of the pid names a list of recipients (`killRecipients`). A kill that
returns has put one entry into the queue of each of them, under no sender's name,
and one that fails has changed nothing (`sysKill_meets`). -/
namespace ChaosKernel.Sys
open Base Memory Proc Call

/-- The tasks that `SYS_KILL` sends to. One that has ended is no target of a signal, named alone. -/
def killRecipients (k : Kernel) (pid signo : Int) : List Nat :=
  if pid = 0 then k.running.elim [] fun cur => k.tasks.pgidGroup cur.2.pgid
  else if pid = -1 then killTargets k.tasks
  else if 0 < pid then (k.tasks.find pid.toNat).toList.filter fun t => signo = 0 ∨ k.tasks.holds Task.done t = false
  else (neg? pid).elim [] fun pgid => k.tasks.pgidGroup (asI32 pgid)

/-- The check before `SIGKILL` and `SIGSTOP`. -/
def KillAllowed (pid : Int) (sig : Nat) : Prop :=
  sig ≤ nsig ∧ (sig = sigkill ∨ sig = sigstop → ∃ target, guardedPid? pid = some target ∧ 1 < target)

variable {m : Machine}

theorem meets_curTask_bind {f : Option (Nat × Task) → SysM Nat} {Q : Nat → Machine → Prop}
    {E : Machine → Prop} : (curTask >>= f).Meets m Q E ↔ (f m.kernel.running).Meets m Q E := by
  rw [Meets, curTask_bind]
  exact Iff.rfl

theorem modifyTasks_eq (f : TaskTable → TaskTable) (m : Machine) :
    modifyTasks f m = (.ok (), m.withTasks (f m.kernel.tasks)) := rfl

/-- A call on the recipients `ts` sends to all of them, and one that fails sends nothing. -/
def Sends (x : SysM Nat) (m : Machine) (signo : Int) (ts : List Nat) : Prop :=
  x.Meets m (fun _ m' => m' = m.withTasks (m.kernel.tasks.sendAll signo (-1) ts)) fun m' => m' = m

theorem killGroup_eq (m : Machine) (pgid signo : Int) :
    killGroup pgid signo m = (.ok (m.kernel.tasks.pgidGroup pgid).length,
      m.withTasks (m.kernel.tasks.sendAll signo (-1) (m.kernel.tasks.pgidGroup pgid))) := rfl

theorem killOwnGroup_sends (m : Machine) (signo : Int) : Sends (killOwnGroup signo) m signo
    (m.kernel.running.elim [] fun cur => m.kernel.tasks.pgidGroup cur.2.pgid) := by
  rw [Sends, killOwnGroup, meets_curTask_bind]
  cases m.kernel.running with
  | none => rfl
  | some cur => rfl

theorem killAll_sends (m : Machine) (signo : Int) : Sends (killAll signo) m signo (killTargets m.kernel.tasks) := by
  rw [Sends, killAll, meets_get_bind, meets_bind_ok (modifyTasks_eq _ m), meets_failIf_bind]
  refine ⟨fun hnone => ?_, fun _ => rfl⟩
  rw [hnone]
  rfl

theorem killPid_sends (m : Machine) (pid : Nat) (signo : Int) : Sends (killPid pid signo) m signo
    ((m.kernel.tasks.find pid).toList.filter fun t => signo = 0 ∨ m.kernel.tasks.holds Task.done t = false) := by
  rw [Sends, killPid, meets_get_bind]
  cases hfind : m.kernel.tasks.find pid with
  | none => rfl
  | some t =>
    rw [meets_failIf_bind]
    refine ⟨fun _ => rfl, fun hlive => ?_⟩
    have hgoes : signo = 0 ∨ m.kernel.tasks.holds Task.done t = false := by grind
    rw [Option.toList_some, List.filter_cons_of_pos (by simpa using hgoes)]
    rfl

theorem killOther_sends (m : Machine) (pid signo : Int) :
    Sends (killOther pid signo) m signo ((neg? pid).elim [] fun pgid => m.kernel.tasks.pgidGroup (asI32 pgid)) := by
  rw [Sends, killOther, meets_own_bind]
  intro pgid hpgid
  rw [hpgid, Option.elim_some, meets_bind_ok (killGroup_eq m _ signo), meets_failIf_bind]
  refine ⟨fun hnone => ?_, fun _ => rfl⟩
  rw [List.length_eq_zero_iff.mp hnone]
  rfl

theorem killTo_sends (m : Machine) (pid signo : Int) :
    Sends (killTo pid signo) m signo (killRecipients m.kernel pid signo) := by
  unfold killTo killRecipients
  split
  · exact killOwnGroup_sends m signo
  · split
    · exact killAll_sends m signo
    · split
      · exact killPid_sends m _ signo
      · exact killOther_sends m pid signo

theorem killTo_returns {pid signo : Int} (hsome : killRecipients m.kernel pid signo ≠ []) :
    (killTo pid signo).Returns m := by
  unfold killTo
  unfold killRecipients at hsome
  split at hsome
  · next hzero =>
    rw [if_pos hzero]
    cases hrun : m.kernel.running with
    | none => simp [hrun] at hsome
    | some cur =>
      have howngroup : killOwnGroup signo m = killGroup cur.2.pgid signo m := by
        rw [killOwnGroup, curTask_bind, hrun]
      exact ⟨_, _, howngroup.trans (killGroup_eq m cur.2.pgid signo)⟩
  · next hzero =>
    rw [if_neg hzero]
    split at hsome
    · next hall =>
      rw [if_pos hall]
      exact ⟨_, _, failIf_bind_eq_ok.mpr ⟨hsome, rfl⟩⟩
    · next hall =>
      rw [if_neg hall]
      split at hsome
      · next hpos =>
        rw [if_pos hpos]
        cases hfind : m.kernel.tasks.find pid.toNat with
        | none => simp [hfind] at hsome
        | some t =>
          have hlive : ¬ (signo ≠ 0 ∧ m.kernel.tasks.holds Task.done t) := by
            intro hdone
            simp [hfind, hdone.1, hdone.2] at hsome
          refine ⟨0, m.withTasks (m.kernel.tasks.sendSig signo (-1) t), ?_⟩
          rw [killPid, get_bind, hfind]
          exact failIf_bind_eq_ok.mpr ⟨by grind, rfl⟩
      · next hneg =>
        rw [if_neg hneg]
        cases hpgid : neg? pid with
        | none => simp [hpgid] at hsome
        | some pgid =>
          rw [hpgid] at hsome
          refine returns_bind.mpr ⟨pgid, m, by rw [hpgid]; rfl, returns_bind.mpr ⟨_, _, killGroup_eq m _ signo, ?_⟩⟩
          exact ⟨_, _, failIf_bind_eq_ok.mpr ⟨fun hlen => hsome (List.length_eq_zero_iff.mp hlen), rfl⟩⟩

theorem guardInit_meets (m : Machine) (pid : Int) (sig : Nat) : (guardInit pid sig).Meets m
    (fun _ m' => (sig = sigkill ∨ sig = sigstop → ∃ target, guardedPid? pid = some target ∧ 1 < target) ∧ m' = m)
    (fun m' => m' = m) := by
  unfold guardInit
  split
  · rw [meets_own_bind]
    intro target htarget
    rw [meets_failIf]
    exact ⟨fun _ => rfl, fun hlt => ⟨fun _ => ⟨target, htarget, by omega⟩, rfl⟩⟩
  · next hsig => exact ⟨fun h => absurd h hsig, rfl⟩

theorem sysKill_meets (m : Machine) (a0 sig : Nat) : (sysKill a0 sig).Meets m
    (fun _ m' => KillAllowed (asIsize a0) sig ∧
      m' = m.withTasks (m.kernel.tasks.sendAll sig (-1) (killRecipients m.kernel (asIsize a0) sig)))
    (fun m' => m' = m) := by
  rw [sysKill, meets_failIf_bind]
  refine ⟨fun _ => rfl, fun hsig => ?_⟩
  generalize asIsize a0 = pid
  rw [meets_bind]
  refine (guardInit_meets m pid sig).mono (fun _ m' h => ?_) fun _ h => h
  obtain ⟨hguard, rfl⟩ := h
  exact (killTo_sends m' _ _).mono (fun _ _ h => ⟨⟨by omega, hguard⟩, h⟩) fun _ h => h

theorem sysKill_returns {a0 sig : Nat} (hallowed : KillAllowed (asIsize a0) sig)
    (hsome : killRecipients m.kernel (asIsize a0) sig ≠ []) : (sysKill a0 sig).Returns m := by
  obtain ⟨n, m', hto⟩ := killTo_returns hsome
  obtain ⟨hsig, hguard⟩ := hallowed
  refine ⟨n, m', failIf_bind_eq_ok.mpr ⟨by omega, bind_eq_ok.mpr ⟨(), m, ?_, hto⟩⟩⟩
  generalize asIsize a0 = pid at hguard
  unfold guardInit
  split
  · next hspecial =>
    obtain ⟨target, htarget, hgt⟩ := hguard hspecial
    rw [htarget, own_some_bind, failIf, if_neg (by omega)]
    rfl
  · rfl

end ChaosKernel.Sys
