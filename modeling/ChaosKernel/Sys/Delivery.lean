import ChaosKernel.Sys.Dispatch
import ChaosKernel.Sys.Kill

/-! Signals that are sent and seen.

Every way to send a signal puts an entry into the recipients' queues. Whether a
recipient sees it is decided by the entry: `SYS_KILL` names no sender, which is
seen below signal 64; `SYS_EXIT` names the task that ends and a broadcast names the
group's leader, and such an entry is seen by the one it names and by nobody else
(`delivered_iff`). -/
namespace ChaosKernel.Sys
open Base Memory Proc Call

/-- A system call, or what the kernel does beside them. -/
inductive SignalStep where
  | setCur (id : Nat)
  | fork (id : Nat)
  | broadcast (group : ProcessGroup) (signo : Int)
  | syscall (sysno : Sysno) (args : Args)

def SignalStep.call : SignalStep → SysM Nat
  | .setCur id => onKernel fun k => (.ok 0, k.setCur 0 (k.tasks.find id))
  | .fork id => doFork id
  | .broadcast group signo => do modifyTasks (group.broadcastSignal signo); pure 0
  | .syscall sysno args => Sys.call sysno args

/-- A call that comes back, with a value or an error. -/
def signals : System Machine SignalStep where
  step m a := settle (a.call m) (fun _ m' => m') fun m' => m'

/-- Every task of the list that does not block the signal has a signal to see. -/
def Seen (tasks : TaskTable) (signo : Int) (ts : List Nat) : Prop :=
  ∀ r ∈ ts, ∀ box, tasks.inbox r = some box → box.blocks signo = false → box.hasSig = true

/-- A kill that returns is seen by all its recipients, and with signal 0 it changes no queue. -/
def KillSeen (m : Machine) (a0 sig : Nat) : Prop :=
  ∀ n m', sysKill a0 sig m = (.ok n, m') →
    if sig = 0 then ∀ r, m'.kernel.tasks.inbox r = m.kernel.tasks.inbox r
    else Seen m'.kernel.tasks sig (killRecipients m.kernel (asIsize a0) sig)

/-- The recipients see what a step sends. -/
def Delivered (m : Machine) : SignalStep → Prop
  | .syscall .kill args => KillSeen m args.a0 args.a1
  | .syscall .exit args => ∀ t task, m.kernel.running = some (t, task) →
    Seen (m.kernel.sysExit args.a0).tasks sigchld task.parent.toList
  | .broadcast group signo =>
    Seen (group.broadcastSignal signo m.kernel.tasks) signo (group.members.filterMap m.kernel.tasks.find)
  | _ => True

/-- Every task of the list blocks the signal, sees one already, or is the sender's own. -/
def Reached (tasks : TaskTable) (signo senderTid : Int) (ts : List Nat) : Prop :=
  ∀ r ∈ ts, ∀ box, tasks.inbox r = some box →
    box.blocks signo = true ∨ box.hasSig = true ∨
      (senderTid = -1 ∨ asUsize senderTid = box.id) ∧ 0 ≤ signo ∧ signo < 64

/-- Signal 0 has no recipient, and signal 64 only those that see one already. -/
def KillReaches (m : Machine) (a0 sig : Nat) : Prop :=
  sig ≤ nsig → ∀ r ∈ killRecipients m.kernel (asIsize a0) sig, ∀ box, m.kernel.tasks.inbox r = some box →
    sig ≠ 0 ∧ (sig < 64 ∨ box.hasSig = true)

def Reaches (m : Machine) : SignalStep → Prop
  | .syscall .kill args => KillReaches m args.a0 args.a1
  | .syscall .exit _ => ∀ t task, m.kernel.running = some (t, task) →
    Reached m.kernel.tasks sigchld t task.parent.toList
  | .broadcast group signo => Reached m.kernel.tasks signo (asIsize group.leader)
    (group.members.filterMap m.kernel.tasks.find)
  | _ => True

theorem seen_sendAll_iff (tasks : TaskTable) (signo senderTid : Int) (ts : List Nat) :
    Seen (tasks.sendAll signo senderTid ts) signo ts ↔ Reached tasks signo senderTid ts := by
  refine forall_congr' fun r => forall_congr' fun hr => ?_
  have hcount : 0 < ts.count r := List.count_pos_iff.mpr hr
  rw [TaskTable.inbox_sendAll]
  cases tasks.inbox r with
  | none => simp
  | some box =>
    simp only [Option.map_some, Option.some.injEq, forall_eq', Inbox.hasSig_push box hcount, Bool.or_eq_true]
    show box.blocks signo = false → _ ↔ _
    cases hblocks : box.blocks signo with
    | true => simp
    | false => simp [Inbox.sees_iff hblocks]

theorem seen_congr {tasks tasks' : TaskTable} (h : ∀ r, tasks'.inbox r = tasks.inbox r) (signo : Int) (ts : List Nat) :
    Seen tasks' signo ts ↔ Seen tasks signo ts := by
  simp only [Seen, h]

theorem exit_seen_iff {m : Machine} {t : Nat} {task : Task} (hrun : m.kernel.running = some (t, task)) (status : Nat) :
    Seen (m.kernel.sysExit status).tasks sigchld task.parent.toList ↔
      Reached m.kernel.tasks sigchld t task.parent.toList := by
  rw [seen_congr (Kernel.sysExit_inbox hrun status)]
  exact seen_sendAll_iff m.kernel.tasks sigchld t task.parent.toList

/-- Between 1 and 63 a kill is always seen, 64 has no bit of the mask, and 0 is queued like the others. -/
theorem killSeen_iff (m : Machine) (a0 sig : Nat) : KillSeen m a0 sig ↔ KillReaches m a0 sig := by
  have hmeets := sysKill_meets m a0 sig
  have hreturns : KillAllowed (asIsize a0) sig → killRecipients m.kernel (asIsize a0) sig ≠ [] →
      (sysKill a0 sig).Returns m := sysKill_returns
  unfold KillSeen KillReaches
  generalize killRecipients m.kernel (asIsize a0) sig = ts at hmeets hreturns ⊢
  constructor
  · intro hseen hsig r hr box hbox
    by_cases hlow : sig ≠ 0 ∧ sig < 64
    · exact ⟨hlow.1, .inl hlow.2⟩
    · have hallowed : KillAllowed (asIsize a0) sig := by
        refine ⟨hsig, fun hspecial => ?_⟩
        simp only [sigkill, sigstop] at hspecial
        omega
      obtain ⟨n, m', hok⟩ := hreturns hallowed (List.ne_nil_of_mem hr)
      have hsent := hseen n m' hok
      rw [(hmeets.ok hok).2] at hsent
      split at hsent
      · have hsame : (m.kernel.tasks.sendAll sig (-1) ts).inbox r = m.kernel.tasks.inbox r := hsent r
        rw [TaskTable.inbox_sendAll, hbox] at hsame
        exact absurd hr (List.count_eq_zero.mp (Inbox.push_eq_self (Option.some.inj hsame)))
      · next hzero =>
        have hreached := (seen_sendAll_iff m.kernel.tasks sig (-1) ts).mp hsent r hr box hbox
        refine ⟨hzero, .inr ?_⟩
        have hhigh : sig = 64 := by simp only [nsig] at hsig; omega
        subst hhigh
        simpa [Inbox.blocks] using hreached
  · intro hreach n m' hok
    obtain ⟨hallowed, rfl⟩ := hmeets.ok hok
    split
    · next hzero =>
      intro r
      show (m.kernel.tasks.sendAll sig (-1) ts).inbox r = _
      rw [TaskTable.inbox_sendAll]
      cases hbox : m.kernel.tasks.inbox r with
      | none => rfl
      | some box =>
        have hcount : ts.count r = 0 :=
          List.count_eq_zero.mpr fun hr => (hreach hallowed.1 r hr box hbox).1 hzero
        rw [hcount, Option.map_some, Inbox.push_zero]
    · refine (seen_sendAll_iff m.kernel.tasks sig (-1) ts).mpr fun r hr box hbox => ?_
      rcases (hreach hallowed.1 r hr box hbox).2 with hlow | hsees
      · exact .inr (.inr ⟨.inl rfl, by omega, by omega⟩)
      · exact .inr (.inl hsees)

theorem delivered_iff_reaches (m : Machine) (a : SignalStep) : Delivered m a ↔ Reaches m a := by
  cases a with
  | setCur id => exact Iff.rfl
  | fork id => exact Iff.rfl
  | broadcast group signo => exact seen_sendAll_iff _ _ _ _
  | syscall sysno args =>
    cases sysno with
    | kill => exact killSeen_iff m args.a0 args.a1
    | exit => exact forall_congr' fun t => forall_congr' fun task => forall_congr' fun hrun => exit_seen_iff hrun args.a0
    | _ => exact Iff.rfl

/-- **Signals are seen in a run exactly when no kill with signal 0 has a recipient, one with signal 64 only
recipients that see a signal already, and whoever is told of an exit or sent to by a group blocks the signal,
sees one already, or is the one the entry names.** -/
theorem delivered_iff (m : Machine) (steps : List SignalStep) :
    signals.Asks Delivered m steps ↔ signals.Asks Reaches m steps :=
  System.asks_iff (J := fun _ => True) (fun _ _ _ _ _ => trivial) (fun m a _ => delivered_iff_reaches m a) trivial steps

/-- A child ends, and the parent, which blocks nothing, sees no signal. -/
theorem child_exit_unseen : ¬signals.Asks Delivered (Machine.boot 4)
    [.fork 1, .setCur 2, .syscall .exit ⟨7, 0, 0, 0, 0, 0⟩] := by
  intro h
  have hrun : ((signals.run (Machine.boot 4) [.fork 1, .setCur 2]).any fun m =>
      m.kernel.running.any (fun cur => cur.2.parent = some 1) ∧
        ((m.kernel.sysExit 7).tasks.inbox 1).any fun box =>
          box.blocks sigchld = false ∧ box.queue = [(17, 2)] ∧ box.hasSig = false) = true := by
    decide +kernel
  simp only [Option.any_eq_true, decide_eq_true_eq] at hrun
  obtain ⟨m, hm, ⟨⟨t, task⟩, hcur, hparent⟩, box, hbox, hopen, _, hunseen⟩ := hrun
  have hseen := h _ _ m (List.prefix_refl _) hm t task hcur 1 (Option.mem_toList.mpr hparent) box hbox hopen
  rw [hunseen] at hseen
  cases hseen

end ChaosKernel.Sys
