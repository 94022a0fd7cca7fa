import ChaosKernel.Sys.MemoryTraps

/-! What makes the dispatcher trap.

The calls on processes, signals, events and futexes one by one, and then all calls
together: the dispatcher is safe exactly where each call is (`dispatch_safe_iff`). -/
namespace ChaosKernel.Sys
open Base Memory Fs Proc Ipc Call

/-! ### Processes -/

variable {m : Machine} (wnohang : Bool) (signo : Int)

theorem traps_modifyTasks_bind {α : Type} {g : TaskTable → TaskTable} {f : Unit → SysM α} :
    (modifyTasks g >>= f).Traps m ↔ (f ()).Traps (m.withTasks (g m.kernel.tasks)) := Iff.rfl

/-- `N_FRAMES - free_count` is the one difference that can fail. -/
theorem sysFork_traps (hm : m.Proper) : sysFork.Traps m ↔ ¬m.kernel.pool.freeCount ≤ nFrames := by
  have htasks := hm.tasks
  have hactive : mul? m.kernel.tasks.count 2 = some (m.kernel.tasks.count * 2) :=
    if_pos (by simp only [wordSize] at *; omega)
  have hcost : add? (min m.kernel.pool.freeCount 256) (m.kernel.tasks.count * 2) =
      some (min m.kernel.pool.freeCount 256 + m.kernel.tasks.count * 2) :=
    add?_of_lt (by simp only [wordSize] at *; omega)
  have hpercent : ∀ used, sub? nFrames m.kernel.pool.freeCount = some used → (mul? used 100).isSome := by
    intro used hused
    simp only [sub?, Option.ite_none_right_eq_some, Option.some.injEq] at hused
    rw [mul?, if_pos (by simp only [nFrames, wordSize] at *; omega)]
    rfl
  rw [sysFork, traps_get_bind, hactive, own_some_bind, hcost, own_some_bind, traps_modifyTasks_bind, traps_own_bind,
    sub?_eq_none, or_iff_left]
  intro h
  obtain ⟨used, hused, htraps⟩ := h
  exact (quiet_own (hpercent used hused)).bind
    (fun _ => (quiet_failIf _ _).bind fun _ => (quiet_failIf _ _).bind fun _ => quiet_pure _) _ htraps

theorem quiet_noChild : (noChild wnohang).Quiet := (quiet_pure 0).ite (quiet_fail _)

theorem quiet_waitAny : (waitAny wnohang).Quiet := by
  refine quiet_get.bind fun m => ?_
  split
  · exact quiet_noChild wnohang
  · exact quiet_pure _

theorem quiet_waitOwnGroup : (waitOwnGroup wnohang).Quiet := by
  refine quiet_get.bind fun m => ?_
  split
  · exact quiet_fail _
  · split
    · exact quiet_pure _
    · exact quiet_noChild wnohang

theorem quiet_waitPid (pid : Nat) (wnohang : Bool) : (waitPid pid wnohang).Quiet := by
  refine quiet_get.bind fun m => ?_
  split
  · exact quiet_fail _
  · exact (quiet_pure _).ite (quiet_noChild wnohang)

theorem waitGroup_traps (m : Machine) (pid : Int) (wnohang : Bool) :
    (waitGroup pid wnohang).Traps m ↔ pid = -2 ^ 63 := by
  rw [waitGroup, traps_own_bind, neg?_eq_none, or_iff_left]
  intro h
  obtain ⟨raw, _, htraps⟩ := h
  refine quiet_get.bind (fun m => (quiet_failIf _ _).bind fun _ => ?_) m htraps
  split
  · exact quiet_pure _
  · exact quiet_noChild wnohang

theorem quiet_waitRanges (statusAddr rusageAddr : Nat) : (waitRanges statusAddr rusageAddr).Quiet := by
  simp [waitRanges]

theorem sysWait4_traps (m : Machine) (a0 statusAddr options rusageAddr : Nat) :
    (sysWait4 a0 statusAddr options rusageAddr).Traps m ↔
      (waitRanges statusAddr rusageAddr).Returns m ∧ asIsize a0 = -2 ^ 63 := by
  refine (quiet_waitRanges _ _).traps_bind_const fun _ m' _ => ?_
  unfold waitFor
  split
  · next h => exact iff_of_false (quiet_waitAny _ m') (by rw [h]; decide)
  · split
    · next h => exact iff_of_false (quiet_waitOwnGroup _ m') (by rw [h]; decide)
    · split
      · exact iff_of_false (quiet_waitPid _ _ m') (by omega)
      · exact waitGroup_traps m' _ _

theorem quiet_killGroup (pgid signo : Int) : (killGroup pgid signo).Quiet := by simp [killGroup]

theorem quiet_killOwnGroup : (killOwnGroup signo).Quiet := by
  refine quiet_curTask.bind fun cur => ?_
  cases cur with
  | none => exact quiet_pure 0
  | some cur => exact quiet_killGroup _ _

theorem quiet_killAll : (killAll signo).Quiet :=
  quiet_get.bind fun _ => (quiet_modifyTasks _).bind fun _ => (quiet_failIf _ _).bind fun _ => quiet_pure _

theorem quiet_killPid (pid : Nat) (signo : Int) : (killPid pid signo).Quiet := by
  refine quiet_get.bind fun m => ?_
  split
  · exact quiet_fail _
  · exact (quiet_failIf _ _).bind fun _ => (quiet_modifyTasks _).bind fun _ => quiet_pure _

theorem killOther_traps (m : Machine) (pid signo : Int) : (killOther pid signo).Traps m ↔ pid = -2 ^ 63 := by
  rw [killOther, traps_own_bind, neg?_eq_none, or_iff_left]
  intro h
  obtain ⟨pgid, _, htraps⟩ := h
  exact (quiet_killGroup _ _).bind (fun _ => (quiet_failIf _ _).bind fun _ => quiet_pure _) m htraps

theorem killTo_traps (m : Machine) (pid signo : Int) : (killTo pid signo).Traps m ↔ pid = -2 ^ 63 := by
  unfold killTo
  split
  · next h => exact iff_of_false (quiet_killOwnGroup _ m) (by rw [h]; decide)
  · split
    · next h => exact iff_of_false (quiet_killAll _ m) (by rw [h]; decide)
    · split
      · exact iff_of_false (quiet_killPid _ _ m) (by omega)
      · exact killOther_traps m pid signo

theorem guardInit_traps (m : Machine) (pid : Int) (sig : Nat) :
    (guardInit pid sig).Traps m ↔ (sig = sigkill ∨ sig = sigstop) ∧ pid = -2 ^ 63 := by
  have hnone : guardedPid? pid = none ↔ pid = -2 ^ 63 := by
    unfold guardedPid?
    split
    · rw [Option.map_eq_none_iff, neg?_eq_none]
    · exact iff_of_false (Option.some_ne_none _) (by omega)
  have hquiet : ∀ targetPid : Nat, (failIf (targetPid ≤ 1) Errno.eperm : SysM Unit).Quiet := fun _ => quiet_failIf _ _
  unfold guardInit
  by_cases hsig : sig = sigkill ∨ sig = sigstop
  · rw [if_pos hsig, traps_own_bind, hnone, and_iff_right hsig, or_iff_left]
    intro h
    obtain ⟨targetPid, _, htraps⟩ := h
    exact hquiet targetPid m htraps
  · rw [if_neg hsig]
    exact iff_of_false (traps_pure () m) fun h => hsig h.1

/-- Whichever signal it is, the negation of the smallest number comes up. -/
theorem sysKill_traps (m : Machine) (a0 sig : Nat) :
    (sysKill a0 sig).Traps m ↔ sig ≤ nsig ∧ asIsize a0 = -2 ^ 63 := by
  rw [sysKill, traps_failIf_bind, Nat.not_lt, traps_bind]
  refine and_congr_right fun _ => ⟨fun h => ?_, fun hpid => ?_⟩
  · rcases h with hguard | ⟨_, m', _, hkill⟩
    · exact ((guardInit_traps m _ _).mp hguard).2
    · exact (killTo_traps m' _ _).mp hkill
  · by_cases hsig : sig = sigkill ∨ sig = sigstop
    · exact .inl ((guardInit_traps m _ _).mpr ⟨hsig, hpid⟩)
    · refine .inr ⟨(), m, ?_, (killTo_traps m _ _).mpr hpid⟩
      rw [guardInit, if_neg hsig]
      rfl

/-! ### Events and futexes -/

theorem userRange_clk {addr len : Nat} {writing : Bool} {m' : Machine} {u : Unit}
    (h : userRange addr len writing m = (.ok u, m')) : m'.clk = m.clk := by
  obtain ⟨_, k, _, rfl⟩ := userRange_eq_ok.mp h
  rfl

theorem epollDeadline_traps (m : Machine) {timeout : Int} (hlt : timeout < 2 ^ 31) :
    (epollDeadline timeout).Traps m ↔ 0 < timeout ∧ ¬m.clk + timeout.toNat * timerTickHz / 1000 < wordSize := by
  unfold epollDeadline
  by_cases hpos : 0 < timeout
  · have hticks : mul? (asUsize timeout) timerTickHz = some (timeout.toNat * timerTickHz) := by
      rw [asUsize_of_nonneg hpos.le (by omega), mul?, if_pos]
      simp only [timerTickHz, wordSize]
      omega
    rw [if_pos hpos, traps_get_bind, hticks, own_some_bind]
    simp [hpos, add?_eq_none]
  · rw [if_neg hpos]
    exact iff_of_false (traps_pure 0 m) fun h => hpos h.1

def EpollWaitSafe (m : Machine) (eventsAddr maxEvents : Nat) (timeout : Int) : Prop :=
  eventsAddr = 0 ∨ maxEvents = 0 ∨ maxEvents * epEventSize < wordSize ∧
    ((userRange eventsAddr (maxEvents * epEventSize) true).Returns m → 0 < timeout →
      m.clk + timeout.toNat * timerTickHz / 1000 < wordSize)

theorem sysEpollWait_traps (m : Machine) (epfd eventsAddr maxEvents a3 : Nat) :
    (sysEpollWait epfd eventsAddr maxEvents a3).Traps m ↔ ¬EpollWaitSafe m eventsAddr maxEvents (asI32 a3) := by
  have hrest : ∀ total, (userRange eventsAddr total true >>= fun _ => epollDeadline (asI32 a3)).Traps m ↔
      (userRange eventsAddr total true).Returns m ∧
        0 < asI32 a3 ∧ ¬m.clk + (asI32 a3).toNat * timerTickHz / 1000 < wordSize := by
    intro total
    refine (quiet_userRange _ _ _).traps_bind_const fun u m' hrange => ?_
    rw [epollDeadline_traps m' (asI32_lt a3), userRange_clk hrange]
  have hsize : ∀ n, n * epEventSize / epEventSize = n := fun n => Nat.mul_div_cancel n (by decide)
  rw [sysEpollWait, traps_failIf_bind, traps_own_bind]
  simp only [traps_failIf_bind, hrest, mul?_eq_none, EpollWaitSafe]
  by_cases hword : maxEvents * epEventSize < wordSize
  · simp only [mul?, if_pos hword, Option.some.injEq, exists_eq_left', hsize]
    grind
  · simp only [hword, not_false_eq_true, true_or, and_true, false_and, or_false]

def FutexSafe (m : Machine) (uaddr op val uaddr2 val3 : Nat) : Prop :=
  op &&& 0xF = 3 → (do userRange uaddr 4 true; userRange uaddr2 4 true : SysM Unit).Returns m → val + val3 < wordSize

theorem futexOp_traps (m : Machine) (op val timeoutAddr uaddr2 val3 : Nat) :
    (futexOp op val timeoutAddr uaddr2 val3).Traps m ↔
      op &&& 0xF = 3 ∧ (userRange uaddr2 4 true).Returns m ∧ ¬val + val3 < wordSize := by
  unfold futexOp
  split
  · next h => exact iff_of_false ((quiet_userRangeOpt _ _ _).bind (fun _ => quiet_pure 0) m) (by simp [h])
  · next h => exact iff_of_false (quiet_get.bind (fun _ => quiet_pure _) m) (by simp [h])
  · next h =>
    rw [and_iff_right h]
    refine (quiet_userRange _ _ _).traps_bind_const fun _ m' _ => ?_
    simp [add?_eq_none]
  · next h =>
    refine iff_of_false ?_ (by simp [h])
    exact (quiet_failIf _ _).bind (fun _ => (quiet_userRange _ _ _).bind fun _ => quiet_pure 0) m
  · next h =>
    have hsmall : (add? (min val 32) (min val3 32)).isSome := by
      rw [add?_of_lt (by simp only [wordSize]; omega)]
      rfl
    exact iff_of_false ((quiet_userRange _ _ _).bind (fun _ => quiet_own hsmall) m) (by simp [h])
  · next _ _ h _ _ => exact iff_of_false (traps_fail _ m) fun hop => h hop.1

theorem sysFutex_traps (m : Machine) (uaddr op val timeoutAddr uaddr2 val3 : Nat) :
    (sysFutex uaddr op val timeoutAddr uaddr2 val3).Traps m ↔ ¬FutexSafe m uaddr op val uaddr2 val3 := by
  rw [sysFutex, (quiet_userRange _ _ _).traps_bind]
  simp only [futexOp_traps, FutexSafe, returns_bind]
  grind

/-! ### The dispatcher -/

/-- The argument words and states on which no computation of the call's own text fails. -/
def SafeCall (m : Machine) (a : Args) : Sysno → Prop
  | .mmap => MmapSafe m.clk a.a0 a.a1 a.a3 a.a4
  | .munmap => MunmapSafe a.a0 a.a1
  | .fcntl => FcntlSafe m.clk a.a0 a.a1 a.a2
  | .fork => m.kernel.pool.freeCount ≤ nFrames
  | .wait4 => ¬((waitRanges a.a1 a.a3).Returns m ∧ asIsize a.a0 = -2 ^ 63)
  | .kill => ¬(a.a1 ≤ nsig ∧ asIsize a.a0 = -2 ^ 63)
  | .epollWait => EpollWaitSafe m a.a1 a.a2 (asI32 a.a3)
  | .futex => FutexSafe m a.a0 a.a1 a.a2 a.a4 a.a5
  | _ => True

theorem call_traps (hm : m.Proper) (a : Args) (sysno : Sysno) :
    (call sysno a).Traps m ↔ ¬SafeCall m a sysno := by
  have hsafe : ∀ {x : SysM Nat}, ¬x.Traps m → (x.Traps m ↔ ¬True) := fun h =>
    iff_of_false h (not_not_intro trivial)
  cases sysno with
  | read => exact hsafe (quiet_sysRead _ _ _ m)
  | write => exact hsafe (quiet_sysWrite _ _ _ m)
  | «open» => exact hsafe (quiet_sysOpen _ _ m)
  | close => exact hsafe (quiet_sysClose _ m)
  | stat => exact hsafe ((quiet_statBuf _).bind (fun _ => (quiet_userRange _ _ _).bind fun _ => quiet_pure 0) m)
  | fstat => exact hsafe ((quiet_statBuf _).bind (fun _ => quiet_pure 0) m)
  | mmap => exact sysMmap_traps m a.a0 a.a1 a.a2 a.a3 a.a4 a.a5
  | munmap => exact sysMunmap_traps m _ _
  | brk => exact hsafe (sysBrk_safe hm _)
  | sigaction => exact hsafe (quiet_sysSigaction _ _ _ m)
  | sigprocmask => exact hsafe (quiet_sysSigprocmask _ _ _ m)
  | ioctl => exact hsafe (quiet_sysIoctl a.a0 _ _ m)
  | pipe => exact hsafe (sysPipe_safe hm _)
  | dup => exact hsafe (sysDup_safe hm _)
  | dup2 => exact hsafe (quiet_sysDup2 _ _ m)
  | getpid => exact hsafe (quiet_sysGetpid m)
  | fork => exact sysFork_traps hm
  | exec => exact hsafe (quiet_sysExec _ _ _ m)
  | exit => exact hsafe (quiet_sysExit _ m)
  | wait4 => exact (sysWait4_traps m _ _ _ _).trans not_not.symm
  | kill => exact (sysKill_traps m _ _).trans not_not.symm
  | fcntl => exact sysFcntl_traps hm _ _ _
  | mkdir => exact hsafe (quiet_sysMkdir _ m)
  | unlink => exact hsafe (quiet_sysUnlink _ m)
  | setpgid => exact hsafe (quiet_sysSetpgid _ _ m)
  | getppid => exact hsafe (quiet_sysGetppid m)
  | setsid => exact hsafe (quiet_sysSetsid m)
  | getpgid => exact hsafe (quiet_sysGetpgid _ m)
  | futex => exact sysFutex_traps m _ _ _ _ _ _
  | epollCreate => exact hsafe (quiet_sysEpollCreate _ m)
  | clockGettime => exact hsafe (quiet_sysClockGettime _ _ m)
  | epollWait => exact sysEpollWait_traps m a.a0 _ _ _
  | epollCtl => exact hsafe (quiet_sysEpollCtl a.a0 _ a.a2 _ m)

/-- **When the dispatcher stays clear of traps**: on a kernel as the constructors
make it, a call traps in its own text exactly when its words fail the condition of
that call; a number that is no call never traps. -/
theorem dispatch_safe_iff {m : Machine} (hm : m.Proper) (nr : Nat) (a : Args) :
    ¬(dispatchSyscall nr a).Traps m ↔ ∀ sysno, Sysno.ofNat? nr = some sysno → SafeCall m a sysno := by
  unfold dispatchSyscall
  cases Sysno.ofNat? nr with
  | none => exact iff_of_true (traps_fail _ m) fun sysno h => by cases h
  | some sysno =>
    show ¬(call sysno a).Traps m ↔ _
    rw [call_traps hm, not_not]
    exact ⟨fun h _ heq => by cases heq; exact h, fun h => h sysno rfl⟩

theorem boot_proper (nf : Nat) : (Machine.boot nf).Proper where
  width := show 0 < nChains by decide
  chains := rfl
  token t task hrun := by
    obtain ⟨rfl, rfl⟩ := Prod.mk.inj (Option.some.inj hrun)
    exact Nat.two_pow_pos 64
  tasks := show 8 * ((∅ : BTreeMap Nat).insert 1 1).size ≤ wordSize by decide +kernel
  fds t := by
    show 8 * ((∅ : BTreeMap (BTreeMap FLike))[t]?.getD ∅).size ≤ wordSize
    simp

theorem dispatch_safe_boot : (Machine.boot 16).Proper ∧
    (¬(dispatchSyscall 62 ⟨3, 64, 0, 0, 0, 0⟩).Traps (Machine.boot 16) ↔
      ∀ sysno, Sysno.ofNat? 62 = some sysno → SafeCall (Machine.boot 16) ⟨3, 64, 0, 0, 0, 0⟩ sysno) :=
  ⟨boot_proper 16, dispatch_safe_iff (boot_proper 16) 62 ⟨3, 64, 0, 0, 0, 0⟩⟩

/-- The smallest process id and a length that fills the address space, on a fresh kernel. -/
theorem dispatch_traps : (dispatchSyscall 61 ⟨2 ^ 63, 0, 0, 0, 0, 0⟩).Traps (Machine.boot 16) ∧
    (dispatchSyscall 9 ⟨0, 2 ^ 64 - 1, 0, 0, 0, 0⟩).Traps (Machine.boot 16) := ⟨rfl, rfl⟩

end ChaosKernel.Sys
