import ChaosKernel.Sys.Dispatch

/-! Calls whose own text cannot trap.

The parts of the kernel that a call uses are not its own text, and neither are its
checks. A call made of these alone is quiet, in every state and for every
argument. -/
namespace ChaosKernel.Sys
open Base Memory Fs Proc Ipc Call

/-! ### Parts -/

section Parts
variable {α : Type}

@[simp] theorem quiet_onKernel (f : Kernel → Except (Stop Errno) α × Kernel) : (onKernel f).Quiet := quiet_lift _

@[simp] theorem quiet_onFiles (f : Files → Option (α × Files)) : (onFiles f).Quiet := quiet_callee _

@[simp] theorem quiet_onFs (f : SimpleFS → Except (Stop Errno) α × SimpleFS) : (onFs f).Quiet := quiet_lift _

@[simp] theorem quiet_modifyTasks (f : TaskTable → TaskTable) : (modifyTasks f).Quiet := fun _ h => by cases h

@[simp] theorem quiet_curTask : curTask.Quiet := fun _ h => by cases h

@[simp] theorem quiet_current : current.Quiet := quiet_okOr _ _

@[simp] theorem quiet_userRange (addr len : Nat) (writing : Bool) : (userRange addr len writing).Quiet := by
  simp [userRange]

@[simp] theorem quiet_userRangeOpt (addr len : Nat) (writing : Bool) : (userRangeOpt addr len writing).Quiet := by
  simp [userRangeOpt]

@[simp] theorem quiet_getFile (t fd : Nat) : (getFile t fd).Quiet := quiet_okOr _ _

@[simp] theorem quiet_readPath (pathAddr : Nat) (stem : String) : (readPath pathAddr stem).Quiet :=
  (quiet_onKernel _).bind fun _ => quiet_pure _

end Parts

/-! ### Files -/

theorem quiet_pipeArm (node : PipeNode) (f : PipeBuf → PipeBuf) :
    (do pipeAt node f; dropFile (.pipe node); pure 0 : SysM Nat).Quiet := by
  simp [pipeAt, dropFile]

theorem quiet_readFile (fh : FHandle) (bufAddr count : Nat) : (readFile fh bufAddr count).Quiet :=
  (quiet_onFiles _).bind fun _ => (quiet_lift _).bind fun _ => (quiet_onKernel _).bind fun _ =>
    (quiet_onFiles _).bind fun _ => quiet_pure _

theorem quiet_writeFile (fh : FHandle) (bufAddr count : Nat) : (writeFile fh bufAddr count).Quiet :=
  (quiet_onFiles _).bind fun _ => (quiet_onKernel _).bind fun _ => (quiet_lift _).bind fun _ =>
    (quiet_onFiles _).bind fun _ => quiet_pure _

theorem quiet_sysRead (fd bufAddr count : Nat) : (sysRead fd bufAddr count).Quiet := by
  refine (quiet_failIf _ _).bind fun _ => (quiet_pure 0).ite ?_
  refine (quiet_userRange _ _ _).bind fun _ => quiet_current.bind fun _ => (quiet_getFile _ _).bind fun fl => ?_
  cases fl with
  | file fh => exact quiet_readFile fh bufAddr count
  | pipe node => exact quiet_pipeArm node _
  | ep inst => exact quiet_fail _

theorem quiet_sysWrite (fd bufAddr count : Nat) : (sysWrite fd bufAddr count).Quiet := by
  refine (quiet_failIf _ _).bind fun _ => (quiet_pure 0).ite ?_
  refine (quiet_userRange _ _ _).bind fun _ => quiet_current.bind fun _ => (quiet_getFile _ _).bind fun fl => ?_
  cases fl with
  | file fh => exact quiet_writeFile fh bufAddr count
  | pipe node => exact quiet_pipeArm node _
  | ep inst => exact quiet_fail _

theorem quiet_openIno (path : String) (flags : Nat) : (openIno path flags).Quiet :=
  (quiet_onFs _).bind fun _ =>
    ((quiet_failIf _ _).bind fun _ => quiet_onFs _).ite ((quiet_failIf _ _).bind fun _ => quiet_pure _)

theorem quiet_sysOpen (pathAddr flags : Nat) : (sysOpen pathAddr flags).Quiet := by
  refine (quiet_failIf _ _).bind fun _ => (quiet_userRange _ _ _).bind fun _ => ?_
  refine (quiet_readPath _ _).bind fun path => (quiet_openIno path flags).bind fun ino => ?_
  refine ((quiet_onFs _).ite (quiet_pure _)).bind fun _ => ?_
  exact (quiet_onFiles _).bind fun _ => quiet_current.bind fun _ => quiet_onFiles _

theorem quiet_sysClose (fd : Nat) : (sysClose fd).Quiet :=
  quiet_current.bind fun _ => (quiet_getFile _ _).bind fun _ => (quiet_onFiles _).bind fun _ =>
    (quiet_onFiles _).bind fun _ => quiet_pure _

@[simp] theorem quiet_statBuf (buf : Nat) : (statBuf buf).Quiet := by simp [statBuf]

theorem quiet_sysIoctl (fd cmd arg : Nat) : (sysIoctl fd cmd arg).Quiet := by
  unfold sysIoctl
  split <;> simp

theorem quiet_sysDup2 (oldFd newFd : Nat) : (sysDup2 oldFd newFd).Quiet := by
  refine (quiet_failIf _ _).bind fun _ => (quiet_failIf _ _).bind fun _ => (quiet_pure _).ite ?_
  refine quiet_curTask.bind fun cur => ?_
  cases cur with
  | none => exact quiet_pure _
  | some cur =>
    refine quiet_get.bind fun m => ?_
    dsimp only
    split <;> simp

theorem quiet_sysMkdir (pathAddr : Nat) : (sysMkdir pathAddr).Quiet :=
  (quiet_readPath _ _).bind fun _ => (quiet_onFs _).bind fun _ => (quiet_failIf _ _).bind fun _ =>
    (quiet_onFs _).bind fun _ => quiet_pure _

theorem quiet_sysUnlink (pathAddr : Nat) : (sysUnlink pathAddr).Quiet :=
  (quiet_readPath _ _).bind fun _ => (quiet_onFs _).bind fun _ => (quiet_failIf _ _).bind fun _ =>
    (quiet_onFs _).bind fun _ => quiet_pure _

/-! ### Processes -/

theorem quiet_sysExec (pathAddr argvAddr envpAddr : Nat) : (sysExec pathAddr argvAddr envpAddr).Quiet :=
  (quiet_failIf _ _).bind fun _ => (quiet_userRange _ _ _).bind fun _ => (quiet_userRangeOpt _ _ _).bind fun _ =>
    (quiet_userRangeOpt _ _ _).bind fun _ => quiet_pure _

theorem quiet_sysExit (status : Nat) : (sysExit status).Quiet := by
  refine quiet_curTask.bind fun cur => ?_
  cases cur <;> simp

theorem quiet_sysSigaction (signo actAddr oldactAddr : Nat) : (sysSigaction signo actAddr oldactAddr).Quiet :=
  (quiet_failIf _ _).bind fun _ => (quiet_failIf _ _).bind fun _ => (quiet_userRangeOpt _ _ _).bind fun _ =>
    (quiet_userRangeOpt _ _ _).bind fun _ => quiet_pure _

theorem quiet_sysSigprocmask (how setAddr oldsetAddr : Nat) : (sysSigprocmask how setAddr oldsetAddr).Quiet := by
  refine (quiet_userRangeOpt _ _ _).bind fun _ => (quiet_userRangeOpt _ _ _).bind fun _ => ?_
  refine quiet_curTask.bind fun cur => ?_
  cases cur with
  | none => exact quiet_pure _
  | some cur =>
    refine (quiet_pure _).ite ?_
    split <;> simp

theorem quiet_sysGetpid : sysGetpid.Quiet := by
  refine quiet_curTask.bind fun cur => ?_
  cases cur <;> simp

theorem quiet_sysGetppid : sysGetppid.Quiet := by
  refine quiet_curTask.bind fun cur => ?_
  cases cur with
  | none => exact quiet_pure _
  | some cur =>
    refine quiet_get.bind fun m => ?_
    split <;> simp

theorem quiet_sysSetpgid (pid pgid : Nat) : (sysSetpgid pid pgid).Quiet := by
  refine quiet_get.bind fun m => (quiet_failIf _ _).bind fun _ => ?_
  split <;> simp [setPgid]

theorem quiet_sysGetpgid (pid : Nat) : (sysGetpgid pid).Quiet := by
  refine quiet_get.bind fun m => (quiet_failIf _ _).bind fun _ => ?_
  split <;> simp

theorem quiet_sysSetsid : sysSetsid.Quiet := by
  refine quiet_curTask.bind fun cur => ?_
  cases cur <;> simp [setPgid]

/-! ### Events and clocks -/

theorem quiet_own {α : Type} {o : Option α} (h : o.isSome) : (own o : SysM α).Quiet := by
  obtain ⟨a, rfl⟩ := Option.isSome_iff_exists.mp h
  exact quiet_own_some a

theorem quiet_sysEpollCreate (size : Nat) : (sysEpollCreate size).Quiet := by
  have hsmall : 3 + size % 61 < wordSize := by
    have := Nat.mod_lt size (show 0 < 61 by decide)
    show 3 + size % 61 < 2 ^ 64
    omega
  refine (quiet_failIf _ _).bind fun _ => (quiet_failIf _ _).bind fun _ => ?_
  rw [add?_of_lt hsmall]
  exact quiet_own_some _

theorem quiet_sysEpollCtl (epfd a1 fd evAddr : Nat) : (sysEpollCtl epfd a1 fd evAddr).Quiet := by
  refine (quiet_userRangeOpt _ _ _).bind fun _ => ?_
  exact ((quiet_failIf _ _).bind fun _ => quiet_pure _).ite ((quiet_pure _).ite (quiet_fail _))

theorem nsecs_isSome (clk : Nat) {unit : Nat} (h : unit ≤ 10000000) : (mul? (clk % timerTickHz) unit).isSome := by
  have hlt : clk % timerTickHz < 100 := Nat.mod_lt clk (by decide)
  have hmul : clk % timerTickHz * unit ≤ 100 * 10000000 := Nat.mul_le_mul hlt.le h
  have hword : clk % timerTickHz * unit < wordSize := by
    show _ < 2 ^ 64
    omega
  rw [mul?, if_pos hword]
  rfl

theorem quiet_sysClockGettime (clkId tpAddr : Nat) : (sysClockGettime clkId tpAddr).Quiet := by
  refine (quiet_failIf _ _).bind fun _ => (quiet_userRange _ _ _).bind fun _ => quiet_get.bind fun m => ?_
  split
  · exact (quiet_own (nsecs_isSome m.clk (by decide))).bind fun _ => quiet_pure _
  · exact quiet_pure _
  · exact (quiet_own (nsecs_isSome m.clk (by decide))).bind fun _ => quiet_pure _
  · exact quiet_fail _

end ChaosKernel.Sys
