import ChaosKernel.Sys.Machine

/-! System calls on processes and signals. -/
namespace ChaosKernel.Sys
open Base Memory Proc Call

def nsig : Nat := 64
def sigkill : Nat := 9
def sigstop : Nat := 19

/-! ### Fork, exec, exit -/

/-- A process id is used up and the frames are looked at; no task is made. -/
def sysFork : SysM Nat := do
  let m ← get
  let active ← own (mul? m.kernel.tasks.count 2)
  let cost ← own (add? (min m.kernel.pool.freeCount 256) active)
  modifyTasks fun tasks => {tasks with seq := tasks.seq + 1}
  let used ← own (sub? nFrames m.kernel.pool.freeCount)
  let percent ← own (mul? used 100)
  failIf (90 < percent / nFrames) .enomem
  failIf (m.kernel.pool.freeCount < cost / pageSz) .enomem
  pure m.kernel.tasks.seq

/-- The header that is checked is a constant. -/
def sysExec (pathAddr argvAddr envpAddr : Nat) : SysM Nat := do
  failIf (pathAddr = 0) .efault
  userRange pathAddr 256 false
  userRangeOpt argvAddr 512 false
  userRangeOpt envpAddr 512 false
  pure 0

/-- The running task closes its descriptors and ends. -/
def sysExit (status : Nat) : SysM Nat := do
  match ← curTask with
  | none => pure 0
  | some cur => do
    onFiles fun files => (files.closeAll cur.1).map fun files => ((), files)
    onKernel fun k => (.ok (), k.sysExit status)
    pure 0

/-! ### Wait -/

/-- Nothing to report. -/
def noChild (wnohang : Bool) : SysM Nat := if wnohang then pure 0 else fail .echild

/-- The members of a group that have ended, by their ids; a member is looked up again by its id. -/
def groupDone (tasks : TaskTable) (pgid : Int) : List Nat :=
  (tasks.pgidGroup pgid).filterMap fun t => tasks.heap[t]?.bind fun task =>
    (tasks.find task.id).bind fun child => if tasks.holds Task.done child then some task.id else none

/-- `pid = -1`. -/
def waitAny (wnohang : Bool) : SysM Nat := do
  let m ← get
  match m.kernel.tasks.zombieTasks with
  | [] => noChild wnohang
  | chosen :: _ => pure chosen

/-- `pid = 0`: the last of the caller's group that has ended. -/
def waitOwnGroup (wnohang : Bool) : SysM Nat := do
  let m ← get
  match m.kernel.running with
  | none => fail .echild
  | some (_, task) =>
    match (groupDone m.kernel.tasks task.pgid).getLast? with
    | some id => pure id
    | none => noChild wnohang

/-- `pid > 0`. -/
def waitPid (pid : Nat) (wnohang : Bool) : SysM Nat := do
  let m ← get
  match m.kernel.tasks.find pid with
  | none => fail .echild
  | some t => if m.kernel.tasks.holds Task.done t then pure pid else noChild wnohang

/-- `pid < -1`: the first of the group that has ended. -/
def waitGroup (pid : Int) (wnohang : Bool) : SysM Nat := do
  let rawPgid ← own (neg? pid)
  let m ← get
  failIf (m.kernel.tasks.pgidGroup (asI32 rawPgid) = []) .echild
  match (groupDone m.kernel.tasks (asI32 rawPgid)).head? with
  | some id => pure id
  | none => noChild wnohang

/-- The pointers that are not null have to be writable. -/
def waitRanges (statusAddr rusageAddr : Nat) : SysM Unit := do
  userRangeOpt statusAddr 4 true
  userRangeOpt rusageAddr 144 true

def waitFor (pid : Int) (wnohang : Bool) : SysM Nat :=
  if pid = -1 then waitAny wnohang
  else if pid = 0 then waitOwnGroup wnohang
  else if 0 < pid then waitPid pid.toNat wnohang
  else waitGroup pid wnohang

/-- The status is computed and stored nowhere. -/
def sysWait4 (a0 statusAddr options rusageAddr : Nat) : SysM Nat := do
  waitRanges statusAddr rusageAddr
  waitFor (asIsize a0) (options &&& 1 != 0)

/-! ### Signals -/

/-- `send_signal_group`. -/
def killGroup (pgid signo : Int) : SysM Nat := do
  let m ← get
  modifyTasks fun tasks => (tasks.sendSignalGroup pgid signo).2
  pure (m.kernel.tasks.sendSignalGroup pgid signo).1

/-- `pid = 0`. -/
def killOwnGroup (signo : Int) : SysM Nat := do
  match ← curTask with
  | none => pure 0
  | some cur => killGroup cur.2.pgid signo

/-- The tasks that a signal to everybody goes to. -/
def killTargets (tasks : TaskTable) : List Nat :=
  (tasks.activeTasks.filter fun id => 1 < id).filterMap tasks.find

/-- `pid = -1`. -/
def killAll (signo : Int) : SysM Nat := do
  let m ← get
  modifyTasks fun tasks => tasks.sendAll signo (-1) (killTargets tasks)
  failIf (killTargets m.kernel.tasks = []) .esrch
  pure (killTargets m.kernel.tasks).length

/-- `pid > 0`. -/
def killPid (pid : Nat) (signo : Int) : SysM Nat := do
  let m ← get
  match m.kernel.tasks.find pid with
  | none => fail .esrch
  | some t => do
    failIf (m.kernel.tasks.holds Task.done t ∧ signo ≠ 0) .esrch
    modifyTasks fun tasks => tasks.sendSig signo (-1) t
    pure 0

/-- `pid < -1`. -/
def killOther (pid signo : Int) : SysM Nat := do
  let pgid ← own (neg? pid)
  let sent ← killGroup (asI32 pgid) signo
  failIf (sent = 0) .esrch
  pure sent

/-- The number that the guard of `SIGKILL` and `SIGSTOP` looks at. -/
def guardedPid? (pid : Int) : Option Nat := if pid < 0 then (neg? pid).map asUsize else some (asUsize pid)

def guardInit (pid : Int) (sig : Nat) : SysM Unit :=
  if sig = sigkill ∨ sig = sigstop then do
    let targetPid ← own (guardedPid? pid)
    failIf (targetPid ≤ 1) .eperm
  else pure ()

def killTo (pid : Int) (signo : Int) : SysM Nat :=
  if pid = 0 then killOwnGroup signo
  else if pid = -1 then killAll signo
  else if 0 < pid then killPid pid.toNat signo
  else killOther pid signo

def sysKill (a0 sig : Nat) : SysM Nat := do
  failIf (nsig < sig) .einval
  guardInit (asIsize a0) sig
  killTo (asIsize a0) sig

def sysSigaction (signo actAddr oldactAddr : Nat) : SysM Nat := do
  failIf (signo = 0 ∨ nsig ≤ signo) .einval
  failIf (signo = sigkill ∨ signo = sigstop) .einval
  userRangeOpt actAddr 32 false
  userRangeOpt oldactAddr 32 true
  pure 0

/-- The signals that no mask keeps back. -/
def unmaskable : Nat := (1 <<< sigkill) ||| (1 <<< sigstop)

/-- `!x` of a `u64`. -/
def notU64 (x : Nat) : Nat := wordSize - 1 - x % wordSize

/-- The new mask; the set is the address itself, not what is stored there. -/
def newMask? (how mask newSet : Nat) : Option Nat :=
  match how with
  | 0 => some ((mask ||| newSet) &&& notU64 unmaskable)
  | 1 => some (mask &&& notU64 newSet)
  | 2 => some (newSet &&& notU64 unmaskable)
  | _ => none

def sysSigprocmask (how setAddr oldsetAddr : Nat) : SysM Nat := do
  userRangeOpt setAddr 8 false
  userRangeOpt oldsetAddr 8 true
  match ← curTask with
  | none => pure 0
  | some cur =>
    if setAddr = 0 then pure 0
    else
      match newMask? how cur.2.sigMask setAddr with
      | none => fail .einval
      | some mask => do
        modifyTasks fun tasks => tasks.modify cur.1 fun task => {task with sigMask := mask}
        pure 0

/-! ### Process ids and groups -/

def sysGetpid : SysM Nat := do
  match ← curTask with
  | none => pure 1
  | some cur => pure cur.2.id

def sysGetppid : SysM Nat := do
  match ← curTask with
  | none => pure 0
  | some cur => do
    let m ← get
    match cur.2.parent.bind fun p => m.kernel.tasks.heap[p]? with
    | none => pure 0
    | some parent => pure parent.id

/-- Whether the table has `targetPid` as a child of `callerPid`. -/
def isChild (tasks : TaskTable) (targetPid callerPid : Nat) : Bool :=
  (tasks.find targetPid).any fun t => tasks.holds (fun task =>
    task.parent.any fun p => tasks.holds (fun parent => parent.id = callerPid) p) t

def setPgid (t : Nat) (pgid : Int) : SysM Unit :=
  modifyTasks fun tasks => tasks.modify t fun task => {task with pgid := pgid}

/-- A caller that is no task counts as task 1. -/
def sysSetpgid (pid pgid : Nat) : SysM Nat := do
  let m ← get
  let callerPid := (m.kernel.running.map fun cur => cur.2.id).getD 1
  let targetPid := if pid = 0 then callerPid else pid
  let newPgid := if pgid = 0 then targetPid else pgid
  failIf (targetPid ≠ callerPid ∧ isChild m.kernel.tasks targetPid callerPid = false) .esrch
  match m.kernel.tasks.find targetPid with
  | none => pure 0
  | some t => do
    setPgid t (asI32 newPgid)
    pure 0

def sysGetpgid (pid : Nat) : SysM Nat := do
  let m ← get
  let target := if pid = 0 then (m.kernel.running.map fun cur => cur.2.id).getD 0 else pid
  failIf (target = 0) .esrch
  match (m.kernel.tasks.find target).bind fun t => m.kernel.tasks.heap[t]? with
  | none => fail .esrch
  | some task => pure (asUsize task.pgid)

def sysSetsid : SysM Nat := do
  match ← curTask with
  | none => fail .esrch
  | some cur => do
    failIf (asUsize cur.2.pgid = cur.2.id) .eperm
    setPgid cur.1 (asI32 cur.2.id)
    pure cur.2.id

end ChaosKernel.Sys
