import ChaosKernel.Sys.FileCalls
import ChaosKernel.Sys.MemoryCalls
import ChaosKernel.Sys.ProcessCalls

/-! The dispatcher.

`dispatchSyscall` takes a call number and six argument words. The event, clock and
futex calls check what they are given and keep nothing. -/
namespace ChaosKernel.Sys
open Base Memory Proc Call

/-- `TIMER_TICK_HZ`. -/
def timerTickHz : Nat := 100

/-- Bytes in an `EpEvent`. -/
def epEventSize : Nat := 16

/-! ### Events, clocks and futexes -/

def sysEpollCreate (size : Nat) : SysM Nat := do
  failIf (size = 0) .einval
  failIf (mul? size epEventSize = none) .enomem
  own (add? 3 (size % 61))

def sysEpollCtl (_epfd a1 _fd evAddr : Nat) : SysM Nat := do
  userRangeOpt evAddr 12 false
  let op := asI32 a1
  if op = 1 ∨ op = 3 then do
    failIf (evAddr = 0) .efault
    pure 0
  else if op = 2 then pure 0
  else fail .einval

/-- Whatever the timeout, nothing is waited for. -/
def epollDeadline (timeout : Int) : SysM Nat :=
  if 0 < timeout then do
    let m ← get
    let ticks ← own (mul? (asUsize timeout) timerTickHz)
    let _deadline ← own (add? m.clk (ticks / 1000))
    pure 0
  else pure 0

def sysEpollWait (_epfd eventsAddr maxEvents a3 : Nat) : SysM Nat := do
  failIf (eventsAddr = 0 ∨ maxEvents = 0) .einval
  let totalBuf ← own (mul? maxEvents epEventSize)
  failIf (totalBuf / epEventSize ≠ maxEvents) .einval
  userRange eventsAddr totalBuf true
  epollDeadline (asI32 a3)

/-- The time is computed and stored nowhere. -/
def sysClockGettime (clkId tpAddr : Nat) : SysM Nat := do
  failIf (tpAddr = 0) .efault
  userRange tpAddr 16 true
  let m ← get
  match clkId with
  | 0 => do
    let _nsecs ← own (mul? (m.clk % timerTickHz) (1000000000 / timerTickHz))
    pure 0
  | 1 => pure 0
  | 4 => do
    let _nsecs ← own (mul? (m.clk % timerTickHz) 1000000)
    pure 0
  | _ => fail .einval

def futexOp (op val timeoutAddr uaddr2 val3 : Nat) : SysM Nat :=
  match op &&& 0xF with
  | 0 => do
    userRangeOpt timeoutAddr 16 false
    pure 0
  | 1 => do
    let m ← get
    pure (min (if val = 0 then 1 else val) m.kernel.tasks.count)
  | 3 => do
    userRange uaddr2 4 true
    let limit ← own (add? val val3)
    pure (min limit 128)
  | 5 => do
    failIf (timeoutAddr = 0) .efault
    userRange timeoutAddr 16 false
    pure 0
  | 9 => do
    userRange uaddr2 4 true
    own (add? (min val 32) (min val3 32))
  | _ => fail .enosys

def sysFutex (uaddr op val timeoutAddr uaddr2 val3 : Nat) : SysM Nat := do
  userRange uaddr 4 true
  futexOp op val timeoutAddr uaddr2 val3

/-! ### Call numbers -/

inductive Sysno where
  | read | write | «open» | close | stat | fstat | mmap | munmap | brk | sigaction | sigprocmask
  | ioctl | pipe | dup | dup2 | getpid | fork | exec | exit | wait4 | kill | fcntl | mkdir | unlink
  | setpgid | getppid | setsid | getpgid | futex | epollCreate | clockGettime | epollWait | epollCtl
  deriving DecidableEq, Repr

def Sysno.ofNat? : Nat → Option Sysno
  | 0 => some .read
  | 1 => some .write
  | 2 => some .open
  | 3 => some .close
  | 4 => some .stat
  | 5 => some .fstat
  | 9 => some .mmap
  | 11 => some .munmap
  | 12 => some .brk
  | 13 => some .sigaction
  | 14 => some .sigprocmask
  | 16 => some .ioctl
  | 22 => some .pipe
  | 32 => some .dup
  | 33 => some .dup2
  | 39 => some .getpid
  | 57 => some .fork
  | 59 => some .exec
  | 60 => some .exit
  | 61 => some .wait4
  | 62 => some .kill
  | 72 => some .fcntl
  | 83 => some .mkdir
  | 87 => some .unlink
  | 109 => some .setpgid
  | 110 => some .getppid
  | 112 => some .setsid
  | 121 => some .getpgid
  | 202 => some .futex
  | 213 => some .epollCreate
  | 228 => some .clockGettime
  | 232 => some .epollWait
  | 233 => some .epollCtl
  | _ => none

/-- The argument words of a call. -/
structure Args where
  a0 : Nat
  a1 : Nat
  a2 : Nat
  a3 : Nat
  a4 : Nat
  a5 : Nat

def call (sysno : Sysno) (a : Args) : SysM Nat :=
  match sysno with
  | .read => sysRead a.a0 a.a1 a.a2
  | .write => sysWrite a.a0 a.a1 a.a2
  | .open => sysOpen a.a0 a.a1
  | .close => sysClose a.a0
  | .stat => sysStat a.a0 a.a1
  | .fstat => sysFstat a.a0 a.a1
  | .mmap => sysMmap a.a0 a.a1 a.a2 a.a3 a.a4 a.a5
  | .munmap => sysMunmap a.a0 a.a1
  | .brk => sysBrk a.a0
  | .sigaction => sysSigaction a.a0 a.a1 a.a2
  | .sigprocmask => sysSigprocmask a.a0 a.a1 a.a2
  | .ioctl => sysIoctl a.a0 a.a1 a.a2
  | .pipe => sysPipe a.a0
  | .dup => sysDup a.a0
  | .dup2 => sysDup2 a.a0 a.a1
  | .getpid => sysGetpid
  | .fork => sysFork
  | .exec => sysExec a.a0 a.a1 a.a2
  | .exit => sysExit a.a0
  | .wait4 => sysWait4 a.a0 a.a1 a.a2 a.a3
  | .kill => sysKill a.a0 a.a1
  | .fcntl => sysFcntl a.a0 a.a1 a.a2
  | .mkdir => sysMkdir a.a0
  | .unlink => sysUnlink a.a0
  | .setpgid => sysSetpgid a.a0 a.a1
  | .getppid => sysGetppid
  | .setsid => sysSetsid
  | .getpgid => sysGetpgid a.a0
  | .futex => sysFutex a.a0 a.a1 a.a2 a.a3 a.a4 a.a5
  | .epollCreate => sysEpollCreate a.a0
  | .clockGettime => sysClockGettime a.a0 a.a1
  | .epollWait => sysEpollWait a.a0 a.a1 a.a2 a.a3
  | .epollCtl => sysEpollCtl a.a0 a.a1 a.a2 a.a3

def dispatchSyscall (nr : Nat) (a : Args) : SysM Nat :=
  match Sysno.ofNat? nr with
  | none => fail .enosys
  | some sysno => call sysno a

end ChaosKernel.Sys
