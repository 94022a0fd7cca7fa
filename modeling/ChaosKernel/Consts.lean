import ChaosKernel.Base.Rust

/-! Constants and error codes the subsystems share. -/
namespace ChaosKernel

/-- Bytes in a page. -/
def pageSz : Nat := 4096
/-- Where physical memory starts. -/
@[irreducible] def memOff : Nat := 0x80000000
/-- Where the direct map of physical memory starts. -/
@[irreducible] def physOff : Nat := 0xFFFFFFFF00000000
/-- Where the kernel's half of the address space starts. -/
@[irreducible] def kernBase : Nat := 0xFFFFFFFF80000000
/-- Bytes in a disk block. -/
def blockSz : Nat := 512
/-- General registers of a processor. -/
def nRegs : Nat := 16

/-- Access flags of a region. -/
def vmRead : Nat := 1
def vmWrite : Nat := 2
def vmDontcopy : Nat := 0x20

/-- Objects of a slab start at multiples of this. -/
def slabAlign : Nat := 8

/-- Flags of an event bus. -/
def evReadable : Nat := 1 <<< 0
def evClosed : Nat := 1 <<< 3
def evProcQuit : Nat := 1 <<< 10
def evChildQuit : Nat := 1 <<< 11
def evRecvSig : Nat := 1 <<< 12
def evSemRm : Nat := 1 <<< 20
def evSemAcq : Nat := 1 <<< 21

/-- The signal of a child that has ended. -/
def sigchld : Int := 17

/-- The error strings of the source, one constructor for each. -/
inductive Errno where
  | enoent | enotdir | eisdir | eexist | ioError
  | segfault | oom | overlap | enomem | einval | efault | esrch | echild
  | ebadf | again | enosys | enotty | emfile | eperm | removed | limit
  deriving DecidableEq, Repr

end ChaosKernel
