import ChaosKernel.Sys.Machine

/-! System calls on files and descriptors. -/
namespace ChaosKernel.Sys
open Base Memory Fs Proc Ipc Call

/-! ### Flags and commands -/

def oCreate : Nat := 0o100
def oExcl : Nat := 0o200
def oTrunc : Nat := 0o1000
def oAppend : Nat := 0o2000
def oNonblock : Nat := 0o4000
def oCloexec : Nat := 0o2000000

def hasFlag (flags flag : Nat) : Bool := flags &&& flag ≠ 0

/-- The options `SYS_OPEN` records. -/
def optOfFlags (flags : Nat) : FdOpt where
  rd := flags &&& 0x3 = 0 ∨ flags &&& 0x3 = 2
  wr := flags &&& 0x3 = 1 ∨ flags &&& 0x3 = 2
  ap := hasFlag flags oAppend
  nb := hasFlag flags oNonblock

/-- `FD_CLOEXEC`. -/
def fdCloexec : Nat := 1

inductive FcntlCmd where
  | dupfd | getfd | setfd | getfl | setfl | getlk | setlk | setlkw | dupfdCloexec
  deriving DecidableEq, Repr

def FcntlCmd.ofNat? : Nat → Option FcntlCmd
  | 0 => some .dupfd
  | 1 => some .getfd
  | 2 => some .setfd
  | 3 => some .getfl
  | 4 => some .setfl
  | 5 => some .getlk
  | 6 => some .setlk
  | 7 => some .setlkw
  | 1030 => some .dupfdCloexec
  | _ => none

inductive IoctlCmd where
  | tcgets | tcsets | tiocgpgrp | tiocspgrp | tiocgwinsz | fionclex | fioclex | fionbio
  deriving DecidableEq, Repr

def IoctlCmd.ofNat? : Nat → Option IoctlCmd
  | 0x5401 => some .tcgets
  | 0x5402 => some .tcsets
  | 0x540F => some .tiocgpgrp
  | 0x5410 => some .tiocspgrp
  | 0x5413 => some .tiocgwinsz
  | 0x5450 => some .fionclex
  | 0x5451 => some .fioclex
  | 0x5421 => some .fionbio
  | _ => none

/-- Bytes in a `TrmIO` and in a `WinSz`. -/
def trmIOSize : Nat := 60
def winSzSize : Nat := 8

/-! ### Reading and writing -/

/-- `cur.get_file(fd).ok_or("ebadf")?`, a copy of the entry. -/
def getFile (t fd : Nat) : SysM FLike := okOr (fun m => m.files.getFile t fd) .ebadf

theorem getFile_bind {α : Type} {m : Machine} {t fd : Nat} {fl : FLike} (h : m.files.getFile t fd = some fl)
    (f : FLike → SysM α) : (getFile t fd >>= f) m = f fl m := okOr_bind h

def pipeAt (node : PipeNode) (f : PipeBuf → PipeBuf) : SysM Unit := onFiles fun files =>
  files.pipes[node.data]?.map fun pipe => ((), {files with pipes := files.pipes.set node.data (f pipe)})

/-- `SYS_READ` of a file. -/
def readFile (fh : FHandle) (bufAddr count : Nat) : SysM Nat := do
  let off ← seek fh (.cur 0)
  let buf ← readData fh.ino off count
  copyToUser bufAddr buf
  let _ ← seek fh (.cur (asIsize buf.length))
  pure buf.length

/-- `SYS_WRITE` to a file. -/
def writeFile (fh : FHandle) (bufAddr count : Nat) : SysM Nat := do
  let off ← seek fh (.cur 0)
  let buf ← copyFromUser bufAddr count
  let _ ← writeData fh.ino off buf
  let _ ← seek fh (.cur (asIsize count))
  pure count

/-- A pipe is read with an empty buffer, which never fails. -/
def sysRead (fd bufAddr count : Nat) : SysM Nat := do
  failIf (bufAddr = 0 ∧ 0 < count) .efault
  if count = 0 then pure 0
  else do
    userRange bufAddr count true
    let cur ← current
    match ← getFile cur.1 fd with
    | .file fh => readFile fh bufAddr count
    | .pipe node => do
      pipeAt node fun pipe => (pipe.readAt node.dir 0).2
      dropFile (.pipe node)
      pure 0
    | .ep _ => fail .enosys

/-- A pipe is given an empty buffer. -/
def sysWrite (fd bufAddr count : Nat) : SysM Nat := do
  failIf (bufAddr = 0 ∧ 0 < count) .efault
  if count = 0 then pure 0
  else do
    userRange bufAddr count false
    let cur ← current
    match ← getFile cur.1 fd with
    | .file fh => writeFile fh bufAddr count
    | .pipe node => do
      pipeAt node fun pipe => (pipe.writeAt node.dir []).2
      dropFile (.pipe node)
      pure 0
    | .ep _ => fail .enosys

/-! ### Opening and closing -/

/-- The file at a path, made when it is missing and the flags ask for it. -/
def openIno (path : String) (flags : Nat) : SysM Nat := do
  let found ← lookup path
  if found.ino = usizeMax then do
    failIf (hasFlag flags oCreate = false) .enoent
    onFs fun fs => fs.createFile found.parentIno found.name
  else do
    failIf (hasFlag flags oCreate ∧ hasFlag flags oExcl) .eexist
    pure found.ino

def truncateIf (c : Bool) (ino : Nat) : SysM Unit :=
  if c then onFs fun fs => fs.truncate ino 0 else pure ()

def sysOpen (pathAddr flags : Nat) : SysM Nat := do
  failIf (pathAddr = 0) .efault
  userRange pathAddr 256 false
  let path ← readPath pathAddr "/file_"
  let ino ← openIno path flags
  truncateIf (hasFlag flags oTrunc && (optOfFlags flags).wr) ino
  let desc ← onFiles fun files => some (files.create (optOfFlags flags))
  let cur ← current
  onFiles fun files => some (files.addFile cur.1 (.file ⟨path, ino, desc, false, hasFlag flags oCloexec⟩))

def sysClose (fd : Nat) : SysM Nat := do
  let cur ← current
  let fl ← getFile cur.1 fd
  onFiles fun files => some ((), files.setTable cur.1 ((files.table cur.1).erase fd))
  dropFile fl
  pure 0

/-! ### Status and control -/

/-- What `SYS_STAT` and `SYS_FSTAT` check of the buffer. -/
def statBuf (buf : Nat) : SysM Unit := do
  failIf (buf = 0) .efault
  userRange buf 144 true

def sysStat (pathAddr buf : Nat) : SysM Nat := do
  statBuf buf
  userRange pathAddr 256 false
  pure 0

def sysFstat (_fd buf : Nat) : SysM Nat := do
  statBuf buf
  pure 0

/-- Commands check their argument and do nothing else. -/
def sysIoctl (_fd cmd arg : Nat) : SysM Nat :=
  match IoctlCmd.ofNat? cmd with
  | some .tcgets => do userRange arg trmIOSize true; pure 0
  | some .tcsets => do userRange arg trmIOSize false; pure 0
  | some .tiocgpgrp => do userRange arg 4 true; pure 0
  | some .tiocspgrp => do userRange arg 4 false; pure 0
  | some .tiocgwinsz => do userRange arg winSzSize true; pure 0
  | some .fionclex => pure 0
  | some .fioclex => pure 0
  | some .fionbio => do userRange arg 4 false; pure 0
  | none => fail .enotty

/-- The larger of the descriptor and the least number asked for. -/
def dupBase (fd minFd : Nat) : Nat := if minFd < fd then fd else minFd

/-- Whether the block cache has a modified block of number `fd`, which is what `F_GETFD` takes for
the flag of the descriptor. -/
def cachedDirty (fd : Nat) : SysM Bool := do
  let m ← get
  let ci ← own (rem? fd m.st.cache.width)
  let items ← own m.st.cache.chains[ci]?
  pure (items.any fun slot => slot.id = fd ∧ slot.modified)

/-- `F_SETFD` and `F_SETFL` change nothing. -/
def sysFcntl (fd cmd arg : Nat) : SysM Nat := do
  failIf (nProc * 4 ≤ fd) .ebadf
  match FcntlCmd.ofNat? cmd with
  | some .dupfd => do
    let m ← get
    own (add? (dupBase fd arg) (m.clk &&& 0x3))
  | some .dupfdCloexec => own (add? (dupBase fd arg) 1)
  | some .getfd => do
    let cloexec ← cachedDirty fd
    pure (if cloexec then fdCloexec else 0)
  | some .setfd => pure 0
  | some .getfl => pure (if fd ≤ 2 then oNonblock ||| oAppend else oNonblock)
  | some .setfl => do
    failIf (arg &&& (usizeMax - (oNonblock ||| oAppend)) ≠ 0) .einval
    pure 0
  | some .getlk => do userRange arg 32 true; pure 0
  | some .setlk => do userRange arg 32 false; pure 0
  | some .setlkw => do userRange arg 32 false; pure 0
  | none => fail .einval

/-! ### Pipes and copies of descriptors -/

def addFile (t : Nat) (fl : FLike) : SysM Nat := onFiles fun files => some (files.addFile t fl)

/-- The numbers of both ends in one word. -/
def sysPipe (fdsAddr : Nat) : SysM Nat := do
  failIf (fdsAddr = 0) .efault
  userRange fdsAddr 8 true
  let cur ← current
  let m ← get
  let needed ← own (add? (m.files.fdCount cur.1) 2)
  failIf (nProc < needed) .emfile
  let ends ← onFiles fun files => some (((files.pair).1, (files.pair).2.1), (files.pair).2.2)
  let rdFd ← addFile cur.1 (.pipe ends.1)
  let wrFd ← addFile cur.1 (.pipe ends.2)
  pure (rdFd ||| (wrFd <<< 32) % wordSize)

/-- The loop of `SYS_DUP`; there are as many rounds that find a number taken as there are entries. -/
def candidate? (table : BTreeMap FLike) : Nat → Nat → Option Nat
  | 0, fd => some fd
  | fuel + 1, fd => if table.contains fd then (add? fd 1).bind (candidate? table fuel) else some fd

/-- The copy made to look at the entry is dropped at the end. -/
def sysDup (oldFd : Nat) : SysM Nat := do
  failIf (nProc * 4 ≤ oldFd) .ebadf
  let cur ← current
  let fl ← getFile cur.1 oldFd
  let m ← get
  let fd ← own (candidate? (m.files.table cur.1) (m.files.fdCount cur.1) oldFd)
  onFiles fun files => some ((), files.setTable cur.1 ((files.table cur.1).insert fd (fl.dup false)))
  dropFile fl
  pure fd

/-- The entry at the new number goes first, also where the old one is missing. -/
def dup2Table (t oldFd newFd : Nat) : SysM Nat := do
  let m ← get
  let table := (m.files.table t).erase newFd
  let closed := m.files.getFile t newFd
  match table[oldFd]? with
  | none => do
    onFiles fun files => some ((), files.setTable t table)
    onFiles fun files => (files.dropAll closed.toList).map fun files => ((), files)
    fail .ebadf
  | some fl => do
    onFiles fun files => some ((), files.setTable t (table.insert newFd (fl.dup false)))
    onFiles fun files => (files.dropAll (fl :: closed.toList)).map fun files => ((), files)
    pure newFd

def sysDup2 (oldFd newFd : Nat) : SysM Nat := do
  failIf (nProc * 4 ≤ oldFd) .ebadf
  failIf (nProc * 4 ≤ newFd) .ebadf
  if oldFd = newFd then pure newFd
  else do
    match ← curTask with
    | none => pure newFd
    | some cur => dup2Table cur.1 oldFd newFd

/-! ### Directories -/

def sysMkdir (pathAddr : Nat) : SysM Nat := do
  let path ← readPath pathAddr "/dir_"
  let found ← lookup path
  failIf (found.ino ≠ usizeMax) .eexist
  let _ ← onFs fun fs => fs.createDir found.parentIno found.name
  pure 0

def sysUnlink (pathAddr : Nat) : SysM Nat := do
  let path ← readPath pathAddr "/file_"
  let found ← lookup path
  failIf (found.ino = usizeMax) .enoent
  onFs fun fs => fs.unlink found.parentIno found.name
  pure 0

end ChaosKernel.Sys
