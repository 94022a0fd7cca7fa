import ChaosKernel.Base.Calls
import ChaosKernel.Fs.Lookup
import ChaosKernel.Memory.FrameAlloc
import ChaosKernel.Proc.Files
import ChaosKernel.Proc.Groups
import ChaosKernel.Proc.ProcInit

/-! The machine a system call runs on.

`Machine` puts the kernel's parts together: tasks and frames, the descriptor
tables, the file system with its cached disk, and the clock. `SysM` is a call on
it. What a system call takes from another part of the kernel is lifted from that
part; what it computes itself is marked `own`. -/
namespace ChaosKernel.Sys
open Base Memory Fs Proc Ipc Call

structure Machine where
  kernel : Kernel
  files : Files
  fs : SimpleFS
  st : Storage
  /-- `CLK`. -/
  clk : Nat

abbrev SysM := Call Machine Errno

/-- `N_PROC`, also the bound of the descriptor tables. -/
def nProc : Nat := 256
/-- `N_FRAMES`. -/
def nFrames : Nat := 65536
/-- `N_CHAINS`. -/
def nChains : Nat := 64

namespace Machine

/-- `Kernel::new` on a working disk, after `proc_init`, with the first task running. -/
def boot (nf : Nat) : Machine where
  kernel := (Kernel.new nf).procInit.setCur 0 (some 1)
  files := Files.new
  fs := SimpleFS.new
  st := ⟨BlockCache.new nChains, Disk.new⟩
  clk := 0

def withTasks (m : Machine) (tasks : TaskTable) : Machine := {m with kernel := {m.kernel with tasks := tasks}}

end Machine

/-! ### The other parts, as calls -/

section Parts
variable {α : Type}

def onKernel (f : Kernel → Except (Stop Errno) α × Kernel) : SysM α := lift fun m =>
  let (res, k) := f m.kernel
  (res, {m with kernel := k})

def onFiles (f : Files → Option (α × Files)) : SysM α := callee fun m =>
  (f m.files).map fun (a, files) => (a, {m with files := files})

def onFs (f : SimpleFS → Except (Stop Errno) α × SimpleFS) : SysM α := lift fun m =>
  let (res, fs) := f m.fs
  (res, {m with fs := fs})

variable {m m' : Machine} {a : α}

theorem onKernel_eq_ok {f : Kernel → Except (Stop Errno) α × Kernel} :
    onKernel f m = (.ok a, m') ↔ ∃ k, f m.kernel = (.ok a, k) ∧ m' = {m with kernel := k} := by
  rw [onKernel, lift_eq_ok]
  rcases f m.kernel with ⟨res, k⟩
  simp [eq_comm]

theorem onFiles_eq_ok {f : Files → Option (α × Files)} :
    onFiles f m = (.ok a, m') ↔ ∃ files, f m.files = some (a, files) ∧ m' = {m with files := files} := by
  rw [onFiles, callee_eq_ok]
  rcases f m.files with _ | ⟨b, files⟩ <;> simp [eq_comm]

def modifyTasks (f : TaskTable → TaskTable) : SysM Unit := fun m => (.ok (), m.withTasks (f m.kernel.tasks))

end Parts

/-- `cur_task(0)`. -/
def curTask : SysM (Option (Nat × Task)) := fun m => (.ok m.kernel.running, m)

/-- `cur_task(0).ok_or("esrch")?`. -/
def current : SysM (Nat × Task) := okOr (fun m => m.kernel.running) .esrch

theorem curTask_bind {α : Type} (f : Option (Nat × Task) → SysM α) (m : Machine) :
    (curTask >>= f) m = f m.kernel.running m := rfl

variable {m m' : Machine}

theorem current_bind {α : Type} {cur : Nat × Task} (h : m.kernel.running = some cur)
    (f : Nat × Task → SysM α) : (current >>= f) m = f cur m := okOr_bind h

/-- `check_access`, then `ensure_user_range`. -/
def userRange (addr len : Nat) (writing : Bool) : SysM Unit := do
  failIf (checkAccess addr len = false) .efault
  onKernel fun k => k.ensureUserRange addr len writing

theorem userRange_eq_ok {addr len : Nat} {writing : Bool} {u : Unit} :
    userRange addr len writing m = (.ok u, m') ↔ checkAccess addr len = true ∧
      ∃ k, m.kernel.ensureUserRange addr len writing = (.ok u, k) ∧ m' = {m with kernel := k} := by
  rw [userRange, failIf_bind_eq_ok, onKernel_eq_ok, Bool.not_eq_false]

/-- A null pointer is not looked at. -/
def userRangeOpt (addr len : Nat) (writing : Bool) : SysM Unit :=
  if addr = 0 then pure () else userRange addr len writing

def copyToUser (start : Nat) (data : Bytes) : SysM Unit := onKernel fun k => k.copyToUser start data

def copyFromUser (start len : Nat) : SysM Bytes :=
  onKernel fun k => (k.copyFromUser start (List.replicate len 0), k)

def seek (fh : FHandle) (pos : FSeek) : SysM Nat := onFiles fun files => files.seek fh pos

/-- The value goes out of scope. -/
def dropFile (fl : FLike) : SysM Unit := onFiles fun files => (files.drop fl).map fun files => ((), files)

def readData (ino off maxLen : Nat) : SysM Bytes := lift fun m =>
  let (res, st) := m.fs.readData ino off maxLen m.st
  (res, {m with st := st})

/-- The end of the write is computed once the inode is known to be a file. -/
def writeData (ino off : Nat) (buf : Bytes) : SysM Nat := lift fun m =>
  if wordSize ≤ off + buf.length ∧ m.fs.inodes[ino]?.any (fun inode => inode.inodeType = .file) then
    (.error .panic, m)
  else
    let (res, fs, st) := m.fs.writeData ino off buf m.st
    (res, {m with fs := fs, st := st})

/-- The path at a user address. -/
def readPath (pathAddr : Nat) (stem : String) : SysM String := do
  let pathBytes ← copyFromUser pathAddr 256
  pure (pathOf pathBytes stem pathAddr)

def lookup (path : String) : SysM PathLookup := onFs fun fs => (fs.lookup path, fs)

/-- `(len + PAGE_SZ - 1) & !(PAGE_SZ - 1)`. -/
def alignUp? (len : Nat) : Option Nat := (add? len pageSz).map fun n => pageAddr (n - 1)

/-! ### User memory -/

/-- A region is mapped for task `t`. -/
def mapRegion (t : Nat) (region : VmRegion) : SysM Unit := onKernel fun k =>
  match k.tasks.heap[t]? with
  | none => (.error (.err .esrch), k)
  | some task =>
    match task.addrSpace.vmMap.insert region with
    | .ok map => (.ok (), k.setSpace t task {task.addrSpace with vmMap := map})
    | .error e => (.error e, k)

/-- The running task stores bytes. -/
def storeBytes (start : Nat) (data : Bytes) : SysM Unit := do
  userRange start data.length true
  copyToUser start data

/-! ### Fork and exec -/

/-- `do_fork`. -/
def doFork (parentId : Nat) : SysM Nat := do
  let m ← get
  let childId ← onKernel fun k => k.doFork parentId
  onFiles fun files => (m.kernel.tasks.find parentId).map fun parent => ((), files.forkTable parent childId)
  pure childId

def usrStkOff : Nat := 0x7FFF0000
def usrStkSz : Nat := 0x10000

/-- `do_exec`. The header it checks is a constant. -/
def doExec (taskId : Nat) (path : String) (args envs : List String) : SysM Unit := do
  let m ← get
  match m.kernel.tasks.find taskId with
  | none => fail .esrch
  | some t => do
    modifyTasks fun tasks => tasks.modify t fun task => {task with execPath := path}
    onFiles fun files => some ((), files.execTable t)
    let init : ProcInit := ⟨args, envs, ∅⟩
    let sp ← callee fun m => (init.pushAt (usrStkOff + usrStkSz)).map fun sp => (sp, m)
    let ctx := {ThdCtx.default with uctx := (ThdCtx.default.uctx.setSp sp).setIp 0x400000}
    modifyTasks fun tasks => tasks.modify t fun task => {task with thdCtx := some ctx}

end ChaosKernel.Sys
