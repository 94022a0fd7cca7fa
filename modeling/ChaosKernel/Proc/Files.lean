import ChaosKernel.Base.Words
import ChaosKernel.Ipc.Pipe

/-! Open files and the descriptor tables.

A handle is a value that refers to an open file, its offset and options among
it; copies of a handle refer to the same open file and keep a close-on-exec flag
of their own. `tables` holds the descriptors of each task, and the open files and
the pipes are objects that the tables share: a reference is a place in `descs` or
in `pipes`. A pipe counts its nodes, so where a value goes that holds a node, the
pipe is told (`Files.drop`). -/
namespace ChaosKernel.Proc
open Base Ipc

structure FdOpt where
  rd : Bool
  wr : Bool
  ap : Bool
  nb : Bool
  deriving DecidableEq, Repr

/-- An open file, with the bytes a handle that is not on a disk keeps. -/
structure FdState where
  off : Nat
  opt : FdOpt
  flk : Nat
  data : Bytes

def FdState.create (opt : FdOpt) : FdState := ⟨0, opt, 0, []⟩

structure FHandle where
  path : String
  ino : Nat
  desc : Nat
  pipe : Bool
  cloexec : Bool
  deriving DecidableEq

inductive FSeek where
  | start (o : Nat)
  | fromEnd (o : Int)
  | cur (o : Int)

/-- The offset a seek computes, as an `i64`, which may overflow. -/
def FdState.moved (d : FdState) : FSeek → Option Nat
  | .start o => some o
  | .fromEnd o => (addI64? (asIsize d.data.length) o).map asUsize
  | .cur o => (addI64? (asIsize d.off) o).map asUsize

structure EpEvent where
  events : Nat
  data : Nat
  deriving DecidableEq

structure EpInst where
  events : BTreeMap EpEvent

inductive FLike where
  | file (fh : FHandle)
  | pipe (node : PipeNode)
  | ep (inst : EpInst)

namespace FLike

/-- The flag is kept for files only. -/
def dup (fl : FLike) (cloexec : Bool) : FLike :=
  match fl with
  | .file fh => .file {fh with cloexec := cloexec}
  | .pipe node => .pipe node
  | .ep inst => .ep inst

/-- What `do_exec` closes. -/
def closesOnExec : FLike → Bool
  | .file fh => fh.cloexec
  | _ => false

end FLike

structure Files where
  tables : BTreeMap (BTreeMap FLike)
  descs : List FdState
  pipes : List PipeBuf

namespace Files

def new : Files := ⟨∅, [], []⟩

/-- The descriptors of task `t`. -/
def table (files : Files) (t : Nat) : BTreeMap FLike := files.tables[t]?.getD ∅

def setTable (files : Files) (t : Nat) (table : BTreeMap FLike) : Files :=
  {files with tables := files.tables.insert t table}

/-- The first number from `fd` on that is not taken. There are as many candidates as entries and
one more. -/
def freeFrom (table : BTreeMap FLike) : Nat → Nat → Nat
  | 0, fd => fd
  | fuel + 1, fd => if table.contains fd then freeFrom table fuel (fd + 1) else fd

def getFreeFd (files : Files) (t : Nat) : Nat := freeFrom (files.table t) (files.table t).size 0

def addFile (files : Files) (t : Nat) (fl : FLike) : Nat × Files :=
  let fd := files.getFreeFd t
  (fd, files.setTable t ((files.table t).insert fd fl))

def getFile (files : Files) (t fd : Nat) : Option FLike := (files.table t)[fd]?

def fdCount (files : Files) (t : Nat) : Nat := (files.table t).size

/-- A new open file, and its place. -/
def create (files : Files) (opt : FdOpt) : Nat × Files :=
  (files.descs.length, {files with descs := files.descs ++ [FdState.create opt]})

/-- `PipeNode::pair`. -/
def pair (files : Files) : PipeNode × PipeNode × Files :=
  let p := files.pipes.length
  (⟨p, .rd⟩, ⟨p, .wr⟩, {files with pipes := files.pipes ++ [PipeBuf.new]})

/-- A value goes out of scope. The count of a pipe may run out of its type. -/
def drop (files : Files) : FLike → Option Files
  | .pipe node => files.pipes[node.data]?.bind fun pipe => pipe.dropNode.map fun pipe =>
    {files with pipes := files.pipes.set node.data pipe}
  | _ => some files

def dropAll (files : Files) : List FLike → Option Files
  | [] => some files
  | fl :: rest => (files.drop fl).bind fun files => files.dropAll rest

/-- What `exit_proc` does to the descriptors. -/
def closeAll (files : Files) (t : Nat) : Option Files :=
  (files.dropAll (files.table t).values).map fun files => files.setTable t ∅

/-- What `fork_task` does to them. -/
def forkTable (files : Files) (src child : Nat) : Files :=
  files.setTable child ((files.table src).map fun _ fl => fl.dup false)

/-- What `do_exec` does to them. -/
def execTable (files : Files) (t : Nat) : Files :=
  files.setTable t ((files.table t).filter fun _ fl => !fl.closesOnExec)

/-- `FHandle::seek`. -/
def seek (files : Files) (fh : FHandle) (pos : FSeek) : Option (Nat × Files) :=
  files.descs[fh.desc]?.bind fun d =>
    (d.moved pos).map fun off => (off, {files with descs := files.descs.set fh.desc {d with off := off}})

end Files
end ChaosKernel.Proc
