import ChaosKernel.Base.Rust
import ChaosKernel.Rcore.SignalQueue

/-! A failed exec.

`sys_exec` checks its arguments and looks the file up before it changes anything, and
`new_user_vm` checks the header. Then it clears the address space of the caller, in
place, and maps the program, before it looks for the interpreter that the program
names. If that one is missing the call returns an error to a process whose memory is
gone (`exec_unchanged_iff`). -/
namespace ChaosKernel.Rcore
open Base

/-- A memory set: its areas and its page table. -/
structure Vm (A P : Type) where
  areas : List A
  pageTable : P
  deriving DecidableEq

/-- What `new_user_vm` reads of a parsed header. -/
structure ElfHeader where
  /-- Executable or shared object. -/
  loadable : Bool
  /-- For this architecture. -/
  machine : Bool
  entryPoint : Nat
  interpreter : Option String

inductive ExecError where
  | efault
  | einval
  /-- From the file system. -/
  | lookup (code : Nat)
  deriving DecidableEq, Repr

/-- What is outside these two functions: the files, the parser and the loading of segments. -/
structure Loader (A P I : Type) where
  unmap : A → P → P
  lookupInode : String → Except ExecError I
  lookupFollow : String → Option I
  readAt : I → Option Bytes
  parse : Bytes → Option ElfHeader
  makeMemorySet : ElfHeader → I → Vm A P → Nat × Vm A P
  appendAsInterpreter : ElfHeader → I → Nat → Vm A P → Vm A P
  /-- Maps the stack, pushes what the program starts with, and returns the stack pointer. -/
  pushStack : List String → List String → Vm A P → Nat × Vm A P

namespace Loader
variable {A P I : Type} (L : Loader A P I)

/-- `MemorySet::clear`. -/
def clear (vm : Vm A P) : Vm A P := ⟨[], vm.areas.foldl (fun pageTable area => L.unmap area pageTable) vm.pageTable⟩

/-- The header of a file, if it can be read and parsed. -/
def header (inode : I) : Option ElfHeader := (L.readAt inode).bind L.parse

/-- The interpreter with its header. -/
def interpreter (path : String) : Option (I × ElfHeader) :=
  (L.lookupFollow path).bind fun inode => (L.header inode).map fun elf => (inode, elf)

/-- `new_user_vm`: the entry and the stack pointer, and the memory set it leaves. -/
def newUserVm (inode : I) (args envs : List String) (vm : Vm A P) : Option (Nat × Nat) × Vm A P :=
  match L.header inode with
  | none => (none, vm)
  | some elf =>
    if !elf.loadable || !elf.machine then (none, vm)
    else
      let (bias, vm) := L.makeMemorySet elf inode (L.clear vm)
      match elf.interpreter with
      | none =>
        let (sp, vm) := L.pushStack args envs vm
        (some (elf.entryPoint, sp), vm)
      | some path =>
        match L.interpreter path with
        | none => (none, vm)
        | some (interpInode, interp) =>
          let (sp, vm) := L.pushStack args envs (L.appendAsInterpreter interp interpInode bias vm)
          (some (interp.entryPoint + bias, sp), vm)

end Loader

structure OpenFile where
  /-- A `FileLike::File`. -/
  isFile : Bool
  fdCloexec : Bool

/-- What `sys_exec` can change of a process and its thread. -/
structure ExecState (A P : Type) where
  vm : Vm A P
  files : BTreeMap OpenFile
  threads : List Nat
  execPath : String
  dispositions : List SignalAction
  ip : Nat
  sp : Nat

/-- The arguments, each as copying it from the user ends. -/
structure ExecArgs where
  path : Except ExecError String
  argv : Except ExecError (List String)
  envp : Except ExecError (List String)

/-- The checks at the start of `sys_exec`. -/
def ExecArgs.checked (a : ExecArgs) : Except ExecError (String × List String × List String) := do
  let path ← a.path
  let args ← a.argv
  let envs ← a.envp
  if args.isEmpty then throw .einval
  return (path, args, envs)

namespace Loader
variable {A P I : Type} (L : Loader A P I)

/-- `sys_exec`, by the thread `tid`. -/
def sysExec (tid : Nat) (a : ExecArgs) (st : ExecState A P) : Except ExecError Nat × ExecState A P :=
  match a.checked with
  | .error e => (.error e, st)
  | .ok (path, args, envs) =>
    match L.lookupInode path with
    | .error e => (.error e, st)
    | .ok inode =>
      match L.newUserVm inode args envs st.vm with
      | (none, vm) => (.error .einval, {st with vm})
      | (some (entryAddr, ustackTop), vm) =>
        let closeFds := (st.files.toList.filter fun (_, file) => file.isFile && file.fdCloexec).map Prod.fst
        (.ok 0, {
          vm
          files := closeFds.foldl (fun files fd => files.erase fd) st.files
          threads := st.threads.filter (· = tid)
          execPath := path
          dispositions := st.dispositions.map fun _ => ⟨0, 0#64⟩
          ip := entryAddr
          sp := ustackTop})

/-- The file is a program for this machine, and the interpreter it names cannot be loaded. -/
def LacksInterpreter (inode : I) : Prop :=
  ∃ elf path, L.header inode = some elf ∧ elf.loadable = true ∧ elf.machine = true ∧
    elf.interpreter = some path ∧ L.interpreter path = none

variable {L} {inode : I} {args envs : List String} {vm : Vm A P}

theorem newUserVm_of_lacks (h : L.LacksInterpreter inode) : ∃ elf, ∀ args envs vm,
    L.newUserVm inode args envs vm = (none, (L.makeMemorySet elf inode (L.clear vm)).2) := by
  obtain ⟨elf, path, helf, hload, hmachine, hpath, hnone⟩ := h
  refine ⟨elf, fun args envs vm => ?_⟩
  simp [newUserVm, helf, hload, hmachine, hpath, hnone]

theorem newUserVm_of_not_lacks (h : ¬L.LacksInterpreter inode) (hfail : (L.newUserVm inode args envs vm).1 = none) :
    (L.newUserVm inode args envs vm).2 = vm := by
  unfold newUserVm at hfail ⊢
  cases helf : L.header inode with
  | none => rfl
  | some elf =>
    simp only [helf] at hfail ⊢
    split at hfail
    · next hbad => rw [if_pos hbad]
    · next hgood =>
      simp only [Bool.or_eq_true, Bool.not_eq_true', not_or, Bool.not_eq_false] at hgood
      cases hpath : elf.interpreter with
      | none =>
        simp only [hpath] at hfail
        cases hfail
      | some path =>
        cases hinterp : L.interpreter path with
        | none => exact absurd ⟨elf, path, helf, hgood.1, hgood.2, hpath, hinterp⟩ h
        | some found =>
          simp only [hpath, hinterp] at hfail
          cases hfail

theorem exists_clear_eq [Inhabited A] [Inhabited P] (L : Loader A P I) : ∃ v w, v ≠ w ∧ L.clear v = L.clear w :=
  ⟨⟨[default], default⟩, ⟨[], L.unmap default default⟩, (by simp), rfl⟩

end Loader

/-- **When a failed exec changes nothing.** With these files and arguments an exec that fails leaves every process
as it was, exactly if the arguments do not name a program whose interpreter cannot be loaded. -/
theorem exec_unchanged_iff {A P I : Type} [Inhabited A] [Inhabited P] (L : Loader A P I) (tid : Nat) (a : ExecArgs) :
    (∀ st e, (L.sysExec tid a st).1 = .error e → (L.sysExec tid a st).2 = st) ↔
    ∀ path args envs inode, a.checked = .ok (path, args, envs) → L.lookupInode path = .ok inode →
      ¬L.LacksInterpreter inode := by
  constructor
  · intro h path args envs inode hchecked hinode hlacks
    obtain ⟨elf, hvm⟩ := Loader.newUserVm_of_lacks hlacks
    have hkept : ∀ vm, (L.makeMemorySet elf inode (L.clear vm)).2 = vm := by
      intro vm
      have hst := h ⟨vm, ∅, [], "", [], 0, 0⟩ .einval (by simp [Loader.sysExec, hchecked, hinode, hvm])
      simp only [Loader.sysExec, hchecked, hinode, hvm] at hst
      exact congrArg ExecState.vm hst
    obtain ⟨v, w, hne, hclear⟩ := Loader.exists_clear_eq L
    exact hne (by rw [← hkept v, hclear, hkept w])
  · intro h st e herr
    unfold Loader.sysExec at herr ⊢
    split
    · rfl
    · next path args envs hchecked =>
      cases hinode : L.lookupInode path with
      | error e => rfl
      | ok inode =>
        simp only [hchecked, hinode] at herr ⊢
        split at herr
        · next vm hvm =>
          have hfail := Loader.newUserVm_of_not_lacks (h path args envs inode hchecked hinode) (congrArg Prod.fst hvm)
          rw [hvm] at hfail
          have hsame : vm = st.vm := hfail
          rw [hsame]
        · cases herr

/-- Every file is a program that names an interpreter, and there is none. -/
def noInterpreter : Loader Nat Nat Unit where
  unmap area pageTable := pageTable - area
  lookupInode _ := .ok ()
  lookupFollow _ := none
  readAt _ := some []
  parse _ := some ⟨true, true, 0x1000, some "/lib/ld-musl-x86_64.so.1"⟩
  makeMemorySet _ _ vm := (0, ⟨[3], vm.pageTable + 3⟩)
  appendAsInterpreter _ _ _ vm := vm
  pushStack _ _ vm := (0, vm)

/-- The call fails, and the process has the areas of the program it did not start. -/
theorem exec_destroys : (fun r : Except ExecError Nat × ExecState Nat Nat => (r.1, r.2.vm))
    (noInterpreter.sysExec 1 ⟨.ok "/bin/app", .ok ["app"], .ok []⟩ ⟨⟨[1, 2], 7⟩, ∅, [1], "", [], 0, 0⟩) =
      (.error .einval, ⟨[3], 7⟩) := by
  rfl

end ChaosKernel.Rcore
