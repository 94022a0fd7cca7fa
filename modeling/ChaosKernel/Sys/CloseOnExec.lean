import ChaosKernel.Sys.Tables

/-! Descriptors that close on exec.

The reference keeps a flag for every descriptor of every task, as the calls set it:
`O_CLOEXEC` and `F_SETFD` set it, a dup clears it, a fork copies it. Beside it
stands the value the descriptor was made with, which is all the code ever keeps:
what `SYS_OPEN` was asked, and no flag after a dup or a fork. So an exec closes the
right descriptors exactly when no flag has moved away from that value, and
`F_GETFD` is right exactly on descriptors without the flag (`flags_right_iff`). -/
namespace ChaosKernel.Sys
open Base Memory Fs Proc Ipc Call

/-! ### The machine beside the reference -/

/-- Something about each descriptor of each task. -/
abbrev Marks := Nat → Nat → Bool

def Marks.set (marks : Marks) (t : Option Nat) (fd : Nat) (b : Bool) : Marks := fun y g =>
  if some y = t ∧ g = fd then b else marks y g

/-- Task `child` gets the marks `of`. -/
def Marks.give (marks : Marks) (child : Nat) (of : Nat → Bool) : Marks := fun y => if y = child then of else marks y

structure FlagWorld where
  machine : Machine
  /-- The flags as they were last set. -/
  flag : Marks
  /-- The flags the descriptors were made with. -/
  made : Marks

inductive FlagStep where
  | setCur (id : Nat)
  | map (t : Nat) (region : VmRegion)
  | store (start : Nat) (data : Bytes)
  | openFile (pathAddr flags : Nat)
  | setFd (fd arg : Nat)
  | getFd (fd : Nat)
  | dup (fd : Nat)
  | fork (id : Nat)
  | exec (id : Nat) (path : String) (args envs : List String)

namespace FlagWorld

def new (nf : Nat) : FlagWorld := ⟨Machine.boot nf, fun _ _ => false, fun _ _ => false⟩

/-- The running task. -/
def cur (w : FlagWorld) : Option Nat := w.machine.kernel.curTask 0

def withKernel (w : FlagWorld) (k : Kernel) : FlagWorld := {w with machine := {w.machine with kernel := k}}

def withMachine (w : FlagWorld) (m : Machine) : FlagWorld := {w with machine := m}

/-- A descriptor `fd` of the running task is made. -/
def addFd (w : FlagWorld) (fd : Nat) (cloexec : Bool) (m : Machine) : FlagWorld :=
  ⟨m, w.flag.set w.cur fd cloexec, w.made.set w.cur fd cloexec⟩

/-- Task `child` is made, a copy of the task `id`. -/
def addTask (w : FlagWorld) (id child : Nat) (m : Machine) : FlagWorld :=
  ⟨m, w.flag.give child fun fd => (w.machine.kernel.tasks.find id).any fun t => w.flag t fd,
    w.made.give child fun _ => false⟩

/-- One call, on both sides. Beside the calls on descriptors, the scheduler picks a task and user
memory is mapped and stored to. -/
def step (w : FlagWorld) : FlagStep → Option FlagWorld
  | .setCur id => some (w.withKernel (w.machine.kernel.setCur 0 (w.machine.kernel.tasks.find id)))
  | .map t region => settle (mapRegion t region w.machine) (fun _ => w.withMachine) w.withMachine
  | .store start data => settle (storeBytes start data w.machine) (fun _ => w.withMachine) w.withMachine
  | .openFile pathAddr flags =>
    settle (sysOpen pathAddr flags w.machine) (fun fd => w.addFd fd (hasFlag flags oCloexec)) w.withMachine
  | .setFd fd arg => settle (sysFcntl fd 2 arg w.machine)
    (fun _ m => {w with machine := m, flag := w.flag.set w.cur fd (hasFlag arg fdCloexec)}) w.withMachine
  | .getFd fd => settle (sysFcntl fd 1 0 w.machine) (fun _ => w.withMachine) w.withMachine
  | .dup fd => settle (sysDup fd w.machine) (fun newFd => w.addFd newFd false) w.withMachine
  | .fork id => settle (doFork id w.machine) (w.addTask id) w.withMachine
  | .exec id path args envs => settle (doExec id path args envs w.machine) (fun _ => w.withMachine) w.withMachine

/-- The running task has the descriptor open, with its flag set. -/
def FlagSet (w : FlagWorld) (fd : Nat) : Prop :=
  ∃ t, w.cur = some t ∧ (w.machine.files.getFile t fd).isSome ∧ w.flag t fd = true

/-- `F_GETFD` returns the flag; an exec closes the descriptors with the flag and keeps the others. -/
def FlagsRight (w : FlagWorld) : FlagStep → Prop
  | .getFd fd => (sysFcntl fd 1 0 w.machine).1 = .ok fdCloexec ↔ w.FlagSet fd
  | .exec id path args envs => ∀ t, w.machine.kernel.tasks.find id = some t →
    ∀ fd, (w.machine.files.getFile t fd).isSome →
      (((doExec id path args envs w.machine).2.files.getFile t fd).isSome ↔ w.flag t fd = false)
  | _ => True

/-- `F_GETFD` is asked about a descriptor without the flag; an exec is asked of a task whose flags
are those its descriptors were made with. -/
def FlagsAsMade (w : FlagWorld) : FlagStep → Prop
  | .getFd fd => ¬w.FlagSet fd
  | .exec id _ _ _ => ∀ t, w.machine.kernel.tasks.find id = some t →
    ∀ fd, (w.machine.files.getFile t fd).isSome → w.flag t fd = w.made t fd
  | _ => True

/-- What holds along every run: no block is cached, and a handle has the flag it was made with. -/
structure Kept (w : FlagWorld) : Prop where
  st : w.machine.st = (Machine.boot 0).st
  made : ∀ t fd fl, w.machine.files.getFile t fd = some fl → fl.closesOnExec = w.made t fd

end FlagWorld

def flags : System FlagWorld FlagStep := ⟨FlagWorld.step⟩

/-! ### The flag commands -/

/-- `F_SETFD` leaves everything as it is. -/
theorem setFd_state (m : Machine) (fd arg : Nat) : (sysFcntl fd 2 arg m).2 = m := by
  unfold sysFcntl failIf
  split <;> rfl

/-- With no block in the cache, `F_GETFD` says that the flag is not set. -/
theorem getFd_result {m : Machine} (hst : m.st = (Machine.boot 0).st) (fd : Nat) :
    (sysFcntl fd 1 0 m).1 ≠ .ok fdCloexec ∧ (sysFcntl fd 1 0 m).2 = m := by
  have hrem : rem? fd m.st.cache.width = some (fd % nChains) := by
    rw [hst]
    rfl
  have hchain : m.st.cache.chains[fd % nChains]? = some [] := by
    rw [hst]
    exact List.getElem?_replicate_of_lt (Nat.mod_lt fd (by decide))
  have hclean : cachedDirty fd m = (.ok false, m) := by
    rw [cachedDirty, get_bind, hrem, own_some_bind, hchain, own_some_bind]
    rfl
  have hget : sysFcntl fd 1 0 m = (failIf (nProc * 4 ≤ fd) .ebadf >>= fun _ => pure 0 : SysM Nat) m := by
    unfold sysFcntl failIf
    split
    · rfl
    · exact bind_ok hclean
  rw [hget]
  unfold failIf
  split
  · refine ⟨?_, rfl⟩
    show (.error (.err .ebadf) : Except (CallStop Errno) Nat) ≠ _
    simp
  · exact ⟨fun h => absurd (Except.ok.inj h) (by decide), rfl⟩

/-! ### Along a run -/

namespace FlagWorld
variable {w w' : FlagWorld}
variable {m : Machine} {t fd id parent child : Nat}

theorem Kept.same (h : w.Kept) (hfiles : m.files.tables = w.machine.files.tables)
    (hst : m.st = w.machine.st) : (w.withMachine m).Kept := by
  refine ⟨hst.trans h.st, fun t fd fl hfl => h.made t fd fl ?_⟩
  rw [← getFile_tables hfiles]
  exact hfl

theorem Kept.addFd (h : w.Kept) {fl : FLike} {cloexec : Bool} (hcur : w.cur = some t)
    (hfl : fl.closesOnExec = cloexec) (hadded : w.machine.Added m t fd fl) : (w.addFd fd cloexec m).Kept := by
  refine ⟨hadded.st.trans h.st, fun y g fl' hfl' => ?_⟩
  show fl'.closesOnExec = if some y = w.cur ∧ g = fd then cloexec else w.made y g
  have hfl' : (if y = t ∧ g = fd then some fl else w.machine.files.getFile y g) = some fl' := by
    rw [← hadded.files]
    exact hfl'
  rw [hcur]
  by_cases hsame : y = t ∧ g = fd
  · rw [if_pos hsame, Option.some.injEq] at hfl'
    rw [if_pos ⟨congrArg some hsame.1, hsame.2⟩, ← hfl']
    exact hfl
  · rw [if_neg hsame] at hfl'
    rw [if_neg fun hs => hsame ⟨Option.some.inj hs.1, hs.2⟩]
    exact h.made y g fl' hfl'

theorem Kept.addTask (h : w.Kept) (hforked : w.machine.Forked m parent child) :
    (w.addTask id child m).Kept := by
  refine ⟨hforked.st.trans h.st, fun y g fl' hfl' => ?_⟩
  show fl'.closesOnExec = (w.made.give child fun _ => false) y g
  have hfl' := (hforked.files y g).symm.trans hfl'
  by_cases hy : y = child
  · rw [if_pos hy] at hfl'
    obtain ⟨fl, _, rfl⟩ := Option.map_eq_some_iff.mp hfl'
    rw [Marks.give, if_pos hy]
    exact dup_closesOnExec fl
  · rw [if_neg hy] at hfl'
    rw [Marks.give, if_neg hy]
    exact h.made y g fl' hfl'

theorem Kept.exec (h : w.Kept) (id : Nat) (path : String) (args envs : List String) :
    (w.withMachine (doExec id path args envs w.machine).2).Kept := by
  cases hfind : w.machine.kernel.tasks.find id with
  | none =>
    rw [doExec_none hfind]
    exact h.same rfl rfl
  | some t =>
    obtain ⟨hfiles, hst⟩ := doExec_some hfind path args envs
    refine ⟨hst.trans h.st, fun y g fl' hfl' => h.made y g fl' ?_⟩
    have hfl' : ((doExec id path args envs w.machine).2.files.getFile y g) = some fl' := hfl'
    rw [hfiles, getFile_execTable] at hfl'
    split at hfl'
    · next hy =>
      subst hy
      exact (Option.filter_eq_some_iff.mp hfl').1
    · exact hfl'

theorem Kept.step (h : w.Kept) {a : FlagStep} (hstep : w.step a = some w') : w'.Kept := by
  cases a with
  | setCur id =>
    cases hstep
    exact h.same rfl rfl
  | map t region =>
    obtain ⟨hfiles, hst⟩ := Prod.mk.inj (mapRegion_files t region w.machine)
    rcases settle_eq_some hstep with ⟨_, _, rfl⟩ | rfl <;> exact h.same (congrArg Files.tables hfiles) hst
  | store start data =>
    obtain ⟨hfiles, hst⟩ := Prod.mk.inj (storeBytes_files start data w.machine)
    rcases settle_eq_some hstep with ⟨_, _, rfl⟩ | rfl <;> exact h.same (congrArg Files.tables hfiles) hst
  | openFile pathAddr flags =>
    rcases (sysOpen_meets w.machine pathAddr flags).settle hstep with ⟨fd, m, _, ⟨t, fl, hcur, hfl, hadded⟩, rfl⟩ | ⟨m, hview, rfl⟩
    · exact h.addFd hcur hfl hadded
    · exact h.same (congrArg Prod.fst hview) (congrArg (fun v => v.2.1) hview)
  | setFd fd arg =>
    have hsame := setFd_state w.machine fd arg
    rcases settle_eq_some hstep with ⟨_, _, rfl⟩ | rfl <;> rw [hsame]
    · exact ⟨h.st, h.made⟩
    · exact h
  | getFd fd =>
    have hsame := (getFd_result h.st fd).2
    rcases settle_eq_some hstep with ⟨_, _, rfl⟩ | rfl <;> rw [hsame] <;> exact h
  | dup fd =>
    rcases (sysDup_meets w.machine fd).settle hstep with ⟨newFd, m, _, ⟨t, fl, hcur, hfl, hadded⟩, rfl⟩ | ⟨m, rfl, rfl⟩
    · exact h.addFd hcur hfl hadded
    · exact h
  | fork id =>
    rcases (doFork_meets w.machine id).settle hstep with ⟨child, m, _, ⟨parent, _, hforked⟩, rfl⟩ | ⟨m, hsame, rfl⟩
    · exact h.addTask hforked
    · exact h.same (congrArg Files.tables hsame.1) hsame.2
  | exec id path args envs =>
    rcases settle_eq_some hstep with ⟨_, _, rfl⟩ | rfl <;> exact h.exec id path args envs

theorem new_kept (nf : Nat) : (new nf).Kept := by
  refine ⟨rfl, fun t fd fl hfl => ?_⟩
  have hnone : Files.new.getFile t fd = none := by
    show ((∅ : BTreeMap (BTreeMap FLike))[t]?.getD ∅)[fd]? = none
    simp
  exact absurd (hnone.symm.trans hfl) (by simp)

/-- In every state of a run, a call does right by the flags exactly when they are as made. -/
theorem Kept.flagsRight_iff (h : w.Kept) (a : FlagStep) : w.FlagsRight a ↔ w.FlagsAsMade a := by
  cases a with
  | getFd fd => exact ⟨fun hr hset => (getFd_result h.st fd).1 (hr.mpr hset), fun hset =>
      ⟨fun hr => absurd hr (getFd_result h.st fd).1, fun hs => absurd hs hset⟩⟩
  | exec id path args envs =>
    refine forall_congr' fun t => forall_congr' fun hfind => forall_congr' fun fd => forall_congr' fun hopen => ?_
    obtain ⟨fl, hfl⟩ := Option.isSome_iff_exists.mp hopen
    rw [(doExec_some hfind path args envs).1, getFile_execTable, if_pos rfl, hfl, ← h.made t fd fl hfl]
    simp only [Option.filter_some, Bool.not_eq_true']
    cases hclose : fl.closesOnExec <;> cases w.flag t fd <;> simp
  | _ => exact Iff.rfl

end FlagWorld

/-- **Close-on-exec, end to end**: along a run, every `F_GETFD` and every exec does right by the
flags exactly when `F_GETFD` is only asked about descriptors without the flag, and an exec only of
tasks none of whose open descriptors has a flag other than the one it was made with. -/
theorem flags_right_iff (nf : Nat) (steps : List FlagStep) :
    flags.Asks FlagWorld.FlagsRight (FlagWorld.new nf) steps ↔
      flags.Asks FlagWorld.FlagsAsMade (FlagWorld.new nf) steps :=
  System.asks_iff (J := FlagWorld.Kept) (fun _ _ _ h hstep => h.step hstep) (fun _ a h => h.flagsRight_iff a)
    (FlagWorld.new_kept nf) steps

/-- `F_SETFD` sets the flag of a descriptor, and the descriptor outlives an exec. -/
theorem flag_lost : ¬flags.Asks FlagWorld.FlagsRight (FlagWorld.new 4) [.map 1 (VmRegion.new 4096 8192 3),
    .openFile 4096 oCreate, .setFd 0 fdCloexec, .exec 1 "/bin/sh" [] []] := by
  intro h
  have hrun : ((flags.run (FlagWorld.new 4) [.map 1 (VmRegion.new 4096 8192 3), .openFile 4096 oCreate,
      .setFd 0 fdCloexec]).any fun w => w.machine.kernel.tasks.find 1 = some 1 ∧
        (w.machine.files.getFile 1 0).isSome ∧ w.flag 1 0 = true ∧
        ((doExec 1 "/bin/sh" [] [] w.machine).2.files.getFile 1 0).isSome) = true := by
    decide +kernel
  obtain ⟨w, hw, hfind, hopen, hset, hleft⟩ := System.exists_of_run_any hrun
  have hright := (h _ _ w (List.prefix_refl _) hw 1 hfind 0 hopen).mp hleft
  rw [hset] at hright
  cases hright

end ChaosKernel.Sys
