import ChaosKernel.Base.Outcomes
import ChaosKernel.Sys.FileCalls

/-! Descriptor tables under the calls.

What `SYS_OPEN`, `SYS_DUP`, `do_fork` and `do_exec` leave of the tables: one new
entry, a copied table, or a table with the flagged entries gone. A call that fails
leaves the tables as they were. -/
namespace ChaosKernel.Sys
open Base Memory Fs Proc Ipc Call

namespace Machine

/-- The part of the machine the flags depend on. -/
def view (m : Machine) : BTreeMap (BTreeMap FLike) × Storage × List (Option Nat) :=
  (m.files.tables, m.st, m.kernel.cpus)

/-- Task `t` has got the descriptor `fd`; the other descriptors and the storage are as before. -/
structure Added (m m' : Machine) (t fd : Nat) (fl : FLike) : Prop where
  st : m'.st = m.st
  files : ∀ y g, m'.files.getFile y g = if y = t ∧ g = fd then some fl else m.files.getFile y g

end Machine

variable {files files' : Files} {m m' m₁ : Machine} {fl : FLike}

theorem getFile_tables (h : files'.tables = files.tables) (t fd : Nat) :
    files'.getFile t fd = files.getFile t fd := by
  simp only [Files.getFile, Files.table, h]

theorem getFile_setTable (files : Files) (t : Nat) (table : BTreeMap FLike) (y g : Nat) :
    (files.setTable t table).getFile y g = if y = t then table[g]? else files.getFile y g := by
  simp only [Files.getFile, Files.table, Files.setTable, get_insert, eq_comm]
  split <;> rfl

theorem getFile_insert (files : Files) (t fd : Nat) (fl : FLike) (y g : Nat) :
    (files.setTable t ((files.table t).insert fd fl)).getFile y g =
      if y = t ∧ g = fd then some fl else files.getFile y g := by
  rw [getFile_setTable, get_insert]
  by_cases hy : y = t
  · subst hy
    simp only [true_and, if_true, eq_comm]
    rfl
  · simp only [hy, false_and, if_false]

/-! ### Frames -/

section Frames
variable {α : Type}

theorem onKernel_files (f : Kernel → Except (Stop Errno) α × Kernel) :
    (onKernel f).Keeps fun m => (m.files, m.st) := keeps_lift fun _ => rfl

theorem keeps_onKernel {f : Kernel → Except (Stop Errno) α × Kernel} (h : ∀ k, (f k).2.cpus = k.cpus) :
    (onKernel f).Keeps Machine.view :=
  keeps_lift fun m => by
    show (m.files.tables, m.st, (f m.kernel).2.cpus) = _
    rw [h]
    rfl

theorem keeps_onFs (f : SimpleFS → Except (Stop Errno) α × SimpleFS) : (onFs f).Keeps Machine.view :=
  keeps_lift fun _ => rfl

end Frames

theorem mapRegion_files (t : Nat) (region : VmRegion) : (mapRegion t region).Keeps fun m => (m.files, m.st) :=
  onKernel_files _

theorem storeBytes_files (start : Nat) (data : Bytes) : (storeBytes start data).Keeps fun m => (m.files, m.st) :=
  ((keeps_failIf _ _).bind fun _ => onKernel_files _).bind fun _ => onKernel_files _

theorem handlePgfault_cpus (k : Kernel) (addr access : Nat) : (k.handlePgfault addr access).2.cpus = k.cpus := by
  unfold Kernel.handlePgfault
  dsimp only
  repeat' split
  all_goals rfl

theorem ensureUserRange_cpus (k : Kernel) (start len : Nat) (writing : Bool) :
    (k.ensureUserRange start len writing).2.cpus = k.cpus :=
  Kernel.ensureUserRange_keeps (fun k addr => handlePgfault_cpus k addr _) k start len

theorem keeps_userRange (addr len : Nat) (writing : Bool) : (userRange addr len writing).Keeps Machine.view :=
  (keeps_failIf _ _).bind fun _ => keeps_onKernel fun k => ensureUserRange_cpus k addr len writing

theorem keeps_openIno (path : String) (flags : Nat) : (openIno path flags).Keeps Machine.view :=
  (keeps_onFs _).bind fun _ =>
    ((keeps_failIf _ _).bind fun _ => keeps_onFs _).ite ((keeps_failIf _ _).bind fun _ => keeps_pure _)

theorem curTask_of_running {k : Kernel} {cur : Nat × Task} (h : k.running = some cur) : k.curTask 0 = some cur.1 := by
  obtain ⟨t, ht, hmap⟩ := Option.bind_eq_some_iff.mp h
  obtain ⟨task, _, rfl⟩ := Option.map_eq_some_iff.mp hmap
  exact ht

theorem curTask_view (h : m'.view = m.view) : m'.kernel.curTask 0 = m.kernel.curTask 0 := by
  have hcpus : m'.kernel.cpus = m.kernel.cpus := congrArg (fun v => v.2.2) h
  simp only [Kernel.curTask, hcpus]

variable {t fd id : Nat}

theorem Added.of_view (h : m₁.view = m.view) (hadded : m₁.Added m' t fd fl) : m.Added m' t fd fl := by
  have hst : m₁.st = m.st := congrArg (fun v => v.2.1) h
  refine ⟨hadded.st.trans hst, fun y g => ?_⟩
  rw [hadded.files, getFile_tables (congrArg Prod.fst h)]

/-! ### Calls on descriptors -/

theorem sysOpen_meets (m : Machine) (pathAddr flags : Nat) : (sysOpen pathAddr flags).Meets m
    (fun fd m' => ∃ t fl, m.kernel.curTask 0 = some t ∧ FLike.closesOnExec fl = hasFlag flags oCloexec ∧
      m.Added m' t fd fl)
    (fun m' => m'.view = m.view) := by
  have hpath : (readPath pathAddr "/file_").Keeps Machine.view :=
    (keeps_onKernel fun _ => rfl).bind fun _ => keeps_pure _
  have htrunc : ∀ c ino, (truncateIf c ino).Keeps Machine.view := fun _ _ => (keeps_onFs _).ite (keeps_pure _)
  have hcreate : (onFiles fun files => some (files.create (optOfFlags flags)) : SysM Nat).Keeps Machine.view :=
    keeps_callee fun _ _ _ h => by cases h; rfl
  refine (keeps_failIf _ _).meets_bind rfl (fun _ _ h => ?_) fun _ h => h
  refine (keeps_userRange _ _ _).meets_bind h (fun _ _ h => ?_) fun _ h => h
  refine hpath.meets_bind h (fun path _ h => ?_) fun _ h => h
  refine (keeps_openIno path flags).meets_bind h (fun ino _ h => ?_) fun _ h => h
  refine (htrunc _ ino).meets_bind h (fun _ _ h => ?_) fun _ h => h
  refine hcreate.meets_bind h (fun desc m₁ h => ?_) fun _ h => h
  rw [current, meets_okOr_bind]
  refine ⟨fun cur hrun => ?_, fun _ => h⟩
  rw [onFiles, meets_callee]
  intro fd m' hadd
  cases hadd
  refine ⟨cur.1, .file ⟨path, ino, desc, false, hasFlag flags oCloexec⟩, ?_, rfl, Added.of_view h ⟨rfl, fun y g => ?_⟩⟩
  · exact (curTask_view h).symm.trans (curTask_of_running hrun)
  · exact getFile_insert m₁.files cur.1 _ _ y g

theorem dup_closesOnExec (fl : FLike) : (fl.dup false).closesOnExec = false := by
  cases fl <;> rfl

theorem drop_tables (h : files.drop fl = some files') : files'.tables = files.tables := by
  cases fl with
  | pipe node =>
    obtain ⟨pipe, _, hmap⟩ := Option.bind_eq_some_iff.mp h
    obtain ⟨pipe', _, rfl⟩ := Option.map_eq_some_iff.mp hmap
    rfl
  | file fh =>
    cases h
    rfl
  | ep inst =>
    cases h
    rfl

theorem sysDup_meets (m : Machine) (oldFd : Nat) : (sysDup oldFd).Meets m
    (fun fd m' => ∃ t fl, m.kernel.curTask 0 = some t ∧ FLike.closesOnExec fl = false ∧ m.Added m' t fd fl)
    (fun m' => m' = m) := by
  rw [sysDup, meets_failIf_bind]
  refine ⟨fun _ => rfl, fun _ => ?_⟩
  rw [current, meets_okOr_bind]
  refine ⟨fun cur hrun => ?_, fun _ => rfl⟩
  rw [getFile, meets_okOr_bind]
  refine ⟨fun fl hfl => ?_, fun _ => rfl⟩
  rw [meets_get_bind, meets_own_bind]
  intro fd _
  rw [meets_bind, onFiles, meets_callee]
  intro _ m₁ hset
  cases hset
  rw [meets_bind, dropFile, onFiles, meets_callee]
  intro _ m₂ hdrop
  obtain ⟨⟨_, files⟩, hfiles, heq⟩ := Option.map_eq_some_iff.mp hdrop
  obtain ⟨files', hdrop, heq'⟩ := Option.map_eq_some_iff.mp hfiles
  cases heq
  cases heq'
  refine ⟨cur.1, fl.dup false, curTask_of_running hrun, dup_closesOnExec fl, rfl, fun y g => ?_⟩
  exact (getFile_tables (drop_tables hdrop) y g).trans (getFile_insert m.files cur.1 fd _ y g)

/-- Task `child` has got a copy of the table of `parent`, without flags. -/
structure Machine.Forked (m m' : Machine) (parent child : Nat) : Prop where
  st : m'.st = m.st
  files : ∀ y g, m'.files.getFile y g =
    if y = child then (m.files.getFile parent g).map (fun fl => fl.dup false) else m.files.getFile y g

theorem doFork_meets (m : Machine) (id : Nat) : (doFork id).Meets m
    (fun child m' => ∃ parent, m.kernel.tasks.find id = some parent ∧ m.Forked m' parent child)
    (fun m' => m'.files = m.files ∧ m'.st = m.st) := by
  rw [doFork, meets_get_bind]
  refine (onKernel_files fun k => k.doFork id).meets_bind rfl (fun child m₁ h => ?_) fun _ h => ⟨congrArg Prod.fst h, congrArg Prod.snd h⟩
  obtain ⟨hfiles, hst⟩ := Prod.mk.inj h
  rw [meets_bind, onFiles, meets_callee]
  intro _ m₂ hset
  obtain ⟨⟨_, files⟩, hmap, heq⟩ := Option.map_eq_some_iff.mp hset
  obtain ⟨parent, hparent, heq'⟩ := Option.map_eq_some_iff.mp hmap
  cases heq
  cases heq'
  refine ⟨parent, hparent, hst, fun y g => ?_⟩
  rw [← hfiles]
  show (Files.setTable _ child _).getFile y g = _
  rw [getFile_setTable, Std.ExtTreeMap.getElem?_map]
  rfl

/-- What an exec leaves of files and storage, whether its stack can be laid out or not. -/
theorem doExec_some (hfind : m.kernel.tasks.find id = some t) (path : String) (args envs : List String) :
    (doExec id path args envs m).2.files = m.files.execTable t ∧ (doExec id path args envs m).2.st = m.st := by
  rw [doExec, get_bind, hfind]
  refine Prod.mk.inj (Keeps.bind (f := fun m => (m.files, m.st)) (keeps_callee fun m₁ sp m₂ h => ?_) (fun _ _ => rfl)
    {m with
      kernel := {m.kernel with tasks := m.kernel.tasks.modify t fun task => {task with execPath := path}}
      files := m.files.execTable t})
  obtain ⟨_, _, heq⟩ := Option.map_eq_some_iff.mp h
  cases heq
  rfl

theorem doExec_none (hfind : m.kernel.tasks.find id = none) (path : String) (args envs : List String) :
    doExec id path args envs m = (.error (.err .esrch), m) := by
  rw [doExec, get_bind, hfind]
  rfl

theorem getFile_execTable (files : Files) (t y g : Nat) : (files.execTable t).getFile y g =
    if y = t then (files.getFile t g).filter (fun fl => !fl.closesOnExec) else files.getFile y g := by
  rw [Files.execTable, getFile_setTable, Std.ExtTreeMap.getElem?_filter']
  rfl

end ChaosKernel.Sys
