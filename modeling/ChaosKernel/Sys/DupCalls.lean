import ChaosKernel.Proc.Descriptors
import ChaosKernel.Sys.Tables

/-! Copies of descriptors, by system call and by task.

`SYS_DUP` looks for a number from the old descriptor on and `dup_fd` from 0 on, so that
they choose the same number only where no lower one is free. `SYS_DUP2` closes the new
descriptor before it looks for the old one and `dup2_fd` after it, so that they part where
the old one is missing and the new one is open (`dup_calls_agree_iff`). -/
namespace ChaosKernel.Sys
open Base Proc Ipc Call

/-! ### The copies of a task -/

/-- A copy of `oldFd` under the first free number from `start` on. The copy made to look at the entry is dropped at
the end. -/
def dupFrom (t oldFd : Nat) (cloexec : Bool) (start : Nat) : SysM Nat := do
  let fl ← getFile t oldFd
  let m ← get
  let fd ← own (candidate? (m.files.table t) (m.files.fdCount t) start)
  onFiles fun files => some ((), files.setTable t ((files.table t).insert fd (fl.dup cloexec)))
  dropFile fl
  pure fd

/-- `Task::dup_fd`. -/
def dupFd (t oldFd : Nat) (cloexec : Bool) : SysM Nat := dupFrom t oldFd cloexec 0

/-- `Task::dup2_fd`. The entry that was there goes before the copy that was looked at. -/
def dup2Fd (t oldFd newFd : Nat) : SysM Nat :=
  if oldFd = newFd then pure newFd
  else do
    let fl ← getFile t oldFd
    let m ← get
    let prev := m.files.getFile t newFd
    onFiles fun files => some ((), files.setTable t (((files.table t).erase newFd).insert newFd (fl.dup false)))
    onFiles fun files => (files.dropAll (prev.toList ++ [fl])).map fun files => ((), files)
    pure newFd

/-! ### The number of the copy -/

section Candidate
variable {table : BTreeMap FLike}
variable {fuel fd k : Nat}

theorem candidate?_some (hfd : fd < wordSize) (h : candidate? table fuel fd = some k) :
    fd ≤ k ∧ k < wordSize ∧ (∀ i, fd ≤ i → i < k → i ∈ table) ∧ (k ∈ table → ∀ i ≤ fuel, fd + i ∈ table) := by
  induction fuel generalizing fd with
  | zero =>
    cases h
    refine ⟨le_rfl, hfd, fun i hle hlt => by omega, fun hk i hi => ?_⟩
    rw [Nat.le_zero.mp hi]
    exact hk
  | succ fuel ih =>
    rw [candidate?] at h
    by_cases htaken : fd ∈ table
    · rw [if_pos (Std.ExtTreeMap.contains_iff_mem.mpr htaken)] at h
      obtain ⟨next, hnext, h⟩ := Option.bind_eq_some_iff.mp h
      obtain ⟨rfl, hlt⟩ := add?_eq_some hnext
      obtain ⟨hle, hk, hbetween, hall⟩ := ih hlt h
      refine ⟨by omega, hk, fun i hi hik => ?_, fun hmem i hi => ?_⟩
      · rcases Nat.eq_or_lt_of_le hi with rfl | hi
        · exact htaken
        · exact hbetween i hi hik
      · cases i with
        | zero => exact htaken
        | succ i =>
          have := hall hmem i (Nat.le_of_succ_le_succ hi)
          rwa [Nat.add_right_comm] at this
    · rw [if_neg fun hc => htaken (Std.ExtTreeMap.contains_iff_mem.mp hc)] at h
      cases h
      exact ⟨le_rfl, hfd, fun i hle hlt => by omega, fun hk => absurd hk htaken⟩

theorem candidate?_none (h : candidate? table fuel fd = none) : ∀ i, fd ≤ i → i < wordSize → i ∈ table := by
  induction fuel generalizing fd with
  | zero => cases h
  | succ fuel ih =>
    rw [candidate?] at h
    by_cases htaken : fd ∈ table
    · rw [if_pos (Std.ExtTreeMap.contains_iff_mem.mpr htaken)] at h
      intro i hle hlt
      rcases Nat.eq_or_lt_of_le hle with rfl | hle
      · exact htaken
      rw [add?_of_lt (by omega), Option.bind_some] at h
      exact ih h i hle hlt
    · rw [if_neg fun hc => htaken (Std.ExtTreeMap.contains_iff_mem.mp hc)] at h
      cases h

theorem candidate?_isLeast (hfd : fd < wordSize) (h : candidate? table table.size fd = some k) :
    k < wordSize ∧ IsLeast {i | fd ≤ i ∧ i ∉ table} k := by
  obtain ⟨hle, hk, hbetween, hall⟩ := candidate?_some hfd h
  have hfree : k ∉ table := fun hmem => Files.exists_free table fd (hall hmem)
  refine ⟨hk, ⟨hle, hfree⟩, fun i hi => ?_⟩
  by_contra hlt
  exact hi.2 (hbetween i hi.1 (Nat.lt_of_not_le hlt))

/-- Where every lower number is taken, the search may as well begin at 0. -/
theorem candidate?_zero (hfd : fd < wordSize) (hlow : ∀ i < fd, i ∈ table) :
    candidate? table table.size 0 = candidate? table table.size fd := by
  have hsame : {i | 0 ≤ i ∧ i ∉ table} = {i | fd ≤ i ∧ i ∉ table} := by
    ext i
    refine and_congr_left fun hi => iff_of_true (Nat.zero_le i) (Nat.le_of_not_lt fun hlt => hi (hlow i hlt))
  have hzero : 0 < wordSize := by decide
  cases h : candidate? table table.size 0 with
  | none =>
    cases h' : candidate? table table.size fd with
    | none => rfl
    | some k =>
      obtain ⟨hk, hleast⟩ := candidate?_isLeast hfd h'
      exact absurd (candidate?_none h k (Nat.zero_le k) hk) hleast.1.2
  | some k =>
    obtain ⟨hk, hleast⟩ := candidate?_isLeast hzero h
    rw [hsame] at hleast
    cases h' : candidate? table table.size fd with
    | none => exact absurd (candidate?_none h' k hleast.1.1 hk) hleast.1.2
    | some k' => rw [hleast.unique (candidate?_isLeast hfd h').2]

end Candidate

/-! ### One call against the other -/

/-- The two calls return the same and leave the same descriptors to `t`, and no error changes these. -/
structure Agree (t : Nat) (x y : SysM Nat) (m : Machine) : Prop where
  result : (x m).1 = (y m).1
  table : (x m).2.files.table t = (y m).2.files.table t
  kept : ∀ e, (x m).1 = .error (.err e) → (x m).2.files.table t = m.files.table t

variable {m : Machine} {cur : Nat × Task} {oldFd newFd : Nat}

theorem table_setTable (files : Files) (t : Nat) (table : BTreeMap FLike) : (files.setTable t table).table t = table := by
  rw [Files.table, Files.setTable, get_insert, if_pos rfl]
  rfl

variable {files files' : Files} {t fd : Nat} {fl : FLike}

theorem table_of_tables (h : files'.tables = files.tables) (t : Nat) : files'.table t = files.table t := by
  rw [Files.table, Files.table, h]

theorem keeps_tables {f : Files → Option Files} (h : ∀ files files', f files = some files' → files'.tables = files.tables) :
    (onFiles fun files => (f files).map fun files => ((), files) : SysM Unit).Keeps fun m => m.files.tables := by
  refine keeps_callee fun m u m' hcall => ?_
  obtain ⟨⟨_, files⟩, hfiles, heq⟩ := Option.map_eq_some_iff.mp hcall
  obtain ⟨files', hdrop, heq'⟩ := Option.map_eq_some_iff.mp hfiles
  cases heq
  cases heq'
  exact h _ _ hdrop

theorem dropAll_tables {fls : List FLike} (h : files.dropAll fls = some files') :
    files'.tables = files.tables := by
  induction fls generalizing files with
  | nil =>
    cases h
    rfl
  | cons fl rest ih =>
    obtain ⟨files₁, hdrop, hrest⟩ := Option.bind_eq_some_iff.mp h
    exact (ih hrest).trans (drop_tables hdrop)

theorem sysDup_eq_dupFrom (hrun : m.kernel.running = some cur) (hold : oldFd < nProc * 4) :
    sysDup oldFd m = dupFrom cur.1 oldFd false oldFd m := by
  rw [sysDup, failIf_bind, if_neg (Nat.not_le_of_lt hold), current_bind hrun]
  rfl

section From
variable {t start : Nat} {cloexec : Bool}

theorem dupFrom_missing (h : m.files.getFile t oldFd = none) :
    dupFrom t oldFd cloexec start m = (.error (.err .ebadf), m) := okOr_bind_none h

variable {fl : FLike} {fd : Nat}

theorem dupFrom_trap (h : m.files.getFile t oldFd = some fl)
    (hfd : candidate? (m.files.table t) (m.files.fdCount t) start = none) :
    dupFrom t oldFd cloexec start m = (.error .trap, m) := by
  rw [dupFrom, getFile_bind h, get_bind, hfd, own_none_bind]

theorem dupFrom_found (h : m.files.getFile t oldFd = some fl)
    (hfd : candidate? (m.files.table t) (m.files.fdCount t) start = some fd) :
    dupFrom t oldFd cloexec start m = (do dropFile fl; pure fd : SysM Nat)
      {m with files := m.files.setTable t ((m.files.table t).insert fd (fl.dup cloexec))} := by
  rw [dupFrom, getFile_bind h, get_bind, hfd, own_some_bind]
  rfl

theorem dupFrom_table (h : m.files.getFile t oldFd = some fl)
    (hfd : candidate? (m.files.table t) (m.files.fdCount t) start = some fd) :
    (dupFrom t oldFd cloexec start m).2.files.table t = (m.files.table t).insert fd (fl.dup cloexec) := by
  have hdrop : (dropFile fl).Keeps fun m => m.files.tables := keeps_tables fun _ _ => drop_tables
  rw [dupFrom_found h hfd, table_of_tables (hdrop.bind (fun _ => keeps_pure fd) _), table_setTable]

theorem dupFrom_ok (h : (dupFrom t oldFd cloexec start m).1 = .ok fd) :
    candidate? (m.files.table t) (m.files.fdCount t) start = some fd := by
  cases hfl : m.files.getFile t oldFd with
  | none =>
    rw [dupFrom_missing hfl] at h
    cases h
  | some fl =>
    cases hfd : candidate? (m.files.table t) (m.files.fdCount t) start with
    | none =>
      rw [dupFrom_trap hfl hfd] at h
      cases h
    | some k =>
      rw [dupFrom_found hfl hfd] at h
      obtain ⟨_, _, _, hpure⟩ := bind_eq_ok.mp (Prod.ext h rfl)
      rw [(pure_eq_ok.mp hpure).1]

end From

theorem dupFrom_eq_dupFd (hold : oldFd < wordSize)
    (hlow : oldFd ∈ m.files.table t → ∀ fd < oldFd, fd ∈ m.files.table t) :
    dupFrom t oldFd false oldFd m = dupFd t oldFd false m := by
  cases hfl : m.files.getFile t oldFd with
  | none => rw [dupFrom_missing hfl, dupFd, dupFrom_missing hfl]
  | some fl =>
    have hopen : oldFd ∈ m.files.table t := by
      rw [Std.ExtTreeMap.mem_iff_isSome_getElem?, show (m.files.table t)[oldFd]? = some fl from hfl]
      rfl
    rw [dupFd, dupFrom, dupFrom, getFile_bind hfl, getFile_bind hfl, get_bind, get_bind, Files.fdCount,
      candidate?_zero hold (hlow hopen)]

/-! ### Two values that go -/

theorem drop_comm (files : Files) (a b : FLike) :
    ((files.drop a).bind fun files => files.drop b) = (files.drop b).bind fun files => files.drop a := by
  cases a with
  | file fh => simp only [Files.drop, Option.bind_some, Option.bind_fun_some]
  | ep inst => simp only [Files.drop, Option.bind_some, Option.bind_fun_some]
  | pipe node =>
    cases b with
    | file fh => simp only [Files.drop, Option.bind_some, Option.bind_fun_some]
    | ep inst => simp only [Files.drop, Option.bind_some, Option.bind_fun_some]
    | pipe node' =>
      by_cases hsame : node.data = node'.data
      · simp only [Files.drop, hsame]
      · have hother (pipes : List PipeBuf) (p : PipeBuf) : (pipes.set node.data p)[node'.data]? = pipes[node'.data]? :=
          List.getElem?_set_ne hsame
        have hother' (pipes : List PipeBuf) (p : PipeBuf) : (pipes.set node'.data p)[node.data]? = pipes[node.data]? :=
          List.getElem?_set_ne (Ne.symm hsame)
        simp only [Files.drop, Option.bind_assoc, Option.bind_map, Function.comp_def, hother, hother']
        cases files.pipes[node.data]? with
        | none => cases files.pipes[node'.data]? with
          | none => rfl
          | some q => cases hq : q.dropNode <;> simp [hq]
        | some p => cases files.pipes[node'.data]? with
          | none => cases hp : p.dropNode <;> simp [hp]
          | some q =>
            cases hp : p.dropNode with
            | none => cases hq : q.dropNode <;> simp [hp, hq]
            | some p' => cases hq : q.dropNode <;> simp [hp, hq, List.set_comm _ _ hsame]

theorem dropAll_swap (files : Files) (fl : FLike) (other : Option FLike) :
    files.dropAll (fl :: other.toList) = files.dropAll (other.toList ++ [fl]) := by
  cases other with
  | none => rfl
  | some c =>
    have hnil (x : FLike) : (fun files : Files => (files.drop x).bind fun files => files.dropAll []) =
        fun files => files.drop x := by
      funext files
      exact Option.bind_fun_some _
    show ((files.drop fl).bind fun files => (files.drop c).bind fun files => files.dropAll []) =
      (files.drop c).bind fun files => (files.drop fl).bind fun files => files.dropAll []
    rw [hnil, hnil, drop_comm]

/-! ### A copy under a given number -/

theorem sysDup2_eq_dup2Table (hrun : m.kernel.running = some cur) (hold : oldFd < nProc * 4)
    (hnew : newFd < nProc * 4) (hne : oldFd ≠ newFd) : sysDup2 oldFd newFd m = dup2Table cur.1 oldFd newFd m := by
  rw [sysDup2, failIf_bind, if_neg (Nat.not_le_of_lt hold), failIf_bind, if_neg (Nat.not_le_of_lt hnew), if_neg hne,
    curTask_bind, hrun]

theorem getElem?_erase_ne (table : BTreeMap FLike) (hne : oldFd ≠ newFd) : (table.erase newFd)[oldFd]? = table[oldFd]? := by
  rw [get_erase, if_neg (Ne.symm hne)]

theorem dup2Table_eq_dup2Fd (hne : oldFd ≠ newFd) (hfl : m.files.getFile t oldFd = some fl) :
    dup2Table t oldFd newFd m = dup2Fd t oldFd newFd m := by
  have hfl' : ((m.files.table t).erase newFd)[oldFd]? = some fl := (getElem?_erase_ne _ hne).trans hfl
  rw [dup2Table, dup2Fd, if_neg hne, getFile_bind hfl, get_bind, get_bind]
  simp only [hfl', dropAll_swap]
  rfl

theorem dup2Table_missing (hne : oldFd ≠ newFd) (hfl : m.files.getFile t oldFd = none) :
    (dup2Table t oldFd newFd m).2.files.table t = (m.files.table t).erase newFd := by
  have hfl' : ((m.files.table t).erase newFd)[oldFd]? = none := (getElem?_erase_ne _ hne).trans hfl
  rw [dup2Table, get_bind]
  simp only [hfl']
  rw [bind_ok (rfl : onFiles _ m = (.ok (), _))]
  rw [table_of_tables ((keeps_tables fun _ _ => dropAll_tables).bind (fun _ => keeps_fail _) _), table_setTable]

/-! ### Agreement -/

theorem mem_table_iff : fd ∈ m.files.table t ↔ ∃ fl, m.files.getFile t fd = some fl := by
  rw [Std.ExtTreeMap.mem_iff_isSome_getElem?, Option.isSome_iff_exists]
  rfl

/-- `SYS_DUP` does what `dup_fd` does, and the copy sits at the least free number. -/
def DupAgrees (m : Machine) (t oldFd : Nat) : Prop :=
  Agree t (sysDup oldFd) (dupFd t oldFd false) m ∧
    ∀ fd, (sysDup oldFd m).1 = .ok fd → IsLeast {fd | fd ∉ m.files.table t} fd

/-- `SYS_DUP2` does what `dup2_fd` does. -/
def Dup2Agrees (m : Machine) (t oldFd newFd : Nat) : Prop := Agree t (sysDup2 oldFd newFd) (dup2Fd t oldFd newFd) m

theorem low_taken_of_table (hold : oldFd < wordSize)
    (h : (dupFrom t oldFd false oldFd m).2.files.table t = (dupFd t oldFd false m).2.files.table t)
    (hopen : oldFd ∈ m.files.table t) : ∀ fd < oldFd, fd ∈ m.files.table t := by
  intro fd hlt
  by_contra hfree
  obtain ⟨fl, hfl⟩ := mem_table_iff.mp hopen
  cases hzero : candidate? (m.files.table t) (m.files.fdCount t) 0 with
  | none => exact hfree (candidate?_none hzero fd (Nat.zero_le fd) (hlt.trans hold))
  | some k =>
    obtain ⟨_, hleast⟩ := candidate?_isLeast (by decide) hzero
    have hk : k ≤ fd := hleast.2 ⟨Nat.zero_le fd, hfree⟩
    rw [dupFd, dupFrom_table hfl hzero] at h
    have hin : k ∈ (dupFrom t oldFd false oldFd m).2.files.table t := by
      rw [h]
      exact Std.ExtTreeMap.mem_insert_self
    cases hcand : candidate? (m.files.table t) (m.files.fdCount t) oldFd with
    | none =>
      rw [dupFrom_trap hfl hcand] at hin
      exact hleast.1.2 hin
    | some k' =>
      have hk' := (candidate?_isLeast hold hcand).2.1.1
      rw [dupFrom_table hfl hcand, Std.ExtTreeMap.mem_insert, Nat.compare_eq_eq] at hin
      rcases hin with heq | hin
      · omega
      · exact hleast.1.2 hin

theorem dupAgrees_iff (hrun : m.kernel.running = some cur) (hold : oldFd < nProc * 4) :
    DupAgrees m cur.1 oldFd ↔ (oldFd ∈ m.files.table cur.1 → ∀ fd < oldFd, fd ∈ m.files.table cur.1) := by
  have hword : oldFd < wordSize := by
    simp only [nProc, wordSize] at *
    omega
  have hsys := sysDup_eq_dupFrom hrun hold
  constructor
  · intro h
    have htable := h.1.table
    rw [hsys] at htable
    exact low_taken_of_table hword htable
  · intro hlow
    have heq := hsys.trans (dupFrom_eq_dupFd hword hlow)
    refine ⟨⟨by rw [heq], by rw [heq], fun e he => ?_⟩, fun fd hfd => ?_⟩
    · exact congrArg (fun m : Machine => m.files.table cur.1) ((sysDup_meets m oldFd).err (Prod.ext he rfl))
    · rw [heq] at hfd
      have hleast := (candidate?_isLeast (by decide) (dupFrom_ok hfd)).2
      simpa only [Nat.zero_le, true_and] using hleast

theorem dup2Fd_meets (hne : oldFd ≠ newFd) (hfl : m.files.getFile t oldFd = some fl) :
    (dup2Fd t oldFd newFd).Meets m (fun _ _ => True) fun _ => False := by
  rw [dup2Fd, if_neg hne, getFile, meets_okOr_bind]
  refine ⟨fun fl' _ => ?_, fun hnone => ?_⟩
  · rw [meets_get_bind, meets_bind, onFiles, meets_callee]
    intro _ _ _
    rw [meets_bind, onFiles, meets_callee]
    intro _ _ _
    exact trivial
  · rw [hfl] at hnone
    cases hnone

theorem dup2Table_ebadf (hne : oldFd ≠ newFd) (hfl : m.files.getFile t oldFd = none)
    (hnew : m.files.getFile t newFd = none) : (dup2Table t oldFd newFd m).1 = .error (.err .ebadf) := by
  have hfl' : ((m.files.table t).erase newFd)[oldFd]? = none := (getElem?_erase_ne _ hne).trans hfl
  rw [dup2Table, get_bind]
  simp only [hfl', hnew]
  rfl

theorem erase_eq_iff {table : BTreeMap FLike} : table.erase fd = table ↔ fd ∉ table := by
  constructor
  · intro h hmem
    rw [← h, Std.ExtTreeMap.mem_erase] at hmem
    exact hmem.1 (Nat.compare_eq_eq.mpr rfl)
  · intro h
    apply Std.ExtTreeMap.ext_getElem?
    intro a
    rw [get_erase]
    split
    · next heq =>
      rw [← heq, Std.ExtTreeMap.getElem?_eq_none h]
    · rfl

theorem dup2Agrees_iff (hrun : m.kernel.running = some cur) (hold : oldFd < nProc * 4) (hnew : newFd < nProc * 4) :
    Dup2Agrees m cur.1 oldFd newFd ↔
      oldFd = newFd ∨ oldFd ∈ m.files.table cur.1 ∨ newFd ∉ m.files.table cur.1 := by
  by_cases hne : oldFd = newFd
  · refine iff_of_true ?_ (.inl hne)
    have hsys : sysDup2 oldFd newFd m = (.ok newFd, m) := by
      rw [sysDup2, failIf_bind, if_neg (Nat.not_le_of_lt hold), failIf_bind, if_neg (Nat.not_le_of_lt hnew), if_pos hne]
      rfl
    have htask : dup2Fd cur.1 oldFd newFd m = (.ok newFd, m) := by
      rw [dup2Fd, if_pos hne]
      rfl
    exact ⟨by rw [hsys, htask], by rw [hsys, htask], fun e _ => by rw [hsys]⟩
  rw [or_iff_right hne]
  have hsys := sysDup2_eq_dup2Table hrun hold hnew hne
  cases hfl : m.files.getFile cur.1 oldFd with
  | some fl =>
    have heq := hsys.trans (dup2Table_eq_dup2Fd hne hfl)
    refine iff_of_true ⟨by rw [heq], by rw [heq], fun e he => ?_⟩ (.inl (mem_table_iff.mpr ⟨fl, hfl⟩))
    rw [heq] at he
    exact ((dup2Fd_meets hne hfl).err (Prod.ext he rfl)).elim
  | none =>
    have htask : dup2Fd cur.1 oldFd newFd m = (.error (.err .ebadf), m) := by
      rw [dup2Fd, if_neg hne]
      exact okOr_bind_none hfl
    have hmissing : oldFd ∉ m.files.table cur.1 := by
      intro hmem
      obtain ⟨fl, hsome⟩ := mem_table_iff.mp hmem
      rw [hfl] at hsome
      cases hsome
    have htable : (sysDup2 oldFd newFd m).2.files.table cur.1 = (m.files.table cur.1).erase newFd := by
      rw [hsys]
      exact dup2Table_missing hne hfl
    rw [or_iff_right hmissing, ← erase_eq_iff]
    constructor
    · intro h
      rw [← htable, h.table, htask]
    · intro hsame
      have hnone : m.files.getFile cur.1 newFd = none := Std.ExtTreeMap.getElem?_eq_none (erase_eq_iff.mp hsame)
      refine ⟨?_, ?_, fun e _ => htable.trans hsame⟩
      · rw [hsys, htask]
        exact dup2Table_ebadf hne hfl hnone
      · rw [htable, htask]
        exact hsame

/-- **The copies by system call are those of the task exactly when every number below an open `old_fd` is taken, and
when the new number is the old one, or the old one is open, or the new one is not.** -/
theorem dup_calls_agree_iff {m : Machine} {cur : Nat × Task} {oldFd newFd : Nat} (hrun : m.kernel.running = some cur)
    (hold : oldFd < nProc * 4) (hnew : newFd < nProc * 4) :
    (DupAgrees m cur.1 oldFd ↔ (oldFd ∈ m.files.table cur.1 → ∀ fd < oldFd, fd ∈ m.files.table cur.1)) ∧
    (Dup2Agrees m cur.1 oldFd newFd ↔
      oldFd = newFd ∨ oldFd ∈ m.files.table cur.1 ∨ newFd ∉ m.files.table cur.1) :=
  ⟨dupAgrees_iff hrun hold, dup2Agrees_iff hrun hold hnew⟩

/-- The first task has one open descriptor. -/
def onlyOpen (fd : Nat) : Machine :=
  {Machine.boot 4 with files := Files.new.setTable 1 ((∅ : BTreeMap FLike).insert fd (.ep ⟨∅⟩))}

theorem onlyOpen_table {fd x : Nat} : x ∈ (onlyOpen fd).files.table 1 ↔ x = fd := by
  rw [onlyOpen, table_setTable, Std.ExtTreeMap.mem_insert, Nat.compare_eq_eq, eq_comm]
  exact or_iff_left Std.ExtTreeMap.not_mem_empty

theorem dup_calls_agree_zero : (sysDup 0 (onlyOpen 0)).1 = .ok 1 ∧ DupAgrees (onlyOpen 0) 1 0 ∧
    (sysDup2 0 2 (onlyOpen 0)).1 = .ok 2 ∧ Dup2Agrees (onlyOpen 0) 1 0 2 := by
  obtain ⟨hdup, hdup2⟩ := dup_calls_agree_iff (rfl : (onlyOpen 0).kernel.running = some (1, _))
    (show 0 < nProc * 4 by decide) (show 2 < nProc * 4 by decide)
  exact ⟨by decide +kernel, hdup.mpr fun _ fd hlt => absurd hlt (Nat.not_lt_zero fd), by decide +kernel,
    hdup2.mpr (.inr (.inl (onlyOpen_table.mpr rfl)))⟩

/-- `SYS_DUP` of descriptor 1 gives 2 and `dup_fd` gives 0; `SYS_DUP2` of descriptor 0, which is not open, closes 1. -/
theorem dup_calls_part :
    (sysDup 1 (onlyOpen 1)).1 = .ok 2 ∧ (dupFd 1 1 false (onlyOpen 1)).1 = .ok 0 ∧ ¬DupAgrees (onlyOpen 1) 1 1 ∧
    (sysDup2 0 1 (onlyOpen 1)).1 = .error (.err .ebadf) ∧ ¬Dup2Agrees (onlyOpen 1) 1 0 1 := by
  have hrun : (onlyOpen 1).kernel.running = some (1, _) := rfl
  refine ⟨by decide +kernel, by decide +kernel, fun h => ?_, by decide +kernel, fun h => ?_⟩
  · have hzero := (dupAgrees_iff hrun (by decide)).mp h (onlyOpen_table.mpr rfl) 0 (by decide)
    exact absurd (onlyOpen_table.mp hzero) (by decide)
  · rcases (dup2Agrees_iff hrun (by decide) (by decide)).mp h with heq | hopen | hnew
    · exact absurd heq (by decide)
    · exact absurd (onlyOpen_table.mp hopen) (by decide)
    · exact hnew (onlyOpen_table.mpr rfl)

end ChaosKernel.Sys
