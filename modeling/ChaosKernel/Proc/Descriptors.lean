import ChaosKernel.Base.Run
import ChaosKernel.Base.Threads
import ChaosKernel.Proc.Files

/-! Descriptors that several threads of a task allocate.

`add_file` looks for the lowest free number and inserts the object under it, each under the
mutex of the table and with the mutex free in between; `dup_fd` does the same after it has
read the object. `close_fd` is one section. Alone, `add_file` is `Files.addFile`
(`alone_addFile`).

`opened` lists what the calls have returned and nobody has closed since. -/
namespace ChaosKernel.Proc
open Base List

structure FdShared where
  files : BTreeMap FLike
  opened : List (Nat × FLike)

/-- The next section of a thread. -/
inductive FdPc where
  | idle
  /-- `dup_fd` reads the object. -/
  | get (oldFd : Nat) (cloexec : Bool)
  /-- The lowest free number. -/
  | choose (fl : FLike)
  | insert (fl : FLike) (fd : Nat)

def FdPc.isIdle : FdPc → Bool
  | .idle => true
  | _ => false

namespace FdShared

def lowestFree (s : FdShared) : Nat := Files.freeFrom s.files s.files.size 0

/-- One section. A `dup_fd` of a number that is not open returns an error. -/
def access (s : FdShared) : FdPc → Option (FdShared × FdPc)
  | .idle => none
  | .get oldFd cloexec =>
    match s.files[oldFd]? with
    | some fl => some (s, .choose (fl.dup cloexec))
    | none => some (s, .idle)
  | .choose fl => some (s, .insert fl s.lowestFree)
  | .insert fl fd => some (⟨s.files.insert fd fl, s.opened ++ [(fd, fl)]⟩, .idle)

/-- Closing a number that is not open returns an error. -/
def closeFd (s : FdShared) (fd : Nat) : FdShared :=
  if fd ∈ s.files then ⟨s.files.erase fd, s.opened.filter (·.1 != fd)⟩ else s

end FdShared

section Threads
variable {τ : Type*} [DecidableEq τ]

inductive FdStep (τ : Type*) where
  | addFile (t : τ) (fl : FLike)
  | dupFd (t : τ) (oldFd : Nat) (cloexec : Bool)
  /-- The next section of a call. -/
  | tick (t : τ)
  | closeFd (fd : Nat)

abbrev FdWorld (τ : Type*) := Threads τ FdShared FdPc

namespace FdWorld

def start (files : BTreeMap FLike) : FdWorld τ := ⟨⟨files, []⟩, fun _ => .idle⟩

/-- The thread, if idle, begins a call. -/
def begin (w : FdWorld τ) (t : τ) (pc : FdPc) : Option (FdWorld τ) :=
  if (w.locals t).isIdle then some (w.set t w.shared pc) else none

end FdWorld

def descriptors (τ : Type*) [DecidableEq τ] : System (FdWorld τ) (FdStep τ) where
  step w
    | .addFile t fl => w.begin t (.choose fl)
    | .dupFd t oldFd cloexec => w.begin t (.get oldFd cloexec)
    | .tick t => (w.shared.access (w.locals t)).map fun r => w.set t r.1 r.2
    | .closeFd fd => some ⟨w.shared.closeFd fd, w.locals⟩

/-- The open descriptors are distinct, and each has its object in the table. -/
structure OpenKept (w : FdWorld τ) : Prop where
  distinct : (w.shared.opened.map Prod.fst).Nodup
  kept : ∀ fd fl, (fd, fl) ∈ w.shared.opened → w.shared.files[fd]? = some fl

/-- A number is still free when the object is inserted under it. -/
def InsertsFree (w : FdWorld τ) : FdStep τ → Prop
  | .tick t => ∀ fl fd, w.locals t = .insert fl fd → fd ∉ w.shared.files
  | _ => True

end Threads

/-! ### The lowest free number -/

namespace Files

theorem freeFrom_taken {table : BTreeMap FLike} {fuel fd : Nat} (h : freeFrom table fuel fd ∈ table) :
    ∀ i ≤ fuel, fd + i ∈ table := by
  induction fuel generalizing fd with
  | zero =>
    intro i hi
    rw [Nat.le_zero.mp hi]
    exact h
  | succ fuel ih =>
    rw [freeFrom] at h
    by_cases hfd : fd ∈ table
    · rw [if_pos (Std.ExtTreeMap.contains_iff_mem.mpr hfd)] at h
      intro i hi
      cases i with
      | zero => exact hfd
      | succ i =>
        have := ih h i (Nat.le_of_succ_le_succ hi)
        rwa [Nat.add_right_comm] at this
    · rw [if_neg fun hc => hfd (Std.ExtTreeMap.contains_iff_mem.mp hc)] at h
      exact absurd h hfd

/-- Among one more candidates than entries one is free. -/
theorem exists_free (table : BTreeMap FLike) (fd : Nat) : ¬∀ i ≤ table.size, fd + i ∈ table := by
  intro hall
  have hsub : List.range' fd (table.size + 1) ⊆ table.keys := by
    intro i hi
    obtain ⟨hle, hlt⟩ := mem_range'_1.mp hi
    have hi := hall (i - fd) (by omega)
    rw [Nat.add_sub_of_le hle] at hi
    exact Std.ExtTreeMap.mem_keys.mpr hi
  have hle := (subperm_of_subset nodup_range' hsub).length_le
  rw [length_range', Std.ExtTreeMap.length_keys] at hle
  omega

theorem freeFrom_free (table : BTreeMap FLike) : freeFrom table table.size 0 ∉ table := by
  intro h
  exact exists_free table 0 (freeFrom_taken h)

end Files

/-- A call that is not disturbed. -/
theorem alone_addFile (files : Files) (t : Nat) (fl : FLike) (opened : List (Nat × FLike)) :
    ∃ s, ((FdShared.mk (files.table t) opened).access (.choose fl)).bind (fun r => r.1.access r.2) = some (s, .idle) ∧
      files.addFile t fl = (files.getFreeFd t, files.setTable t s.files) ∧
      s.opened = opened ++ [(files.getFreeFd t, fl)] :=
  ⟨_, rfl, rfl, rfl⟩

/-! ### Sections -/

section Threads
variable {τ : Type*} [DecidableEq τ]

/-- A number that a thread has chosen and that is taken now has been opened since. -/
def ChosenFree (w : FdWorld τ) : Prop :=
  ∀ t fl fd, w.locals t = .insert fl fd → fd ∈ w.shared.files → fd ∈ w.shared.opened.map Prod.fst

variable {w w' : FdWorld τ} {t : τ} {s : FdShared}

theorem ChosenFree.set (h : ChosenFree w) {pc : FdPc}
    (hs : ∀ fd, (fd ∈ w.shared.files → fd ∈ w.shared.opened.map Prod.fst) → fd ∈ s.files → fd ∈ s.opened.map Prod.fst)
    (hpc : ∀ fl fd, pc = .insert fl fd → fd ∉ s.files) : ChosenFree (w.set t s pc) := by
  apply w.forall_set (P := fun _ pc => ∀ fl fd, pc = .insert fl fd → fd ∈ s.files → fd ∈ s.opened.map Prod.fst)
  · intro fl fd heq hfd
    exact absurd hfd (hpc fl fd heq)
  · intro u _ fl fd hu hfd
    exact hs fd (h u fl fd hu) hfd

theorem FdWorld.begin_eq_some {pc : FdPc} (h : w.begin t pc = some w') : w' = w.set t w.shared pc :=
  (Option.some.inj (Option.ite_none_right_eq_some.mp h).2).symm

theorem FdShared.mem_closeFd {fd a : Nat} (h : a ∈ (s.closeFd fd).files) : a ∈ s.files ∧ a ≠ fd := by
  unfold closeFd at h
  split at h
  · have ha := Std.ExtTreeMap.mem_erase.mp h
    exact ⟨ha.2, fun heq => ha.1 (Nat.compare_eq_eq.mpr heq.symm)⟩
  · next hfd => exact ⟨h, fun heq => hfd (heq ▸ h)⟩

theorem tick_cases (h : (descriptors τ).step w (.tick t) = some w') :
    (∃ fl fd, w.locals t = .insert fl fd ∧
        w' = w.set t ⟨w.shared.files.insert fd fl, w.shared.opened ++ [(fd, fl)]⟩ .idle) ∨
      (∀ fl fd, w.locals t ≠ .insert fl fd) ∧
        ∃ pc, w' = w.set t w.shared pc ∧ ∀ fl fd, pc = .insert fl fd → fd ∉ w.shared.files := by
  obtain ⟨⟨s, pc⟩, hacc, heq⟩ := Option.map_eq_some_iff.mp h
  subst heq
  cases hpc : w.locals t with
  | idle =>
    rw [hpc] at hacc
    cases hacc
  | get oldFd cloexec =>
    rw [hpc] at hacc
    refine .inr ⟨fun fl fd heq => (by cases heq), ?_⟩
    simp only [FdShared.access] at hacc
    split at hacc <;> cases hacc <;> exact ⟨_, rfl, fun fl fd heq => by cases heq⟩
  | choose fl =>
    rw [hpc] at hacc
    cases hacc
    refine .inr ⟨fun fl fd heq => (by cases heq), _, rfl, fun fl' fd heq => ?_⟩
    cases heq
    exact Files.freeFrom_free w.shared.files
  | insert fl fd =>
    rw [hpc] at hacc
    cases hacc
    exact .inl ⟨fl, fd, rfl, rfl⟩

theorem step_chosenFree (w : FdWorld τ) (a : FdStep τ) (w' : FdWorld τ) (hw : ChosenFree w)
    (h : (descriptors τ).step w a = some w') : ChosenFree w' := by
  cases a with
  | addFile t fl =>
    rw [FdWorld.begin_eq_some h]
    exact hw.set (fun _ hold => hold) fun _ _ heq => by cases heq
  | dupFd t oldFd cloexec =>
    rw [FdWorld.begin_eq_some h]
    exact hw.set (fun _ hold => hold) fun _ _ heq => by cases heq
  | tick t =>
    rcases tick_cases h with ⟨fl, fd, _, heq⟩ | ⟨_, pc, heq, hfree⟩
    · rw [heq]
      refine hw.set (fun a hold ha => ?_) fun _ _ heq => by cases heq
      rw [map_append, mem_append, map_singleton, mem_singleton]
      rcases Std.ExtTreeMap.mem_insert.mp ha with heq | ha
      · exact .inr (Nat.compare_eq_eq.mp heq).symm
      · exact .inl (hold ha)
    · rw [heq]
      exact hw.set (fun _ hold => hold) hfree
  | closeFd fd =>
    cases h
    intro t fl a hlocal ha
    obtain ⟨hmem, hne⟩ := FdShared.mem_closeFd ha
    have hopened := hw t fl a hlocal hmem
    show a ∈ (w.shared.closeFd fd).opened.map Prod.fst
    unfold FdShared.closeFd
    split
    · obtain ⟨p, hp, heq⟩ := mem_map.mp hopened
      exact mem_map.mpr ⟨p, mem_filter.mpr ⟨hp, bne_iff_ne.mpr (heq ▸ hne)⟩, heq⟩
    · exact hopened

omit [DecidableEq τ] in
theorem OpenKept.closeFd (h : OpenKept w) (fd : Nat) : OpenKept ⟨w.shared.closeFd fd, w.locals⟩ := by
  unfold FdShared.closeFd
  split
  · refine ⟨h.distinct.sublist (filter_sublist.map _), fun a fl ha => ?_⟩
    obtain ⟨ha, hne⟩ := mem_filter.mp ha
    show (w.shared.files.erase fd)[a]? = some fl
    rw [get_erase, if_neg (Ne.symm (bne_iff_ne.mp hne))]
    exact h.kept a fl ha
  · exact h

/-- Inserting keeps the descriptors exactly when the number is free. -/
theorem OpenKept.insert_iff (h : OpenKept w) (hchosen : ChosenFree w) {fl : FLike} {fd : Nat}
    (hlocal : w.locals t = .insert fl fd) :
    OpenKept (w.set t ⟨w.shared.files.insert fd fl, w.shared.opened ++ [(fd, fl)]⟩ .idle) ↔ fd ∉ w.shared.files := by
  constructor
  · intro h' hmem
    have hdistinct : ((w.shared.opened ++ [(fd, fl)]).map Prod.fst).Nodup := h'.distinct
    rw [map_append, nodup_append] at hdistinct
    exact hdistinct.2.2 fd (hchosen t fl fd hlocal hmem) fd (mem_singleton_self fd) rfl
  · intro hfree
    have hne : ∀ a fl', (a, fl') ∈ w.shared.opened → fd ≠ a := by
      intro a fl' ha heq
      refine hfree (Std.ExtTreeMap.mem_iff_isSome_getElem?.mpr ?_)
      rw [heq, h.kept a fl' ha]
      rfl
    refine ⟨?_, fun a fl' ha => ?_⟩
    · show ((w.shared.opened ++ [(fd, fl)]).map Prod.fst).Nodup
      rw [map_append, nodup_append]
      refine ⟨h.distinct, nodup_singleton _, fun a ha b hb heq => ?_⟩
      obtain ⟨p, hp, hpa⟩ := mem_map.mp ha
      exact hne p.1 p.2 hp ((mem_singleton.mp hb).symm.trans (heq.symm.trans hpa.symm))
    · show (w.shared.files.insert fd fl)[a]? = some fl'
      rw [get_insert]
      rcases mem_append.mp ha with ha | ha
      · rw [if_neg (hne a fl' ha)]
        exact h.kept a fl' ha
      · cases mem_singleton.mp ha
        rw [if_pos rfl]

theorem step_openKept (w : FdWorld τ) (a : FdStep τ) (w' : FdWorld τ) (hchosen : ChosenFree w) (hw : OpenKept w)
    (h : (descriptors τ).step w a = some w') : OpenKept w' ↔ InsertsFree w a := by
  cases a with
  | addFile t fl =>
    rw [FdWorld.begin_eq_some h]
    exact iff_of_true ⟨hw.distinct, hw.kept⟩ trivial
  | dupFd t oldFd cloexec =>
    rw [FdWorld.begin_eq_some h]
    exact iff_of_true ⟨hw.distinct, hw.kept⟩ trivial
  | closeFd fd =>
    cases h
    exact iff_of_true (hw.closeFd fd) trivial
  | tick t =>
    rcases tick_cases h with ⟨fl, fd, hlocal, heq⟩ | ⟨hno, pc, heq, _⟩
    · rw [heq, hw.insert_iff hchosen hlocal]
      constructor
      · intro hfree fl' fd' hlocal'
        rw [hlocal] at hlocal'
        cases hlocal'
        exact hfree
      · intro hfree
        exact hfree fl fd hlocal
    · rw [heq]
      exact iff_of_true ⟨hw.distinct, hw.kept⟩ fun fl fd hlocal => absurd hlocal (hno fl fd)

/-! ### Runs -/

/-- **The open descriptors are distinct and keep their objects along every interleaving exactly when each
number is still free when the object is inserted.** -/
theorem open_kept_iff (files : BTreeMap FLike) (steps : List (FdStep τ)) :
    (descriptors τ).Always OpenKept (.start files) steps ↔ (descriptors τ).Guarded InsertsFree (.start files) steps :=
  System.always_iff_guarded step_chosenFree step_openKept (fun _ _ _ h => by cases h)
    ⟨nodup_nil, fun _ _ h => by cases h⟩

end Threads

/-- Two threads choose the same number. -/
theorem descriptor_returned_twice :
    ¬(descriptors Bool).Always OpenKept (.start ∅)
      [.addFile false (.pipe ⟨0, .rd⟩), .addFile true (.pipe ⟨0, .wr⟩), .tick false, .tick true, .tick false,
        .tick true] := by
  intro h
  have hrun : ((descriptors Bool).run (.start ∅)
      [.addFile false (.pipe ⟨0, .rd⟩), .addFile true (.pipe ⟨0, .wr⟩), .tick false, .tick true, .tick false,
        .tick true]).any (fun w => w.shared.opened.map Prod.fst == [0, 0]) = true := by decide +kernel
  obtain ⟨w, hw, heq⟩ := (Option.any_eq_true _ _).mp hrun
  have hdistinct := (h _ w (prefix_refl _) hw).distinct
  rw [beq_iff_eq.mp heq] at hdistinct
  exact absurd hdistinct (by decide)

end ChaosKernel.Proc
