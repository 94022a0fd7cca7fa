import ChaosKernel.Proc.UserImage

/-! Getting a range of user memory ready for a write.

Before the kernel writes to user memory it faults in every page of the range.
`Prepared` says what that leaves behind: each page of the range has a frame that
is the writer's alone, and where the page was shared the new frame is blank, for
nobody copies the old one. Nothing else changes, and no frame's bytes do. -/
namespace ChaosKernel.Proc
open Base Memory

/-! ### The tables of all tasks -/

namespace Kernel

/-- What task `t` has behind page `p`. -/
def entry (k : Kernel) (t p : Nat) : Option PgFrame :=
  k.tasks.heap[t]?.bind fun task => task.addrSpace.cowPages[p]?

/-- The byte task `t` has at `addr`. -/
def byteAt (k : Kernel) (t addr : Nat) : UInt8 := image (k.entry t) k.pool addr

/-- The page is counted as shared. -/
def Shared (k : Kernel) (t p : Nat) : Prop := ∃ frame, k.entry t p = some frame ∧ 2 ≤ frame.rc

/-- Tables are counted, frames that are not in use are blank, and task numbers from `seq` on are new. -/
structure Sound (k : Kernel) : Prop where
  counted : Counted PgFrame.frameId PgFrame.rc (fun f => k.pool.slots[f]? = some false) k.entry
  blank : ∀ f : Nat, k.pool.slots[f]? ≠ some false → k.pool.readFrame f = Frame.zero
  unborn : ∀ t : Nat, k.tasks.seq ≤ t → k.tasks.heap[t]? = none

variable {k k' : Kernel} {t p : Nat} {task : Task}

theorem entry_of_get (ht : k.tasks.heap[t]? = some task) (p : Nat) :
    k.entry t p = task.addrSpace.cowPages[p]? := by
  rw [entry, ht, Option.bind_some]

theorem running_eq_some (h : k.running = some (t, task)) :
    k.curTask 0 = some t ∧ k.tasks.heap[t]? = some task := by
  simp only [running, Option.bind_eq_some_iff, Option.map_eq_some_iff] at h
  obtain ⟨t', ht, task', htask, heq⟩ := h
  cases heq
  exact ⟨ht, htask⟩

theorem entry_setSpace (k : Kernel) (t : Nat) (task : Task) (space : AddrSpace) (y q : Nat) :
    (k.setSpace t task space).entry y q = if y = t then space.cowPages[q]? else k.entry y q := by
  simp only [entry, setSpace, TaskTable.setTask, get_insert]
  by_cases hy : t = y
  · subst hy
    simp
  · simp [hy, Ne.symm hy]

variable {addr : Nat} {res : Except (Stop Errno) Nat} {space : AddrSpace} {pool : FramePool}

theorem handlePgfault_write (hrun : k.running = some (t, task))
    (h : k.handlePgfault addr 2 = (.ok true, k')) :
    ∃ space pool pa, task.addrSpace.handleCowFault addr k.pool = (.ok pa, space, pool) ∧
      k' = {k.setSpace t task space with pool := pool} := by
  have hwriting : (2 &&& 2 != 0) = true := by decide
  simp only [handlePgfault, hrun, hwriting, if_true] at h
  split at h
  · cases h
  · cases h
  · split at h
    · rcases hfault : task.addrSpace.handleCowFault addr k.pool with ⟨res, space, pool⟩
      rw [hfault] at h
      dsimp only at h
      split at h
      · cases h
        exact ⟨space, pool, _, rfl, rfl⟩
      · cases h
      · cases h
    · cases h

theorem running_setSpace (hrun : k.running = some (t, task)) (space : AddrSpace) (pool : FramePool) :
    running {k.setSpace t task space with pool := pool} =
      some (t, {task with addrSpace := space}) := by
  show (k.curTask 0).bind _ = _
  rw [(running_eq_some hrun).1]
  simp only [Option.bind_some, setSpace, TaskTable.setTask, get_insert, if_true, Option.map_some]

section Caller
variable {γ : Type} {f : Nat × Task → γ}

theorem handlePgfault_caller (hf : ∀ t task space, f (t, {task with addrSpace := space}) = f (t, task)) (k : Kernel)
    (addr access : Nat) : (k.handlePgfault addr access).2.running.map f = k.running.map f := by
  cases hrun : k.running with
  | none => simp only [handlePgfault, hrun]
  | some cur =>
    obtain ⟨t, task⟩ := cur
    rcases hcow : task.addrSpace.handleCowFault addr k.pool with ⟨res, space, pool⟩
    have hsame : (running {k.setSpace t task space with pool := pool}).map f = k.running.map f := by
      rw [running_setSpace hrun, hrun, Option.map_some, Option.map_some, hf]
    rw [← hrun]
    simp only [handlePgfault, hrun, hcow]
    rw [← hrun]
    split
    · rfl
    · rfl
    · split
      · split
        · split <;> exact hsame
        · rfl
      · rfl

theorem ensureUserRange_caller (hf : ∀ t task space, f (t, {task with addrSpace := space}) = f (t, task)) (k : Kernel)
    (start len : Nat) (writing : Bool) :
    (k.ensureUserRange start len writing).2.running.map f = k.running.map f :=
  ensureUserRange_keeps (f := fun k => k.running.map f) (fun k addr => handlePgfault_caller hf k addr _) k start len

end Caller

theorem heap_setSpace (htask : k.tasks.heap[t]? = some task) (space : AddrSpace) (y : Nat) :
    (k.setSpace t task space).tasks.heap[y]? = none ↔ k.tasks.heap[y]? = none := by
  simp only [setSpace, TaskTable.setTask, get_insert]
  by_cases hy : t = y
  · subst hy
    simp [htask]
  · rw [if_neg hy]

theorem cowFault_entry (hrun : k.running = some (t, task))
    (hcow : task.addrSpace.handleCowFault addr k.pool = (res, space, pool)) :
    ((k.setSpace t task space).entry = k.entry ∧ pool = k.pool ∧ ∀ pa, res = .ok pa →
        ∃ frame, k.entry t (pageAddr addr) = some frame ∧ frame.rc ≤ 1) ∨
      ∃ i : Nat, k.pool.slots[i]? = some true ∧ pool = {k.pool with slots := k.pool.slots.set i false} ∧
        (∀ y q, (k.setSpace t task space).entry y q =
          if y = t ∧ q = pageAddr addr then some (PgFrame.withRc i 1) else k.entry y q) ∧
        ∀ frame, k.entry t (pageAddr addr) = some frame → 2 ≤ frame.rc := by
  have hpages : ∀ q, k.entry t q = task.addrSpace.cowPages[q]? := entry_of_get (running_eq_some hrun).2
  rcases AddrSpace.handleCowFault_cases hcow with ⟨_, rfl, rfl, hres⟩ | ⟨htakes, i, hfree, rfl, rfl, _⟩
  · refine .inl ⟨funext fun y => funext fun q => ?_, rfl, fun pa hpa => ?_⟩
    · rw [entry_setSpace]
      split
      · next hy => rw [hy, hpages]
      · rfl
    · obtain ⟨frame, hframe, hrc, _⟩ := hres pa hpa
      exact ⟨frame, (hpages _).trans hframe, hrc⟩
  · refine .inr ⟨i, hfree, rfl, fun y q => ?_, fun frame hframe => ?_⟩
    · rw [entry_setSpace, get_insert]
      by_cases hy : y = t
      · subst hy
        simp only [if_true, true_and, hpages, eq_comm]
      · simp only [hy, if_false, false_and]
    · exact htakes.2.1 frame ((hpages _).symm.trans hframe)

theorem Sound.cowFault (hs : k.Sound) (hrun : k.running = some (t, task))
    (hcow : task.addrSpace.handleCowFault addr k.pool = (res, space, pool)) :
    Sound {k.setSpace t task space with pool := pool} := by
  have hunborn := fun (y : Nat) hy => (heap_setSpace (running_eq_some hrun).2 space y).mpr (hs.unborn y hy)
  rcases cowFault_entry hrun hcow with ⟨hentry, rfl, _⟩ | ⟨i, hfree, rfl, hentry, _⟩
  · refine ⟨?_, hs.blank, hunborn⟩
    show Counted _ _ _ (k.setSpace t task space).entry
    rw [hentry]
    exact hs.counted
  · have hused : ∀ f, k.pool.slots[f]? = some false ∨ f = i →
        (k.pool.slots.set i false)[f]? = some false := by
      intro f hf
      rw [(Takes.one hfree).used_iff, List.mem_singleton]
      exact hf
    have hunused : k.pool.slots[i]? ≠ some false := by
      rw [hfree]
      simp
    obtain ⟨hcounted, _⟩ := hs.counted.fresh hunused rfl hentry hused
    exact ⟨hcounted, fun f hf => hs.blank f fun hin => hf (hused f (.inl hin)), hunborn⟩

end Kernel

/-! ### Before a write -/

/-- What a successful `ensure_user_range` for writing leaves behind: each page of the range has a
frame of its own, blank where the page was shared. -/
structure Prepared (k k' : Kernel) (t : Nat) (pages : Nat → Prop) : Prop where
  sound : k'.Sound
  tasks : ∀ y : Nat, k'.tasks.heap[y]? = none ↔ k.tasks.heap[y]? = none
  seq : k'.tasks.seq = k.tasks.seq
  cpus : k'.cpus = k.cpus
  reads : ∀ f, k'.pool.readFrame f = k.pool.readFrame f
  others : ∀ y q, ¬(y = t ∧ pages q) → k'.entry y q = k.entry y q
  ready : ∀ q, pages q → ∃ frame, k'.entry t q = some frame ∧ frame.rc ≤ 1 ∧
    ((k.Shared t q ∧ k.pool.readFrame frame.frameId = Frame.zero) ∨
      (k.entry t q = none ∧ k.pool.readFrame frame.frameId = Frame.zero) ∨
      k.entry t q = some frame)

namespace Prepared
variable {k k' k'' : Kernel} {t : Nat} {pages more pages' : Nat → Prop}

theorem refl (h : k.Sound) (t : Nat) : Prepared k k t fun _ => False :=
  ⟨h, fun _ => Iff.rfl, rfl, rfl, fun _ => rfl, fun _ _ _ => rfl, fun _ hq => hq.elim⟩

theorem trans (h : Prepared k k' t pages) (h' : Prepared k' k'' t more) :
    Prepared k k'' t fun q => pages q ∨ more q := by
  refine ⟨h'.sound, fun y => (h'.tasks y).trans (h.tasks y), h'.seq.trans h.seq,
    h'.cpus.trans h.cpus, fun f => (h'.reads f).trans (h.reads f), fun y q hout => ?_,
    fun q hq => ?_⟩
  · exact (h'.others y q fun hin => hout ⟨hin.1, .inr hin.2⟩).trans
      (h.others y q fun hin => hout ⟨hin.1, .inl hin.2⟩)
  · by_cases hmore : more q
    · obtain ⟨frame, hframe, hrc, hnew⟩ := h'.ready q hmore
      by_cases hpages : pages q
      · obtain ⟨frame', hframe', hrc', hold⟩ := h.ready q hpages
        rcases hnew with ⟨⟨shared, hshared, hrc''⟩, _⟩ | ⟨hnone, _⟩ | hsame
        · rw [Option.some.inj (hframe'.symm.trans hshared)] at hrc'
          omega
        · rw [hframe'] at hnone
          cases hnone
        · cases hframe'.symm.trans hsame
          exact ⟨frame, hframe, hrc, hold⟩
      · have hsame : k'.entry t q = k.entry t q := h.others t q fun hin => hpages hin.2
        refine ⟨frame, hframe, hrc, ?_⟩
        rw [Kernel.Shared, hsame, h.reads] at hnew
        exact hnew
    · obtain ⟨frame, hframe, hready⟩ := h.ready q (hq.resolve_right hmore)
      exact ⟨frame, (h'.others t q fun hin => hmore hin.2).trans hframe, hready⟩

variable {task : Task} {addr pageEnd fuel : Nat}

theorem page (hs : k.Sound) (hrun : k.running = some (t, task))
    (hfault : k.handlePgfault addr 2 = (.ok true, k')) :
    Prepared k k' t (fun q => q = pageAddr addr) ∧ ∃ task', k'.running = some (t, task') := by
  obtain ⟨space, pool, pa, hcow, rfl⟩ := Kernel.handlePgfault_write hrun hfault
  refine ⟨?_, _, Kernel.running_setSpace hrun space pool⟩
  have hsound := hs.cowFault hrun hcow
  have htasks := Kernel.heap_setSpace (Kernel.running_eq_some hrun).2 space
  rcases Kernel.cowFault_entry hrun hcow with ⟨hentry, rfl, hres⟩ | ⟨i, hfree, rfl, hentry, hshared⟩
  · have hsame : ∀ y q, (k.setSpace t task space).entry y q = k.entry y q := by
      intro y q
      rw [hentry]
    obtain ⟨frame, hframe, hrc⟩ := hres pa rfl
    refine ⟨hsound, htasks, rfl, rfl, fun _ => rfl, fun y q _ => hsame y q, fun q hq => ?_⟩
    rw [← hq] at hframe
    exact ⟨frame, (hsame t q).trans hframe, hrc, .inr (.inr hframe)⟩
  · have hblank : k.pool.readFrame i = Frame.zero := by
      apply hs.blank
      rw [hfree]
      simp
    refine ⟨hsound, htasks, rfl, rfl, fun _ => rfl, fun y q hout => (hentry y q).trans (if_neg hout), fun q hq => ?_⟩
    refine ⟨PgFrame.withRc i 1, (hentry t q).trans (if_pos ⟨rfl, hq⟩), le_refl _, ?_⟩
    rw [← hq] at hshared
    cases hold : k.entry t q with
    | none => exact .inr (.inl ⟨rfl, hblank⟩)
    | some frame => exact .inl ⟨⟨frame, hold, hshared frame hold⟩, hblank⟩

theorem congr (h : Prepared k k' t pages) (hiff : ∀ q, pages q ↔ pages' q) : Prepared k k' t pages' := by
  rw [← funext fun q => propext (hiff q)]
  exact h

theorem loop (hend : pageEnd + pageSz < wordSize) (haddr : addr % pageSz = 0) (hs : k.Sound)
    (hrun : k.running = some (t, task)) (h : Kernel.ensureLoop pageEnd 2 fuel addr k = (.ok (), k')) :
    Prepared k k' t (fun q => q % pageSz = 0 ∧ addr ≤ q ∧ q ≤ pageEnd) ∧
      ∃ task', k'.running = some (t, task') := by
  induction fuel generalizing addr k task with
  | zero => cases h
  | succ fuel ih =>
    unfold Kernel.ensureLoop at h
    split at h
    · rename_i hle
      split at h
      · cases h
      · cases h
      · rename_i k₁ hfault
        have hnext : wrappingAdd addr pageSz = addr + pageSz := Nat.mod_eq_of_lt (by omega)
        have hself : pageAddr addr = addr := by
          rw [pageAddr, haddr, Nat.sub_zero]
        rw [hnext] at h
        obtain ⟨hpage, task₁, hrun₁⟩ := page hs hrun hfault
        obtain ⟨hrest, hrun'⟩ := ih (by rw [Nat.add_mod_right]; exact haddr) hpage.sound hrun₁ h
        refine ⟨(hpage.trans hrest).congr fun q => ?_, hrun'⟩
        rw [hself]
        simp only [pageSz] at *
        omega
    · cases h
      exact ⟨(refl hs t).congr fun q => ⟨False.elim, fun hq => by omega⟩, task, hrun⟩

end Prepared

variable {k k' : Kernel}
variable {pageEnd access fuel addr t start len : Nat}

/-- A range up to the last address is never made ready: the loop starts again at zero. -/
theorem ensureLoop_top (hend : pageEnd + pageSz = wordSize) (haddr : addr % pageSz = 0)
    (hlt : addr < wordSize) : (Kernel.ensureLoop pageEnd access fuel addr k).1 ≠ .ok () := by
  induction fuel generalizing addr k with
  | zero => simp [Kernel.ensureLoop]
  | succ fuel ih =>
    have hle : addr ≤ pageEnd := by
      simp only [pageSz, wordSize] at *
      omega
    unfold Kernel.ensureLoop
    rw [if_pos hle]
    split
    · simp
    · simp
    · apply ih
      · simp only [wrappingAdd, pageSz, wordSize] at *
        omega
      · exact Nat.mod_lt _ (by decide)

/-! ### A write -/

theorem checkAccess_range (h : checkAccess start len = true) : start + len ≤ wordSize := by
  simp only [checkAccess, decide_eq_true_eq, kernBase, wordSize] at *
  omega

/-- The page of `a` holds a byte of `[start, start + len)`. -/
def Touches (start len a : Nat) : Prop := ∃ b, start ≤ b ∧ b < start + len ∧ pageAddr b = pageAddr a

theorem ensureUserRange_prepared {task : Task} (hs : k.Sound) (hrun : k.running = some (t, task))
    (hrange : start + len ≤ wordSize) (h : k.ensureUserRange start len true = (.ok (), k')) :
    Prepared k k' t (fun q => ∃ b, start ≤ b ∧ b < start + len ∧ pageAddr b = q) ∧
      ∃ task', k'.running = some (t, task') := by
  unfold Kernel.ensureUserRange at h
  by_cases hlen : len = 0
  · rw [if_pos hlen] at h
    cases h
    refine ⟨(Prepared.refl hs t).congr fun q => ?_, task, hrun⟩
    simp only [false_iff, not_exists]
    omega
  · rw [if_neg hlen] at h
    have hlast : wrappingAdd (wrappingAdd start len) (wordSize - 1) = start + len - 1 := by
      simp only [wrappingAdd, wordSize] at *
      omega
    have hstart : pageAddr start % pageSz = 0 := by
      simp only [pageAddr, pageSz]
      omega
    simp only [hlast, if_true] at h
    have hend : pageAddr (start + len - 1) + pageSz < wordSize := by
      by_contra hnot
      have htop : pageAddr (start + len - 1) + pageSz = wordSize := by
        simp only [pageAddr, pageSz, wordSize] at *
        omega
      have hlow : pageAddr start < wordSize := by
        simp only [pageAddr, pageSz, wordSize] at *
        omega
      exact ensureLoop_top htop hstart hlow (by rw [h])
    obtain ⟨hprepared, hrun'⟩ := Prepared.loop hend hstart hs hrun h
    refine ⟨hprepared.congr fun q => ⟨fun hq => ?_, ?_⟩, hrun'⟩
    · by_cases hfirst : q ≤ start
      · refine ⟨start, le_refl _, by omega, ?_⟩
        simp only [pageAddr, pageSz] at *
        omega
      · refine ⟨q, by omega, ?_, ?_⟩ <;>
        · simp only [pageAddr, pageSz] at *
          omega
    · rintro ⟨b, hlo, hhi, rfl⟩
      simp only [pageAddr, pageSz] at *
      omega

end ChaosKernel.Proc
