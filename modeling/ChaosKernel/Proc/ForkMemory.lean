import ChaosKernel.Proc.UserRange

/-! What writes and forks do to the bytes of all tasks.

A fork shows the child the parent's bytes and changes nobody else's. A write
changes the bytes it is given, and it changes more: on a shared page that it
touches, the bytes around the written ones turn to zero for the writer
(`Wrote.lost`), since the frame that replaces a shared one is blank. -/
namespace ChaosKernel.Proc
open Base Memory

namespace Kernel

/-- `ensure_user_range` for writing and then `copy_to_user`, both successful. -/
def userWrite (k : Kernel) (start : Nat) (data : Bytes) : Option Kernel :=
  match k.ensureUserRange start data.length true with
  | (.ok (), k) =>
    match k.copyToUser start data with
    | (.ok (), k) => some k
    | (.error _, _) => none
  | (.error _, _) => none

/-- `copy_from_user` into a buffer of zeros when task `t` runs. -/
def userRead (k : Kernel) (t start len : Nat) : Except (Stop Errno) Bytes :=
  (k.setCur 0 (some t)).copyFromUser start (List.replicate len 0)

end Kernel

/-! ### What a write does to the bytes of all tasks -/

structure Wrote (k k' : Kernel) (t start : Nat) (data : Bytes) : Prop where
  sound : k'.Sound
  tasks : ∀ y : Nat, k'.tasks.heap[y]? = none ↔ k.tasks.heap[y]? = none
  cpus : k'.cpus = k.cpus
  range : start + data.length ≤ wordSize
  written : ∀ a, start ≤ a → a < start + data.length → k'.byteAt t a = data.getD (a - start) 0
  lost : ∀ a, ¬(start ≤ a ∧ a < start + data.length) → Touches start data.length a →
    k.Shared t (pageAddr a) → k'.byteAt t a = 0
  kept : ∀ y a, ¬(y = t ∧ start ≤ a ∧ a < start + data.length) →
    ¬(y = t ∧ Touches start data.length a ∧ k.Shared t (pageAddr a)) → k'.byteAt y a = k.byteAt y a

variable {k k' : Kernel} {start t a parentId child len fuel offset y z parent : Nat} {data : Bytes}

theorem ensureUserRange_none (hrun : k.running = none) (h : k.ensureUserRange start len true = (.ok (), k')) :
    k' = k := by
  unfold Kernel.ensureUserRange at h
  split at h
  · cases h
    rfl
  · simp only [Kernel.ensureLoop, Kernel.handlePgfault, hrun] at h
    split at h
    · cases h
    · cases h
      rfl

theorem zero_getD (i : Nat) : Frame.zero.bytes.getD i 0 = 0 := by
  simp only [Frame.zero, List.getD_eq_getElem?_getD, List.getElem?_replicate]
  split <;> rfl

theorem byteAt_some {frame : PgFrame} (h : k.entry t (pageAddr a) = some frame) :
    k.byteAt t a = (k.pool.readFrame frame.frameId).bytes.getD (a % pageSz) 0 := by
  simp only [Kernel.byteAt, image, h]

theorem byteAt_none (h : k.entry t (pageAddr a) = none) : k.byteAt t a = 0 := by
  simp only [Kernel.byteAt, image, h]

namespace Prepared
variable {k k' : Kernel} {t start len y : Nat}

theorem byteAt_lost (h : Prepared k k' t fun q => ∃ b, start ≤ b ∧ b < start + len ∧ pageAddr b = q)
    (htouches : Touches start len a) (hshared : k.Shared t (pageAddr a)) : k'.byteAt t a = 0 := by
  obtain ⟨frame, hframe, hrc, hcases⟩ := h.ready (pageAddr a) htouches
  obtain ⟨old, hold, hrc'⟩ := hshared
  have hzero : k.pool.readFrame frame.frameId = Frame.zero → k'.byteAt t a = 0 := by
    intro hblank
    rw [byteAt_some hframe, h.reads, hblank, zero_getD]
  rcases hcases with ⟨_, hblank⟩ | ⟨_, hblank⟩ | hsame
  · exact hzero hblank
  · exact hzero hblank
  · cases hold.symm.trans hsame
    omega

theorem byteAt_kept (h : Prepared k k' t fun q => ∃ b, start ≤ b ∧ b < start + len ∧ pageAddr b = q)
    (hkept : ¬(y = t ∧ Touches start len a ∧ k.Shared t (pageAddr a))) : k'.byteAt y a = k.byteAt y a := by
  by_cases hin : y = t ∧ Touches start len a
  · obtain ⟨rfl, htouches⟩ := hin
    obtain ⟨frame, hframe, _, ⟨hshared, _⟩ | ⟨hnone, hblank⟩ | hsame⟩ := h.ready (pageAddr a) htouches
    · exact absurd ⟨rfl, htouches, hshared⟩ hkept
    · rw [byteAt_some hframe, h.reads, hblank, zero_getD, byteAt_none hnone]
    · rw [byteAt_some hframe, h.reads, byteAt_some hsame]
  · have hentry := h.others y (pageAddr a) hin
    cases hold : k.entry y (pageAddr a) with
    | none => rw [byteAt_none (hentry.trans hold), byteAt_none hold]
    | some frame => rw [byteAt_some (hentry.trans hold), byteAt_some hold, h.reads]

end Prepared

/-- A copy into the pages of a task leaves the frames that nobody uses blank. -/
theorem sound_copy (hs : k.Sound) {cow : BTreeMap PgFrame} (hcow : ∀ q, k.entry t q = cow[q]?)
    {res : Except (Stop Errno) Unit} {pool : FramePool}
    (hloop : Kernel.copyToLoop cow start data fuel offset k.pool = (res, pool)) :
    Kernel.Sound {k with pool := pool} := by
  obtain ⟨hslots, hframes⟩ := copyToLoop_frames hloop
  refine ⟨?_, fun f hf => ?_, hs.unborn⟩
  · show Counted _ _ (fun f => pool.slots[f]? = some false) _
    rw [hslots]
    exact hs.counted
  · have hf' : k.pool.slots[f]? ≠ some false := by
      rw [← hslots]
      exact hf
    rw [← hs.blank f hf']
    refine hframes f fun a _ _ e he heq => hf' ?_
    rw [← heq]
    exact hs.counted.used t (pageAddr a) e ((hcow _).trans he)

theorem userWrite_wrote (hs : k.Sound) (hstart : start < wordSize) (h : k.userWrite start data = some k') :
    ∃ t task, k.running = some (t, task) ∧ Wrote k k' t start data := by
  unfold Kernel.userWrite at h
  split at h
  · next k₁ hensure =>
    split at h
    · next k₂ hcopy =>
      cases h
      unfold Kernel.copyToUser at hcopy
      split at hcopy
      · cases hcopy
      · next t₁ task₁ hrun₁ =>
        rcases hloop : Kernel.copyToLoop task₁.addrSpace.cowPages start data (data.length + 1) 0
          k₁.pool with ⟨res, pool⟩
        rw [hloop] at hcopy
        obtain ⟨rfl, rfl⟩ := Prod.mk.inj hcopy
        have hrange := copyToLoop_range (show start + 0 ≤ wordSize by omega) hloop
        cases hrun : k.running with
        | none =>
          rw [ensureUserRange_none hrun hensure, hrun] at hrun₁
          cases hrun₁
        | some current =>
          obtain ⟨t, task⟩ := current
          refine ⟨t, task, rfl, ?_⟩
          obtain ⟨hprepared, task', hrun'⟩ := ensureUserRange_prepared hs hrun hrange hensure
          cases hrun'.symm.trans hrun₁
          have hcow := Kernel.entry_of_get (Kernel.running_eq_some hrun₁).2
          have himage := copyToLoop_image hcow (fun a hlo hhi => by
            obtain ⟨frame, hframe, hrc, _⟩ := hprepared.ready (pageAddr a) ⟨a, by omega, hhi, rfl⟩
            exact ⟨frame, hprepared.sound.counted.single t₁ _ frame hframe hrc⟩) hloop
          simp only [Nat.add_zero] at himage
          refine ⟨sound_copy hprepared.sound hcow hloop, hprepared.tasks, hprepared.cpus, hrange,
            fun a hlo hhi => ?_, fun a hout htouches hshared => ?_, fun y a hout hkept => ?_⟩
          · exact (himage t₁ a).trans (if_pos ⟨rfl, hlo, hhi⟩)
          · refine ((himage t₁ a).trans (if_neg fun hin => hout hin.2)).trans ?_
            exact hprepared.byteAt_lost htouches hshared
          · refine ((himage y a).trans (if_neg hout)).trans ?_
            exact hprepared.byteAt_kept hkept
    · cases h
  · cases h

/-! ### What a fork does -/

structure Forked (k k' : Kernel) (parent child : Nat) : Prop where
  sound : k'.Sound
  tasks : ∀ y : Nat, k'.tasks.heap[y]? = none ↔ y ≠ child ∧ k.tasks.heap[y]? = none
  cpus : k'.cpus = k.cpus
  copied : ∀ a, k'.byteAt child a = k.byteAt parent a
  kept : ∀ y a, y ≠ child → k'.byteAt y a = k.byteAt y a

theorem byteAt_map_up (hpool : k'.pool = k.pool)
    (hentry : k'.entry y (pageAddr a) = (k.entry z (pageAddr a)).map PgFrame.up) :
    k'.byteAt y a = k.byteAt z a := by
  cases hold : k.entry z (pageAddr a) with
  | none =>
    rw [hold] at hentry
    rw [byteAt_none hentry, byteAt_none hold]
  | some frame =>
    rw [hold] at hentry
    rw [byteAt_some hentry, byteAt_some hold, hpool]
    rfl

theorem doFork_error {e : Errno} (h : k.doFork parentId = (.error (.err e), k')) : k' = k := by
  unfold Kernel.doFork at h
  split at h
  · cases h
    rfl
  · rename_i parent task _
    rcases hfork : task.addrSpace.forkFrom ((k.tasks.forkTask parent task).1 % 2 ^ 16) with ⟨res, space⟩
    simp only [hfork] at h
    cases res with
    | error e' =>
      cases h
      cases AddrSpace.forkFrom_error hfork
    | ok childSpace => cases h

/-- The changes of a fork: a new task, and the pages of the parent in both, counted up. -/
structure ForkChanges (k k' : Kernel) (parent child : Nat) : Prop where
  new : child = k.tasks.seq
  seq : k'.tasks.seq = k.tasks.seq + 1
  pool : k'.pool = k.pool
  cpus : k'.cpus = k.cpus
  tasks : ∀ y : Nat, k'.tasks.heap[y]? = none ↔ y ≠ child ∧ k.tasks.heap[y]? = none
  entry : ∀ z p, k'.entry z p = if z = parent ∨ z = child then (k.entry parent p).map PgFrame.up else k.entry z p

theorem doFork_changes (hs : k.Sound) (h : k.doFork parentId = (.ok child, k')) :
    ∃ parent, k.tasks.find parentId = some parent ∧ k.tasks.heap[parent]? ≠ none ∧
      ForkChanges k k' parent child := by
  unfold Kernel.doFork at h
  split at h
  · cases h
  · next parent task hfind =>
    simp only [Option.bind_eq_some_iff, Option.map_eq_some_iff, Prod.mk.injEq] at hfind
    obtain ⟨_, hfound, _, htask, rfl, rfl⟩ := hfind
    rename_i parent task
    have hne : k.tasks.seq ≠ parent := fun heq => by
      have hnew := hs.unborn _ (le_refl k.tasks.seq)
      rw [heq, htask] at hnew
      cases hnew
    refine ⟨parent, hfound, by rw [htask]; exact Option.some_ne_none _, ?_⟩
    rcases hfork : task.addrSpace.forkFrom ((k.tasks.forkTask parent task).1 % 2 ^ 16) with ⟨res, space⟩
    simp only [hfork] at h
    cases res with
    | error e => cases h
    | ok childSpace =>
      obtain ⟨hchildSpace, hparentSpace⟩ := AddrSpace.forkFrom_ok hfork
      obtain ⟨hok, rfl⟩ := Prod.mk.inj h
      obtain rfl : k.tasks.seq = child := Except.ok.inj hok
      refine ⟨rfl, ?_, rfl, rfl, fun y => ?_, fun z p => ?_⟩
      · simp only [TaskTable.seq_modify, TaskTable.forkTask]
      · simp only [TaskTable.heap_modify, TaskTable.forkTask, get_insert]
        by_cases hyc : y = k.tasks.seq
        · simp [hyc, hne]
        · by_cases hyp : y = parent
          · subst hyp
            simp [hyc, hne, htask]
          · simp [hyc, hyp, Ne.symm hyc, Ne.symm hyp]
      · simp only [Kernel.entry, TaskTable.heap_modify, TaskTable.forkTask, get_insert]
        by_cases hzc : z = k.tasks.seq
        · subst hzc
          simp [hne, htask, hchildSpace]
        · by_cases hzp : z = parent
          · subst hzp
            simp [hzc, hne, htask, hparentSpace]
          · simp [hzc, hzp, Ne.symm hzc, Ne.symm hzp]

theorem ForkChanges.forked (h : ForkChanges k k' parent child) (hs : k.Sound) :
    Forked k k' parent child := by
  refine ⟨⟨?_, ?_, fun y hy => ?_⟩, h.tasks, h.cpus, fun a => ?_, fun y a hy => ?_⟩
  · rw [h.pool]
    exact hs.counted.fork PgFrame.up (fun _ => rfl) (fun _ => rfl) h.entry
  · rw [h.pool]
    exact hs.blank
  · rw [h.seq] at hy
    rw [h.tasks, h.new]
    exact ⟨by omega, hs.unborn y (by omega)⟩
  · apply byteAt_map_up h.pool
    rw [h.entry, if_pos (.inr rfl)]
  · by_cases hyp : y = parent
    · apply byteAt_map_up h.pool
      rw [h.entry, if_pos (.inl hyp), hyp]
    · have hsame := h.entry y (pageAddr a)
      rw [if_neg (fun hor => hor.elim hyp hy)] at hsame
      simp only [Kernel.byteAt, image, hsame, h.pool]

theorem doFork_forked (hs : k.Sound) (h : k.doFork parentId = (.ok child, k')) :
    ∃ parent, k.tasks.find parentId = some parent ∧ k.tasks.heap[parent]? ≠ none ∧
      Forked k k' parent child := by
  obtain ⟨parent, hfound, htask, hchanges⟩ := doFork_changes hs h
  exact ⟨parent, hfound, htask, hchanges.forked hs⟩

end ChaosKernel.Proc
