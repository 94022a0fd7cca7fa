import ChaosKernel.Proc.PrivateMemory

/-! Copies to user memory and back.

Whatever regions, forks, faults and copies led to a state, a range that
`ensure_user_range` accepts for writing has frames that are the running task's
alone (`Prepared`). So a copy into the range reaches every byte of it, a copy out
of it returns the bytes, and no frame of another task is touched. -/
namespace ChaosKernel.Proc
open Base Memory List

inductive SpaceStep where
  | setCur (id : Nat)
  | insert (t : Nat) (region : VmRegion)
  | doFork (parentId : Nat)
  | fault (addr access : Nat)
  | copyTo (start : Nat) (data : Bytes)

namespace Kernel

/-- The kernel after a call that came back. -/
def after {α : Type} : Except (Stop Errno) α × Kernel → Option Kernel
  | (res, k) => if returned res then some k else none

def spaceStep (k : Kernel) : SpaceStep → Option Kernel
  | .setCur id => some (k.setCur 0 (k.tasks.find id))
  | .insert t region => k.tasks.heap[t]?.bind fun task =>
    match task.addrSpace.vmMap.insert region with
    | .ok map => some (k.setSpace t task {task.addrSpace with vmMap := map})
    | .error (.err _) => some k
    | .error _ => none
  | .doFork parentId => after (k.doFork parentId)
  | .fault addr access => after (k.handlePgfault addr access)
  | .copyTo start data => after (k.copyToUser start data)

variable {k k' : Kernel}

theorem after_eq_some {α : Type} {call : Except (Stop Errno) α × Kernel} (h : after call = some k) :
    returned call.1 = true ∧ call.2 = k := by
  simp only [after, Option.ite_none_right_eq_some, Option.some.injEq] at h
  exact h

theorem Sound.fault (hs : k.Sound) (addr access : Nat) : (k.handlePgfault addr access).2.Sound := by
  cases hrun : k.running with
  | none =>
    simp only [handlePgfault, hrun]
    exact hs
  | some current =>
    obtain ⟨t, task⟩ := current
    rcases hcow : task.addrSpace.handleCowFault addr k.pool with ⟨res, space, pool⟩
    have hsound := hs.cowFault hrun hcow
    simp only [handlePgfault, hrun, hcow]
    split
    · exact hs
    · exact hs
    · split
      · split
        · split <;> exact hsound
        · exact hs
      · exact hs

theorem Sound.fork (hs : k.Sound) {parentId : Nat} (hreturned : returned (k.doFork parentId).1 = true) :
    (k.doFork parentId).2.Sound := by
  rcases hfork : k.doFork parentId with ⟨res, k'⟩
  rw [hfork] at hreturned
  match res with
  | .ok child =>
    obtain ⟨parent, _, _, hforked⟩ := doFork_forked hs hfork
    exact hforked.sound
  | .error (.err e) =>
    rw [doFork_error hfork]
    exact hs

theorem Sound.copyTo (hs : k.Sound) (start : Nat) (data : Bytes) : (k.copyToUser start data).2.Sound := by
  unfold copyToUser
  split
  · exact hs
  · next t task hrun =>
    rcases hloop : copyToLoop task.addrSpace.cowPages start data (data.length + 1) 0 k.pool with ⟨res, pool⟩
    exact sound_copy hs (entry_of_get (running_eq_some hrun).2) hloop

theorem Sound.spaceStep (hs : k.Sound) {a : SpaceStep} (h : k.spaceStep a = some k') : k'.Sound := by
  cases a with
  | setCur id =>
    cases h
    exact ⟨hs.counted, hs.blank, hs.unborn⟩
  | insert t region =>
    obtain ⟨task, htask, hinsert⟩ := Option.bind_eq_some_iff.mp h
    split at hinsert
    · cases hinsert
      exact (sound_setSpace hs htask _).1
    · cases hinsert
      exact hs
    · cases hinsert
  | doFork parentId =>
    obtain ⟨hreturned, rfl⟩ := after_eq_some h
    exact hs.fork hreturned
  | fault addr access =>
    obtain ⟨_, rfl⟩ := after_eq_some h
    exact hs.fault addr access
  | copyTo start data =>
    obtain ⟨_, rfl⟩ := after_eq_some h
    exact hs.copyTo start data

end Kernel

def spaces : System Kernel SpaceStep := ⟨Kernel.spaceStep⟩

/-! ### Copying into a range that is ready -/

section Ready
variable {k k' : Kernel} {t start a len : Nat} {task : Task} {data buf : Bytes}

theorem Prepared.exclusive
    (h : Prepared k k' t fun q => ∃ b, start ≤ b ∧ b < start + data.length ∧ pageAddr b = q)
    (hlo : start ≤ a) (hhi : a < start + data.length) :
    ∃ frame, Exclusive PgFrame.frameId k'.entry t (pageAddr a) frame := by
  obtain ⟨frame, hframe, hrc, _⟩ := h.ready (pageAddr a) ⟨a, hlo, hhi, rfl⟩
  exact ⟨frame, h.sound.counted.single t _ frame hframe hrc⟩

theorem Prepared.copy (h : Prepared k k' t fun q => ∃ b, start ≤ b ∧ b < start + data.length ∧ pageAddr b = q)
    (hrun : k'.running = some (t, task)) (hrange : start + data.length ≤ wordSize) :
    ∃ k'', k'.copyToUser start data = (.ok (), k'') ∧ k''.tasks = k'.tasks ∧ k''.running = some (t, task) ∧
      (∀ a, start ≤ a → a < start + data.length → k''.byteAt t a = data.getD (a - start) 0) ∧
      ∀ y q frame, y ≠ t → k'.entry y q = some frame →
        k''.pool.readFrame frame.frameId = k'.pool.readFrame frame.frameId := by
  have hcow := Kernel.entry_of_get (Kernel.running_eq_some hrun).2
  rcases hloop : Kernel.copyToLoop task.addrSpace.cowPages start data (data.length + 1) 0 k'.pool with ⟨res, pool⟩
  have hok : res = .ok () := by
    have hloop_ok : (Kernel.copyToLoop task.addrSpace.cowPages start data (data.length + 1) 0 k'.pool).1 = .ok () :=
      copyToLoop_ok hrange (Nat.zero_le _) (by omega) k'.pool
    rw [hloop] at hloop_ok
    exact hloop_ok
  subst hok
  refine ⟨{k' with pool := pool}, ?_, rfl, hrun, fun a hlo hhi => ?_, fun y q frame hy hframe => ?_⟩
  · simp only [Kernel.copyToUser, hrun, hloop]
  · have himage := copyToLoop_image hcow (fun a hlo hhi => h.exclusive (by omega) hhi) hloop t a
    exact himage.trans (if_pos ⟨rfl, by omega, hhi⟩)
  · refine (copyToLoop_frames hloop).2 frame.frameId fun a hlo hhi e he hsame => hy ?_
    obtain ⟨frame', hexcl⟩ := h.exclusive (show start ≤ a by omega) hhi
    have heq : e = frame' := Option.some.inj (he.symm.trans ((hcow _).symm.trans hexcl.1))
    exact (hexcl.2 y q frame hframe (by rw [← hsame, heq])).1

theorem copyFromUser_bytes (hrun : k.running = some (t, task)) (hrange : start + len ≤ wordSize)
    (hpages : ∀ a, start ≤ a → a < start + len → k.entry t (pageAddr a) ≠ none) (hbuf : buf.length = len) :
    k.copyFromUser start buf = .ok ((List.range len).map fun i => k.byteAt t (start + i)) := by
  have hcow := Kernel.entry_of_get (Kernel.running_eq_some hrun).2
  obtain ⟨filled, hloop, hlen, hbytes⟩ := copyFromLoop_image task.addrSpace.cowPages k.pool start
    (buf.length + 1) 0 buf (Nat.zero_le _) (by omega) (by rw [hbuf]; exact hrange)
    (fun i _ hi hnone => absurd ((hcow _).trans hnone) (hpages (start + i) (by omega) (by omega)))
  simp only [Kernel.copyFromUser, hrun, hloop]
  congr 1
  apply ext_getElem?
  intro i
  by_cases hi : i < len
  · rw [hbytes i (by omega), if_pos (Nat.zero_le i), getElem?_map, getElem?_range hi, Option.map_some,
      Kernel.byteAt, funext hcow]
  · rw [getElem?_eq_none (by omega), getElem?_eq_none (by simp; omega)]

end Ready

variable {start len : Nat}

theorem ensureUserRange_running {k k' : Kernel} (hlen : 0 < len) (hrange : start + len ≤ wordSize)
    (h : k.ensureUserRange start len true = (.ok (), k')) : ∃ t task, k.running = some (t, task) := by
  cases hrun : k.running with
  | some current => exact ⟨current.1, current.2, rfl⟩
  | none =>
    have hlast : wrappingAdd (wrappingAdd start len) (wordSize - 1) = start + len - 1 := by
      simp only [wrappingAdd, wordSize] at *
      omega
    have hle : pageAddr start ≤ pageAddr (start + len - 1) := by
      simp only [pageAddr, pageSz]
      omega
    rw [Kernel.ensureUserRange, if_neg (by omega)] at h
    simp only [hlast, Kernel.ensureLoop, if_pos hle, Kernel.handlePgfault, hrun] at h
    cases h

/-- **User memory keeps what is copied to it.** In every state reached by regions, forks, faults and
copies, for every range that is accepted for writing: the copy succeeds, a copy of the same range
by the same task returns the bytes, and no frame of another task changes. -/
theorem user_copy_round_trip {nf : Nat} {steps : List SpaceStep} {k k' : Kernel}
    (hreach : spaces.run (Kernel.new nf).procInit steps = some k) {start : Nat} {data : Bytes} (hdata : data ≠ [])
    (haccess : checkAccess start data.length = true)
    (hensure : k.ensureUserRange start data.length true = (.ok (), k')) :
    ∃ t k'', k'.curTask 0 = some t ∧ k'.copyToUser start data = (.ok (), k'') ∧
      (∀ buf : Bytes, buf.length = data.length → k''.copyFromUser start buf = .ok data) ∧
      ∀ y q frame, y ≠ t → k.entry y q = some frame →
        k''.pool.readFrame frame.frameId = k.pool.readFrame frame.frameId := by
  have hs : k.Sound := System.invariant_run (I := Kernel.Sound) (fun _ _ _ hs hstep => hs.spaceStep hstep)
    (Traced.sound_new nf).1 hreach
  have hrange := checkAccess_range haccess
  obtain ⟨t, task, hrun⟩ := ensureUserRange_running (length_pos_iff.mpr hdata) hrange hensure
  obtain ⟨hprepared, task', hrun'⟩ := ensureUserRange_prepared hs hrun hrange hensure
  obtain ⟨k'', hcopy, htasks, hrun'', hwritten, hothers⟩ := hprepared.copy hrun' hrange
  refine ⟨t, k'', (Kernel.running_eq_some hrun').1, hcopy, fun buf hbuf => ?_, fun y q frame hy hframe => ?_⟩
  · have hpages : ∀ a, start ≤ a → a < start + data.length → k''.entry t (pageAddr a) ≠ none := by
      intro a hlo hhi
      obtain ⟨frame, hexcl⟩ := hprepared.exclusive hlo hhi
      rw [Kernel.entry, htasks]
      exact fun hnone => Option.some_ne_none frame (hexcl.1.symm.trans hnone)
    rw [copyFromUser_bytes hrun'' hrange hpages hbuf]
    congr 1
    apply ext_getElem
    · rw [length_map, length_range]
    · intro i _ hi
      rw [getElem_map, getElem_range, hwritten _ (by omega) (by omega), Nat.add_sub_cancel_left,
        getD_eq_getElem?_getD, getElem?_eq_getElem hi, Option.getD_some]
  · have hframe' : k'.entry y q = some frame := (hprepared.others y q fun hin => hy hin.1).trans hframe
    rw [hothers y q frame hy hframe', hprepared.reads]

/-- Ten bytes across the border of two pages, with the frames of a child beside them. -/
theorem user_copy_round_trip_pages : ∃ k k' t k'',
    spaces.run (Kernel.new 4).procInit [.setCur 1, .insert 1 (VmRegion.new 4096 8192 3), .fault 4096 2,
      .doFork 1] = some k ∧
    k.ensureUserRange 8187 10 true = (.ok (), k') ∧
    k'.copyToUser 8187 (List.replicate 10 7) = (.ok (), k'') ∧ k'.curTask 0 = some t ∧
    k''.copyFromUser 8187 (List.replicate 10 0) = .ok (List.replicate 10 7) := by
  have hrun : ((spaces.run (Kernel.new 4).procInit [.setCur 1, .insert 1 (VmRegion.new 4096 8192 3), .fault 4096 2,
      .doFork 1]).any fun k => (k.ensureUserRange 8187 10 true).1 = .ok ()) = true := by
    decide +kernel
  obtain ⟨k, hk, hres⟩ := System.exists_of_run_any hrun
  rcases hensure : k.ensureUserRange 8187 10 true with ⟨res, k'⟩
  rw [hensure] at hres
  obtain rfl : res = .ok () := hres
  have hdata : List.replicate 10 (7 : UInt8) ≠ [] := by decide
  obtain ⟨t, k'', hcur, hcopy, hread, _⟩ := user_copy_round_trip hk hdata (by decide +kernel) hensure
  exact ⟨k, k', t, k'', hk, hensure, hcopy, hcur, hread (List.replicate 10 0) rfl⟩

end ChaosKernel.Proc
