import ChaosKernel.Base.Windows
import ChaosKernel.Memory.FrameGives

/-! Contiguous frames.

`get_contig` tries the multiples of the alignment one by one. `frame_alloc_contig` goes on
after the first used frame it meets and then up to the next multiple. Both find the least
window of free frames and mark the same frames (`contiguous_iff`). They part only where the
address of the window is no word, which takes a pool of more than `2 ^ 52 - 2 ^ 19` frames:
the sum panics there, with the frames already marked. -/
namespace ChaosKernel.Memory
open Base FramePool List Option

/-- The rounds of `frame_alloc_contig`; `none` as long as the loop has not ended. -/
def contigRounds (slots : List Bool) (sz alignment : Nat) : Nat → Nat → Option (Option Nat)
  | 0, _ => none
  | rounds + 1, start =>
    if start + sz ≤ slots.length then
      if start % alignment ≠ 0 then
        contigRounds slots sz alignment rounds ((start + alignment) / alignment * alignment)
      else
        match (List.range' start sz).find? fun j => !slots.getD j false with
        | some j => contigRounds slots sz alignment rounds (j + 1)
        | none => some (some start)
    else some none

theorem allocContigLoop_eq_rounds (slots : List Bool) (sz alignment rounds start : Nat) :
    allocContigLoop slots sz alignment rounds start = (contigRounds slots sz alignment rounds start).join := by
  induction rounds generalizing start with
  | zero => rfl
  | succ rounds ih =>
    rw [allocContigLoop, contigRounds]
    split
    · split
      · exact ih _
      · cases (List.range' start sz).find? fun j => !slots.getD j false with
        | none => rfl
        | some j => exact ih _
    · rfl

/-! ### The two searches -/

section Search
variable {slots : List Bool} {sz alignment : Nat}
variable {start rounds : Nat}

theorem window_of_find_none (hstart : start % alignment = 0)
    (hfind : (List.range' start sz).find? (fun j => !slots.getD j false) = none) :
    Window slots sz alignment start := by
  refine ⟨Nat.dvd_of_mod_eq_zero hstart, fun j hle hlt => ?_⟩
  have hfree := find?_eq_none.mp hfind j (mem_range'_1.mpr ⟨hle, hlt⟩)
  exact getElem?_of_getD (by simpa using hfree)

/-- The loop ends, with the least window, if it has passed none and has a round for each slot ahead. -/
theorem contigRounds_finds (hsz : 1 ≤ sz) (hal : 0 < alignment) (hrounds : slots.length - start < rounds)
    (hpassed : ∀ i < start, ¬Window slots sz alignment i) :
    ∃ found, contigRounds slots sz alignment rounds start = some found ∧
      FindsLeast (Window slots sz alignment) found := by
  induction rounds generalizing start with
  | zero => exact absurd hrounds (Nat.not_lt_zero _)
  | succ rounds ih =>
    rw [contigRounds]
    by_cases hend : start + sz ≤ slots.length
    · rw [if_pos hend]
      by_cases hstart : start % alignment = 0
      · rw [if_neg (not_not_intro hstart)]
        cases hfind : (List.range' start sz).find? fun j => !slots.getD j false with
        | none => exact ⟨some start, rfl, .here (window_of_find_none hstart hfind) hpassed⟩
        | some j =>
          obtain ⟨hle, hlt⟩ := mem_range'_1.mp (mem_of_find?_eq_some hfind)
          have hused : slots[j]? ≠ some true := by
            intro hj
            have hfree := find?_some hfind
            rw [getD_eq_getElem?_getD, hj] at hfree
            cases hfree
          refine ih (by omega) fun i hi hwindow => ?_
          by_cases hpast : i < start
          · exact hpassed i hpast hwindow
          · have := hwindow.past_used hused (Nat.le_of_not_lt hpast) hlt
            omega
      · rw [if_pos hstart]
        have hgrows : start < (start + alignment) / alignment * alignment := by
          rw [Nat.add_div_right start hal, Nat.mul_comm]
          exact Nat.lt_mul_div_succ start hal
        refine ih (by omega) fun i hi hwindow => ?_
        by_cases hpast : i < start
        · exact hpassed i hpast hwindow
        · have := hwindow.next_multiple_le hal hstart (Nat.le_of_not_lt hpast)
          omega
    · rw [if_neg hend]
      refine ⟨none, rfl, .nowhere fun i hwindow => ?_⟩
      have hlast := hwindow.le_length hsz
      exact hpassed i (by omega) hwindow

theorem freeRun_of_window {i : Nat} (h : Window slots sz alignment i) : freeRun slots i sz = true := by
  refine List.all_eq_true.mpr fun j hj => ?_
  obtain ⟨hle, hlt⟩ := mem_range'_1.mp hj
  rw [getD_eq_getElem?_getD, h.free j hle hlt]
  rfl

/-- Trying the places in order, when no window starts anywhere else. -/
theorem contigLoop_finds (hsz : 1 ≤ sz) {starts : List Nat} (hsorted : starts.Pairwise (· < ·))
    (haligned : ∀ start ∈ starts, alignment ∣ start) (hall : ∀ i, Window slots sz alignment i → i ∈ starts) :
    FindsLeast (Window slots sz alignment) (contigLoop slots sz starts) := by
  induction starts with
  | nil => exact .nowhere fun i hwindow => absurd (hall i hwindow) not_mem_nil
  | cons start rest ih =>
    obtain ⟨hfirst, hrest⟩ := pairwise_cons.mp hsorted
    have hle (i : Nat) (hwindow : Window slots sz alignment i) : start ≤ i := by
      rcases mem_cons.mp (hall i hwindow) with heq | hi
      · exact heq.ge
      · exact (hfirst i hi).le
    rw [contigLoop]
    by_cases hend : slots.length < start + sz
    · rw [if_pos hend]
      refine .nowhere fun i hwindow => ?_
      have hlast := hwindow.le_length hsz
      have := hle i hwindow
      omega
    rw [if_neg hend]
    by_cases hfree : freeRun slots start sz = true
    · rw [if_pos hfree]
      refine .here ⟨haligned start mem_cons_self, fun j hj hlt => ?_⟩ fun i hi hwindow => ?_
      · exact freeRun_free hfree j (mem_range'_1.mpr ⟨hj, hlt⟩)
      · exact absurd (hle i hwindow) (Nat.not_le_of_lt hi)
    · rw [if_neg hfree]
      refine ih hrest (fun i hi => haligned i (mem_cons_of_mem start hi)) fun i hwindow => ?_
      rcases mem_cons.mp (hall i hwindow) with heq | hi
      · subst heq
        exact absurd (freeRun_of_window hwindow) hfree
      · exact hi

end Search

/-! ### The two allocators -/

/-- The pool after a window of `sz` frames was taken, if one was found. -/
def FramePool.less (pool : FramePool) (found : Option Nat) (sz : Nat) : FramePool :=
  found.elim pool fun start => pool.takeRun start sz

/-- The frames of the window. -/
def windowFrames (found : Option Nat) (sz : Nat) : List Nat := found.toList.flatMap fun start => List.range' start sz

variable {pool : FramePool} {sz align alignment pa n : Nat} {found : Option Nat}

theorem less_gives (h : FindsLeast (Window pool.slots sz alignment) found) :
    pool.Gives (pool.less found sz) (windowFrames found sz) := by
  cases hfound : found with
  | none => exact .nothing pool
  | some start =>
    have hwindow := ((h start).mp hfound).1
    rw [windowFrames, toList_some, flatMap_singleton]
    refine .run fun i hi => ?_
    obtain ⟨hle, hlt⟩ := mem_range'_1.mp hi
    exact hwindow.free i hle hlt

theorem getContig_finds (pool : FramePool) (hsz : 1 ≤ sz) (halign : align < 64) :
    ∃ found, FindsLeast (Window pool.slots sz (2 ^ align)) found ∧
      pool.getContig sz align = (.ok found, pool.less found sz) := by
  refine ⟨contigLoop pool.slots sz ((List.range pool.slots.length).filter fun start => start % 2 ^ align = 0),
    contigLoop_finds hsz (pairwise_lt_range.filter _) (fun start hstart => ?_) (fun i hwindow => ?_), ?_⟩
  · exact Nat.dvd_of_mod_eq_zero (of_decide_eq_true (mem_filter.mp hstart).2)
  · have hlast := hwindow.le_length hsz
    exact mem_filter.mpr ⟨mem_range.mpr (by omega),
      decide_eq_true (Nat.mod_eq_zero_of_dvd hwindow.aligned)⟩
  · rw [getContig, if_neg (Nat.not_le_of_lt halign)]
    dsimp only
    split
    · next hnone => rw [hnone]; rfl
    · next start hsome => rw [hsome]; rfl

/-- The address is computed after the frames are marked. -/
theorem frameAllocContig_finds (pool : FramePool) (hsz : 1 ≤ sz) (halign : align < 64) :
    ∃ found, FindsLeast (Window pool.slots sz (2 ^ align)) found ∧
      contigRounds pool.slots sz (2 ^ align) (pool.slots.length + 1) 0 = some found ∧
      frameAllocContig pool sz align =
        (found.elim (.ok none) fun start => (physAddr start).map some, pool.less found sz) := by
  have hrounds : pool.slots.length - 0 < pool.slots.length + 1 := Nat.lt_succ_self _
  obtain ⟨found, hrounds, hfinds⟩ := contigRounds_finds hsz (Nat.two_pow_pos align) hrounds
    fun i hi => absurd hi (Nat.not_lt_zero i)
  refine ⟨found, hfinds, hrounds, ?_⟩
  have hloop := allocContigLoop_eq_rounds pool.slots sz (2 ^ align) (pool.slots.length + 1) 0
  rw [hrounds, join_some] at hloop
  rw [frameAllocContig, if_neg (Nat.ne_of_gt hsz), if_neg (Nat.not_le_of_lt halign), hloop]
  cases found with
  | none => rfl
  | some start =>
    have hless : pool.less (some start) sz = pool.takeRun start sz := rfl
    rw [hless, elim_some]

/-- What both calls do when they agree: they find the least window, mark its frames and no others, and tell where it
is, the one by its number and the other by its address. -/
structure TakesWindow (pool : FramePool) (sz align : Nat) (found : Option Nat) : Prop where
  least : FindsLeast (Window pool.slots sz (2 ^ align)) found
  getContig : pool.getContig sz align = (.ok found, pool.less found sz)
  frameAllocContig : frameAllocContig pool sz align =
    (.ok (found.map fun start => start * pageSz + memOff), pool.less found sz)
  gives : pool.Gives (pool.less found sz) (windowFrames found sz)
  ends : ∃ rounds, contigRounds pool.slots sz (2 ^ align) rounds 0 = some found

/-- Where there is a window, there is one whose address is a word. -/
def Addressable (slots : List Bool) (sz alignment : Nat) : Prop :=
  ∀ i, Window slots sz alignment i → ∃ start, Window slots sz alignment start ∧ start * pageSz + memOff < wordSize

theorem physAddr_eq_ok {i : Nat} :
    physAddr i = .ok pa ↔ i * pageSz + memOff < wordSize ∧ pa = i * pageSz + memOff := by
  unfold physAddr
  split
  · next hlt => rw [Except.ok.injEq, and_iff_right hlt, eq_comm]
  · next hge => exact iff_of_false (fun h => by cases h) fun h => hge h.1

theorem map_some_eq_ok {ε α : Type} {x : Except ε α} {a : α} : x.map some = .ok (some a) ↔ x = .ok a := by
  cases x with
  | error e => exact iff_of_false (fun h => by cases h) fun h => by cases h
  | ok b =>
    show Except.ok (some b) = .ok (some a) ↔ _
    rw [Except.ok.injEq, Except.ok.injEq, some_inj]

theorem TakesWindow.addressable (h : TakesWindow pool sz align found) (hsz : 1 ≤ sz) (halign : align < 64) :
    Addressable pool.slots sz (2 ^ align) := by
  intro i hi
  cases hfound : found with
  | none => exact absurd hi (h.least.none_iff.mp hfound i)
  | some start =>
    obtain ⟨found', hfinds, _, halloc⟩ := frameAllocContig_finds pool hsz halign
    rw [hfinds.unique h.least, h.frameAllocContig, hfound, elim_some, map_some] at halloc
    have hok := map_some_eq_ok.mp (Prod.mk.inj halloc).1.symm
    exact ⟨start, ((h.least start).mp hfound).1, (physAddr_eq_ok.mp hok).1⟩

theorem Addressable.takesWindow (h : Addressable pool.slots sz (2 ^ align)) (hsz : 1 ≤ sz) (halign : align < 64) :
    ∃ found, TakesWindow pool sz align found := by
  obtain ⟨found, hfinds, hget⟩ := getContig_finds pool hsz halign
  obtain ⟨found', hfinds', hrounds, halloc⟩ := frameAllocContig_finds pool hsz halign
  obtain rfl := hfinds.unique hfinds'
  refine ⟨found, hfinds, hget, ?_, less_gives hfinds, _, hrounds⟩
  rw [halloc]
  cases hfound : found with
  | none => rfl
  | some start =>
    obtain ⟨hwindow, hleast⟩ := (hfinds start).mp hfound
    obtain ⟨other, hother, hword⟩ := h start hwindow
    have hle : start ≤ other := hleast hother
    have hlt : start * pageSz + memOff < wordSize :=
      Nat.lt_of_le_of_lt (Nat.add_le_add_right (Nat.mul_le_mul_right pageSz hle) memOff) hword
    rw [elim_some, map_some, map_some_eq_ok.mpr (physAddr_eq_ok.mpr ⟨hlt, rfl⟩)]

/-- Every frame of a pool of this size has an address. -/
theorem addressable_of_length (hpool : pool.slots.length ≤ 2 ^ 52 - 2 ^ 19) (hsz : 1 ≤ sz) :
    Addressable pool.slots sz (2 ^ align) := by
  intro i hi
  have hlast : i + sz ≤ pool.slots.length := hi.le_length hsz
  refine ⟨i, hi, ?_⟩
  simp only [pageSz, memOff, wordSize]
  omega

/-- **Both allocators take the least window and agree on it in every pool whose frames have addresses, and
in any pool exactly when the address of the window is a word.** -/
theorem contiguous_iff (pool : FramePool) {sz align : Nat} (hsz : 1 ≤ sz) (halign : align < 64) :
    (pool.slots.length ≤ 2 ^ 52 - 2 ^ 19 → ∃ found, TakesWindow pool sz align found) ∧
      ((∃ found, TakesWindow pool sz align found) ↔ Addressable pool.slots sz (2 ^ align)) := by
  refine ⟨fun hpool => (addressable_of_length hpool hsz).takesWindow hsz halign, fun h => ?_,
    fun h => h.takesWindow hsz halign⟩
  obtain ⟨found, hfound⟩ := h
  exact hfound.addressable hsz halign

/-- Two frames at an even place of six: the pair that starts at frame 1 is passed over. -/
theorem contiguous_six : ∃ found, TakesWindow ⟨[false, true, true, true, true, false], 6, ∅⟩ 2 1 found :=
  (contiguous_iff ⟨[false, true, true, true, true, false], 6, ∅⟩ (by decide) (by decide)).1 (by decide)

end ChaosKernel.Memory
