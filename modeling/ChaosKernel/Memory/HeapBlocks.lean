import ChaosKernel.Memory.FrameGives

/-! The blocks of the heap.

`heap_grow` takes pages one by one, each from the place after the last block on and going
round, and joins a page to the last block where the two touch. Counted in frames, the
blocks are runs of the pool, and a page that joins them adds its frame and nothing else
(`addPage_small`). So what the blocks cover is what the pool lost (`heapGrow_accounts`). -/
namespace ChaosKernel.Memory
open Base FramePool List

/-! ### The heap's blocks -/

/-- Frames `[lo, lo + count)` as a block of the direct map. -/
def directBlock (lo count : Nat) : Nat × Nat := (physOff + lo * pageSz, count * pageSz)

/-- Every block is a run of frames of a pool of `len` frames. -/
def InPool (len : Nat) (blocks : List (Nat × Nat)) : Prop :=
  ∀ block ∈ blocks, ∃ lo count, block = directBlock lo count ∧ lo + count ≤ len

theorem blockFrames_cons (lo count : Nat) (blocks : List (Nat × Nat)) :
    blockFrames (directBlock lo count :: blocks) = List.range' lo count ++ blockFrames blocks := by
  have hlo : (physOff + lo * pageSz - physOff) / pageSz = lo := by
    rw [Nat.add_sub_cancel_left, Nat.mul_div_cancel _ (by decide)]
  have hcount : count * pageSz / pageSz = count := Nat.mul_div_cancel _ (by decide)
  simp only [blockFrames, flatMap_cons, directBlock, hlo, hcount]

theorem direct_lt {k : Nat} : physOff + k * pageSz < wordSize ↔ k < 2 ^ 20 := by
  rw [wordSize_eq, Nat.add_lt_add_iff_left, Nat.mul_lt_mul_right (by decide)]

theorem direct_inj {j k : Nat} : physOff + j * pageSz = physOff + k * pageSz ↔ j = k := by
  rw [Nat.add_left_cancel_iff, Nat.mul_left_inj (by decide)]

theorem direct_add (lo count : Nat) :
    physOff + lo * pageSz + count * pageSz = physOff + (lo + count) * pageSz := by
  rw [Nat.add_assoc, ← Nat.add_mul]

/-- `addPage` in frame numbers: where it panics, and which of the three ways it takes. -/
theorem addPage_cons (lo count pg : Nat) (rest : List (Nat × Nat)) :
    addPage (directBlock lo count :: rest) pg =
      if 2 ^ 20 ≤ pg ∨ 2 ^ 20 ≤ lo + count then .error .panic
      else if lo + count = pg then .ok (directBlock lo (count + 1) :: rest)
      else if 2 ^ 20 ≤ pg + 1 then .error .panic
      else if pg + 1 = lo then .ok (directBlock pg (count + 1) :: rest)
      else .ok (directBlock pg 1 :: directBlock lo count :: rest) := by
  have hone : ∀ k, physOff + k * pageSz + pageSz = physOff + (k + 1) * pageSz := by
    intro k
    rw [← direct_add k 1, Nat.one_mul]
  unfold addPage directBlock
  by_cases hpg : pg < 2 ^ 20
  · rw [add?_of_lt (direct_lt.mpr hpg)]
    by_cases hend : lo + count < 2 ^ 20
    · rw [if_neg (by omega)]
      simp only
      rw [add?_of_lt (by rw [direct_add]; exact direct_lt.mpr hend)]
      simp only [direct_add, direct_inj]
      by_cases hafter : lo + count = pg
      · rw [if_pos hafter, if_pos hafter, Nat.succ_mul]
      · rw [if_neg hafter, if_neg hafter]
        by_cases hva : pg + 1 < 2 ^ 20
        · rw [add?_of_lt (by rw [hone]; exact direct_lt.mpr hva), if_neg (by omega)]
          simp only [hone, direct_inj]
          simp only [Nat.add_mul, Nat.one_mul]
        · rw [add?_of_ge (by rw [hone]; exact Nat.le_of_not_lt (mt direct_lt.mp hva)),
            if_pos (by omega)]
    · rw [if_pos (by omega)]
      simp only
      rw [add?_of_ge (by rw [direct_add]; exact Nat.le_of_not_lt (mt direct_lt.mp hend))]
  · rw [add?_of_ge (Nat.le_of_not_lt (mt direct_lt.mp hpg)), if_pos (by omega)]

variable {pg len start attempts wanted lo count a n : Nat} {blocks ranges blocks' : List (Nat × Nat)} {pool pool' : FramePool}

theorem addPage_nil (hpg : pg < 2 ^ 20) : addPage [] pg = .ok [directBlock pg 1] := by
  unfold addPage directBlock
  rw [add?_of_lt (direct_lt.mpr hpg), Nat.one_mul]

theorem addPage_small (hsmall : len < 2 ^ 20) (hpg : pg < len) (hin : InPool len blocks) :
    ∃ blocks', addPage blocks pg = .ok blocks' ∧ InPool len blocks' ∧
      (blockFrames blocks').Perm (pg :: blockFrames blocks) := by
  have hpush : InPool len (directBlock pg 1 :: blocks) :=
    forall_mem_cons.mpr ⟨⟨pg, 1, rfl, hpg⟩, hin⟩
  cases blocks with
  | nil =>
    refine ⟨[directBlock pg 1], addPage_nil (by omega), hpush, ?_⟩
    rw [blockFrames_cons]
    exact .refl _
  | cons last rest =>
    obtain ⟨⟨lo, count, rfl, hle⟩, hrest⟩ := forall_mem_cons.mp hin
    rw [addPage_cons, if_neg (by omega)]
    by_cases hafter : lo + count = pg
    · subst hafter
      rw [if_pos rfl]
      refine ⟨_, rfl, forall_mem_cons.mpr ⟨⟨lo, count + 1, rfl, by omega⟩, hrest⟩, ?_⟩
      rw [blockFrames_cons, blockFrames_cons, range'_concat, Nat.one_mul, append_assoc]
      exact perm_middle
    rw [if_neg hafter, if_neg (by omega)]
    by_cases hbefore : pg + 1 = lo
    · subst hbefore
      rw [if_pos rfl]
      refine ⟨_, rfl, forall_mem_cons.mpr ⟨⟨pg, count + 1, rfl, by omega⟩, hrest⟩, ?_⟩
      rw [blockFrames_cons, blockFrames_cons, range'_succ]
      exact .refl _
    · rw [if_neg hbefore]
      refine ⟨_, rfl, hpush, ?_⟩
      rw [blockFrames_cons]
      exact .refl _

/-- No block is empty. -/
def NonemptyBlocks (blocks : List (Nat × Nat)) : Prop := ∀ block ∈ blocks, 0 < block.2

theorem addPage_filled (h : addPage blocks pg = .ok blocks') (hfilled : NonemptyBlocks blocks) :
    NonemptyBlocks blocks' := by
  have hpage : 0 < pageSz := by decide
  unfold addPage at h
  split at h
  · cases h
  split at h
  · cases h
    exact forall_mem_cons.mpr ⟨hpage, fun block hb => absurd hb not_mem_nil⟩
  · obtain ⟨hlast, hrest⟩ := forall_mem_cons.mp hfilled
    split at h
    · cases h
    split at h
    · cases h
      exact forall_mem_cons.mpr ⟨Nat.add_pos_right _ hpage, hrest⟩
    split at h
    · cases h
    split at h
    · cases h
      exact forall_mem_cons.mpr ⟨Nat.add_pos_right _ hpage, hrest⟩
    · cases h
      exact forall_mem_cons.mpr ⟨hpage, hfilled⟩

/-! ### The loop -/

/-- The blocks grew by the frames `taken`, which the pool lost. -/
structure Grows (pool : FramePool) (blocks : List (Nat × Nat)) (taken : List Nat) (blocks' : List (Nat × Nat))
    (pool' : FramePool) : Prop where
  gives : pool.Gives pool' taken
  frames : (blockFrames blocks').Perm (taken ++ blockFrames blocks)
  inPool : InPool pool.slots.length blocks'
  filled : NonemptyBlocks blocks'

theorem takeFrom_none (h : (pool.takeFrom start).1 = none) : pool.freeCount = 0 := by
  refine countP_eq_zero.mpr fun f hf hfree => ?_
  obtain ⟨i, hi⟩ := mem_iff_getElem?.mp hf
  obtain ⟨j, hj⟩ := Option.isSome_iff_exists.mp (scanFrom_isSome (hi.trans (congrArg some hfree)) start)
  unfold takeFrom at h
  rw [hj] at h
  cases h

/-- More attempts than pages change nothing, since every attempt but the last takes a page. -/
theorem heapLoop_attempts (h : wanted ≤ attempts) (blocks : List (Nat × Nat)) (pool : FramePool) :
    heapLoop attempts wanted blocks pool = heapLoop wanted wanted blocks pool := by
  induction wanted generalizing attempts blocks pool with
  | zero => cases attempts <;> rfl
  | succ wanted ih =>
    obtain ⟨attempts, rfl⟩ := Nat.exists_eq_add_of_le' (Nat.le_trans (Nat.le_add_left 1 wanted) h)
    rw [heapLoop, heapLoop, if_neg (Nat.succ_ne_zero wanted), if_neg (Nat.succ_ne_zero wanted)]
    split
    · rfl
    · rfl
    · exact ih (Nat.le_of_succ_le_succ h) _ _

section Small
variable {pool : FramePool} (hsmall : pool.slots.length < 2 ^ 20)
include hsmall

theorem heapLoop_grows (attempts wanted : Nat) (hin : InPool pool.slots.length blocks)
    (hfilled : NonemptyBlocks blocks) :
    ∃ blocks' pool' taken, heapLoop attempts wanted blocks pool = (.ok blocks', pool') ∧
      Grows pool blocks taken blocks' pool' ∧ taken.length = min (min attempts wanted) pool.freeCount := by
  induction attempts generalizing wanted blocks pool with
  | zero => exact ⟨blocks, pool, [], rfl, ⟨.nothing pool, .refl _, hin, hfilled⟩, by simp⟩
  | succ attempts ih =>
    rw [heapLoop]
    by_cases hwanted : wanted = 0
    · rw [if_pos hwanted]
      exact ⟨blocks, pool, [], rfl, ⟨.nothing pool, .refl _, hin, hfilled⟩, by simp [hwanted]⟩
    rw [if_neg hwanted]
    have hgives := takeFrom_gives pool (preferredStart blocks)
    rcases htake : pool.takeFrom (preferredStart blocks) with ⟨_ | pg, pool'⟩
    · have hnone : (pool.takeFrom (preferredStart blocks)).1 = none := by rw [htake]
      rw [htake] at hgives
      simp only [heapPage, htake]
      refine ⟨blocks, pool', [], rfl, ⟨hgives, .refl _, hin, hfilled⟩, ?_⟩
      rw [takeFrom_none hnone, Nat.min_zero, length_nil]
    · rw [htake] at hgives
      have hpg : pg < pool.slots.length :=
        (List.getElem?_eq_some_iff.mp (hgives.takes.free pg mem_cons_self)).1
      obtain ⟨blocks', hadd, hin', hperm⟩ := addPage_small hsmall hpg hin
      have hlen : pool'.slots.length = pool.slots.length := hgives.length
      have hsmall' : pool'.slots.length < 2 ^ 20 := by
        rw [hlen]
        exact hsmall
      rw [← hlen] at hin'
      obtain ⟨blocks'', pool'', taken, hloop, hrest, hcount⟩ :=
        ih hsmall' (wanted - 1) hin' (addPage_filled hadd hfilled)
      simp only [heapPage, htake, hadd, Except.map, hloop]
      refine ⟨blocks'', pool'', pg :: taken, rfl, ⟨hgives.trans hrest.gives, ?_, ?_, hrest.filled⟩, ?_⟩
      · exact hrest.frames.trans ((hperm.append_left taken).trans perm_middle)
      · rw [← hlen]
        exact hrest.inPool
      · have hfree : pool'.freeCount + 1 = pool.freeCount := hgives.takes.count
        rw [length_cons, hcount]
        omega

/-- `heap_grow` in one piece: the blocks it returns, last one last, and the frames it took. -/
theorem heapGrow_grows {n : Nat} (hn : n * 2 < wordSize) :
    ∃ ranges pool' taken, heapGrow pool n = (.ok ranges, pool') ∧ Grows pool [] taken ranges pool' ∧
      taken.length = min n pool.freeCount := by
  have hnil : InPool pool.slots.length [] := fun block hb => absurd hb not_mem_nil
  obtain ⟨blocks, pool', taken, hloop, hgrows, hcount⟩ :=
    heapLoop_grows hsmall (n * 2) n hnil fun block hb => absurd hb not_mem_nil
  have hrev : (blockFrames blocks.reverse).Perm (blockFrames blocks) := (reverse_perm blocks).flatMap_right _
  refine ⟨blocks.reverse, pool', taken, ?_, ⟨hgrows.gives, hrev.trans hgrows.frames, ?_, ?_⟩, ?_⟩
  · unfold heapGrow
    rw [if_neg (Nat.not_le_of_lt hn), hloop]
    rfl
  · exact fun block hb => hgrows.inPool block (mem_reverse.mp hb)
  · exact fun block hb => hgrows.filled block (mem_reverse.mp hb)
  · rw [hcount]
    omega

theorem heapGrow_gives (n : Nat) :
    pool.Gives (heapGrow pool n).2 (handed blockFrames (heapGrow pool n).1) := by
  by_cases hmax : wordSize ≤ n * 2
  · unfold heapGrow
    rw [if_pos hmax]
    exact .nothing pool
  · obtain ⟨ranges, pool', taken, hgrow, hgrows, _⟩ := heapGrow_grows hsmall (Nat.lt_of_not_le hmax)
    rw [hgrow]
    have hframes := hgrows.frames
    rw [show blockFrames [] = [] from rfl, append_nil] at hframes
    exact ⟨hgrows.gives.takes.perm hframes, hgrows.gives.cap⟩

end Small

/-! ### Addresses -/

/-- The addresses of a range. -/
def span (range : Nat × Nat) : Set Nat := Set.Ico range.1 (range.1 + range.2)

theorem mem_span_direct :
    a ∈ span (directBlock lo count) ↔ physOff ≤ a ∧ (a - physOff) / pageSz ∈ List.range' lo count := by
  have hpage : 0 < pageSz := by decide
  rw [span, directBlock, direct_add, Set.mem_Ico, mem_range'_1, Nat.le_div_iff_mul_le hpage,
    Nat.div_lt_iff_lt_mul hpage]
  omega

theorem pageSz_dvd_physOff : pageSz ∣ physOff := by
  unfold physOff
  decide

theorem mem_span_iff (hin : InPool len ranges) (a : Nat) :
    (∃ range ∈ ranges, a ∈ span range) ↔ physOff ≤ a ∧ (a - physOff) / pageSz ∈ blockFrames ranges := by
  induction ranges with
  | nil => exact iff_of_false (fun h => by obtain ⟨_, hr, _⟩ := h; cases hr) fun h => by cases h.2
  | cons range rest ih =>
    obtain ⟨⟨lo, count, rfl, _⟩, hrest⟩ := forall_mem_cons.mp hin
    rw [exists_mem_cons_iff, ih hrest, blockFrames_cons, mem_append, mem_span_direct, ← and_or_left]

theorem span_disjoint (hin : InPool len ranges) (hnodup : (blockFrames ranges).Nodup) :
    ranges.Pairwise fun r s => Disjoint (span r) (span s) := by
  induction ranges with
  | nil => exact .nil
  | cons range rest ih =>
    obtain ⟨⟨lo, count, rfl, _⟩, hrest⟩ := forall_mem_cons.mp hin
    rw [blockFrames_cons, nodup_append] at hnodup
    obtain ⟨_, hnodup', hdisjoint⟩ := hnodup
    refine pairwise_cons.mpr ⟨fun other hother => Set.disjoint_left.mpr fun a ha ha' => ?_, ih hrest hnodup'⟩
    have hframe := ((mem_span_iff hrest a).mp ⟨other, hother, ha'⟩).2
    exact hdisjoint _ (mem_span_direct.mp ha).2 _ hframe rfl

theorem sizes_eq (hin : InPool len ranges) :
    (ranges.map Prod.snd).sum = (blockFrames ranges).length * pageSz := by
  induction ranges with
  | nil => rfl
  | cons range rest ih =>
    obtain ⟨⟨lo, count, rfl, _⟩, hrest⟩ := forall_mem_cons.mp hin
    rw [map_cons, sum_cons, ih hrest, blockFrames_cons, length_append, length_range', Nat.add_mul]
    rfl

/-- The ranges account for every page that the pool lost. -/
structure Accounts (pool : FramePool) (n : Nat) (ranges : List (Nat × Nat)) (pool' : FramePool) : Prop where
  filled : ∀ range ∈ ranges, 0 < range.2
  aligned : ∀ range ∈ ranges, pageSz ∣ range.1 ∧ pageSz ∣ range.2
  disjoint : ranges.Pairwise fun r s => Disjoint (span r) (span s)
  total : (ranges.map Prod.snd).sum = min n pool.freeCount * pageSz
  cover : ∀ a, (∃ range ∈ ranges, a ∈ span range) ↔
    ∃ i, pool.slots[i]? = some true ∧ pool'.slots[i]? = some false ∧ a ∈ span (physOff + i * pageSz, pageSz)
  kept : ∀ i : Nat, pool'.slots[i]? ≠ pool.slots[i]? → pool.slots[i]? = some true ∧ pool'.slots[i]? = some false

theorem Grows.accounts {taken : List Nat} (h : Grows pool [] taken ranges pool')
    (hcount : taken.length = min n pool.freeCount) : Accounts pool n ranges pool' := by
  have htakes := h.gives.takes
  have hframes : (blockFrames ranges).Perm taken := by
    have hperm := h.frames
    rwa [show blockFrames [] = [] from rfl, append_nil] at hperm
  refine ⟨h.filled, fun range hrange => ?_, span_disjoint h.inPool (hframes.nodup_iff.mpr htakes.nodup), ?_,
    fun a => ?_, fun i hi => ?_⟩
  · obtain ⟨lo, count, rfl, _⟩ := h.inPool range hrange
    exact ⟨Nat.dvd_add pageSz_dvd_physOff (Nat.dvd_mul_left _ _), Nat.dvd_mul_left _ _⟩
  · rw [sizes_eq h.inPool, hframes.length_eq, hcount]
  · have hpage (i : Nat) : span (physOff + i * pageSz, pageSz) = span (directBlock i 1) := by
      rw [directBlock, Nat.one_mul]
    simp only [mem_span_iff h.inPool, hframes.mem_iff, htakes.mem_iff, hpage, mem_span_direct, range'_one,
      mem_singleton]
    constructor
    · intro hframe
      exact ⟨_, hframe.2.1, hframe.2.2, hframe.1, rfl⟩
    · intro hframe
      obtain ⟨i, hfree, hused, hle, rfl⟩ := hframe
      exact ⟨hle, hfree, hused⟩
  · refine htakes.mem_iff.mp (by_contra fun hnot => hi ?_)
    rw [htakes.marks i, if_neg hnot]

/-- **In a small pool `heap_grow` accounts for every page, and its attempts never run out.** -/
theorem heapGrow_accounts {pool : FramePool} {n : Nat} (hsmall : pool.slots.length < 2 ^ 20) (hn : n < 2 ^ 32) :
    ∃ ranges pool', heapGrow pool n = (.ok ranges, pool') ∧ Accounts pool n ranges pool' ∧
      ∀ attempts, n * 2 ≤ attempts → heapLoop attempts n [] pool = heapLoop (n * 2) n [] pool := by
  have hword : n * 2 < wordSize := by
    simp only [wordSize]
    omega
  obtain ⟨ranges, pool', taken, hgrow, hgrows, hcount⟩ := heapGrow_grows hsmall hword
  refine ⟨ranges, pool', hgrow, hgrows.accounts hcount, fun attempts hle => ?_⟩
  rw [heapLoop_attempts (show n ≤ attempts by omega), heapLoop_attempts (show n ≤ n * 2 by omega)]

/-- Three pages from five frames of which two are used; the last two pages are one range. -/
theorem heapGrow_accounts_five : ∃ ranges pool',
    heapGrow ⟨[true, false, true, true, false], 5, ∅⟩ 3 = (.ok ranges, pool') ∧
      Accounts ⟨[true, false, true, true, false], 5, ∅⟩ 3 ranges pool' ∧
      ∀ attempts, 3 * 2 ≤ attempts → heapLoop attempts 3 [] ⟨[true, false, true, true, false], 5, ∅⟩ =
        heapLoop (3 * 2) 3 [] ⟨[true, false, true, true, false], 5, ∅⟩ :=
  heapGrow_accounts (by decide) (by decide)

end ChaosKernel.Memory
