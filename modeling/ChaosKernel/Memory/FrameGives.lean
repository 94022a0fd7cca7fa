import ChaosKernel.Memory.FrameAlloc

/-! What the allocations take.

Each path takes only free slots of the pool and hands out what it takes
(`FramePool.Gives`), as long as the addresses it computes are words. The direct map
begins `2^32` bytes below the end of the address space, so they are words in a pool of
fewer than `2^20` frames. -/
namespace ChaosKernel.Memory
open Base List

/-- The frame at a physical address. -/
def frameOf (pa : Nat) : Nat := (pa - memOff) / pageSz

/-- The frames of the blocks `heapGrow` returns. -/
def blockFrames (blocks : List (Nat × Nat)) : List Nat :=
  blocks.flatMap fun block => List.range' ((block.1 - physOff) / pageSz) (block.2 / pageSz)

/-- A call that stops short hands out nothing. -/
def handed {α : Type} (frames : α → List Nat) : Except (Stop Errno) α → List Nat
  | .ok a => frames a
  | .error _ => []

/-- The pool has lost exactly the free frames `taken`. -/
structure FramePool.Gives (pool pool' : FramePool) (taken : List Nat) : Prop where
  takes : Takes pool.slots pool'.slots taken
  cap : pool'.cap = pool.cap

namespace FramePool.Gives
variable {pool pool' pool'' : FramePool} {taken taken' : List Nat}

theorem nothing (pool : FramePool) : pool.Gives pool [] := ⟨.nothing _, rfl⟩

variable {i start sz : Nat}

theorem one (hi : pool.slots[i]? = some true) : pool.Gives (pool.take i) [i] :=
  ⟨.one hi, rfl⟩

theorem trans (h : pool.Gives pool' taken) (h' : pool'.Gives pool'' taken') :
    pool.Gives pool'' (taken ++ taken') :=
  ⟨h.takes.trans h'.takes, h'.cap.trans h.cap⟩

theorem run (hfree : ∀ i ∈ List.range' start sz, pool.slots[i]? = some true) :
    pool.Gives (pool.takeRun start sz) (List.range' start sz) :=
  ⟨.each nodup_range' hfree, rfl⟩

theorem length (h : pool.Gives pool' taken) : pool'.slots.length = pool.slots.length :=
  h.takes.length

end FramePool.Gives

open FramePool

theorem frameOf_phys (i : Nat) : frameOf (i * pageSz + memOff) = i := by
  rw [frameOf, Nat.add_sub_cancel, Nat.mul_div_cancel _ (by decide)]

variable (pool : FramePool) {slots : List Bool} {start sz : Nat}

theorem getInner_gives : pool.Gives pool.getInner.2 pool.getInner.1.toList := by
  rcases pool.getInner_cases with ⟨heq, _⟩ | ⟨i, hi, heq⟩
  · rw [heq]
    exact .nothing pool
  · rw [heq]
    exact .one hi

theorem takeFrom_gives (start : Nat) :
    pool.Gives (pool.takeFrom start).2 (pool.takeFrom start).1.toList := by
  unfold takeFrom
  cases hscan : scanFrom pool.slots start with
  | none => exact .nothing pool
  | some i => exact .one (scanFrom_free hscan)

theorem freeRun_free (h : freeRun slots start sz = true) :
    ∀ i ∈ List.range' start sz, slots[i]? = some true := by
  intro i hi
  exact getElem?_of_getD (List.all_eq_true.mp h i hi)

theorem contigLoop_free {starts : List Nat} (h : contigLoop slots sz starts = some start) :
    freeRun slots start sz = true := by
  induction starts with
  | nil => cases h
  | cons x rest ih =>
    simp only [contigLoop] at h
    split at h
    · cases h
    split at h
    · rename_i hfree
      rw [← Option.some.inj h]
      exact hfree
    · exact ih h

theorem getContig_gives (sz alignLog2 : Nat) :
    pool.Gives (pool.getContig sz alignLog2).2
      (handed (fun found => found.toList.flatMap fun start => List.range' start sz)
        (pool.getContig sz alignLog2).1) := by
  unfold getContig
  by_cases halign : 64 ≤ alignLog2
  · rw [if_pos halign]
    exact .nothing pool
  · rw [if_neg halign]
    simp only
    cases hloop : contigLoop pool.slots sz
        ((List.range pool.slots.length).filter fun start => start % 2 ^ alignLog2 = 0) with
    | none => exact .nothing pool
    | some start =>
      show pool.Gives (pool.takeRun start sz) (List.range' start sz ++ [])
      rw [append_nil]
      exact .run (freeRun_free (contigLoop_free hloop))

theorem batchLoop_takes (i count : Nat) (slots : List Bool) :
    ∃ taken, (batchLoop i count slots).1 = taken.map (· + i) ∧
      Takes slots (batchLoop i count slots).2 taken := by
  induction slots generalizing i count with
  | nil => exact ⟨[], rfl, .nothing []⟩
  | cons f rest ih =>
    have hshift : ∀ taken : List Nat, taken.map (· + (i + 1)) = (taken.map (· + 1)).map (· + i) := by
      intro taken
      rw [map_map]
      exact map_congr_left fun j _ => by simp only [Function.comp_apply]; omega
    rw [batchLoop]
    by_cases hcount : count = 0
    · rw [if_pos hcount]
      exact ⟨[], rfl, .nothing _⟩
    rw [if_neg hcount]
    cases f with
    | true =>
      obtain ⟨taken, hres, htakes⟩ := ih (i + 1) (count - 1)
      refine ⟨0 :: taken.map (· + 1), ?_, htakes.front⟩
      simp only [if_true, hres, hshift, map_cons, Nat.zero_add]
    | false =>
      obtain ⟨taken, hres, htakes⟩ := ih (i + 1) count
      refine ⟨taken.map (· + 1), ?_, htakes.skip false⟩
      simp only [Bool.false_eq_true, if_false, hres, hshift]

theorem batchAlloc_gives (count : Nat) :
    pool.Gives (pool.batchAlloc count).2 (handed id (pool.batchAlloc count).1) := by
  unfold batchAlloc
  by_cases hcap : isizeMax < count * 8
  · rw [if_pos hcap]
    exact .nothing pool
  · rw [if_neg hcap]
    obtain ⟨taken, hres, htakes⟩ := batchLoop_takes 0 count pool.slots
    refine ⟨?_, rfl⟩
    simp only [handed, id_eq, hres, Nat.add_zero, List.map_id']
    exact htakes

theorem getZoneAware_gives (zone : ZoneInfo) :
    pool.Gives (pool.getZoneAware zone).2.1 (handed Option.toList (pool.getZoneAware zone).1) := by
  unfold getZoneAware
  split
  · split
    · exact .nothing pool
    · simp only
      split
      · exact .nothing pool
      · rename_i i hfind
        exact .one (getElem?_of_getD (by simpa using find?_some hfind))
  · exact .nothing pool

theorem fault_gives (page : SharedPage) (pool : FramePool) (src : PgFrame) :
    pool.Gives (page.fault pool src).2.2.1
      (handed (fun frame => if page.pending then [frame] else []) (page.fault pool src).1) := by
  unfold SharedPage.fault
  by_cases hpending : page.pending = true
  · simp only [hpending, if_true]
    have hgives := takeFrom_gives pool (page.frame % max pool.slots.length 1)
    rcases htake : pool.takeFrom (page.frame % max pool.slots.length 1) with ⟨_ | nf, pool'⟩
    · rw [htake] at hgives
      exact hgives
    · rw [htake] at hgives
      exact hgives
  · simp only [hpending, handed]
    exact .nothing pool

/-! ### Addresses in a small pool

Below `2^20` frames every address that an allocation computes is a word. -/

theorem wordSize_eq : wordSize = physOff + 2 ^ 20 * pageSz := by
  simp only [wordSize, physOff, pageSz]
  omega

section Small
variable {pool : FramePool} (hsmall : pool.slots.length < 2 ^ 20)
include hsmall

variable {i sz alignment fuel found : Nat}

theorem phys_small (hi : pool.slots[i]? = some true) : i * pageSz + memOff < wordSize := by
  have hlt := (List.getElem?_eq_some_iff.mp hi).1
  simp only [pageSz, memOff, wordSize]
  omega

theorem physAddr_small (hi : pool.slots[i]? = some true) : physAddr i = .ok (i * pageSz + memOff) := by
  rw [physAddr, if_pos (phys_small hsmall hi)]

theorem frameAlloc_gives (clk : Nat) :
    pool.Gives (frameAlloc pool clk).2 ((frameAlloc pool clk).1.toList.map frameOf) := by
  unfold frameAlloc
  have hgives := takeFrom_gives pool (clk % max pool.slots.length 1)
  rcases htake : pool.takeFrom (clk % max pool.slots.length 1) with ⟨_ | id, pool'⟩
  · rw [htake] at hgives
    exact hgives
  · rw [htake] at hgives
    have hid : pool.slots[id]? = some true := hgives.takes.free id mem_cons_self
    simp only
    rw [if_pos (phys_small hsmall hid), Option.toList_some, map_singleton, frameOf_phys]
    exact hgives

omit hsmall in
theorem allocContigLoop_free (h : allocContigLoop slots sz alignment fuel start = some found) :
    ∀ i ∈ List.range' found sz, slots[i]? = some true := by
  induction fuel generalizing start with
  | zero => cases h
  | succ fuel ih =>
    simp only [allocContigLoop] at h
    split at h
    · split at h
      · exact ih h
      split at h
      · exact ih h
      · rename_i hnone
        rw [← Option.some.inj h]
        intro i hi
        have hfree := find?_eq_none.mp hnone i hi
        exact getElem?_of_getD (by simpa using hfree)
    · cases h

theorem frameAllocContig_gives (sz align : Nat) :
    pool.Gives (frameAllocContig pool sz align).2
      (handed (fun found => found.toList.flatMap fun pa => List.range' (frameOf pa) sz)
        (frameAllocContig pool sz align).1) := by
  unfold frameAllocContig
  by_cases hsz : sz = 0
  · rw [if_pos hsz]
    exact .nothing pool
  rw [if_neg hsz]
  by_cases halign : 64 ≤ align
  · rw [if_pos halign]
    exact .nothing pool
  rw [if_neg halign]
  cases hloop : allocContigLoop pool.slots sz (2 ^ align) (pool.slots.length + 1) 0 with
  | none => exact .nothing pool
  | some start =>
    have hfree := allocContigLoop_free hloop
    have hstart : pool.slots[start]? = some true :=
      hfree start (mem_range'_1.mpr ⟨le_rfl, by omega⟩)
    simp only
    rw [physAddr_small hsmall hstart]
    simp only [Except.map, handed, Option.toList_some, flatMap_singleton, frameOf_phys]
    exact .run hfree

theorem allocPage_gives :
    ∃ found pool', allocPage pool = (.ok found, pool') ∧
      pool.Gives pool' (found.toList.map frameOf) := by
  have hgives := getInner_gives pool
  unfold allocPage
  rcases hget : pool.getInner with ⟨_ | id, pool'⟩
  · rw [hget] at hgives
    exact ⟨none, pool', rfl, hgives⟩
  · rw [hget] at hgives
    have hid : pool.slots[id]? = some true := hgives.takes.free id mem_cons_self
    simp only
    rw [physAddr_small hsmall hid]
    refine ⟨some (id * pageSz + memOff), pool', rfl, ?_⟩
    rw [Option.toList_some, map_singleton, frameOf_phys]
    exact hgives

variable (count : Nat)

theorem allocPagesLoop_gives :
    ∃ pages pool', allocPagesLoop count pool = (.ok pages, pool') ∧
      pool.Gives pool' (pages.map frameOf) := by
  induction count generalizing pool with
  | zero => exact ⟨[], pool, rfl, .nothing pool⟩
  | succ count ih =>
    obtain ⟨found, pool', hpage, hgives⟩ := allocPage_gives hsmall
    simp only [allocPagesLoop, hpage]
    cases found with
    | none => exact ⟨[], pool', rfl, hgives⟩
    | some addr =>
      have hlen : pool'.slots.length < 2 ^ 20 := by
        rw [hgives.length]
        exact hsmall
      obtain ⟨pages, pool'', hloop, hrest⟩ := ih hlen
      simp only [hloop]
      exact ⟨addr :: pages, pool'', rfl, hgives.trans hrest⟩

theorem allocPages_gives :
    pool.Gives (allocPages pool count).2
      (handed (fun pages => pages.map frameOf) (allocPages pool count).1) := by
  obtain ⟨pages, pool', hloop, hgives⟩ := allocPagesLoop_gives hsmall count
  unfold allocPages
  split
  · exact .nothing pool
  split
  · split
    · exact .nothing pool
    · rw [hloop]
      exact hgives
  · rw [hloop]
    exact hgives

end Small

end ChaosKernel.Memory
