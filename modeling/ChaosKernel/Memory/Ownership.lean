import ChaosKernel.Base.Run
import ChaosKernel.Memory.HeapBlocks

/-! Who holds which frame.

Callers take frames through nine paths and give them back through four. The used
slots of the pool should be exactly the frames the callers hold (`Owns`), and in a
pool of fewer than `2^20` frames they are. A larger pool has a frame for which
`heapGrow` panics with the frame already marked, and from then on nobody holds it. -/
namespace ChaosKernel.Memory
open Base

structure Owners where
  pool : FramePool
  held : List Nat

inductive Alloc where
  | getInner
  | getContig (sz alignLog2 : Nat)
  | batchAlloc (count : Nat)
  | getZoneAware (zone : ZoneInfo)
  | frameAlloc (clk : Nat)
  | frameAllocContig (sz align : Nat)
  | heapGrow (n : Nat)
  | fault (page : SharedPage) (src : PgFrame)
  | allocPages (count : Nat)

/-- Where the release takes an address, it is the address of the frame `idx`. -/
inductive Release where
  | put (idx : Nat)
  | putZoneAware (idx : Nat) (zone : ZoneInfo)
  | frameDealloc (idx : Nat)
  | freePages (idxs : List Nat)

inductive FrameCall where
  | alloc (call : Alloc)
  | release (call : Release)

/-- The frames an allocation hands out, and the pool it leaves. -/
def allocate (pool : FramePool) : Alloc → List Nat × FramePool
  | .getInner =>
    let (found, pool) := pool.getInner
    (found.toList, pool)
  | .getContig sz alignLog2 =>
    let (res, pool) := pool.getContig sz alignLog2
    (handed (fun found => found.toList.flatMap fun start => List.range' start sz) res, pool)
  | .batchAlloc count =>
    let (res, pool) := pool.batchAlloc count
    (handed id res, pool)
  | .getZoneAware zone =>
    let (res, pool, _) := pool.getZoneAware zone
    (handed Option.toList res, pool)
  | .frameAlloc clk =>
    let (found, pool) := frameAlloc pool clk
    (found.toList.map frameOf, pool)
  | .frameAllocContig sz align =>
    let (res, pool) := frameAllocContig pool sz align
    (handed (fun found => found.toList.flatMap fun pa => List.range' (frameOf pa) sz) res, pool)
  | .heapGrow n =>
    let (res, pool) := heapGrow pool n
    (handed blockFrames res, pool)
  | .fault page src =>
    -- A page that is not pending keeps the frame it has.
    let (res, _, pool, _) := page.fault pool src
    (handed (fun frame => if page.pending then [frame] else []) res, pool)
  | .allocPages count =>
    let (res, pool) := allocPages pool count
    (handed (fun pages => pages.map frameOf) res, pool)

/-- The frames a release gives back, and the pool it leaves. -/
def giveBack (pool : FramePool) : Release → List Nat × FramePool
  | .put idx => ([idx], pool.put idx)
  | .putZoneAware idx zone => ([idx], (pool.putZoneAware idx zone).1)
  | .frameDealloc idx => ([idx], frameDealloc pool (idx * pageSz + memOff))
  | .freePages idxs => (idxs, (freePages (idxs.map fun idx => idx * pageSz + memOff) pool).2)

namespace Owners

def new (n : Nat) : Owners := ⟨FramePool.new n, []⟩

/-- Callers give back only frames they hold. -/
def step (s : Owners) : FrameCall → Option Owners
  | .alloc call =>
    let (frames, pool) := allocate s.pool call
    some ⟨pool, frames ++ s.held⟩
  | .release call =>
    let (frames, pool) := giveBack s.pool call
    if frames.Nodup ∧ ∀ i ∈ frames, i ∈ s.held then
      some ⟨pool, frames.foldl (fun held i => held.erase i) s.held⟩
    else none

/-- The used slots are the frames held. -/
structure Owned (s : Owners) : Prop where
  owns : Owns s.pool.slots s.held
  cap : s.pool.slots.length = s.pool.cap

end Owners

def owners : System Owners FrameCall := ⟨Owners.step⟩

variable {pool : FramePool} {s t : Owners} {n sz last : Nat}

/-- Below `2^20` frames every allocation takes free frames and hands out what it takes. -/
theorem allocate_gives (hsmall : pool.slots.length < 2 ^ 20) (call : Alloc) :
    pool.Gives (allocate pool call).2 (allocate pool call).1 := by
  cases call with
  | getInner => exact getInner_gives pool
  | getContig sz alignLog2 => exact getContig_gives pool sz alignLog2
  | batchAlloc count => exact batchAlloc_gives pool count
  | getZoneAware zone => exact getZoneAware_gives pool zone
  | frameAlloc clk => exact frameAlloc_gives hsmall clk
  | frameAllocContig sz align => exact frameAllocContig_gives hsmall sz align
  | heapGrow n => exact heapGrow_gives hsmall n
  | fault page src => exact fault_gives page pool src
  | allocPages count => exact allocPages_gives hsmall count

/-! ### What a release frees -/

open FramePool

theorem freePages_frees (idxs : List Nat) (pool : FramePool) :
    (freePages (idxs.map fun idx => idx * pageSz + memOff) pool).2 =
      ⟨idxs.foldl (fun slots i => slots.set i true) pool.slots, pool.cap, pool.frameData⟩ := by
  induction idxs generalizing pool with
  | nil => rfl
  | cons idx rest ih =>
    have hframe : (idx * pageSz + memOff - memOff) / pageSz = idx := frameOf_phys idx
    rw [List.map_cons, freePages, if_neg (by omega), hframe, ih, List.foldl_cons, put]

theorem giveBack_frees (pool : FramePool) (call : Release) :
    (giveBack pool call).2 = ⟨(giveBack pool call).1.foldl (fun slots i => slots.set i true) pool.slots,
      pool.cap, pool.frameData⟩ := by
  cases call with
  | put idx => rfl
  | putZoneAware idx zone =>
    simp only [giveBack, putZoneAware]
    by_cases hlt : idx < pool.slots.length
    · rw [if_pos hlt]
      rfl
    · rw [if_neg hlt, List.foldl_cons, List.foldl_nil, List.set_eq_of_length_le (by omega)]
  | frameDealloc idx =>
    have hframe : (idx * pageSz + memOff - memOff) / pageSz = idx := frameOf_phys idx
    have hexact : (idx * pageSz + memOff - memOff) % pageSz = 0 := by
      rw [Nat.add_sub_cancel, Nat.mul_mod_left]
    simp only [giveBack, frameDealloc]
    rw [if_neg (by omega), if_neg (by rw [hexact]; exact fun h => h rfl), hframe]
    rfl
  | freePages idxs => exact freePages_frees idxs pool

/-! ### Runs -/

theorem Owners.Owned.new (n : Nat) : (Owners.new n).Owned :=
  ⟨.all_free n, List.length_replicate⟩

theorem Owners.Owned.step {call : FrameCall} (h : s.Owned) (hsmall : s.pool.cap < 2 ^ 20)
    (hstep : s.step call = some t) : t.Owned ∧ t.pool.cap = s.pool.cap := by
  cases call with
  | alloc call =>
    cases hstep
    rw [← h.cap] at hsmall
    have hgives := allocate_gives hsmall call
    exact ⟨⟨h.owns.takes hgives.takes, hgives.length.trans (h.cap.trans hgives.cap.symm)⟩, hgives.cap⟩
  | release call =>
    simp only [Owners.step, Option.ite_none_right_eq_some, Option.some.injEq] at hstep
    obtain ⟨⟨hnodup, hheld⟩, rfl⟩ := hstep
    have howns := h.owns.release_all hnodup hheld
    have hlen : ∀ (xs : List Nat) (slots : List Bool),
        (xs.foldl (fun slots i => slots.set i true) slots).length = slots.length := by
      intro xs
      induction xs with
      | nil => exact fun _ => rfl
      | cons x rest ih => exact fun slots => (ih _).trans List.length_set
    rw [giveBack_frees]
    exact ⟨⟨howns, (hlen _ _).trans h.cap⟩, rfl⟩

theorem owned_run (hn : n < 2 ^ 20) {calls : List FrameCall}
    (hrun : owners.run (Owners.new n) calls = some s) : s.Owned := by
  have hinv := System.invariant_run (M := owners) (I := fun s => s.Owned ∧ s.pool.cap = n)
    (fun s call t h hstep => by
      obtain ⟨hs, hcap⟩ := h
      obtain ⟨ht, hcap'⟩ := hs.step (by rw [hcap]; exact hn) hstep
      exact ⟨ht, hcap'.trans hcap⟩)
    ⟨Owners.Owned.new n, rfl⟩ hrun
  exact hinv.1

/-! ### The frame at the end of the direct map

`heapGrow` compares the end of a new page with the blocks it has. The end of frame
`2^20 - 1` is no word. -/

theorem getContig_new (hn : 0 < n) (hsz : sz ≤ n) :
    (FramePool.new n).getContig sz 0 = (.ok (some 0), (FramePool.new n).takeRun 0 sz) := by
  have hfree : freeRun (List.replicate n true) 0 sz = true := by
    refine List.all_eq_true.mpr fun i hi => ?_
    obtain ⟨_, hlt⟩ := List.mem_range'_1.mp hi
    simp only [List.getD_eq_getElem?_getD, List.getElem?_replicate]
    rw [if_pos (by omega)]
    rfl
  obtain ⟨m, rfl⟩ : ∃ m, n = m + 1 := ⟨n - 1, by omega⟩
  simp only [getContig, FramePool.new, List.length_replicate]
  rw [if_neg (by omega), List.range_succ_eq_map, List.filter_cons_of_pos (by decide), contigLoop,
    if_neg (by rw [List.length_replicate]; omega), if_pos hfree]

/-- Two pages with frame `0` and the last frame of the direct map free, and nothing between. -/
theorem heapGrow_panics (hlast : last + 1 = 2 ^ 20) (hzero : pool.slots[0]? = some true)
    (hend : pool.slots[last]? = some true) (hused : ∀ i, 0 < i → i < last → pool.slots[i]? = some false) :
    heapGrow pool 2 = (.error .panic, (pool.take 0).take last) := by
  have hfirst : heapPage [] pool = (.ok (some [directBlock 0 1]), pool.take 0) := by
    have hscan : scanFrom pool.slots 0 = some (0 + 0) :=
      scanFrom_eq_some hzero fun j hj => absurd hj (Nat.not_lt_zero j)
    have hadd : addPage [] 0 = .ok [directBlock 0 1] := addPage_nil (by omega)
    simp only [heapPage, preferredStart, takeFrom, hscan, Nat.add_zero, hadd, Except.map]
  have hstart : preferredStart [directBlock 0 1] = 1 := by
    simp only [preferredStart, directBlock, Nat.zero_mul, Nat.add_zero, Nat.sub_self, Nat.one_mul]
    decide
  have htaken : ∀ i, i ≠ 0 → (pool.take 0).slots[i]? = pool.slots[i]? := by
    intro i hi
    rw [take, List.getElem?_set_ne (Ne.symm hi)]
  have hsecond : heapPage [directBlock 0 1] (pool.take 0) =
      (.error .panic, (pool.take 0).take last) := by
    have hscan : scanFrom (pool.take 0).slots 1 = some (1 + (last - 1)) := by
      apply scanFrom_eq_some
      · rw [htaken _ (by omega), show 1 + (last - 1) = last by omega]
        exact hend
      · intro j hj
        rw [htaken _ (by omega)]
        exact hused _ (by omega) (by omega)
    rw [show 1 + (last - 1) = last by omega] at hscan
    have hadd : addPage [directBlock 0 1] last = .error .panic := by
      rw [addPage_cons, if_neg (by omega), if_neg (by omega), if_pos (by omega)]
    simp only [heapPage, hstart, takeFrom, hscan, hadd, Except.map]
  rw [heapGrow, if_neg (by simp only [wordSize]; omega)]
  simp only [heapLoop, hfirst, hsecond, Except.map]
  rfl

/-- The calls after which nobody holds frame `0` and it is not free. -/
def leak : List FrameCall :=
  [.alloc (.getContig (2 ^ 20 - 1) 0), .release (.put 0), .alloc (.heapGrow 2)]

theorem leak_run (hn : 2 ^ 20 ≤ n) :
    ∃ s, owners.run (Owners.new n) leak = some s ∧ s.pool.slots[0]? = some false ∧ 0 ∉ s.held := by
  obtain ⟨last, hlast⟩ : ∃ last, last + 1 = 2 ^ 20 := ⟨2 ^ 20 - 1, by omega⟩
  rw [leak, show 2 ^ 20 - 1 = last by omega]
  have hnew : ∀ i < n, (FramePool.new n).slots[i]? = some true := by
    intro i hi
    rw [FramePool.new, List.getElem?_replicate, if_pos hi]
  have hgives : (FramePool.new n).Gives ((FramePool.new n).takeRun 0 last) (List.range' 0 last) := by
    refine .run fun i hi => hnew i ?_
    obtain ⟨_, hlt⟩ := List.mem_range'_1.mp hi
    omega
  have hmarks := hgives.takes.marks
  -- The bitmap after the second call: free at `0` and from the last frame on.
  let pool := ((FramePool.new n).takeRun 0 last).put 0
  have hlen : 0 < ((FramePool.new n).takeRun 0 last).slots.length := by
    rw [hgives.length, FramePool.new, List.length_replicate]
    omega
  have hzero : pool.slots[0]? = some true := List.getElem?_set_self hlen
  have hrest : ∀ i, i ≠ 0 → pool.slots[i]? = if i < last then some false else (FramePool.new n).slots[i]? := by
    intro i hi
    rw [show pool.slots[i]? = ((FramePool.new n).takeRun 0 last).slots[i]? from
      List.getElem?_set_ne (Ne.symm hi), hmarks i]
    simp only [List.mem_range'_1, Nat.zero_le, true_and, Nat.zero_add]
  have hpanic : heapGrow pool 2 = (.error .panic, (pool.take 0).take last) := by
    refine heapGrow_panics hlast hzero ?_ ?_
    · rw [hrest last (by omega), if_neg (by omega)]
      exact hnew last (by omega)
    · intro i hpos hi
      rw [hrest i (by omega), if_pos hi]
  have hnodup : (List.range' 0 last).Nodup := List.nodup_range'
  have hmem : 0 ∈ List.range' 0 last := List.mem_range'_1.mpr ⟨le_rfl, by omega⟩
  refine ⟨⟨(pool.take 0).take last, (List.range' 0 last).erase 0⟩, ?_, ?_, ?_⟩
  · have h1 : (Owners.new n).step (.alloc (.getContig last 0)) =
        some ⟨(FramePool.new n).takeRun 0 last, List.range' 0 last⟩ := by
      simp only [Owners.step, allocate, Owners.new, getContig_new (show 0 < n by omega)
        (show last ≤ n by omega), handed, Option.toList_some, List.flatMap_singleton, List.append_nil]
    have h2 : Owners.step ⟨(FramePool.new n).takeRun 0 last, List.range' 0 last⟩ (.release (.put 0)) =
        some ⟨pool, (List.range' 0 last).erase 0⟩ :=
      if_pos ⟨List.nodup_singleton 0, fun i hi => (List.mem_singleton.mp hi) ▸ hmem⟩
    have h3 : Owners.step ⟨pool, (List.range' 0 last).erase 0⟩ (.alloc (.heapGrow 2)) =
        some ⟨(pool.take 0).take last, (List.range' 0 last).erase 0⟩ := by
      simp only [Owners.step, allocate, hpanic, handed, List.nil_append]
    simp only [System.run_cons, owners, h1, h2, h3, Option.bind_some, System.run_nil]
  · show ((pool.slots.set 0 false).set last false)[0]? = some false
    rw [List.getElem?_set_ne (by omega), List.getElem?_set_self]
    exact (List.getElem?_eq_some_iff.mp hzero).1
  · exact hnodup.not_mem_erase

/-- A pool that reaches the end of the direct map loses a frame. -/
theorem heapGrow_leaks_frame :
    ∃ s, owners.run (Owners.new (2 ^ 20)) leak = some s ∧
      s.pool.slots[0]? = some false ∧ 0 ∉ s.held :=
  leak_run le_rfl

/-- **Ownership.** In every run of allocations and releases the used slots are exactly the frames
the callers hold, each held once, and with the free ones they make up the pool: for a pool of
fewer than `2^20` frames, and for no larger one. -/
theorem owned_iff (n : Nat) :
    (∀ calls s, owners.run (Owners.new n) calls = some s →
      s.held.Nodup ∧ (∀ i : Nat, i ∈ s.held ↔ s.pool.slots[i]? = some false) ∧
        s.pool.freeCount + s.held.length = s.pool.cap) ↔ n < 2 ^ 20 := by
  constructor
  · intro hall
    by_contra hlarge
    obtain ⟨s, hrun, hused, hheld⟩ := leak_run (Nat.le_of_not_lt hlarge)
    exact hheld (((hall leak s hrun).2.1 0).mpr hused)
  · intro hsmall calls s hrun
    have howned := owned_run hsmall hrun
    refine ⟨howned.owns.nodup, howned.owns.held, ?_⟩
    rw [← howned.cap]
    exact howned.owns.count

end ChaosKernel.Memory
