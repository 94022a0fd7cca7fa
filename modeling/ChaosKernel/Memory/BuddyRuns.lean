import ChaosKernel.Base.Run
import ChaosKernel.Memory.Buddy

/-! What the buddy allocator does over whole runs.

Callers allocate blocks and free blocks they hold. The free blocks and the live
ones always tile the memory the allocator was given (`Buddies.Tiled`), for any
base: two buddies are always adjacent. -/
namespace ChaosKernel.Memory
open Base List Option

/-! ### A new allocator -/

/-- The blocks filled in so far tile the memory from `base` to `addr`. -/
structure Filled (base : Nat) (lists : List (List Nat)) (addr : Nat) : Prop where
  word : addr < wordSize
  le : base ≤ addr
  tiles : Tiles (blocks lists) base (addr - base)

variable {base o addr remaining addr' remaining' next fuel count : Nat} {lists lists' : List (List Nat)}

theorem Filled.push (h : Filled base lists addr) (ho : o < lists.length)
    (hnext : add? addr (2 ^ o * pageSz) = some next) : Filled base (pushBlock lists o addr) next := by
  obtain ⟨rfl, hlt⟩ := add?_eq_some hnext
  have hle := h.le
  refine ⟨hlt, by omega, ?_⟩
  have htiles := h.tiles.snoc (o + 12)
  rw [← block_size, show base + (addr - base) = addr by omega] at htiles
  rw [show addr + 2 ^ o * pageSz - base = addr - base + 2 ^ o * pageSz by omega]
  exact htiles.same (SameCells.of_perm (blocks_push ho addr).symm)

theorem fillLoop_ok (h : fillLoop o fuel lists addr remaining = some (lists', addr', remaining'))
    (hfuel : remaining ≤ fuel) (ho : o < lists.length) (hfilled : Filled base lists addr) :
    Filled base lists' addr' ∧ lists'.length = lists.length ∧ remaining' = remaining % 2 ^ o ∧
      addr' + remaining' * pageSz = addr + remaining * pageSz := by
  have hpos : 0 < 2 ^ o := Nat.two_pow_pos o
  induction fuel generalizing lists addr remaining with
  | zero =>
    cases h
    have : remaining' = 0 := by omega
    subst this
    exact ⟨hfilled, rfl, (Nat.zero_mod _).symm, rfl⟩
  | succ fuel ih =>
    rw [fillLoop] at h
    by_cases hle : 2 ^ o ≤ remaining
    · rw [if_pos hle, bind_eq_some_iff] at h
      obtain ⟨next, hnext, hrest⟩ := h
      obtain ⟨hfilled', hlen, hrem, hsum⟩ := ih hrest (by omega) (by rw [length_push]; exact ho)
        (hfilled.push ho hnext)
      refine ⟨hfilled', by rw [hlen, length_push], ?_, ?_⟩
      · rw [hrem, ← Nat.mod_eq_sub_mod hle]
      · obtain ⟨rfl, _⟩ := add?_eq_some hnext
        rw [hsum, Nat.add_assoc, ← Nat.add_mul, Nat.add_sub_cancel' hle]
    · rw [if_neg hle] at h
      cases h
      exact ⟨hfilled, rfl, (Nat.mod_eq_of_lt (by omega)).symm, rfl⟩

theorem fillLoop_returns (fuel : Nat) (lists : List (List Nat))
    (hfits : addr + remaining * pageSz < wordSize) :
    ∃ filled, fillLoop o fuel lists addr remaining = some filled := by
  induction fuel generalizing lists addr remaining with
  | zero => exact ⟨_, rfl⟩
  | succ fuel ih =>
    rw [fillLoop]
    by_cases hle : 2 ^ o ≤ remaining
    · have hsum : addr + remaining * pageSz =
          addr + 2 ^ o * pageSz + (remaining - 2 ^ o) * pageSz := by
        rw [Nat.add_assoc, ← Nat.add_mul, Nat.add_sub_cancel' hle]
      rw [if_pos hle, add?_of_lt (by omega)]
      exact ih _ (by omega)
    · rw [if_neg hle]
      exact ⟨_, rfl⟩

theorem fillDown_ok (h : fillDown o lists addr remaining = some (lists', addr', remaining'))
    (ho : o < lists.length) (hrem : remaining < 2 ^ o) (hfilled : Filled base lists addr) :
    Filled base lists' addr' ∧ lists'.length = lists.length ∧ addr' = addr + remaining * pageSz := by
  induction o generalizing lists addr remaining with
  | zero =>
    cases h
    have : remaining' = 0 := by omega
    subst this
    exact ⟨hfilled, rfl, (Nat.add_zero _).symm⟩
  | succ o ih =>
    rw [fillDown, bind_eq_some_iff] at h
    obtain ⟨⟨lists₁, addr₁, remaining₁⟩, hloop, hrest⟩ := h
    obtain ⟨hfilled₁, hlen₁, hrem₁, hsum⟩ := fillLoop_ok hloop le_rfl (by omega) hfilled
    obtain ⟨hfilled', hlen', haddr'⟩ := ih hrest
      (show o < lists₁.length by omega) (by rw [hrem₁]; exact Nat.mod_lt _ (Nat.two_pow_pos o)) hfilled₁
    exact ⟨hfilled', hlen'.trans hlen₁, haddr'.trans hsum⟩

theorem fillDown_returns (ho : o < lists.length) (hfits : addr + remaining * pageSz < wordSize)
    (hfilled : Filled base lists addr) : ∃ filled, fillDown o lists addr remaining = some filled := by
  induction o generalizing lists addr remaining with
  | zero => exact ⟨_, rfl⟩
  | succ o ih =>
    obtain ⟨⟨lists₁, addr₁, remaining₁⟩, hloop⟩ := fillLoop_returns (o := o) remaining lists hfits
    obtain ⟨hfilled₁, hlen₁, _, hsum⟩ := fillLoop_ok hloop le_rfl (by omega) hfilled
    rw [fillDown, hloop]
    exact ih (show o < lists₁.length by omega) (by rw [hsum]; exact hfits) hfilled₁

theorem blocks_replicate (n : Nat) : blocks (List.replicate n []) = [] := by
  suffices hfrom : ∀ o, blocksFrom o (List.replicate n []) = [] from hfrom 0
  induction n with
  | zero => exact fun _ => rfl
  | succ n ih => exact fun o => ih (o + 1)

theorem Filled.start (hbase : base < wordSize) (n : Nat) : Filled base (List.replicate n []) base := by
  refine ⟨hbase, le_rfl, ?_⟩
  rw [blocks_replicate, Nat.sub_self]
  exact .refl _

namespace BuddyAllocator
variable {base totalPages maxOrder : Nat} {b : BuddyAllocator}

/-- An allocator fresh from `new`. -/
structure Fresh (base total top : Nat) (b : BuddyAllocator) : Prop where
  fits : base + total * pageSz < wordSize
  maxOrder : b.maxOrder = top
  allocated : b.allocated = 0
  length : b.freeLists.length = top + 1
  tiles : Tiles (blocks b.freeLists) base (total * pageSz)

theorem new_fresh (hbase : base < wordSize) (h : new base totalPages maxOrder = some b) :
    Fresh base totalPages maxOrder b := by
  rw [new, ite_none_left_eq_some] at h
  obtain ⟨⟨lists₁, addr₁, remaining₁⟩, hloop, hrest⟩ := bind_eq_some_iff.mp h.2
  obtain ⟨⟨lists, addr, remaining⟩, hdown, rfl⟩ := map_eq_some_iff.mp hrest
  obtain ⟨hfilled₁, hlen₁, hrem₁, hsum⟩ := fillLoop_ok hloop le_rfl
    (by rw [length_replicate]; omega) (Filled.start hbase _)
  rw [length_replicate] at hlen₁
  obtain ⟨hfilled, hlen, haddr⟩ := fillDown_ok hdown
    (show min (log2Floor totalPages) maxOrder < lists₁.length by omega)
    (by rw [hrem₁]; exact Nat.mod_lt _ (Nat.two_pow_pos _)) hfilled₁
  have hend : addr = base + totalPages * pageSz := haddr.trans hsum
  subst hend
  refine ⟨hfilled.word, rfl, rfl, hlen.trans hlen₁, ?_⟩
  have htiles := hfilled.tiles
  rwa [Nat.add_sub_cancel_left] at htiles

theorem new_returns (hfits : base + totalPages * pageSz < wordSize) (hcap : 24 * (maxOrder + 1) < 2 ^ 63) :
    ∃ b, new base totalPages maxOrder = some b := by
  have hbase : base < wordSize := by omega
  obtain ⟨⟨lists₁, addr₁, remaining₁⟩, hloop⟩ := fillLoop_returns
    (o := min (log2Floor totalPages) maxOrder) totalPages (List.replicate (maxOrder + 1) []) hfits
  obtain ⟨hfilled₁, hlen₁, _, hsum⟩ := fillLoop_ok hloop le_rfl
    (by rw [length_replicate]; omega) (Filled.start hbase _)
  rw [length_replicate] at hlen₁
  obtain ⟨filled, hdown⟩ := fillDown_returns
    (show min (log2Floor totalPages) maxOrder < lists₁.length by omega)
    (by rw [hsum]; exact hfits) hfilled₁
  refine ⟨⟨filled.1, maxOrder, base, totalPages, 0⟩, ?_⟩
  rw [new, if_neg (by omega)]
  simp only [hloop, bind_some]
  rw [hdown]
  rfl

end BuddyAllocator

/-! ### Counting pages -/

def pagesFrom (o : Nat) : List (List Nat) → Nat
  | [] => 0
  | l :: rest => l.length * 2 ^ o + pagesFrom (o + 1) rest

theorem sum_blocksFrom (o : Nat) (lists : List (List Nat)) :
    ((blocksFrom o lists).map fun b => 2 ^ b.order).sum = pagesFrom o lists * pageSz := by
  induction lists generalizing o with
  | nil => simp [blocksFrom, pagesFrom]
  | cons l rest ih =>
    have hlist : ((l.map (blockAt · o)).map fun b => 2 ^ b.order).sum = l.length * (2 ^ o * pageSz) := by
      rw [List.map_map, block_size]
      simp [Function.comp_def, blockAt]
    rw [blocksFrom, map_append, sum_append, ih, hlist, pagesFrom, Nat.add_mul, Nat.mul_assoc]

theorem countFrom_eq (hshift : o + lists.length ≤ 64) (hsum : count + pagesFrom o lists < wordSize) :
    countFrom o lists count = some (count + pagesFrom o lists) := by
  induction lists generalizing o count with
  | nil => rfl
  | cons l rest ih =>
    rw [length_cons] at hshift
    rw [pagesFrom] at hsum ⊢
    rw [countFrom, shl?, if_pos (by omega), bind_some, add?_of_lt (by omega), bind_some,
      ih (by omega) (by omega), Nat.add_assoc]

/-- An order past the width of a word is met, if only with an empty list. -/
theorem countFrom_shift (ho : o ≤ 64) (h : 64 < o + lists.length) : countFrom o lists count = none := by
  induction lists generalizing o count with
  | nil => exact absurd h (Nat.not_lt.mpr ho)
  | cons l rest ih =>
    rw [length_cons] at h
    rw [countFrom, shl?]
    split
    · rw [bind_some]
      cases add? count (l.length * 2 ^ o) with
      | none => rfl
      | some count => exact ih (by omega) (by omega)
    · rfl

/-! ### Runs -/

/-- The allocator and the blocks callers hold, each with its order. -/
structure Buddies where
  alloc : BuddyAllocator
  live : List (Nat × Nat)

inductive BuddyCall where
  | allocOrder (order : Nat)
  | freeOrder (addr order : Nat)

namespace Buddies

def step (s : Buddies) : BuddyCall → Option Buddies
  | .allocOrder order =>
    (s.alloc.allocOrder order).map fun res => ⟨res.2, (res.1.toList.map fun addr => (addr, order)) ++ s.live⟩
  | .freeOrder addr order =>
    if (addr, order) ∈ s.live then
      (s.alloc.freeOrder addr order).map fun b => ⟨b, s.live.erase (addr, order)⟩
    else none

def liveBlocks (s : Buddies) : List Dyad := s.live.map fun p => blockAt p.1 p.2

/-- The free blocks and the live ones. -/
def all (s : Buddies) : List Dyad := blocks s.alloc.freeLists ++ s.liveBlocks

structure Tiled (base total top : Nat) (s : Buddies) : Prop where
  maxOrder : s.alloc.maxOrder = top
  length : s.alloc.freeLists.length = top + 1
  orders : ∀ p ∈ s.live, p.2 ≤ top
  tiles : Tiles s.all base (total * pageSz)
  allocated : s.alloc.allocated = (s.live.map fun p => 2 ^ p.2).sum

end Buddies

def buddies : System Buddies BuddyCall := ⟨Buddies.step⟩

namespace Buddies
variable {base total top order : Nat} {s t : Buddies}

theorem pages_eq (h : Tiles s.all base (total * pageSz)) :
    pagesFrom 0 s.alloc.freeLists + (s.live.map fun p => 2 ^ p.2).sum = total := by
  have hlive : (s.liveBlocks.map fun b => 2 ^ b.order).sum = (s.live.map fun p => 2 ^ p.2).sum * pageSz := by
    rw [liveBlocks, List.map_map, ← sum_map_mul_right]
    simp only [Function.comp_def, blockAt, block_size]
  have hsum := h.sum
  rw [all, map_append, sum_append, blocks, sum_blocksFrom, hlive, ← Nat.add_mul] at hsum
  exact Nat.eq_of_mul_eq_mul_right (by decide) hsum

theorem Tiled.endBy (h : Tiled base total top s) : EndBy (base + total * pageSz) s.all :=
  fun _ hb => (h.tiles.inside hb).2

theorem Tiled.endBy_free (h : Tiled base total top s) :
    EndBy (base + total * pageSz) (blocks s.alloc.freeLists) :=
  fun b hb => h.endBy b (mem_append_left _ hb)

theorem Tiled.endBy_live (h : Tiled base total top s) (hlive : (addr, order) ∈ s.live) :
    EndBy (base + total * pageSz) (blockAt addr order :: blocks s.alloc.freeLists) := by
  refine forall_mem_cons.mpr ⟨h.endBy _ (mem_append_right _ ?_), h.endBy_free⟩
  exact mem_map.mpr ⟨(addr, order), hlive, rfl⟩

theorem Tiled.lists_length (h : Tiled base total top s) :
    s.alloc.freeLists.length = s.alloc.maxOrder + 1 := by
  rw [h.length, h.maxOrder]

section Fits
variable (hfits : base + total * pageSz < wordSize)
include hfits

theorem total_lt : total < wordSize := by
  have : total * 1 ≤ total * pageSz := Nat.mul_le_mul_left total (by decide)
  omega

theorem Tiled.allocOrder_cases (h : Tiled base total top s) (order : Nat) :
    s.alloc.allocOrder order = some (none, s.alloc) ∨
      ∃ addr o b, s.alloc.allocOrder order = some (some addr, b) ∧ s.alloc.Allocates order addr o b :=
  allocOrder_spec hfits h.lists_length h.endBy_free order

variable {addr order : Nat} {b : BuddyAllocator} {call : BuddyCall}

theorem Tiled.freeOrder_cases (h : Tiled base total top s) (hlive : (addr, order) ∈ s.live) :
    ∃ b, s.alloc.freeOrder addr order = some b ∧ s.alloc.Frees addr order b := by
  have horder : order ≤ s.alloc.maxOrder := by
    rw [h.maxOrder]
    exact h.orders (addr, order) hlive
  exact freeOrder_spec hfits h.lists_length (h.endBy_live hlive) horder

theorem Tiled.alloc (h : Tiled base total top s) (halloc : s.alloc.Allocates order addr o b) :
    Tiled base total top ⟨b, (addr, order) :: s.live⟩ := by
  have hsame : SameCells s.all (blocks b.freeLists ++ (blockAt addr order :: s.liveBlocks)) := by
    refine (halloc.same.append_right s.liveBlocks).trans (SameCells.of_perm ?_)
    exact perm_middle.symm
  have htiles : Tiles (Buddies.all ⟨b, (addr, order) :: s.live⟩) base (total * pageSz) := h.tiles.same hsame
  have hpages := pages_eq htiles
  have hlt := total_lt hfits
  have hle := halloc.le
  have hmax := halloc.leMax
  refine ⟨halloc.shape.maxOrder.trans h.maxOrder, halloc.shape.length.trans h.length, ?_, htiles, ?_⟩
  · refine forall_mem_cons.mpr ⟨?_, h.orders⟩
    rw [h.maxOrder] at hmax
    exact hle.trans hmax
  · simp only [map_cons, sum_cons] at hpages ⊢
    rw [halloc.allocated, h.allocated, wrappingAdd, Nat.mod_eq_of_lt (by omega), Nat.add_comm]

theorem Tiled.free (h : Tiled base total top s) (hlive : (addr, order) ∈ s.live)
    (hfrees : s.alloc.Frees addr order b) : Tiled base total top ⟨b, s.live.erase (addr, order)⟩ := by
  have hperm := perm_cons_erase hlive
  have hcells : SameCells s.all
      (blocks b.freeLists ++ ((s.live.erase (addr, order)).map fun p => blockAt p.1 p.2)) := by
    refine SameCells.trans (SameCells.of_perm ?_) (hfrees.same.append_right _)
    exact ((hperm.map _).append_left _).trans perm_middle
  have hpages := pages_eq h.tiles
  have hlt := total_lt hfits
  have hpos := Nat.two_pow_pos order
  refine ⟨hfrees.shape.maxOrder.trans h.maxOrder, hfrees.shape.length.trans h.length,
    fun p hp => h.orders p (mem_of_mem_erase hp), h.tiles.same hcells, ?_⟩
  have hsum : (s.live.map fun p => 2 ^ p.2).sum =
      2 ^ order + ((s.live.erase (addr, order)).map fun p => 2 ^ p.2).sum := (hperm.map _).sum_eq
  rw [hfrees.allocated, h.allocated, wrappingSub, hsum]
  rw [show ∀ m : Nat, 2 ^ order + m + (wordSize - 2 ^ order) = m + wordSize from fun m => by omega,
    Nat.add_mod_right, Nat.mod_eq_of_lt (by omega)]

/-- What a step does: nothing, or it takes a block, or it gives one back. -/
theorem Tiled.step_cases (h : Tiled base total top s) (hstep : s.step call = some t) :
    t = s ∨
    (∃ order addr o b, s.alloc.Allocates order addr o b ∧ t = ⟨b, (addr, order) :: s.live⟩) ∨
    ∃ addr order b, (addr, order) ∈ s.live ∧ s.alloc.Frees addr order b ∧
      t = ⟨b, s.live.erase (addr, order)⟩ := by
  cases call with
  | allocOrder order =>
    rcases h.allocOrder_cases hfits order with hnone | ⟨addr, o, b, hsome, halloc⟩
    · simp only [step, hnone, map_some, toList_none, map_nil, nil_append,
        some.injEq] at hstep
      exact .inl hstep.symm
    · simp only [step, hsome, map_some, toList_some, map_cons, map_nil,
        cons_append, nil_append, some.injEq] at hstep
      exact .inr (.inl ⟨order, addr, o, b, halloc, hstep.symm⟩)
  | freeOrder addr order =>
    simp only [step, ite_none_right_eq_some] at hstep
    obtain ⟨hlive, hmap⟩ := hstep
    obtain ⟨b, hfree, hfrees⟩ := h.freeOrder_cases hfits hlive
    rw [hfree] at hmap
    exact .inr (.inr ⟨addr, order, b, hlive, hfrees, (some.inj hmap).symm⟩)

theorem Tiled.step (h : Tiled base total top s) (hstep : s.step call = some t) :
    Tiled base total top t := by
  rcases h.step_cases hfits hstep with rfl | ⟨order, addr, o, b, halloc, rfl⟩ |
    ⟨addr, order, b, hlive, hfrees, rfl⟩
  · exact h
  · exact h.alloc hfits halloc
  · exact h.free hfits hlive hfrees

end Fits

variable {b : BuddyAllocator}

theorem Tiled.new (h : b.Fresh base total top) : Tiled base total top ⟨b, []⟩ := by
  refine ⟨h.maxOrder, h.length, fun p hp => absurd hp not_mem_nil, ?_, h.allocated⟩
  rw [all, liveBlocks, map_nil, append_nil]
  exact h.tiles

theorem tiled_run (h : b.Fresh base total top) {calls : List BuddyCall}
    (hrun : buddies.run ⟨b, []⟩ calls = some s) : Tiled base total top s :=
  System.invariant_run (M := buddies) (fun _ _ _ hs hstep => hs.step h.fits hstep) (Tiled.new h) hrun

/-- **Conservation.** Over any memory that ends below the last word, an allocator is made unless its lists
are too many for a `Vec`; then no call panics, and after any run of allocations and frees the live blocks and
the free ones are disjoint and cover exactly that memory. The pages in use and `free_pages_count` add up
exactly when all orders are below the width of a word: the count shifts by every order there is. -/
theorem blocks_conserved (base totalPages maxOrder : Nat) (hfits : base + totalPages * pageSz < wordSize) :
    ((BuddyAllocator.new base totalPages maxOrder).isSome ↔ 24 * (maxOrder + 1) < 2 ^ 63) ∧
    (∀ b, BuddyAllocator.new base totalPages maxOrder = some b →
      ∀ calls s, buddies.run ⟨b, []⟩ calls = some s →
        (s.all.Pairwise fun p q => ∀ x, p.Covers x → ¬q.Covers x) ∧
        (∀ x, (∃ p ∈ s.all, p.Covers x) ↔ base ≤ x ∧ x < base + totalPages * pageSz) ∧
        (∀ order, (s.alloc.allocOrder order).isSome) ∧
        ∀ addr order, (addr, order) ∈ s.live → (s.alloc.freeOrder addr order).isSome) ∧
    ((∃ b, BuddyAllocator.new base totalPages maxOrder = some b ∧
      ∀ calls s, buddies.run ⟨b, []⟩ calls = some s →
        ∃ free, s.alloc.freePagesCount = some free ∧ s.alloc.allocated + free = totalPages) ↔ maxOrder < 64) := by
  have hfresh {b} (hnew : BuddyAllocator.new base totalPages maxOrder = some b) :=
    BuddyAllocator.new_fresh (by omega) hnew
  refine ⟨⟨fun h => ?_, fun hcap => ?_⟩, fun b hnew calls s hrun => ?_, fun ⟨b, hnew, hcount⟩ => ?_, fun hmax => ?_⟩
  · by_contra hcap
    rw [BuddyAllocator.new, if_pos (by omega)] at h
    cases h
  · obtain ⟨b, hnew⟩ := BuddyAllocator.new_returns hfits hcap
    rw [hnew]
    rfl
  · have h := tiled_run (hfresh hnew) hrun
    refine ⟨h.tiles.disjoint, h.tiles.covers, fun order => ?_, fun addr order hlive => ?_⟩
    · rcases h.allocOrder_cases hfits order with hnone | ⟨_, _, _, hsome, _⟩
      · rw [hnone]
        rfl
      · rw [hsome]
        rfl
    · obtain ⟨b', hfree, _⟩ := h.freeOrder_cases hfits hlive
      rw [hfree]
      rfl
  · obtain ⟨free, hfree, _⟩ := hcount [] ⟨b, []⟩ (System.run_nil _ _)
    by_contra hmax
    rw [BuddyAllocator.freePagesCount, countFrom_shift (Nat.zero_le 64) (by rw [(hfresh hnew).length]; omega)] at hfree
    cases hfree
  · obtain ⟨b, hnew⟩ := BuddyAllocator.new_returns hfits (show 24 * (maxOrder + 1) < 2 ^ 63 by omega)
    refine ⟨b, hnew, fun calls s hrun => ?_⟩
    have h := tiled_run (hfresh hnew) hrun
    have hpages := pages_eq h.tiles
    have hlt := total_lt hfits
    have hcount : s.alloc.freePagesCount = some (0 + pagesFrom 0 s.alloc.freeLists) :=
      countFrom_eq (by rw [h.length]; omega) (by omega)
    refine ⟨_, hcount, ?_⟩
    rw [h.allocated]
    omega

/-- Five pages behind the start of memory, with two blocks live after one free. -/
theorem blocks_conserved_five : ∃ b s free, BuddyAllocator.new memOff 5 2 = some b ∧
    buddies.run ⟨b, []⟩ [.allocOrder 0, .allocOrder 1, .allocOrder 0, .freeOrder (memOff + 16384) 0] = some s ∧
    s.live = [(memOff + 8192, 0), (memOff, 1)] ∧ (s.all.Pairwise fun p q => ∀ x, p.Covers x → ¬q.Covers x) ∧
    s.alloc.freePagesCount = some free ∧ s.alloc.allocated + free = 5 := by
  have hfits : memOff + 5 * pageSz < wordSize := by decide +kernel
  have hrun : ((BuddyAllocator.new memOff 5 2).any fun b =>
      (buddies.run ⟨b, []⟩ [.allocOrder 0, .allocOrder 1, .allocOrder 0, .freeOrder (memOff + 16384) 0]).any
        fun s => s.live = [(memOff + 8192, 0), (memOff, 1)]) = true := by
    decide +kernel
  simp only [Option.any_eq_true, decide_eq_true_eq] at hrun
  obtain ⟨b, hnew, s, hrun, hlive⟩ := hrun
  obtain ⟨_, hall, hcount⟩ := blocks_conserved memOff 5 2 hfits
  obtain ⟨b', hnew', hcount⟩ := hcount.mpr (by decide)
  obtain rfl : b' = b := some.inj (hnew'.symm.trans hnew)
  obtain ⟨free, hfree, hsum⟩ := hcount _ s hrun
  exact ⟨b', s, free, hnew, hrun, hlive, (hall b' hnew _ s hrun).1, hfree, hsum⟩

/-- One page and orders up to 64: the count shifts by 64. -/
theorem count_shifts_out : (BuddyAllocator.new memOff 1 64).any fun b => b.freePagesCount = none := by
  decide +kernel

end Buddies
end ChaosKernel.Memory
