import ChaosKernel.Base.Rust

/-! The page cache.

`entries` holds the cached pages and `lru_order` their order of use, the last used
at the end. `evict_lru` looks for the first page of the order that is not pinned and
drops it, written back or not. `insert` evicts when the cache is full, whether or not
the page is cached, and puts a fresh entry in the place of an old one. -/
namespace ChaosKernel.Memory
open Base

structure PageCacheEntry where
  pageId : Nat
  data : Bytes
  dirty : Bool
  accessTick : Nat
  pinCount : Nat

structure PageCache where
  entries : BTreeMap PageCacheEntry
  capacity : Nat
  hits : Nat
  misses : Nat
  evictions : Nat
  lruOrder : List Nat

namespace PageCache

def new (capacity : Nat) : PageCache := ⟨∅, capacity, 0, 0, 0, []⟩

/-- `lru_order.retain(|&x| x != page_id)`. -/
def retained (cache : PageCache) (pageId : Nat) : List Nat := cache.lruOrder.filter (· != pageId)

def lookup (cache : PageCache) (pageId clk : Nat) : Option Bytes × PageCache :=
  match cache.entries[pageId]? with
  | some e =>
    (some e.data, {cache with
      entries := cache.entries.insert pageId {e with accessTick := clk}
      hits := cache.hits + 1
      lruOrder := cache.retained pageId ++ [pageId]})
  | none => (none, {cache with misses := cache.misses + 1})

/-- The first page of the order that is cached and not pinned. -/
def victim (cache : PageCache) : Option Nat :=
  cache.lruOrder.find? fun id => cache.entries[id]?.any (·.pinCount == 0)

def drop (cache : PageCache) (pageId : Nat) : PageCache :=
  {cache with entries := cache.entries.erase pageId, lruOrder := cache.retained pageId}

def evictLru (cache : PageCache) : Bool × PageCache :=
  match cache.victim with
  | some id => (true, {cache.drop id with evictions := cache.evictions + 1})
  | none => (false, cache)

/-- The cache in which `insert` finds room. -/
def makeRoom (cache : PageCache) : PageCache :=
  if cache.capacity ≤ cache.entries.size then cache.evictLru.2 else cache

def insert (cache : PageCache) (pageId : Nat) (data : Bytes) (clk : Nat) : PageCache :=
  let cache := cache.makeRoom
  {cache with
    entries := cache.entries.insert pageId ⟨pageId, data, false, clk, 0⟩
    lruOrder := cache.lruOrder ++ [pageId]}

/-- What is done to one entry. -/
def modify (cache : PageCache) (pageId : Nat) (f : PageCacheEntry → PageCacheEntry) : PageCache :=
  {cache with entries := cache.entries.modify pageId f}

def markDirty (cache : PageCache) (pageId : Nat) : PageCache :=
  cache.modify pageId fun e => {e with dirty := true}

def pin (cache : PageCache) (pageId : Nat) : Bool × PageCache :=
  (cache.entries.contains pageId, cache.modify pageId fun e => {e with pinCount := e.pinCount + 1})

def unpin (cache : PageCache) (pageId : Nat) : Bool × PageCache :=
  (cache.entries.contains pageId, cache.modify pageId fun e => {e with pinCount := e.pinCount - 1})

def invalidate (cache : PageCache) (pageId : Nat) : Bool × PageCache :=
  if cache.entries.contains pageId then (true, cache.drop pageId) else (false, cache)

/-- The dirty pages that `p` chooses are written back. -/
def writeback (cache : PageCache) (p : Nat → Bool) : Nat × PageCache :=
  (cache.entries.toList.countP fun x => p x.1 && x.2.dirty,
    {cache with entries := cache.entries.map fun id e => if p id then {e with dirty := false} else e})

def writebackAll (cache : PageCache) : Nat × PageCache := cache.writeback fun _ => true

def flushRange (cache : PageCache) (start stop : Nat) : Nat × PageCache :=
  cache.writeback fun id => decide (start ≤ id ∧ id < stop)

end PageCache

inductive PageOp where
  | lookup (pageId clk : Nat)
  | insert (pageId : Nat) (data : Bytes) (clk : Nat)
  | evictLru
  | markDirty (pageId : Nat)
  | writebackAll
  | pin (pageId : Nat)
  | unpin (pageId : Nat)
  | invalidate (pageId : Nat)
  | flushRange (start stop : Nat)
  deriving DecidableEq

namespace PageCache

def apply (cache : PageCache) : PageOp → PageCache
  | .lookup pageId clk => (cache.lookup pageId clk).2
  | .insert pageId data clk => cache.insert pageId data clk
  | .evictLru => cache.evictLru.2
  | .markDirty pageId => cache.markDirty pageId
  | .writebackAll => cache.writebackAll.2
  | .pin pageId => (cache.pin pageId).2
  | .unpin pageId => (cache.unpin pageId).2
  | .invalidate pageId => (cache.invalidate pageId).2
  | .flushRange start stop => (cache.flushRange start stop).2

/-! ### The entries -/

variable {cache : PageCache} {id a : Nat}

theorem victim_eq_some (h : cache.victim = some id) :
    id ∈ cache.lruOrder ∧ ∃ e, cache.entries[id]? = some e ∧ e.pinCount = 0 := by
  refine ⟨List.mem_of_find?_eq_some h, ?_⟩
  have hany := List.find?_some h
  obtain ⟨e, he, hpin⟩ := (Option.any_eq_true _ _).mp hany
  exact ⟨e, he, beq_iff_eq.mp hpin⟩

@[simp] theorem get_drop (cache : PageCache) (id a : Nat) :
    (cache.drop id).entries[a]? = if id = a then none else cache.entries[a]? := get_erase ..

theorem mem_retained : a ∈ cache.retained id ↔ a ∈ cache.lruOrder ∧ a ≠ id := by
  rw [retained, List.mem_filter, bne_iff_ne]

theorem evictLru_cases (cache : PageCache) :
    (cache.victim = none ∧ cache.evictLru = (false, cache)) ∨
      ∃ id, cache.victim = some id ∧
        cache.evictLru = (true, {cache.drop id with evictions := cache.evictions + 1}) := by
  unfold evictLru
  cases h : cache.victim with
  | none => exact .inl ⟨rfl, rfl⟩
  | some id => exact .inr ⟨id, rfl, rfl⟩

@[simp] theorem get_modify (cache : PageCache) (id a : Nat) (f : PageCacheEntry → PageCacheEntry) :
    (cache.modify id f).entries[a]? = if id = a then cache.entries[a]?.map f else cache.entries[a]? :=
  Base.get_modify ..

@[simp] theorem get_writeback (cache : PageCache) (p : Nat → Bool) (a : Nat) :
    (cache.writeback p).2.entries[a]? =
      cache.entries[a]?.map fun e => if p a then {e with dirty := false} else e := by
  rw [writeback, Std.ExtTreeMap.getElem?_map]

@[simp] theorem get_insert (cache : PageCache) (id a : Nat) (data : Bytes) (clk : Nat) :
    (cache.insert id data clk).entries[a]? =
      if id = a then some ⟨id, data, false, clk, 0⟩ else cache.makeRoom.entries[a]? := Base.get_insert ..

end PageCache
end ChaosKernel.Memory
