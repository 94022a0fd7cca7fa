import ChaosKernel.Base.Recency
import ChaosKernel.Base.Run
import ChaosKernel.Memory.PageCache

/-! The page cache as a cache that evicts what was used longest ago.

A world keeps the lookups and inserts beside the cache. While `lru_order` lists every
cached page once and by recency (`Lru`), an eviction takes the unpinned page that was
used longest ago. Every operation keeps this, with one exception: `insert` of a page
that is cached when the new entry is made lists the page a second time. -/
namespace ChaosKernel.Memory
open Base List

structure PageWorld where
  cache : PageCache
  uses : List Nat

namespace PageWorld

def init (capacity : Nat) : PageWorld := ⟨.new capacity, []⟩

/-- What an operation looks up or inserts. -/
def used : PageOp → List Nat
  | .lookup pageId _ => [pageId]
  | .insert pageId _ _ => [pageId]
  | _ => []

def Unpinned (w : PageWorld) (id : Nat) : Prop := ∃ e, w.cache.entries[id]? = some e ∧ e.pinCount = 0

/-- The unpinned page that was used longest ago. -/
def Oldest (w : PageWorld) (id : Nat) : Prop :=
  w.Unpinned id ∧ ∀ other, w.Unpinned other → other ≠ id → age w.uses other < age w.uses id

end PageWorld

def pages : System PageWorld PageOp where
  step w op := some ⟨w.cache.apply op, w.uses ++ PageWorld.used op⟩

structure Lru (w : PageWorld) : Prop where
  once : w.cache.lruOrder.Nodup
  lists : ∀ id, id ∈ w.cache.lruOrder ↔ id ∈ w.cache.entries
  ordered : ByRecency w.uses w.cache.lruOrder
  evicts : (∃ id, w.Oldest id ∧
      w.cache.evictLru = (true, {w.cache.drop id with evictions := w.cache.evictions + 1})) ∨
    (∀ id, ¬w.Unpinned id) ∧ w.cache.evictLru = (false, w.cache)

/-- The page is not cached when its entry is made: it was not cached before, or it is the page
that is evicted for it. -/
def InsertsFresh (w : PageWorld) : PageOp → Prop
  | .insert pageId _ _ => pageId ∈ w.cache.entries →
      w.cache.capacity ≤ w.cache.entries.size ∧ w.cache.victim = some pageId
  | _ => True

/-! ### One operation -/

/-- The order lists what is cached, by recency. -/
structure Listed (uses : List Nat) (cache : PageCache) : Prop where
  lists : ∀ id, id ∈ cache.lruOrder ↔ cache.entries[id]?.isSome
  ordered : ByRecency uses cache.lruOrder

namespace Listed
variable {uses : List Nat} {cache : PageCache} (h : Listed uses cache)
include h

theorem lru : Lru ⟨cache, uses⟩ where
  once := h.ordered.nodup
  lists id := (h.lists id).trans Std.ExtTreeMap.mem_iff_isSome_getElem?.symm
  ordered := h.ordered
  evicts := by
    have hlisted : ∀ id, PageWorld.Unpinned ⟨cache, uses⟩ id →
        id ∈ cache.lruOrder ∧ cache.entries[id]?.any (·.pinCount == 0) = true := by
      intro id hid
      obtain ⟨e, he, hpin⟩ := hid
      have he : cache.entries[id]? = some e := he
      exact ⟨(h.lists id).mpr (by rw [he]; rfl), (Option.any_eq_true _ _).mpr ⟨e, he, beq_iff_eq.mpr hpin⟩⟩
    rcases cache.evictLru_cases with ⟨hnone, heq⟩ | ⟨id, hsome, heq⟩
    · refine .inr ⟨fun id hid => ?_, heq⟩
      exact find?_eq_none.mp hnone id (hlisted id hid).1 (hlisted id hid).2
    · refine .inl ⟨id, ⟨(PageCache.victim_eq_some hsome).2, fun other hother hne => ?_⟩, heq⟩
      exact h.ordered.find?_oldest hsome (hlisted other hother).1 (hlisted other hother).2 hne

theorem drop (id : Nat) : Listed uses (cache.drop id) where
  lists a := by
    rw [PageCache.get_drop]
    show a ∈ cache.retained id ↔ _
    rw [PageCache.mem_retained, h.lists]
    by_cases ha : id = a
    · simp [ha]
    · simp [ha, Ne.symm ha]
  ordered := h.ordered.filter _

theorem evictLru : Listed uses cache.evictLru.2 := by
  rcases cache.evictLru_cases with ⟨_, heq⟩ | ⟨id, _, heq⟩
  · rwa [heq]
  · rw [heq]
    exact ⟨(h.drop id).lists, (h.drop id).ordered⟩

theorem makeRoom : Listed uses cache.makeRoom := by
  unfold PageCache.makeRoom
  split
  · exact h.evictLru
  · exact h

theorem lookup (id clk : Nat) : Listed (uses ++ [id]) (cache.lookup id clk).2 := by
  unfold PageCache.lookup
  cases he : cache.entries[id]? with
  | none =>
    have hnot : id ∉ cache.lruOrder := fun hmem => by
      have hsome := (h.lists id).mp hmem
      rw [he] at hsome
      cases hsome
    exact ⟨h.lists, h.ordered.used hnot⟩
  | some e =>
    have hnot : id ∉ cache.retained id := fun hmem => (PageCache.mem_retained.mp hmem).2 rfl
    refine ⟨fun a => ?_, (h.ordered.filter _).push hnot⟩
    show a ∈ cache.retained id ++ [id] ↔ (cache.entries.insert id _)[a]?.isSome
    rw [mem_append, mem_singleton, PageCache.mem_retained, h.lists, get_insert]
    by_cases ha : id = a
    · simp [ha]
    · simp [ha, Ne.symm ha]

theorem inPlace {cache' : PageCache} (horder : cache'.lruOrder = cache.lruOrder)
    (hkeys : ∀ a : Nat, cache'.entries[a]?.isSome = cache.entries[a]?.isSome) : Listed uses cache' where
  lists a := by rw [horder, hkeys, h.lists]
  ordered := horder ▸ h.ordered

theorem modify (id : Nat) (f : PageCacheEntry → PageCacheEntry) : Listed uses (cache.modify id f) := by
  refine h.inPlace rfl fun a => ?_
  rw [PageCache.get_modify]
  split
  · rw [Option.isSome_map]
  · rfl

theorem writeback (p : Nat → Bool) : Listed uses (cache.writeback p).2 := by
  refine h.inPlace rfl fun a => ?_
  rw [PageCache.get_writeback, Option.isSome_map]

/-- A new entry is listed once exactly when the page is not cached. -/
theorem insert_iff (id : Nat) (data : Bytes) (clk : Nat) :
    (cache.insert id data clk).lruOrder.Nodup ↔ cache.makeRoom.entries[id]? = none := by
  show (cache.makeRoom.lruOrder ++ [id]).Nodup ↔ _
  rw [nodup_append]
  constructor
  · intro hn
    by_contra hsome
    have hmem := (h.makeRoom.lists id).mpr (Option.isSome_iff_ne_none.mpr hsome)
    exact hn.2.2 id hmem id (mem_singleton_self id) rfl
  · intro hnone
    refine ⟨h.makeRoom.ordered.nodup, nodup_singleton id, fun a ha b hb heq => ?_⟩
    rw [mem_singleton.mp hb] at heq
    rw [heq, h.makeRoom.lists, hnone] at ha
    cases ha

theorem insert {id : Nat} (data : Bytes) (clk : Nat) (hnone : cache.makeRoom.entries[id]? = none) :
    Listed (uses ++ [id]) (cache.insert id data clk) := by
  have hnot : id ∉ cache.makeRoom.lruOrder := fun hmem => by
    have hsome := (h.makeRoom.lists id).mp hmem
    rw [hnone] at hsome
    cases hsome
  refine ⟨fun a => ?_, h.makeRoom.ordered.push hnot⟩
  show a ∈ cache.makeRoom.lruOrder ++ [id] ↔ _
  rw [mem_append, mem_singleton, h.makeRoom.lists, PageCache.get_insert]
  by_cases ha : id = a
  · simp [ha]
  · simp [ha, Ne.symm ha]

end Listed

theorem Lru.listed {w : PageWorld} (h : Lru w) : Listed w.uses w.cache where
  lists id := (h.lists id).trans Std.ExtTreeMap.mem_iff_isSome_getElem?
  ordered := h.ordered

theorem PageCache.makeRoom_eq_none_iff (cache : PageCache) (id : Nat) :
    cache.makeRoom.entries[id]? = none ↔
      (id ∈ cache.entries → cache.capacity ≤ cache.entries.size ∧ cache.victim = some id) := by
  rw [Std.ExtTreeMap.mem_iff_isSome_getElem?, ← Option.not_isSome_iff_eq_none]
  unfold makeRoom
  split
  · next hfull =>
    rcases cache.evictLru_cases with ⟨hnone, heq⟩ | ⟨v, hsome, heq⟩
    · rw [heq, hnone]
      simp
    · rw [heq, hsome]
      show ¬((cache.drop v).entries[id]?).isSome ↔ _
      rw [get_drop]
      by_cases hv : v = id
      · simp [hv, hfull]
      · simp [hv]
  · next hroom => simp [hroom]

theorem step_lru (w : PageWorld) (op : PageOp) (w' : PageWorld) (hw : Lru w) (h : pages.step w op = some w') :
    Lru w' ↔ InsertsFresh w op := by
  have hl := hw.listed
  cases h
  cases op with
  | insert id data clk =>
    refine Iff.trans ?_ (w.cache.makeRoom_eq_none_iff id)
    exact ⟨fun h => (hl.insert_iff id data clk).mp h.once, fun h => (hl.insert data clk h).lru⟩
  | lookup id clk => exact iff_of_true (hl.lookup id clk).lru trivial
  | evictLru => exact iff_of_true ((append_nil w.uses).symm ▸ hl.evictLru.lru) trivial
  | markDirty id => exact iff_of_true ((append_nil w.uses).symm ▸ (hl.modify id _).lru) trivial
  | pin id => exact iff_of_true ((append_nil w.uses).symm ▸ (hl.modify id _).lru) trivial
  | unpin id => exact iff_of_true ((append_nil w.uses).symm ▸ (hl.modify id _).lru) trivial
  | writebackAll => exact iff_of_true ((append_nil w.uses).symm ▸ (hl.writeback _).lru) trivial
  | flushRange start stop => exact iff_of_true ((append_nil w.uses).symm ▸ (hl.writeback _).lru) trivial
  | invalidate id =>
    refine iff_of_true ((append_nil w.uses).symm ▸ Listed.lru ?_) trivial
    show Listed w.uses (w.cache.invalidate id).2
    unfold PageCache.invalidate
    split
    · exact hl.drop id
    · exact hl

theorem lru_init (capacity : Nat) : Lru (.init capacity) := by
  refine Listed.lru ⟨fun id => ?_, List.Pairwise.nil⟩
  simp [PageCache.new]

/-! ### Runs -/

/-- **A run keeps the order of use, and evicts by it, exactly when no page is inserted that is cached
at that moment.** -/
theorem lru_iff (capacity : Nat) (ops : List PageOp) :
    pages.Always Lru (.init capacity) ops ↔ pages.Guarded InsertsFresh (.init capacity) ops :=
  System.always_iff_guarded (J := fun _ => True) (fun _ _ _ _ _ => trivial)
    (fun w op w' _ hw h => step_lru w op w' hw h) trivial (lru_init capacity)

/-- A page is inserted twice and listed twice. -/
theorem page_listed_twice : ¬pages.Always Lru (.init 2) [.insert 7 [] 0, .insert 7 [] 0] := by
  intro h
  have horder : ((pages.run (.init 2) [.insert 7 [] 0, .insert 7 [] 0]).any
      fun w => w.cache.lruOrder == [7, 7]) = true := by decide +kernel
  obtain ⟨w, hw, heq⟩ := (Option.any_eq_true _ _).mp horder
  have honce := (h _ w (prefix_refl _) hw).once
  rw [beq_iff_eq.mp heq] at honce
  exact absurd honce (by decide)

end ChaosKernel.Memory
