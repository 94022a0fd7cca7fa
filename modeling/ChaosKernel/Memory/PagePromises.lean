import ChaosKernel.Base.Run
import ChaosKernel.Memory.PageCache

/-! Pinned and dirty pages.

A pin promises that the page stays, a dirty mark that its data is not lost before it
is written back. A world counts the pins since a page was cached and remembers the
marks that were not written back. `evict_lru` respects the pins and not the marks, and
`insert` of a cached page forgets both. -/
namespace ChaosKernel.Memory
open Base

structure PromiseWorld where
  cache : PageCache
  /-- Pins less unpins of a page since it was cached. -/
  pins : Nat → Int
  /-- The page was marked and not written back. -/
  marked : Nat → Bool

namespace PromiseWorld

def init (capacity : Nat) : PromiseWorld := ⟨.new capacity, fun _ => 0, fun _ => false⟩

/-- The pins after an operation. A page that is not cached is not pinned, and the count starts anew
when a page is cached or invalidated. -/
def pinsAfter (w : PromiseWorld) : PageOp → Nat → Int
  | .pin id, a => if a = id ∧ a ∈ w.cache.entries then w.pins a + 1 else w.pins a
  | .unpin id, a => if a = id ∧ a ∈ w.cache.entries then w.pins a - 1 else w.pins a
  | .insert id _ _, a => if a = id ∧ a ∉ w.cache.entries then 0 else w.pins a
  | .invalidate id, a => if a = id then 0 else w.pins a
  | _, a => w.pins a

/-- The marks after an operation. -/
def markedAfter (w : PromiseWorld) : PageOp → Nat → Bool
  | .markDirty id, a => if a = id ∧ a ∈ w.cache.entries then true else w.marked a
  | .insert id _ _, a => if a = id ∧ a ∉ w.cache.entries then false else w.marked a
  | .invalidate id, a => if a = id then false else w.marked a
  | .writebackAll, _ => false
  | .flushRange start stop, a => w.marked a && !decide (start ≤ a ∧ a < stop)
  | _, a => w.marked a

end PromiseWorld

/-- No marked page is evicted, and no page is inserted anew that is pinned or marked. -/
def Spares (w : PromiseWorld) : PageOp → Prop
  | .insert id _ _ =>
    (id ∈ w.cache.entries → w.pins id ≤ 0 ∧ w.marked id = false) ∧
      (w.cache.capacity ≤ w.cache.entries.size → ∀ v, w.cache.victim = some v → w.marked v = false)
  | .evictLru => ∀ v, w.cache.victim = some v → w.marked v = false
  | _ => True

/-! ### One page -/

/-- What the cache holds of a page is what was promised for it. -/
structure PageKept (pins : Int) (marked : Bool) (entry : Option PageCacheEntry) : Prop where
  cached : 0 < pins ∨ marked = true → entry.isSome
  pinned : ∀ e, entry = some e → pins ≤ e.pinCount
  dirty : ∀ e, entry = some e → marked = true → e.dirty = true

namespace PageKept
variable {pins pins' : Int} {marked marked' : Bool} {entry : Option PageCacheEntry}

theorem free (hpins : pins ≤ 0) (hmarked : marked = false) : PageKept pins marked entry where
  cached h := by
    rcases h with h | h
    · omega
    · rw [hmarked] at h
      cases h
  pinned e _ := hpins.trans (Int.natCast_nonneg _)
  dirty e _ h := by
    rw [hmarked] at h
    cases h

theorem some_iff {e : PageCacheEntry} :
    PageKept pins marked (some e) ↔ pins ≤ e.pinCount ∧ (marked = true → e.dirty = true) := by
  constructor
  · intro h
    exact ⟨h.pinned e rfl, h.dirty e rfl⟩
  · intro h
    refine ⟨fun _ => rfl, fun e' he => ?_, fun e' he => ?_⟩ <;> cases he
    · exact h.1
    · exact h.2

theorem map (h : PageKept pins marked entry) {f : PageCacheEntry → PageCacheEntry}
    (hnone : entry = none → pins' = pins ∧ (marked' = true → marked = true))
    (hsome : ∀ e, entry = some e → pins ≤ e.pinCount → (marked = true → e.dirty = true) →
      pins' ≤ (f e).pinCount ∧ (marked' = true → (f e).dirty = true)) :
    PageKept pins' marked' (entry.map f) := by
  cases entry with
  | none =>
    obtain ⟨hpins, hmarked⟩ := hnone rfl
    refine ⟨fun h' => h.cached (h'.imp (fun hp => hpins ▸ hp) hmarked), fun e he => ?_, fun e he => ?_⟩ <;> cases he
  | some e =>
    obtain ⟨hpins, hdirty⟩ := some_iff.mp h
    exact some_iff.mpr (hsome e rfl hpins hdirty)

end PageKept

/-- The promises, page by page. -/
def AllKept (w : PromiseWorld) : Prop := ∀ id, PageKept (w.pins id) (w.marked id) w.cache.entries[id]?

variable {cache : PageCache} {id v clk a : Nat} {w : PromiseWorld}

theorem PageCache.evictLru_get (h : cache.victim ≠ some id) :
    cache.evictLru.2.entries[id]? = cache.entries[id]? := by
  rcases cache.evictLru_cases with ⟨_, heq⟩ | ⟨v, hv, heq⟩
  · rw [heq]
  · rw [heq]
    show (cache.drop v).entries[id]? = _
    have hne : v ≠ id := fun hvid => h (hvid ▸ hv)
    rw [get_drop, if_neg hne]

theorem AllKept.pins_victim (h : AllKept w) (hv : w.cache.victim = some v) : w.pins v ≤ 0 := by
  obtain ⟨_, e, he, hpin⟩ := PageCache.victim_eq_some hv
  have hle := (h v).pinned e he
  rwa [hpin] at hle

theorem AllKept.evictLru (h : AllKept w) (hspare : ∀ v, w.cache.victim = some v → w.marked v = false) :
    AllKept ⟨w.cache.evictLru.2, w.pins, w.marked⟩ := by
  intro id
  by_cases hv : w.cache.victim = some id
  · exact .free (h.pins_victim hv) (hspare id hv)
  · have heq := PageCache.evictLru_get hv
    show PageKept (w.pins id) (w.marked id) w.cache.evictLru.2.entries[id]?
    rw [heq]
    exact h id

theorem AllKept.makeRoom (h : AllKept w)
    (hspare : w.cache.capacity ≤ w.cache.entries.size → ∀ v, w.cache.victim = some v → w.marked v = false) :
    AllKept ⟨w.cache.makeRoom, w.pins, w.marked⟩ := by
  unfold PageCache.makeRoom
  split
  · next hfull => exact h.evictLru (hspare hfull)
  · exact h

theorem AllKept.insert (h : AllKept w) {data : Bytes} (hspare : Spares w (.insert id data clk)) (a : Nat) :
    PageKept (w.pinsAfter (.insert id data clk) a) (w.markedAfter (.insert id data clk) a)
      (w.cache.insert id data clk).entries[a]? := by
  obtain ⟨hagain, hroom⟩ := hspare
  rw [PageCache.get_insert]
  by_cases ha : id = a
  · subst ha
    by_cases hmem : id ∈ w.cache.entries
    · obtain ⟨hpins, hmarked⟩ := hagain hmem
      simp only [PromiseWorld.pinsAfter, PromiseWorld.markedAfter, hmem, not_true, and_false, if_false]
      exact .free hpins hmarked
    · simp only [PromiseWorld.pinsAfter, PromiseWorld.markedAfter, hmem, not_false_eq_true, and_self, if_true]
      exact .free le_rfl rfl
  · simp only [PromiseWorld.pinsAfter, PromiseWorld.markedAfter, Ne.symm ha, false_and, if_false, if_neg ha]
    exact h.makeRoom hroom a

theorem AllKept.modify (h : AllKept w) (pageId a : Nat) {f : PageCacheEntry → PageCacheEntry} {pins : Int}
    {marked : Bool} (hother : ¬(a = pageId ∧ a ∈ w.cache.entries) → pins = w.pins a ∧ marked = w.marked a)
    (hsome : a = pageId ∧ a ∈ w.cache.entries → ∀ e : PageCacheEntry, w.pins a ≤ e.pinCount →
      (w.marked a = true → e.dirty = true) → pins ≤ (f e).pinCount ∧ (marked = true → (f e).dirty = true)) :
    PageKept pins marked (w.cache.modify pageId f).entries[a]? := by
  rw [PageCache.get_modify]
  by_cases ha : pageId = a
  · rw [if_pos ha]
    refine (h a).map (fun hnone => ?_) fun e he => hsome ⟨ha.symm, ?_⟩ e
    · obtain ⟨hp, hm⟩ := hother fun hmem => by
        rw [Std.ExtTreeMap.mem_iff_isSome_getElem?, hnone] at hmem
        cases hmem.2
      exact ⟨hp, fun hmarked => hm ▸ hmarked⟩
    · rw [Std.ExtTreeMap.mem_iff_isSome_getElem?, he]
      rfl
  · obtain ⟨hp, hm⟩ := hother fun hmem => ha hmem.1.symm
    rw [if_neg ha, hp, hm]
    exact h a

theorem AllKept.writeback (h : AllKept w) (p : Nat → Bool) (a : Nat) :
    PageKept (w.pins a) (w.marked a && !p a) (w.cache.writeback p).2.entries[a]? := by
  rw [PageCache.get_writeback]
  refine (h a).map (fun _ => ⟨rfl, fun hm => (Bool.and_eq_true_iff.mp hm).1⟩) fun e _ hp hd => ?_
  cases hpa : p a with
  | true => exact ⟨hp, fun hm => absurd (Bool.and_eq_true_iff.mp hm).2 Bool.false_ne_true⟩
  | false => exact ⟨hp, fun hm => hd (Bool.and_eq_true_iff.mp hm).1⟩

end ChaosKernel.Memory
