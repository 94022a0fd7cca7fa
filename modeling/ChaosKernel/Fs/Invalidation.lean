import ChaosKernel.Fs.CacheRuns

/-! What an invalidation finds.

`invalidate` looks in the chain of the plain remainder of the block number, which is
another one than `fetch` and `put` use for most of the large block numbers, and then
leaves the slot where it is. It clears its block exactly when the two chains are one or
there is no slot to clear (`invalidates_along_iff`). -/
namespace ChaosKernel.Fs
open Base

namespace Storage
variable {n k : Nat} {st : Storage} {ok : Bytes → Prop}

/-- The fetch of `k` is a read of the disk. -/
def ReadsDisk (st : Storage) (k : Nat) : Prop :=
  (st.fetch k).1 = (st.disk.readBlock k blockSz).1.map some ∧
    (st.fetch k).2.disk = (st.disk.readBlock k blockSz).2

theorem KeptWith.readsDisk (h : KeptWith ok n st) (hn : 0 < n) (hnone : ∀ slot ∈ st.slots, slot.id ≠ k) :
    st.ReadsDisk k := by
  rcases h.fetch_cases k with ⟨hchain, _⟩ | ⟨items, slot, hitems, hslot, _⟩ | ⟨items, _, _, hfetch⟩
  · have hlt : st.cache.chainOf k < st.cache.chains.length := by
      rw [h.length, ← h.width]
      exact Nat.mod_lt _ (h.width ▸ hn)
    rw [List.getElem?_eq_getElem hlt] at hchain
    cases hchain
  · obtain ⟨hmem, hid⟩ := lookup_some hslot
    exact absurd hid (hnone slot ((h.mem_chain hitems).mp hmem).1)
  · rw [ReadsDisk, hfetch, Disk.readBlock_finite h.errs]
    exact ⟨rfl, rfl⟩

theorem KeptWith.mem_invalidate (h : KeptWith ok n st) (hn : 0 < n) {slot : CacheSlot} :
    slot ∈ (st.invalidate k).2.slots ↔
      slot ∈ st.slots ∧ (st.cache.chainOf slot.id = k % n → slot.id ≠ k) := by
  have hlt : k % n < st.cache.chains.length := by
    rw [h.length]
    exact Nat.mod_lt _ hn
  have hitems := List.getElem?_eq_getElem hlt
  have hafter : (st.invalidate k).2 =
      st.setChain (k % n) (st.cache.chains[k % n].filter fun slot => slot.id ≠ k) := by
    simp only [Storage.invalidate, h.width, hitems]
  rw [hafter, h.mem_setChain hitems, List.mem_filter, h.mem_chain hitems, decide_eq_true_eq]
  by_cases hplace : st.cache.chainOf slot.id = k % n
  · simp only [hplace, and_true, forall_const, ne_eq, not_true_eq_false, and_false, or_false]
  · simp only [hplace, and_false, false_and, false_or, ne_eq, not_false_eq_true, and_true, false_imp_iff]

theorem KeptWith.invalidate_clears_iff (h : KeptWith ok n st) (hn : 0 < n) (k : Nat) :
    ((∀ slot ∈ (st.invalidate k).2.slots, slot.id ≠ k) ∧ (st.invalidate k).2.ReadsDisk k) ↔
      st.cache.chainOf k = k % n ∨ ∀ slot ∈ st.slots, slot.id ≠ k := by
  constructor
  · intro hclear
    by_contra hnot
    push Not at hnot
    obtain ⟨hchain, slot, hslot, hid⟩ := hnot
    refine hclear.1 slot ((h.mem_invalidate hn).mpr ⟨hslot, fun heq => ?_⟩) hid
    rw [hid] at heq
    exact absurd heq hchain
  · intro hfinds
    have hnone : ∀ slot ∈ (st.invalidate k).2.slots, slot.id ≠ k := by
      intro slot hslot hid
      obtain ⟨hold, hother⟩ := (h.mem_invalidate hn).mp hslot
      rcases hfinds with hchain | hnone
      · exact hother (hid ▸ hchain) hid
      · exact hnone slot hold hid
    exact ⟨hnone, (h.invalidate k).readsDisk hn hnone⟩

end Storage

/-! ### Runs -/

namespace CacheWorld

/-- After `invalidate(k)` no chain holds a slot for `k`, and the next fetch reads the disk. -/
def Invalidates (w : CacheWorld) : CacheOp → Prop
  | .invalidate k => (∀ slot ∈ (w.storage.invalidate k).2.slots, slot.id ≠ k) ∧
      (w.storage.invalidate k).2.ReadsDisk k
  | _ => True

/-- The plain remainder of `k` is its chain, or there is no slot for it. -/
def FindsChain (w : CacheWorld) : CacheOp → Prop
  | .invalidate k => w.storage.cache.chainOf k = k % w.storage.cache.width ∨
      ∀ slot ∈ w.storage.slots, slot.id ≠ k
  | _ => True

end CacheWorld

/-- **One slot for a block**, in all states of a run; and **an invalidation clears its block**
wherever the run invalidates one exactly when the plain remainder is the chain of the block, or there
is no slot to clear. -/
theorem invalidates_along_iff (n : Nat) (hn : 0 < n) (ops : List CacheOp) :
    blockCaches.Always (fun w => (w.storage.slots.map CacheSlot.id).Nodup) (CacheWorld.new n) ops ∧
      (blockCaches.Asks CacheWorld.Invalidates (CacheWorld.new n) ops ↔
        blockCaches.Asks CacheWorld.FindsChain (CacheWorld.new n) ops) := by
  have hstep : ∀ w op w', w.storage.KeptWith (fun _ => True) n → blockCaches.step w op = some w' →
      w'.storage.KeptWith (fun _ => True) n :=
    fun _ _ _ h hstep => (CacheWorld.step_cases hstep).keptWith h (fun _ => trivial) fun _ _ _ => trivial
  refine ⟨fun done w _ hrun => (System.invariant_run hstep (Storage.KeptWith.new n) hrun).nodup, ?_⟩
  refine System.asks_iff hstep (fun w op h => ?_) (Storage.KeptWith.new n) ops
  cases op with
  | invalidate k =>
    simp only [CacheWorld.Invalidates, CacheWorld.FindsChain, h.width]
    exact h.invalidate_clears_iff hn k
  | fetch k => exact Iff.rfl
  | put k data => exact Iff.rfl
  | syncAll id => exact Iff.rfl
  | tick id => exact Iff.rfl
  | evictCold maxAge now => exact Iff.rfl
  | setErrs n => exact Iff.rfl

/-- Payloads of one byte and of none, for two blocks on one chain. -/
theorem invalidates_along_iff_three : 0 < 3 ∧
    blockCaches.Always (fun w => (w.storage.slots.map CacheSlot.id).Nodup) (CacheWorld.new 3)
      [.put 5 [1], .put 8 [], .syncAll 0, .fetch 5, .invalidate 5] ∧
      (blockCaches.Asks CacheWorld.Invalidates (CacheWorld.new 3)
          [.put 5 [1], .put 8 [], .syncAll 0, .fetch 5, .invalidate 5] ↔
        blockCaches.Asks CacheWorld.FindsChain (CacheWorld.new 3)
          [.put 5 [1], .put 8 [], .syncAll 0, .fetch 5, .invalidate 5]) :=
  ⟨by decide, invalidates_along_iff 3 (by decide) [.put 5 [1], .put 8 [], .syncAll 0, .fetch 5, .invalidate 5]⟩

/-- Block 128 is on chain 1 of the 64 chains of the kernel, and its plain remainder is 0. -/
theorem invalidate_misses : ¬blockCaches.Asks CacheWorld.Invalidates (CacheWorld.new 64)
    [.fetch 128, .invalidate 128] := by
  intro hall
  have hrun : ((blockCaches.run (CacheWorld.new 64) [.fetch 128]).any fun w =>
      (w.storage.invalidate 128).2.slots.map CacheSlot.id = [128]) = true := by
    decide +kernel
  obtain ⟨w, hrun, hslots⟩ := System.exists_of_run_any hrun
  obtain ⟨slot, hslot, hid⟩ := List.mem_map.mp (hslots ▸ List.mem_singleton_self 128)
  exact (hall [.fetch 128] (.invalidate 128) w List.prefix_rfl hrun).1 slot hslot hid

end ChaosKernel.Fs
