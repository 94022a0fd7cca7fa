import ChaosKernel.Fs.CacheRuns

/-! What a clean slot is worth.

`fetch` makes a clean slot from what it has read, and a write-back clears the mark of
every slot after it has asked the disk to write, whether the disk did or not. While
faults are left they hit the marked slots in the order of the chains, so a pass loses
the first `errs` of them, and the clean slots agree with the disk along a run exactly
when no pass loses anything that the disk does not hold already
(`clean_along_iff`). -/
namespace ChaosKernel.Fs
open Base List

namespace Storage
variable {n k : Nat} {st st' : Storage}

/-- A slot that is not marked is what the disk holds. -/
def Clean (st : Storage) : Prop :=
  ∀ slot ∈ st.slots, slot.modified = false → slot.payload = st.disk.contents slot.id blockSz

/-- The slots whose writes fail in the next pass. -/
def failing (st : Storage) : List CacheSlot :=
  (st.slots.filter CacheSlot.modified).take st.disk.errs

/-! ### One pass -/

variable {items : List CacheSlot}

/-- A pass over slots for different blocks: those that the disk refuses must be there already. -/
theorem flushChain_clean_iff {d : Disk} (hnodup : (items.map CacheSlot.id).Nodup)
    (hsized : ∀ slot ∈ items, slot.payload.length = blockSz) (herrs : d.errs < usizeMax)
    (hclean : ∀ slot ∈ items, slot.modified = false → slot.payload = d.contents slot.id blockSz) :
    (∀ slot ∈ items, slot.payload = (flushChain items d).2.contents slot.id blockSz) ↔
      ∀ slot ∈ (items.filter CacheSlot.modified).take d.errs, slot.payload = d.contents slot.id blockSz := by
  induction items generalizing d with
  | nil => exact iff_of_true (forall_mem_nil _) (by rw [filter_nil, take_nil]; exact forall_mem_nil _)
  | cons slot rest ih =>
    rw [map_cons, nodup_cons] at hnodup
    rw [forall_mem_cons] at hsized hclean
    have hother : ∀ other ∈ rest, slot.id ≠ other.id := fun other hmem heq =>
      hnodup.1 (mem_map.mpr ⟨other, hmem, heq.symm⟩)
    -- the rest of the pass leaves the block of this slot alone
    have hkeep := (flushChain_snd rest (flushSlot slot d).2).2 slot.id fun other hmem => (hother other hmem).symm
    have hle := (flushSlot_snd slot d).1
    have hrest := ih (d := (flushSlot slot d).2) hnodup.2 hsized.2 (Nat.lt_of_le_of_lt hle herrs)
      fun other hmem hmark => by
        rw [(flushSlot_snd slot d).2 other.id (hother other hmem)]
        exact hclean.2 other hmem hmark
    have hcons : (flushChain (slot :: rest) d).2 = (flushChain rest (flushSlot slot d).2).2 := rfl
    rw [forall_mem_cons, hcons, hkeep]
    cases hmark : slot.modified with
    | false =>
      have hflush : (flushSlot slot d).2 = d := by
        simp only [flushSlot, hmark, Bool.false_eq_true, if_false]
      rw [hflush] at hrest ⊢
      rw [filter_cons_of_neg (by rw [hmark]; exact Bool.false_ne_true)]
      exact (and_iff_right (hclean.1 hmark)).trans hrest
    | true =>
      have hflush : (flushSlot slot d).2 = (d.writeBlock slot.id slot.payload).2 := by
        simp only [flushSlot, hmark, if_true]
      rw [filter_cons_of_pos hmark]
      by_cases h0 : d.errs = 0
      · rw [h0] at hle ⊢
        rw [Nat.le_zero.mp hle] at hrest
        refine iff_of_true ⟨?_, hrest.mpr (forall_mem_nil _)⟩ (forall_mem_nil _)
        rw [hflush, Disk.writeBlock_contents_self h0 slot.id hsized.1]
      · have hfaulty := Disk.writeBlock_faulty h0 herrs slot.id slot.payload
        rw [hflush, hfaulty] at hrest ⊢
        obtain ⟨e, he⟩ := Nat.exists_eq_succ_of_ne_zero h0
        simp only [he, Nat.succ_eq_add_one, take_succ_cons, forall_mem_cons, Nat.add_sub_cancel] at hrest ⊢
        exact and_congr_right fun _ => hrest

/-! ### The operations -/

theorem writeBack_slots (st : Storage) : st.writeBack.slots = st.slots.map clean := by
  have hchains : st.writeBack.cache.chains = st.cache.chains.map (List.map clean) :=
    flushChains_fst st.cache.chains st.disk
  rw [slots, hchains, slots, map_flatten]

theorem Kept.writeBack_clean_iff (h : Kept n st) (hclean : st.Clean) :
    st.writeBack.Clean ↔ ∀ slot ∈ st.failing, slot.payload = st.disk.contents slot.id blockSz := by
  have hsized : ∀ slot ∈ st.slots, slot.payload.length = blockSz := by
    intro slot hslot
    obtain ⟨items, hitems, hmem⟩ := mem_flatten.mp hslot
    obtain ⟨ci, hci⟩ := mem_iff_getElem?.mp hitems
    exact (h.chain ci items hci).sized slot hmem
  have hdisk : st.writeBack.disk = (flushChain st.slots st.disk).2 := flushChains_snd st.cache.chains st.disk
  refine Iff.trans ?_ (flushChain_clean_iff h.nodup hsized h.errs hclean)
  rw [Clean, writeBack_slots, List.forall_mem_map, hdisk]
  exact forall_congr' fun slot => imp_congr_right fun _ => forall_prop_of_true rfl

theorem Clean.fetch (hclean : st.Clean) (h : Kept n st) (k : Nat) : (st.fetch k).2.Clean := by
  intro slot hslot hmark
  rw [(h.fetch_disk k).1]
  rcases h.fetch_slots hslot with hold | rfl
  · exact hclean slot hold hmark
  · rfl

theorem mem_upsert_clean {data : Bytes} {slot : CacheSlot} (h : slot ∈ upsert k data items)
    (hmark : slot.modified = false) : slot ∈ items := by
  induction items with
  | nil =>
    rw [mem_singleton.mp h] at hmark
    cases hmark
  | cons first rest ih =>
    unfold upsert at h
    split at h
    · rcases mem_cons.mp h with rfl | hrest
      · cases hmark
      · exact mem_cons_of_mem first hrest
    · rcases mem_cons.mp h with rfl | hrest
      · exact mem_cons_self
      · exact mem_cons_of_mem first (ih hrest)

theorem Clean.put (hclean : st.Clean) (h : Kept n st) (k : Nat) (data : Bytes) : (st.put k data).2.Clean := by
  unfold Storage.put
  dsimp only
  split
  · exact hclean
  · next items hitems =>
    intro slot hslot hmark
    rcases (h.mem_setChain hitems).mp hslot with hmem | hold
    · exact hclean slot ((h.mem_chain hitems).mp (mem_upsert_clean hmem hmark)).1 hmark
    · exact hclean slot hold.1 hmark

theorem Clean.of_subset (hclean : st.Clean) (hdisk : st'.disk = st.disk) (hslots : st'.slots ⊆ st.slots) :
    st'.Clean := by
  intro slot hslot hmark
  rw [hdisk]
  exact hclean slot (hslots hslot) hmark

theorem Clean.invalidate (hclean : st.Clean) (h : Kept n st) (k : Nat) : (st.invalidate k).2.Clean := by
  unfold Storage.invalidate
  dsimp only
  split
  · exact hclean
  · next items hitems =>
    refine hclean.of_subset rfl fun slot hslot => ?_
    rcases (h.mem_setChain hitems).mp hslot with hmem | hold
    · exact ((h.mem_chain hitems).mp (mem_of_mem_filter hmem)).1
    · exact hold.1

theorem Clean.evictCold (hclean : st.Clean) (maxAge now : Nat) : (st.evictCold maxAge now).2.Clean := by
  refine hclean.of_subset rfl ?_
  rw [evictCold_slots]
  exact filter_subset_self _

theorem Clean.new (n : Nat) : Clean ⟨BlockCache.new n, Disk.new⟩ := by
  intro slot hslot
  obtain ⟨items, hitems, hmem⟩ := mem_flatten.mp hslot
  rw [eq_of_mem_replicate hitems] at hmem
  cases hmem

end Storage

/-! ### Runs -/

namespace CacheWorld
variable {n : Nat} {w w' : CacheWorld}

/-- What a write-back pass cannot write is on the disk already. -/
def LosesNothing (w : CacheWorld) : CacheOp → Prop
  | .syncAll _ | .tick _ =>
    ∀ slot ∈ w.storage.failing, slot.payload = w.storage.disk.contents slot.id blockSz
  | _ => True

theorem step_clean_iff (h : w.storage.Kept n) (hclean : w.storage.Clean) {op : CacheOp}
    (hstep : caches.step w op = some w') : w'.storage.Clean ↔ w.LosesNothing op := by
  cases step_cases (caches_step hstep).2 with
  | fetch => exact iff_of_true (hclean.fetch h _) trivial
  | put => exact iff_of_true (hclean.put h _ _) trivial
  | syncAll => exact h.writeBack_clean_iff hclean
  | tick => exact h.writeBack_clean_iff hclean
  | invalidate => exact iff_of_true (hclean.invalidate h _) trivial
  | evictCold => exact iff_of_true (hclean.evictCold _ _) trivial
  | setErrs => exact iff_of_true hclean trivial

end CacheWorld

/-- **A clean slot is on the disk** in all states of a run exactly when no write-back pass of the run
meets a fault at a slot whose payload the disk does not hold. -/
theorem clean_along_iff (n : Nat) (ops : List CacheOp) :
    caches.Always (fun w => w.storage.Clean) (CacheWorld.new n) ops ↔
      caches.Guarded CacheWorld.LosesNothing (CacheWorld.new n) ops :=
  System.always_iff_guarded (J := fun w => w.storage.Kept n)
    (fun _ _ _ h hstep => CacheWorld.step_kept h hstep)
    (fun _ _ _ h hclean hstep => CacheWorld.step_clean_iff h hclean hstep)
    (Storage.KeptWith.new n) (Storage.Clean.new n)

/-- The disk refuses the only write, and the slot is clean after the tick. -/
theorem tick_loses_write : ¬caches.Always (fun w => w.storage.Clean) (CacheWorld.new 64)
    [.put 0 (List.replicate 512 1), .setErrs 1, .tick 1] := by
  intro hall
  have hrun : ((caches.run (CacheWorld.new 64) [.put 0 (List.replicate 512 1), .setErrs 1, .tick 1]).any fun w =>
      w.storage.slots = [⟨0, List.replicate 512 1, false⟩] ∧
        w.storage.disk.contents 0 blockSz = List.replicate 512 0xAA) = true := by
    decide +kernel
  obtain ⟨w, hrun, hslots, hdisk⟩ := System.exists_of_run_any hrun
  have hmem : (⟨0, List.replicate 512 1, false⟩ : CacheSlot) ∈ w.storage.slots := by
    rw [hslots]
    exact mem_singleton_self _
  have hsame := hall _ w prefix_rfl hrun _ hmem rfl
  rw [hdisk] at hsame
  revert hsame
  decide +kernel

end ChaosKernel.Fs
