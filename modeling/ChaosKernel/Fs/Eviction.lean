import ChaosKernel.Fs.WriteBack

/-! What an eviction may drop.

`evict_cold` drops the marked slots that are old and keeps all others, so what it drops
is what has not been written back. A block is then read from the disk again. Over a disk
without faults the readers do not notice exactly when every slot it drops happens to be
what the disk holds (`evicts_along_iff`). -/
namespace ChaosKernel.Fs
open Base List

namespace Storage
variable {n : Nat} {st : Storage}
variable {slot : CacheSlot} {k maxAge ci now : Nat}

theorem GoodChain.lookup_mem {chainOf : Nat → Nat} {items : List CacheSlot} {ok : Bytes → Prop}
    (h : GoodChain ok chainOf ci items) (hslot : slot ∈ items) : lookup items slot.id = some slot := by
  cases hfound : lookup items slot.id with
  | none => exact absurd rfl (lookup_none hfound slot hslot)
  | some found =>
    obtain ⟨hmem, hid⟩ := lookup_some hfound
    exact congrArg some (inj_on_of_nodup_map h.nodup hmem hslot hid)

theorem KeptWith.view_slot {ok : Bytes → Prop} (h : KeptWith ok n st) (hslot : slot ∈ st.slots) :
    st.view slot.id = slot.payload := by
  obtain ⟨items, hitems, hmem⟩ := mem_flatten.mp hslot
  obtain ⟨ci, hci⟩ := mem_iff_getElem?.mp hitems
  have hchain := h.chain ci items hci
  rw [← hchain.placed slot hmem] at hci
  rw [view_eq hci, hchain.lookup_mem hmem]
  rfl

theorem view_disk (hnone : ∀ slot ∈ st.slots, slot.id ≠ k) : st.view k = st.disk.contents k blockSz := by
  unfold view
  rw [getD_eq_getElem?_getD]
  cases hitems : st.cache.chains[st.cache.chainOf k]? with
  | none => rfl
  | some items =>
    rw [Option.getD_some]
    cases hslot : lookup items k with
    | none => rfl
    | some slot =>
      obtain ⟨hmem, hid⟩ := lookup_some hslot
      exact absurd hid (hnone slot (mem_flatten.mpr ⟨items, mem_of_getElem? hitems, hmem⟩))

theorem Kept.healthy (h : Kept n st) (hn : 0 < n) (herrs : st.disk.errs = 0) : Healthy st where
  width := h.length.trans h.width.symm
  nonempty := h.width ▸ hn
  placed := fun ci items hitems => (h.chain ci items hitems).placed
  sized := fun ci items hitems => (h.chain ci items hitems).sized
  errs := herrs

theorem Kept.view_evicted (h : Kept n st) (hslot : slot ∈ st.slots)
    (hdrop : retained maxAge now slot = false) :
    (st.evictCold maxAge now).2.view slot.id = st.disk.contents slot.id blockSz := by
  refine view_disk fun other hother hid => ?_
  rw [evictCold_slots, mem_filter] at hother
  rw [inj_on_of_nodup_map h.nodup hother.1 hslot hid, hdrop] at hother
  exact Bool.false_ne_true hother.2

theorem retained_eq_false :
    retained maxAge now slot = false ↔
      slot.modified = true ∧ maxAge ≤ wrappingSub now (wrappingMul slot.id 3) := by
  simp only [retained, Bool.or_eq_false_iff, Bool.not_eq_false', decide_eq_false_iff_not, Nat.not_lt]

/-! ### Marked slots -/

theorem Kept.fetch_marked (h : Kept n st) (hslot : slot ∈ (st.fetch k).2.slots)
    (hmark : slot.modified = true) : slot ∈ st.slots := by
  rcases h.fetch_slots hslot with hold | rfl
  · exact hold
  · cases hmark

theorem Kept.put_slots (h : Kept n st) {data : Bytes} (hdata : data.length = blockSz)
    (hput : (st.put k data).1 = .ok ()) (hslot : slot ∈ (st.put k data).2.slots) :
    slot.id = k ∧ slot.payload = data ∨ slot ∈ st.slots ∧ slot.id ≠ k := by
  unfold Storage.put at hput hslot
  dsimp only at hput hslot
  split at hput
  · cases hput
  · next items hitems =>
    rw [hitems] at hslot
    rcases (h.mem_setChain hitems).mp hslot with hmem | hold
    · rcases mem_upsert hmem with hnew | hmem'
      · exact .inl hnew
      · by_cases hid : slot.id = k
        · have hfound := ((h.chain _ items hitems).upsert rfl hdata).lookup_mem hmem
          have hpayload := lookup_upsert k data items slot.id
          rw [hfound, if_pos hid] at hpayload
          exact .inl ⟨hid, Option.some.inj hpayload⟩
        · exact .inr ⟨((h.mem_chain hitems).mp hmem').1, hid⟩
    · exact .inr ⟨hold.1, fun hid => hold.2 (congrArg st.cache.chainOf hid)⟩

theorem writeBack_errs (herrs : st.disk.errs = 0) : st.writeBack.disk.errs = 0 := by
  have hle := (flushChain_snd st.cache.chains.flatten st.disk).1
  rw [← flushChains_snd, herrs] at hle
  exact Nat.le_zero.mp hle

theorem put_disk (st : Storage) (k : Nat) (data : Bytes) : (st.put k data).2.disk = st.disk := by
  unfold Storage.put
  dsimp only
  split <;> rfl

end Storage

namespace CacheWorld
variable {n : Nat} {w w' : CacheWorld}

/-- A fetch returns the payload of the last put. -/
def Transparent (w : CacheWorld) : Prop :=
  ∀ k data, w.last[k]? = some data → (w.storage.fetch k).1 = .ok (some data)

/-- What an eviction drops is on the disk. -/
def DropsStored (w : CacheWorld) : CacheOp → Prop
  | .evictCold maxAge now => ∀ slot ∈ w.storage.slots, slot ∉ (w.storage.evictCold maxAge now).2.slots →
      slot.payload = w.storage.disk.contents slot.id blockSz
  | _ => True

/-- The marked slots that an eviction finds too old are on the disk. -/
def OldIsStored (w : CacheWorld) : CacheOp → Prop
  | .evictCold maxAge now => ∀ slot ∈ w.storage.slots, slot.modified = true →
      maxAge ≤ wrappingSub now (wrappingMul slot.id 3) →
        slot.payload = w.storage.disk.contents slot.id blockSz
  | _ => True

/-- The cache over a disk without faults; a marked slot is the last put. -/
structure Sound (n : Nat) (w : CacheWorld) : Prop where
  kept : w.storage.Kept n
  errs : w.storage.disk.errs = 0
  clean : w.storage.Clean
  last : ∀ slot ∈ w.storage.slots, slot.modified = true → w.last[slot.id]? = some slot.payload

theorem Sound.transparent_iff (h : w.Sound n) (hn : 0 < n) :
    w.Transparent ↔ ∀ k data, w.last[k]? = some data → w.storage.view k = data := by
  refine forall_congr' fun k => forall_congr' fun data => imp_congr_right fun _ => ?_
  obtain ⟨st', hfetch, _⟩ := Storage.fetch_view (h.kept.healthy hn h.errs) k
  rw [hfetch]
  constructor
  · intro heq
    cases heq
    rfl
  · intro heq
    rw [heq]

end CacheWorld

/-- Puts, fetches, write-backs and evictions over a disk without faults. -/
def evictions : System CacheWorld CacheOp where
  step w
    | .setErrs _ | .invalidate _ => none
    | op => caches.step w op

namespace CacheWorld
variable {n k : Nat} {w w' : CacheWorld}
variable {op : CacheOp}

theorem evictions_step (hstep : evictions.step w op = some w') : caches.step w op = some w' := by
  cases op with
  | setErrs e => cases hstep
  | invalidate k => cases hstep
  | fetch k => exact hstep
  | put k data => exact hstep
  | syncAll id => exact hstep
  | tick id => exact hstep
  | evictCold maxAge now => exact hstep

theorem Sound.losesNothing (h : w.Sound n) (op : CacheOp) : w.LosesNothing op := by
  have hnone : w.storage.failing = [] := by
    rw [Storage.failing, h.errs, take_zero]
  cases op with
  | syncAll id =>
    show ∀ slot ∈ w.storage.failing, _
    rw [hnone]
    exact forall_mem_nil _
  | tick id =>
    show ∀ slot ∈ w.storage.failing, _
    rw [hnone]
    exact forall_mem_nil _
  | fetch k => trivial
  | put k data => trivial
  | invalidate k => trivial
  | evictCold maxAge now => trivial
  | setErrs e => trivial

theorem Sound.writeBack (h : w.Sound n) (hkept : w.storage.writeBack.Kept n) (hclean : w.storage.writeBack.Clean) :
    Sound n {w with storage := w.storage.writeBack} := by
  refine ⟨hkept, Storage.writeBack_errs h.errs, hclean, fun slot hslot hmark => ?_⟩
  rw [Storage.writeBack_slots] at hslot
  obtain ⟨old, _, rfl⟩ := mem_map.mp hslot
  cases hmark

theorem Sound.put (h : w.Sound n) {data : Bytes} (hdata : data.length = blockSz)
    (hput : (w.storage.put k data).1 = .ok ()) :
    Sound n ⟨(w.storage.put k data).2, w.last.insert k data⟩ := by
  refine ⟨h.kept.put k hdata, ?_, h.clean.put h.kept k data, fun slot hslot hmark => ?_⟩
  · rw [Storage.put_disk]
    exact h.errs
  · dsimp only
    rw [get_insert]
    rcases h.kept.put_slots hdata hput hslot with ⟨hid, hpayload⟩ | ⟨hold, hid⟩
    · rw [if_pos hid.symm, hpayload]
    · rw [if_neg (Ne.symm hid)]
      exact h.last slot hold hmark

theorem Sound.step (h : w.Sound n) (hstep : evictions.step w op = some w') : w'.Sound n := by
  have hkept := step_kept h.kept (evictions_step hstep)
  have hclean := (step_clean_iff h.kept h.clean (evictions_step hstep)).mpr (h.losesNothing op)
  obtain ⟨hwhole, hsteps⟩ := caches_step (evictions_step hstep)
  cases step_cases hsteps with
  | fetch =>
    refine ⟨hkept, ?_, hclean, fun slot hslot hmark => h.last slot (h.kept.fetch_marked hslot hmark) hmark⟩
    exact Nat.le_zero.mp (h.errs ▸ (h.kept.fetch_disk _).2)
  | put hput => exact h.put (of_decide_eq_true hwhole) hput
  | syncAll => exact h.writeBack hkept hclean
  | tick => exact h.writeBack hkept hclean
  | evictCold =>
    refine ⟨hkept, h.errs, hclean, fun slot hslot => ?_⟩
    rw [Storage.evictCold_slots] at hslot
    exact h.last slot (mem_of_mem_filter hslot)
  | setErrs => cases hstep
  | invalidate => cases hstep

/-- An eviction is noticed where it drops a put that is not on the disk. -/
theorem Sound.evict_iff (h : w.Sound n) (maxAge now : Nat)
    (hlast : ∀ k data, w.last[k]? = some data → w.storage.view k = data) :
    (∀ k data, w.last[k]? = some data → (w.storage.evictCold maxAge now).2.view k = data) ↔
      w.OldIsStored (.evictCold maxAge now) := by
  constructor
  · intro hafter slot hslot hmark hold
    have hdrop := Storage.retained_eq_false.mpr ⟨hmark, hold⟩
    rw [← h.kept.view_evicted hslot hdrop]
    exact (hafter slot.id slot.payload (h.last slot hslot hmark)).symm
  · intro hstored k data hk
    rw [← hlast k data hk]
    by_cases hany : ∃ slot ∈ w.storage.slots, slot.id = k
    · obtain ⟨slot, hslot, rfl⟩ := hany
      cases hkeep : Storage.retained maxAge now slot with
      | true =>
        have hslot' : slot ∈ (w.storage.evictCold maxAge now).2.slots := by
          rw [Storage.evictCold_slots]
          exact mem_filter.mpr ⟨hslot, hkeep⟩
        rw [(h.kept.evictCold maxAge now).view_slot hslot', h.kept.view_slot hslot]
      | false =>
        obtain ⟨hmark, hold⟩ := Storage.retained_eq_false.mp hkeep
        rw [h.kept.view_evicted hslot hkeep, h.kept.view_slot hslot, hstored slot hslot hmark hold]
    · push Not at hany
      rw [Storage.view_disk hany]
      refine Storage.view_disk fun slot hslot => ?_
      rw [Storage.evictCold_slots] at hslot
      exact hany slot (mem_of_mem_filter hslot)

theorem Sound.step_transparent_iff (h : w.Sound n) (hn : 0 < n) (htransparent : w.Transparent)
    (hstep : evictions.step w op = some w') : w'.Transparent ↔ w.OldIsStored op := by
  have hhealthy := h.kept.healthy hn h.errs
  rw [(h.step hstep).transparent_iff hn]
  rw [h.transparent_iff hn] at htransparent
  have hwriteBack : ∀ j data, w.last[j]? = some data → w.storage.writeBack.view j = data := by
    rw [(Storage.writeBack_view hhealthy).2]
    exact htransparent
  obtain ⟨hwhole, hsteps⟩ := caches_step (evictions_step hstep)
  cases step_cases hsteps with
  | @fetch k =>
    obtain ⟨st', hfetch, _, hview⟩ := Storage.fetch_view hhealthy k
    refine iff_of_true ?_ trivial
    rw [hfetch, hview]
    exact htransparent
  | @put k data =>
    obtain ⟨st', hput, _, hview⟩ := Storage.put_view hhealthy k (of_decide_eq_true hwhole)
    refine iff_of_true (fun j data' hj => ?_) trivial
    dsimp only at hj ⊢
    rw [get_insert] at hj
    rw [hput, hview, Function.update_apply]
    split at hj
    · next heq =>
      rw [if_pos heq.symm]
      exact Option.some.inj hj
    · next hne =>
      rw [if_neg (Ne.symm hne)]
      exact htransparent j data' hj
  | syncAll => exact iff_of_true hwriteBack trivial
  | tick => exact iff_of_true hwriteBack trivial
  | evictCold => exact h.evict_iff _ _ htransparent
  | setErrs => cases hstep
  | invalidate => cases hstep

theorem dropsStored_iff (w : CacheWorld) (op : CacheOp) : w.DropsStored op ↔ w.OldIsStored op := by
  cases op with
  | evictCold maxAge now =>
    refine forall_congr' fun slot => imp_congr_right fun hslot => ?_
    have hdrop : slot ∉ (w.storage.evictCold maxAge now).2.slots ↔ Storage.retained maxAge now slot = false := by
      rw [Storage.evictCold_slots, mem_filter, and_iff_right hslot, Bool.not_eq_true]
    rw [hdrop, Storage.retained_eq_false, and_imp]
  | fetch k => exact Iff.rfl
  | put k data => exact Iff.rfl
  | syncAll id => exact Iff.rfl
  | tick id => exact Iff.rfl
  | invalidate k => exact Iff.rfl
  | setErrs e => exact Iff.rfl

theorem new_sound (n : Nat) : (new n).Sound n := by
  refine ⟨Storage.KeptWith.new n, rfl, Storage.Clean.new n, fun slot hslot => ?_⟩
  obtain ⟨items, hitems, hmem⟩ := mem_flatten.mp hslot
  rw [eq_of_mem_replicate hitems] at hmem
  cases hmem

end CacheWorld

/-- **An eviction is not noticed**: along a run every fetch returns the last put and no eviction drops
what is not on the disk, exactly when the marked slots that the evictions find too old are on the disk. -/
theorem evicts_along_iff (n : Nat) (hn : 0 < n) (ops : List CacheOp) :
    (evictions.Always CacheWorld.Transparent (CacheWorld.new n) ops ∧
        evictions.Guarded CacheWorld.DropsStored (CacheWorld.new n) ops) ↔
      evictions.Guarded CacheWorld.OldIsStored (CacheWorld.new n) ops := by
  have hempty (k : Nat) : (∅ : BTreeMap Bytes)[k]? = none := Std.ExtTreeMap.getElem?_empty
  have hnew : (CacheWorld.new n).Transparent := fun k data hk => by
    rw [CacheWorld.new, hempty] at hk
    cases hk
  have halways : evictions.Always CacheWorld.Transparent (CacheWorld.new n) ops ↔
      evictions.Guarded CacheWorld.OldIsStored (CacheWorld.new n) ops :=
    System.always_iff_guarded (J := CacheWorld.Sound n) (fun _ _ _ h hstep => h.step hstep)
      (fun _ _ _ h htransparent hstep => h.step_transparent_iff hn htransparent hstep)
      (CacheWorld.new_sound n) hnew
  constructor
  · exact fun h => halways.mp h.1
  · intro hguard
    exact ⟨halways.mpr hguard, fun done op w w' hpre hrun hstep =>
      (w.dropsStored_iff op).mpr (hguard done op w w' hpre hrun hstep)⟩

def putTwice : List CacheOp :=
  [.put 3 (List.replicate 512 1), .syncAll 0, .put 3 (List.replicate 512 1), .fetch 4, .evictCold 0 9]

/-- The second put is of what is on the disk by then, and the eviction drops it. -/
theorem evicts_along_iff_one : 0 < 1 ∧
    ((evictions.run (CacheWorld.new 1) putTwice).any fun w => w.storage.slots.map CacheSlot.id = [4]) = true ∧
    ((evictions.Always CacheWorld.Transparent (CacheWorld.new 1) putTwice ∧
        evictions.Guarded CacheWorld.DropsStored (CacheWorld.new 1) putTwice) ↔
      evictions.Guarded CacheWorld.OldIsStored (CacheWorld.new 1) putTwice) :=
  ⟨by decide, by decide +kernel, evicts_along_iff 1 (by decide) putTwice⟩

/-- A block put at clock 0 is dropped by an eviction at clock 5, and the next fetch reads `0xAA`. -/
theorem evict_drops_put : ¬evictions.Always CacheWorld.Transparent (CacheWorld.new 64)
    [.put 0 (List.replicate 512 1), .evictCold 5 5] := by
  intro hall
  have hrun : ((evictions.run (CacheWorld.new 64) [.put 0 (List.replicate 512 1), .evictCold 5 5]).any fun w =>
      w.last[0]? = some (List.replicate 512 1) ∧
        (w.storage.fetch 0).1.toOption = some (some (List.replicate 512 0xAA))) = true := by
    decide +kernel
  obtain ⟨w, hrun, hlast, hfetch⟩ := System.exists_of_run_any hrun
  have hsame := hall _ w prefix_rfl hrun 0 _ hlast
  rw [hsame] at hfetch
  revert hfetch
  decide +kernel

end ChaosKernel.Fs
