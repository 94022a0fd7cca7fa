import ChaosKernel.Base.Run
import ChaosKernel.Fs.BlockCache

/-! Runs of the block cache.

`invalidate` and `evict_cold` take slots off the chains, and `set_errs` makes the next
accesses of the disk fail. Whatever happens, a slot is on the chain that `fetch` and
`put` look in, and there is one slot for a block (`KeptWith`). A payload may have any
length; where it matters what the disk makes of it, the payloads are whole blocks
(`Kept`, `caches`). -/
namespace ChaosKernel.Fs
open Base List

namespace Storage

/-- `BlockCache::invalidate`, which looks in the chain of `BlockCache::idx`. -/
def invalidate (st : Storage) (k : Nat) : Except (Stop Errno) Unit × Storage :=
  let ci := k % st.cache.width
  match st.cache.chains[ci]? with
  | none => (.error .panic, st)
  | some items => (.ok (), st.setChain ci (items.filter fun slot => slot.id ≠ k))

/-- The slots that `evict_cold` keeps. -/
def retained (maxAge now : Nat) (slot : CacheSlot) : Bool :=
  let age := wrappingSub now (wrappingMul slot.id 3)
  !slot.modified || decide (age < maxAge)

/-- `BlockCache::evict_cold` at the clock value `now`, with the number of slots it drops. -/
def evictCold (st : Storage) (maxAge now : Nat) : Nat × Storage :=
  ((st.cache.chains.map fun items => items.length - (items.filter (retained maxAge now)).length).sum,
    {st with cache := {st.cache with
      chains := st.cache.chains.map fun items => items.filter (retained maxAge now)}})

def setErrs (st : Storage) (n : Nat) : Storage := {st with disk := {st.disk with errs := n}}

/-- All slots, chain after chain. -/
def slots (st : Storage) : List CacheSlot := st.cache.chains.flatten

/-! ### Chains -/

/-- A chain of its own slots, one for a block, whose payloads are as `ok` says. -/
structure GoodChain (ok : Bytes → Prop) (chainOf : Nat → Nat) (ci : Nat) (items : List CacheSlot) : Prop where
  placed : ∀ slot ∈ items, chainOf slot.id = ci
  sized : ∀ slot ∈ items, ok slot.payload
  nodup : (items.map CacheSlot.id).Nodup

/-- What every operation keeps. -/
structure KeptWith (ok : Bytes → Prop) (n : Nat) (st : Storage) : Prop where
  width : st.cache.width = n
  length : st.cache.chains.length = n
  chain : ∀ (ci : Nat) (items : List CacheSlot), st.cache.chains[ci]? = some items →
    GoodChain ok st.cache.chainOf ci items
  errs : st.disk.errs < usizeMax

/-- The payloads are whole blocks. -/
abbrev Kept : Nat → Storage → Prop := KeptWith fun data => data.length = blockSz

variable {ok : Bytes → Prop}

namespace GoodChain
variable {chainOf : Nat → Nat} {ci k : Nat} {items : List CacheSlot}

theorem filter (h : GoodChain ok chainOf ci items) (p : CacheSlot → Bool) : GoodChain ok chainOf ci (items.filter p) where
  placed := fun slot hslot => h.placed slot (mem_of_mem_filter hslot)
  sized := fun slot hslot => h.sized slot (mem_of_mem_filter hslot)
  nodup := h.nodup.sublist (filter_sublist.map _)

theorem map_clean (h : GoodChain ok chainOf ci items) : GoodChain ok chainOf ci (items.map clean) where
  placed := List.forall_mem_map.mpr h.placed
  sized := List.forall_mem_map.mpr h.sized
  nodup := by
    rw [map_map]
    exact h.nodup

theorem concat (h : GoodChain ok chainOf ci items) {slot : CacheSlot} (hplaced : chainOf slot.id = ci)
    (hsized : ok slot.payload) (hnew : lookup items slot.id = none) :
    GoodChain ok chainOf ci (items ++ [slot]) where
  placed := forall_mem_append.mpr ⟨h.placed, forall_mem_singleton.mpr hplaced⟩
  sized := forall_mem_append.mpr ⟨h.sized, forall_mem_singleton.mpr hsized⟩
  nodup := by
    rw [map_append, nodup_append]
    refine ⟨h.nodup, nodup_singleton _, fun a ha b hb => ?_⟩
    obtain ⟨old, hold, rfl⟩ := mem_map.mp ha
    rw [mem_singleton.mp hb]
    exact lookup_none hnew old hold

theorem upsert_ids (k : Nat) (data : Bytes) (items : List CacheSlot) :
    (upsert k data items).map CacheSlot.id =
      if k ∈ items.map CacheSlot.id then items.map CacheSlot.id else items.map CacheSlot.id ++ [k] := by
  induction items with
  | nil => rfl
  | cons slot rest ih =>
    rw [upsert]
    split
    · next hid => simp [hid]
    · next hid =>
      simp only [map_cons, ih, mem_cons, Ne.symm hid, false_or]
      split <;> rfl

theorem upsert (h : GoodChain ok chainOf ci items) (hplaced : chainOf k = ci) {data : Bytes}
    (hsized : ok data) : GoodChain ok chainOf ci (upsert k data items) where
  placed := by
    intro slot hslot
    rcases mem_upsert hslot with ⟨hid, _⟩ | hold
    · rw [hid, hplaced]
    · exact h.placed slot hold
  sized := by
    intro slot hslot
    rcases mem_upsert hslot with ⟨_, hdata⟩ | hold
    · rw [hdata]
      exact hsized
    · exact h.sized slot hold
  nodup := by
    rw [upsert_ids]
    split
    · exact h.nodup
    · next hnew =>
      rw [nodup_append]
      refine ⟨h.nodup, nodup_singleton _, fun a ha b hb heq => hnew ?_⟩
      rw [← mem_singleton.mp hb, ← heq]
      exact ha

end GoodChain

/-! ### The operations -/

variable {n : Nat} {st : Storage}

theorem KeptWith.new (n : Nat) : KeptWith ok n ⟨BlockCache.new n, Disk.new⟩ where
  width := rfl
  length := length_replicate
  chain := by
    intro ci items hitems
    rw [BlockCache.new, getElem?_replicate] at hitems
    split at hitems
    · cases hitems
      exact ⟨fun _ hmem => absurd hmem not_mem_nil, fun _ hmem => absurd hmem not_mem_nil, nodup_nil⟩
    · cases hitems
  errs := Nat.sub_pos_of_lt (Nat.one_lt_two_pow (by decide))

variable {ci k : Nat} {items old : List CacheSlot} {slot : CacheSlot}

theorem KeptWith.setChain (h : KeptWith ok n st) (hitems : GoodChain ok st.cache.chainOf ci items) :
    KeptWith ok n (st.setChain ci items) where
  width := h.width
  length := by
    simp only [Storage.setChain, length_set]
    exact h.length
  chain := by
    intro cj found hfound
    simp only [Storage.setChain, getElem?_set] at hfound
    split at hfound
    · next heq =>
      split at hfound
      · cases hfound
        rw [← heq]
        exact hitems
      · cases hfound
    · exact h.chain cj found hfound
  errs := h.errs

variable {d : Disk}

theorem KeptWith.map (h : KeptWith ok n st) {f : List CacheSlot → List CacheSlot}
    (hf : ∀ ci items, GoodChain ok st.cache.chainOf ci items → GoodChain ok st.cache.chainOf ci (f items))
    (hd : d.errs < usizeMax) : KeptWith ok n ⟨{st.cache with chains := st.cache.chains.map f}, d⟩ where
  width := h.width
  length := by
    simp only [length_map]
    exact h.length
  chain := by
    intro ci items hitems
    rw [getElem?_map] at hitems
    obtain ⟨old, hold, rfl⟩ := Option.map_eq_some_iff.mp hitems
    exact hf ci old (h.chain ci old hold)
  errs := hd

theorem KeptWith.disk (h : KeptWith ok n st) (hd : d.errs < usizeMax) : KeptWith ok n {st with disk := d} :=
  ⟨h.width, h.length, h.chain, hd⟩

theorem KeptWith.mem_chain (h : KeptWith ok n st) (hitems : st.cache.chains[ci]? = some items) :
    slot ∈ items ↔ slot ∈ st.slots ∧ st.cache.chainOf slot.id = ci := by
  constructor
  · intro hmem
    exact ⟨mem_flatten.mpr ⟨items, mem_of_getElem? hitems, hmem⟩, (h.chain ci items hitems).placed slot hmem⟩
  · intro hslot
    obtain ⟨found, hfound, hmem⟩ := mem_flatten.mp hslot.1
    obtain ⟨cj, hcj⟩ := mem_iff_getElem?.mp hfound
    rw [← hslot.2, (h.chain cj found hcj).placed slot hmem, hcj] at hitems
    cases hitems
    exact hmem

theorem KeptWith.mem_setChain (h : KeptWith ok n st) (hold : st.cache.chains[ci]? = some old) :
    slot ∈ (st.setChain ci items).slots ↔ slot ∈ items ∨ slot ∈ st.slots ∧ st.cache.chainOf slot.id ≠ ci := by
  have hlt := (List.getElem?_eq_some_iff.mp hold).1
  have hchains (cj : Nat) : (st.setChain ci items).cache.chains[cj]? =
      if ci = cj then some items else st.cache.chains[cj]? := by
    rw [Storage.setChain, getElem?_set]
    simp only [hlt, if_true]
  constructor
  · intro hslot
    obtain ⟨found, hfound, hmem⟩ := mem_flatten.mp hslot
    obtain ⟨cj, hcj⟩ := mem_iff_getElem?.mp hfound
    rw [hchains] at hcj
    split at hcj
    · cases hcj
      exact .inl hmem
    · next hne =>
      obtain ⟨hmem, hplace⟩ := (h.mem_chain hcj).mp hmem
      exact .inr ⟨hmem, fun heq => hne (heq.symm.trans hplace)⟩
  · intro hslot
    rcases hslot with hmem | ⟨hmem, hne⟩
    · have hci := hchains ci
      rw [if_pos rfl] at hci
      exact mem_flatten.mpr ⟨items, mem_of_getElem? hci, hmem⟩
    · obtain ⟨found, hfound, hmem⟩ := mem_flatten.mp hmem
      obtain ⟨cj, hcj⟩ := mem_iff_getElem?.mp hfound
      have hfound := hchains cj
      rw [if_neg fun heq => hne (((h.mem_chain hcj).mp hmem).2.trans heq.symm), hcj] at hfound
      exact mem_flatten.mpr ⟨found, mem_of_getElem? hfound, hmem⟩

theorem KeptWith.nodup (h : KeptWith ok n st) : (st.slots.map CacheSlot.id).Nodup := by
  rw [slots, map_flatten, nodup_flatten]
  constructor
  · intro ids hids
    obtain ⟨items, hitems, rfl⟩ := mem_map.mp hids
    obtain ⟨ci, hci⟩ := mem_iff_getElem?.mp hitems
    exact (h.chain ci items hci).nodup
  · rw [pairwise_iff_getElem]
    intro i j hi hj hij k hki hkj
    rw [getElem_map] at hki hkj
    obtain ⟨slot, hslot, rfl⟩ := mem_map.mp hki
    obtain ⟨other, hother, heq⟩ := mem_map.mp hkj
    have hplace := (h.chain i _ (getElem?_eq_getElem _)).placed slot hslot
    have hplace' := (h.chain j _ (getElem?_eq_getElem _)).placed other hother
    rw [heq, hplace] at hplace'
    omega

theorem KeptWith.fetch_cases (h : KeptWith ok n st) (k : Nat) :
    (st.cache.chains[st.cache.chainOf k]? = none ∧ st.fetch k = (.error .panic, st)) ∨
      (∃ items slot, st.cache.chains[st.cache.chainOf k]? = some items ∧ lookup items k = some slot ∧
        st.fetch k = (.ok (some slot.payload), st)) ∨
      ∃ items, st.cache.chains[st.cache.chainOf k]? = some items ∧ lookup items k = none ∧
        st.fetch k = (.ok (some (st.disk.contents k blockSz)),
          Storage.setChain {st with disk := {st.disk with errs := 0, ops := st.disk.ops + st.disk.errs + 1}}
            (st.cache.chainOf k) (items ++ [⟨k, st.disk.contents k blockSz, false⟩])) := by
  unfold Storage.fetch
  dsimp only
  cases hitems : st.cache.chains[st.cache.chainOf k]? with
  | none => exact .inl ⟨rfl, rfl⟩
  | some items =>
    dsimp only
    cases hlookup : lookup items k with
    | some slot => exact .inr (.inl ⟨items, slot, rfl, hlookup, rfl⟩)
    | none =>
      rw [Disk.readBlock_finite h.errs]
      exact .inr (.inr ⟨items, rfl, hlookup, rfl⟩)

theorem KeptWith.fetch (h : KeptWith ok n st) (k : Nat) (hok : ok (st.disk.contents k blockSz)) :
    KeptWith ok n (st.fetch k).2 := by
  rcases h.fetch_cases k with ⟨_, hfetch⟩ | ⟨items, slot, _, _, hfetch⟩ | ⟨items, hitems, hnone, hfetch⟩
  · rw [hfetch]
    exact h
  · rw [hfetch]
    exact h
  · rw [hfetch]
    have hzero : 0 < usizeMax := Nat.zero_lt_of_lt h.errs
    refine (h.disk hzero).setChain ?_
    exact (h.chain _ items hitems).concat rfl hok hnone

theorem KeptWith.fetch_slots (h : KeptWith ok n st) (hslot : slot ∈ (st.fetch k).2.slots) :
    slot ∈ st.slots ∨ slot = ⟨k, st.disk.contents k blockSz, false⟩ := by
  rcases h.fetch_cases k with ⟨_, hfetch⟩ | ⟨items, found, _, _, hfetch⟩ | ⟨items, hitems, _, hfetch⟩
  · rw [hfetch] at hslot
    exact .inl hslot
  · rw [hfetch] at hslot
    exact .inl hslot
  · rw [hfetch] at hslot
    have hread : KeptWith ok n {st with disk := {st.disk with errs := 0, ops := st.disk.ops + st.disk.errs + 1}} :=
      h.disk (Nat.zero_lt_of_lt h.errs)
    rcases (hread.mem_setChain hitems).mp hslot with hmem | hold
    · rcases mem_append.mp hmem with hmem | hmem
      · exact .inl ((h.mem_chain hitems).mp hmem).1
      · exact .inr (mem_singleton.mp hmem)
    · exact .inl hold.1

theorem KeptWith.fetch_disk (h : KeptWith ok n st) (k : Nat) :
    (st.fetch k).2.disk.contents = st.disk.contents ∧ (st.fetch k).2.disk.errs ≤ st.disk.errs := by
  rcases h.fetch_cases k with ⟨_, hfetch⟩ | ⟨items, found, _, _, hfetch⟩ | ⟨items, _, _, hfetch⟩
  · rw [hfetch]
    exact ⟨rfl, le_refl _⟩
  · rw [hfetch]
    exact ⟨rfl, le_refl _⟩
  · rw [hfetch]
    exact ⟨rfl, Nat.zero_le _⟩

theorem KeptWith.put (h : KeptWith ok n st) (k : Nat) {data : Bytes} (hdata : ok data) :
    KeptWith ok n (st.put k data).2 := by
  unfold Storage.put
  dsimp only
  split
  · exact h
  · next items hitems => exact h.setChain ((h.chain _ items hitems).upsert rfl hdata)

theorem KeptWith.writeBack (h : KeptWith ok n st) : KeptWith ok n st.writeBack := by
  have hsplit : st.writeBack =
      ⟨{st.cache with chains := st.cache.chains.map (List.map clean)}, (flushChains st.cache.chains st.disk).2⟩ := by
    rw [← flushChains_fst st.cache.chains st.disk]
    rfl
  rw [hsplit, flushChains_snd]
  exact h.map (fun ci items hitems => hitems.map_clean)
    (Nat.lt_of_le_of_lt (flushChain_snd st.cache.chains.flatten st.disk).1 h.errs)

theorem KeptWith.invalidate (h : KeptWith ok n st) (k : Nat) : KeptWith ok n (st.invalidate k).2 := by
  unfold Storage.invalidate
  dsimp only
  split
  · exact h
  · next items hitems => exact h.setChain ((h.chain _ items hitems).filter _)

theorem evictCold_slots (st : Storage) (maxAge now : Nat) :
    (st.evictCold maxAge now).2.slots = st.slots.filter (retained maxAge now) := by
  rw [slots, slots, filter_flatten]
  rfl

theorem KeptWith.evictCold (h : KeptWith ok n st) (maxAge now : Nat) : KeptWith ok n (st.evictCold maxAge now).2 :=
  h.map (fun _ _ hitems => hitems.filter _) h.errs

end Storage

/-! ### Runs -/

/-- A cache over its disk, with a record of the last payload put for each block. -/
structure CacheWorld where
  storage : Storage
  last : BTreeMap Bytes

inductive CacheOp where
  | fetch (k : Nat)
  | put (k : Nat) (data : Bytes)
  | syncAll (id : Nat)
  | tick (id : Nat)
  | invalidate (k : Nat)
  | evictCold (maxAge now : Nat)
  | setErrs (n : Nat)

namespace CacheWorld

def new (w : Nat) : CacheWorld := ⟨⟨BlockCache.new w, Disk.new⟩, ∅⟩

/-- The faults come to an end. -/
def step (w : CacheWorld) : CacheOp → Option CacheWorld
  | .fetch k =>
    match w.storage.fetch k with
    | (.ok _, st) => some {w with storage := st}
    | (.error _, _) => none
  | .put k data =>
    match w.storage.put k data with
    | (.ok _, st) => some {storage := st, last := w.last.insert k data}
    | (.error _, _) => none
  | .syncAll id => some {w with storage := w.storage.syncAll id}
  | .tick id => some {w with storage := w.storage.tick id}
  | .invalidate k =>
    match w.storage.invalidate k with
    | (.ok _, st) => some {w with storage := st}
    | (.error _, _) => none
  | .evictCold maxAge now => some {w with storage := (w.storage.evictCold maxAge now).2}
  | .setErrs n => if n < usizeMax then some {w with storage := w.storage.setErrs n} else none

end CacheWorld

def CacheOp.whole : CacheOp → Bool
  | .put _ data => data.length = blockSz
  | _ => true

def blockCaches : System CacheWorld CacheOp := ⟨CacheWorld.step⟩

/-- Only whole blocks are put. -/
def caches : System CacheWorld CacheOp where
  step w op := if op.whole then w.step op else none

namespace CacheWorld
variable {w w' : CacheWorld}

/-- What a step does. -/
inductive Steps (w : CacheWorld) : CacheOp → CacheWorld → Prop where
  | fetch {k : Nat} : Steps w (.fetch k) {w with storage := (w.storage.fetch k).2}
  | put {k : Nat} {data : Bytes} (stored : (w.storage.put k data).1 = .ok ()) :
    Steps w (.put k data) ⟨(w.storage.put k data).2, w.last.insert k data⟩
  | syncAll {id : Nat} : Steps w (.syncAll id) {w with storage := w.storage.writeBack}
  | tick {id : Nat} : Steps w (.tick id) {w with storage := w.storage.writeBack}
  | invalidate {k : Nat} : Steps w (.invalidate k) {w with storage := (w.storage.invalidate k).2}
  | evictCold {maxAge now : Nat} :
    Steps w (.evictCold maxAge now) {w with storage := (w.storage.evictCold maxAge now).2}
  | setErrs {n : Nat} (finite : n < usizeMax) : Steps w (.setErrs n) {w with storage := w.storage.setErrs n}

variable {op : CacheOp}

theorem step_cases (hstep : w.step op = some w') : w.Steps op w' := by
  cases op with
  | fetch k =>
    have hthen := Steps.fetch (w := w) (k := k)
    simp only [step] at hstep
    split at hstep
    · next hfetch =>
      cases hstep
      rw [hfetch] at hthen
      exact hthen
    · cases hstep
  | put k data =>
    have hthen : (w.storage.put k data).1 = .ok () → w.Steps (.put k data) _ := Steps.put
    simp only [step] at hstep
    split at hstep
    · next hput =>
      cases hstep
      rw [hput] at hthen
      exact hthen rfl
    · cases hstep
  | syncAll id =>
    cases hstep
    exact .syncAll
  | tick id =>
    cases hstep
    exact .tick
  | invalidate k =>
    have hthen := Steps.invalidate (w := w) (k := k)
    simp only [step] at hstep
    split at hstep
    · next hinvalidate =>
      cases hstep
      rw [hinvalidate] at hthen
      exact hthen
    · cases hstep
  | evictCold maxAge now =>
    cases hstep
    exact .evictCold
  | setErrs n =>
    simp only [step] at hstep
    split at hstep
    · next hn =>
      cases hstep
      exact .setErrs hn
    · cases hstep

theorem caches_step (hstep : caches.step w op = some w') : op.whole = true ∧ w.step op = some w' := by
  simp only [caches, Option.ite_none_right_eq_some] at hstep
  exact hstep

theorem Steps.keptWith {n : Nat} {ok : Bytes → Prop} (hsteps : w.Steps op w') (h : w.storage.KeptWith ok n)
    (hread : ∀ k, ok (w.storage.disk.contents k blockSz)) (hput : ∀ k data, op = .put k data → ok data) :
    w'.storage.KeptWith ok n := by
  cases hsteps with
  | fetch => exact h.fetch _ (hread _)
  | put => exact h.put _ (hput _ _ rfl)
  | syncAll => exact h.writeBack
  | tick => exact h.writeBack
  | invalidate => exact h.invalidate _
  | evictCold => exact h.evictCold _ _
  | setErrs hn => exact h.disk hn

theorem step_kept {n : Nat} (h : w.storage.Kept n) (hstep : caches.step w op = some w') :
    w'.storage.Kept n := by
  obtain ⟨hwhole, hstep⟩ := caches_step hstep
  refine (step_cases hstep).keptWith h w.storage.disk.contents_length fun k data hop => ?_
  rw [hop] at hwhole
  exact of_decide_eq_true hwhole

end CacheWorld

end ChaosKernel.Fs
