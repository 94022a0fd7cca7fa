import ChaosKernel.Fs.Disk

/-! The block cache, over the disk.

Slots are kept on chains; a block number selects its chain by a hash. `fetch`
reads through to the disk and keeps what it read, `put` changes the cached copy
and marks it, and the two write-back passes (`syncAll`, the kernel's `tick`) send
marked slots to the disk.

For a client the two together are one store of blocks: `view` says what each
block holds, `fetch` reads it, `put` updates it at one block, and a write-back
leaves it as it is (`fetch_view`, `put_view`, `writeBack_view`). -/
namespace ChaosKernel.Fs
open Base List Option

structure CacheSlot where
  id : Nat
  payload : Bytes
  modified : Bool
  deriving DecidableEq

structure BlockCache where
  chains : List (List CacheSlot)
  width : Nat

def BlockCache.new (w : Nat) : BlockCache := ⟨List.replicate w [], w⟩

/-- The chain `fetch` and `put` look in. -/
def BlockCache.chainOf (c : BlockCache) (k : Nat) : Nat := (k ^^^ (k >>> 7)) % c.width

/-- A cache and the disk behind it. -/
structure Storage where
  cache : BlockCache
  disk : Disk

namespace Storage

/-- The cached copy of `k`, if its chain has one. -/
def lookup (items : List CacheSlot) (k : Nat) : Option CacheSlot := items.find? (·.id == k)

/-- Replace the payload of the first slot for `k` and mark it, or add a marked slot at the end. -/
def upsert (k : Nat) (data : Bytes) : List CacheSlot → List CacheSlot
  | [] => [⟨k, data, true⟩]
  | slot :: rest =>
    if slot.id = k then {slot with payload := data, modified := true} :: rest
    else slot :: upsert k data rest

def setChain (st : Storage) (ci : Nat) (items : List CacheSlot) : Storage :=
  {st with cache := {st.cache with chains := st.cache.chains.set ci items}}

/-- `BlockCache::fetch`. A width of zero has no chain to index. -/
def fetch (st : Storage) (k : Nat) : Except (Stop Errno) (Option Bytes) × Storage :=
  let ci := st.cache.chainOf k
  match st.cache.chains[ci]? with
  | none => (.error .panic, st)
  | some items =>
    match lookup items k with
    | some slot => (.ok (some slot.payload), st)
    | none =>
      match st.disk.readBlock k blockSz with
      | (.ok data, d) =>
        (.ok (some data), setChain {st with disk := d} ci (items ++ [⟨k, data, false⟩]))
      | (.error (.err _), d) => (.ok none, {st with disk := d})
      | (.error e, d) => (.error e, {st with disk := d})

/-- `BlockCache::put`. -/
def put (st : Storage) (k : Nat) (data : Bytes) : Except (Stop Errno) Unit × Storage :=
  let ci := st.cache.chainOf k
  match st.cache.chains[ci]? with
  | none => (.error .panic, st)
  | some items => (.ok (), st.setChain ci (upsert k data items))

/-- One slot of a write-back pass. A failed write is dropped with its mark. -/
def flushSlot (slot : CacheSlot) (d : Disk) : CacheSlot × Disk :=
  if slot.modified then ({slot with modified := false}, (d.writeBlock slot.id slot.payload).2)
  else (slot, d)

def flushChain : List CacheSlot → Disk → List CacheSlot × Disk
  | [], d => ([], d)
  | slot :: rest, d =>
    let (slot, d) := flushSlot slot d
    let (rest, d) := flushChain rest d
    (slot :: rest, d)

def flushChains : List (List CacheSlot) → Disk → List (List CacheSlot) × Disk
  | [], d => ([], d)
  | items :: rest, d =>
    let (items, d) := flushChain items d
    let (rest, d) := flushChains rest d
    (items :: rest, d)

/-- Every chain in turn, every slot of it in turn. -/
def writeBack (st : Storage) : Storage :=
  let (chains, d) := flushChains st.cache.chains st.disk
  ⟨{st.cache with chains := chains}, d⟩

/-- `BlockCache::sync_all` and `Kernel::tick` enter the kernel lock under `id` and make
the same pass. -/
def syncAll (st : Storage) (_id : Nat) : Storage := st.writeBack
def tick (st : Storage) (_id : Nat) : Storage := st.writeBack

/-! ### One store of blocks -/

/-- What block `k` holds for a client: the cached copy, else what the disk has. -/
def view (st : Storage) (k : Nat) : Bytes :=
  match lookup (st.cache.chains.getD (st.cache.chainOf k) []) k with
  | some slot => slot.payload
  | none => st.disk.contents k blockSz

/-- What the operations keep, over a disk without faults. -/
structure Healthy (st : Storage) : Prop where
  width : st.cache.chains.length = st.cache.width
  nonempty : 0 < st.cache.width
  /-- A slot is on the chain its number selects. -/
  placed : ∀ (ci : Nat) (items : List CacheSlot), st.cache.chains[ci]? = some items →
    ∀ slot ∈ items, st.cache.chainOf slot.id = ci
  sized : ∀ (ci : Nat) (items : List CacheSlot), st.cache.chains[ci]? = some items →
    ∀ slot ∈ items, slot.payload.length = blockSz
  errs : st.disk.errs = 0

theorem Healthy.new {w : Nat} (hw : 0 < w) {d : Disk} (hd : d.errs = 0) :
    Healthy ⟨BlockCache.new w, d⟩ where
  width := length_replicate
  nonempty := hw
  placed := by
    intro ci items h slot hslot
    rw [BlockCache.new, getElem?_replicate] at h
    split at h <;> simp_all
  sized := by
    intro ci items h slot hslot
    rw [BlockCache.new, getElem?_replicate] at h
    split at h <;> simp_all
  errs := hd

/-! ### Chains -/

variable {items : List CacheSlot} {k ci : Nat} {slot : CacheSlot} {data : Bytes} {st : Storage}
  (chains : List (List CacheSlot))

theorem lookup_some (h : lookup items k = some slot) : slot ∈ items ∧ slot.id = k := by
  refine ⟨mem_of_find?_eq_some h, ?_⟩
  have := find?_some h
  simpa using this

theorem lookup_none (h : lookup items k = none) : ∀ slot ∈ items, slot.id ≠ k := by
  intro slot hslot heq
  have := find?_eq_none.mp h slot hslot
  simp [heq] at this

theorem lookup_concat (items : List CacheSlot) (slot : CacheSlot) (k : Nat) :
    lookup (items ++ [slot]) k =
      (lookup items k).or (if slot.id = k then some slot else none) := by
  simp only [lookup, find?_append]
  congr 1
  by_cases h : slot.id = k <;> simp [h]

theorem lookup_upsert (k : Nat) (data : Bytes) (items : List CacheSlot) (j : Nat) :
    (lookup (upsert k data items) j).map CacheSlot.payload =
      if j = k then some data else (lookup items j).map CacheSlot.payload := by
  induction items with
  | nil =>
    by_cases h : j = k
    · simp [upsert, lookup, h]
    · simp [upsert, lookup, h, Ne.symm h]
  | cons slot rest ih =>
    simp only [lookup] at ih
    by_cases hk : slot.id = k
    · by_cases h : j = k
      · simp [upsert, lookup, hk, h]
      · simp [upsert, lookup, hk, h, Ne.symm h]
    · by_cases hj : slot.id = j
      · have hne : j ≠ k := fun h => hk (hj.trans h)
        simp [upsert, lookup, hj, hne]
      · simp [upsert, lookup, hk, hj, ih]

theorem mem_upsert (h : slot ∈ upsert k data items) : (slot.id = k ∧ slot.payload = data) ∨ slot ∈ items := by
  induction items with
  | nil =>
    simp only [upsert, mem_singleton] at h
    subst h
    exact .inl ⟨rfl, rfl⟩
  | cons first rest ih =>
    unfold upsert at h
    split at h
    · rename_i hk
      rcases mem_cons.mp h with rfl | h
      · exact .inl ⟨hk, rfl⟩
      · exact .inr (mem_cons_of_mem _ h)
    · rcases mem_cons.mp h with rfl | h
      · exact .inr (mem_cons_self ..)
      · exact (ih h).imp_right (mem_cons_of_mem _)

theorem Healthy.chain (h : Healthy st) (k : Nat) :
    ∃ items, st.cache.chains[st.cache.chainOf k]? = some items := by
  have hlt : st.cache.chainOf k < st.cache.chains.length := by
    rw [h.width]
    exact Nat.mod_lt _ h.nonempty
  exact ⟨_, getElem?_eq_getElem hlt⟩

theorem view_eq (h : st.cache.chains[st.cache.chainOf k]? = some items) :
    st.view k = ((lookup items k).map CacheSlot.payload).getD (st.disk.contents k blockSz) := by
  unfold view
  rw [getD_eq_getElem?_getD, h, getD_some]
  cases lookup items k <;> rfl

theorem Healthy.setChain (h : Healthy st) (ci : Nat)
    (hplaced : ∀ slot ∈ items, st.cache.chainOf slot.id = ci)
    (hsized : ∀ slot ∈ items, slot.payload.length = blockSz) : Healthy (st.setChain ci items) where
  width := by
    simp only [Storage.setChain, length_set]
    exact h.width
  nonempty := h.nonempty
  placed := by
    intro cj found hget slot hslot
    simp only [Storage.setChain, getElem?_set] at hget
    split at hget
    · rename_i heq
      split at hget
      · cases hget
        rw [← heq]
        exact hplaced slot hslot
      · cases hget
    · exact h.placed cj found hget slot hslot
  sized := by
    intro cj found hget slot hslot
    simp only [Storage.setChain, getElem?_set] at hget
    split at hget
    · split at hget
      · cases hget
        exact hsized slot hslot
      · cases hget
    · exact h.sized cj found hget slot hslot
  errs := h.errs

theorem view_setChain (st : Storage) (hci : ci < st.cache.chains.length) (items : List CacheSlot) (k : Nat) :
    (st.setChain ci items).view k =
      if st.cache.chainOf k = ci then
        ((lookup items k).map CacheSlot.payload).getD (st.disk.contents k blockSz)
      else st.view k := by
  have hchain : (st.setChain ci items).cache.chainOf k = st.cache.chainOf k := rfl
  by_cases h : st.cache.chainOf k = ci
  · rw [if_pos h]
    apply view_eq
    rw [hchain, h]
    simp only [Storage.setChain]
    exact getElem?_set_self hci
  · rw [if_neg h]
    simp only [view, hchain]
    simp only [Storage.setChain, getD_eq_getElem?_getD]
    rw [getElem?_set_ne (fun heq => h heq.symm)]

/-! ### The operations on the store -/

theorem Healthy.view_length (h : Healthy st) (k : Nat) : (st.view k).length = blockSz := by
  obtain ⟨items, hitems⟩ := h.chain k
  rw [view_eq hitems]
  cases hl : lookup items k with
  | none => exact Disk.contents_length _ _
  | some slot => exact h.sized _ items hitems slot (lookup_some hl).1

theorem fetch_view (h : Healthy st) (k : Nat) :
    ∃ st', st.fetch k = (.ok (some (st.view k)), st') ∧ Healthy st' ∧ st'.view = st.view := by
  obtain ⟨items, hitems⟩ := h.chain k
  have hview := view_eq hitems
  cases hl : lookup items k with
  | some slot =>
    refine ⟨st, ?_, h, rfl⟩
    simp only [fetch, hitems, hl, hview, map_some, getD_some]
  | none =>
    have hci := (List.getElem?_eq_some_iff.mp hitems).1
    let st₁ : Storage := {st with disk := {st.disk with ops := st.disk.ops + 1}}
    have h₁ : Healthy st₁ := ⟨h.width, h.nonempty, h.placed, h.sized, h.errs⟩
    let slot : CacheSlot := ⟨k, st.disk.contents k blockSz, false⟩
    refine ⟨st₁.setChain (st.cache.chainOf k) (items ++ [slot]), ?_, ?_, ?_⟩
    · simp only [fetch, hitems, hl, hview, map_none, getD_none,
        Disk.readBlock_healthy h.errs]
      rfl
    · apply h₁.setChain
      · intro s hs
        rcases mem_append.mp hs with hs | hs
        · exact h.placed _ items hitems s hs
        · rw [mem_singleton.mp hs]
      · intro s hs
        rcases mem_append.mp hs with hs | hs
        · exact h.sized _ items hitems s hs
        · rw [mem_singleton.mp hs]
          exact Disk.contents_length _ _
    · funext j
      have hset := view_setChain st₁ hci (items ++ [slot]) j
      by_cases hj : st.cache.chainOf j = st.cache.chainOf k
      · rw [hset, if_pos hj, view_eq (hj ▸ hitems), lookup_concat]
        by_cases hjk : k = j
        · subst hjk
          rw [hl]
          simp [slot]
        · simp only [slot, if_neg hjk, or_none]
          rfl
      · rw [hset, if_neg hj]
        rfl

theorem put_view (h : Healthy st) (k : Nat) (hdata : data.length = blockSz) :
    ∃ st', st.put k data = (.ok (), st') ∧ Healthy st' ∧
      st'.view = Function.update st.view k data := by
  obtain ⟨items, hitems⟩ := h.chain k
  have hci := (List.getElem?_eq_some_iff.mp hitems).1
  refine ⟨st.setChain (st.cache.chainOf k) (upsert k data items), ?_, ?_, ?_⟩
  · simp only [put, hitems]
  · apply h.setChain
    · intro s hs
      rcases mem_upsert hs with ⟨hid, _⟩ | hs
      · rw [hid]
      · exact h.placed _ items hitems s hs
    · intro s hs
      rcases mem_upsert hs with ⟨_, hp⟩ | hs
      · rw [hp]
        exact hdata
      · exact h.sized _ items hitems s hs
  · funext j
    rw [view_setChain st hci, lookup_upsert]
    by_cases hjk : j = k
    · subst hjk
      simp
    · rw [Function.update_of_ne hjk, if_neg hjk]
      by_cases hj : st.cache.chainOf j = st.cache.chainOf k
      · rw [if_pos hj, view_eq (hj ▸ hitems)]
      · rw [if_neg hj]

/-! ### Write-back -/

/-- A slot after its write-back. -/
def clean (slot : CacheSlot) : CacheSlot := {slot with modified := false}

theorem flushSlot_fst (slot : CacheSlot) (d : Disk) : (flushSlot slot d).1 = clean slot := by
  obtain ⟨id, payload, modified⟩ := slot
  cases modified <;> rfl

theorem flushSlot_snd (slot : CacheSlot) (d : Disk) :
    (flushSlot slot d).2.errs ≤ d.errs ∧
      ∀ k, slot.id ≠ k → (flushSlot slot d).2.contents k blockSz = d.contents k blockSz := by
  unfold flushSlot
  split
  · exact ⟨Disk.writeBlock_errs_le .., fun k hk => Disk.writeBlock_contents hk _ _⟩
  · exact ⟨Nat.le_refl _, fun _ _ => rfl⟩

theorem flushChain_fst (items : List CacheSlot) (d : Disk) :
    (flushChain items d).1 = items.map clean := by
  induction items generalizing d with
  | nil => rfl
  | cons slot rest ih => simp only [flushChain, map_cons, flushSlot_fst, ih]

theorem flushChain_snd (items : List CacheSlot) (d : Disk) :
    (flushChain items d).2.errs ≤ d.errs ∧ ∀ k, (∀ slot ∈ items, slot.id ≠ k) →
      (flushChain items d).2.contents k blockSz = d.contents k blockSz := by
  induction items generalizing d with
  | nil => exact ⟨Nat.le_refl _, fun _ _ => rfl⟩
  | cons slot rest ih =>
    obtain ⟨herrs, hkeep⟩ := flushSlot_snd slot d
    obtain ⟨herrs', hkeep'⟩ := ih (flushSlot slot d).2
    refine ⟨herrs'.trans herrs, fun k hk => ?_⟩
    rw [forall_mem_cons] at hk
    exact (hkeep' k hk.2).trans (hkeep k hk.1)

theorem flushChains_fst (d : Disk) : (flushChains chains d).1 = chains.map (List.map clean) := by
  induction chains generalizing d with
  | nil => rfl
  | cons items rest ih => simp only [flushChains, map_cons, flushChain_fst, ih]

theorem flushChains_snd (d : Disk) : (flushChains chains d).2 = (flushChain chains.flatten d).2 := by
  have happend (items rest : List CacheSlot) (d : Disk) :
      (flushChain (items ++ rest) d).2 = (flushChain rest (flushChain items d).2).2 := by
    induction items generalizing d with
    | nil => rfl
    | cons slot items ih => exact ih (flushSlot slot d).2
  induction chains generalizing d with
  | nil => rfl
  | cons items rest ih =>
    rw [flatten_cons, happend]
    exact ih (flushChain items d).2

theorem lookup_clean (items : List CacheSlot) (k : Nat) :
    lookup (items.map clean) k = (lookup items k).map clean := by
  simp only [lookup, find?_map]
  rfl

theorem writeBack_chain (h : st.writeBack.cache.chains[ci]? = some items) :
    ∃ before, st.cache.chains[ci]? = some before ∧ items = before.map clean := by
  simp only [writeBack, flushChains_fst, getElem?_map, map_eq_some_iff] at h
  obtain ⟨before, hbefore, rfl⟩ := h
  exact ⟨before, hbefore, rfl⟩

theorem writeBack_view (h : Healthy st) : Healthy st.writeBack ∧ st.writeBack.view = st.view := by
  obtain ⟨herrs, hkeep⟩ := flushChain_snd st.cache.chains.flatten st.disk
  rw [← flushChains_snd] at herrs hkeep
  refine ⟨⟨?_, h.nonempty, ?_, ?_, Nat.le_zero.mp (h.errs ▸ herrs)⟩, ?_⟩
  · simp only [writeBack, flushChains_fst, length_map]
    exact h.width
  · intro ci items hget slot hslot
    obtain ⟨before, hbefore, rfl⟩ := writeBack_chain hget
    obtain ⟨s, hs, rfl⟩ := mem_map.mp hslot
    exact h.placed ci before hbefore s hs
  · intro ci items hget slot hslot
    obtain ⟨before, hbefore, rfl⟩ := writeBack_chain hget
    obtain ⟨s, hs, rfl⟩ := mem_map.mp hslot
    exact h.sized ci before hbefore s hs
  · funext k
    obtain ⟨items, hitems⟩ := h.chain k
    have hafter : st.writeBack.cache.chains[st.writeBack.cache.chainOf k]? =
        some (items.map clean) := by
      simp only [writeBack, flushChains_fst, getElem?_map]
      exact congrArg (Option.map (List.map clean)) hitems
    rw [view_eq hafter, view_eq hitems, lookup_clean]
    cases hl : lookup items k with
    | some slot => rfl
    | none =>
      -- no slot anywhere is for `k`: one would be on this chain
      apply hkeep
      intro slot hslot hid
      obtain ⟨other, hother, hslot⟩ := mem_flatten.mp hslot
      obtain ⟨cj, hcj⟩ := mem_iff_getElem?.mp hother
      have hplace := h.placed cj other hcj slot hslot
      rw [hid] at hplace
      rw [← hplace, hitems] at hcj
      cases hcj
      exact lookup_none hl slot hslot hid

end Storage
end ChaosKernel.Fs
