import ChaosKernel.Base.Run
import ChaosKernel.Base.Words
import ChaosKernel.Memory.FrameAlloc

/-! Zones and the free frames they count.

Zones tile the frames of a pool, and each keeps a count of its free frames beside
the bitmap. An allocation takes a free frame of the zone and counts it. A release
marks the frame and counts it whatever the slot was before, so the counts are right
as long as only used frames are released (`accounted_iff`). -/
namespace ChaosKernel.Memory
open Base List

namespace ZoneInfo

def new (id base count low high : Nat) : ZoneInfo := ⟨id, base, count, count, low, high, true⟩

/-- `deficit * 100` may overflow. -/
def zonePressure (zone : ZoneInfo) : Option Nat :=
  if zone.highWatermark ≤ zone.freeCount then some 0
  else if zone.freeCount ≤ zone.lowWatermark then some 100
  else
    let range := zone.highWatermark - zone.lowWatermark
    let deficit := zone.highWatermark - zone.freeCount
    (mul? deficit 100).map fun d => d / range

def reclaimTarget (zone : ZoneInfo) : Nat :=
  if zone.highWatermark ≤ zone.freeCount then 0 else zone.highWatermark - zone.freeCount

/-- The end of the zone is computed for a frame that is not below it. -/
def containsPfn (zone : ZoneInfo) (pfn : Nat) : Option Bool :=
  if zone.basePfn ≤ pfn then (add? zone.basePfn zone.pageCount).map fun limit => pfn < limit else some false

/-- The number of its free frames. -/
def freeFrames (zone : ZoneInfo) (slots : List Bool) : Nat := freeIn slots zone.basePfn zone.pageCount

/-- The zone as it would be with the right count. -/
def counted (zone : ZoneInfo) (slots : List Bool) : ZoneInfo := {zone with freeCount := zone.freeFrames slots}

end ZoneInfo

/-- A pool with its zones. -/
structure ZonedPool where
  pool : FramePool
  zones : List ZoneInfo

inductive ZoneCall where
  | getZoneAware (k : Nat)
  | putZoneAware (k idx : Nat)
  deriving DecidableEq, Repr

namespace ZonedPool

/-- A call with the zone at place `k`. A frame is given back to the zone it lies in. -/
def step (w : ZonedPool) : ZoneCall → Option ZonedPool
  | .getZoneAware k => w.zones[k]?.bind fun zone =>
    let (res, pool, zone) := w.pool.getZoneAware zone
    if returned res then some ⟨pool, w.zones.set k zone⟩ else none
  | .putZoneAware k idx => w.zones[k]?.bind fun zone =>
    if zone.containsPfn idx = some true then
      let (pool, zone) := w.pool.putZoneAware idx zone
      some ⟨pool, w.zones.set k zone⟩
    else none

def system : System ZonedPool ZoneCall := ⟨step⟩

/-- The frames of the pool are tiled by the zones: each lies in one zone, and in no other. -/
structure Tiled (w : ZonedPool) : Prop where
  word : w.pool.slots.length < wordSize
  inside : ∀ (k : Nat) (zone : ZoneInfo), w.zones[k]? = some zone → zone.basePfn + zone.pageCount ≤ w.pool.slots.length
  covered : ∀ i < w.pool.slots.length, ∃ zone ∈ w.zones, zone.containsPfn i = some true
  apart : ∀ (j k : Nat) (a b : ZoneInfo) (i : Nat), w.zones[j]? = some a → w.zones[k]? = some b →
    a.containsPfn i = some true → b.containsPfn i = some true → j = k

/-- Every zone counts its free frames, and what it says about its state it would say with the right count. -/
structure Accounted (w : ZonedPool) : Prop where
  count : ∀ zone ∈ w.zones, zone.freeCount = zone.freeFrames w.pool.slots
  le : ∀ zone ∈ w.zones, zone.freeCount ≤ zone.pageCount
  canAlloc : ∀ zone ∈ w.zones, zone.zoneCanAlloc = (zone.counted w.pool.slots).zoneCanAlloc
  pressure : ∀ zone ∈ w.zones, zone.zonePressure = (zone.counted w.pool.slots).zonePressure
  target : ∀ zone ∈ w.zones, zone.reclaimTarget = (zone.counted w.pool.slots).reclaimTarget

/-- Only used frames are given back. -/
def Releases (w : ZonedPool) : ZoneCall → Prop
  | .getZoneAware _ => True
  | .putZoneAware _ idx => w.pool.avail idx = false

instance (w : ZonedPool) : (call : ZoneCall) → Decidable (w.Releases call)
  | .getZoneAware _ => isTrue trivial
  | .putZoneAware _ _ => inferInstanceAs (Decidable (_ = _))

/-! ### The counts -/

theorem accounted_iff_count (w : ZonedPool) :
    w.Accounted ↔ ∀ zone ∈ w.zones, zone.freeCount = zone.freeFrames w.pool.slots := by
  refine ⟨Accounted.count, fun h => ?_⟩
  have hself : ∀ zone ∈ w.zones, zone.counted w.pool.slots = zone := fun zone hzone => by
    rw [ZoneInfo.counted, ← h zone hzone]
  refine ⟨h, fun zone hzone => ?_, fun zone hzone => ?_, fun zone hzone => ?_, fun zone hzone => ?_⟩
  · rw [h zone hzone]
    exact freeIn_le _ _ _
  · rw [hself zone hzone]
  · rw [hself zone hzone]
  · rw [hself zone hzone]

variable {zone : ZoneInfo} {i k idx n : Nat} {w w' : ZonedPool} {call : ZoneCall}

theorem containsPfn_iff (hword : zone.basePfn + zone.pageCount < wordSize) :
    zone.containsPfn i = some true ↔ zone.basePfn ≤ i ∧ i < zone.basePfn + zone.pageCount := by
  unfold ZoneInfo.containsPfn
  by_cases hle : zone.basePfn ≤ i
  · rw [if_pos hle, add?_of_lt hword, Option.map_some, Option.some.injEq, decide_eq_true_eq]
    exact (and_iff_right hle).symm
  · rw [if_neg hle]
    exact iff_of_false nofun fun h => hle h.1

theorem Tiled.containsPfn_iff (h : w.Tiled) (hk : w.zones[k]? = some zone) :
    zone.containsPfn i = some true ↔ zone.basePfn ≤ i ∧ i < zone.basePfn + zone.pageCount :=
  ZonedPool.containsPfn_iff ((h.inside k zone hk).trans_lt h.word)

/-- One slot of zone `k` changes, and the count of the zone. -/
def change (w : ZonedPool) (k i : Nat) (b : Bool) (zone : ZoneInfo) (count : Nat) : ZonedPool :=
  ⟨{w.pool with slots := w.pool.slots.set i b}, w.zones.set k {zone with freeCount := count}⟩

/-- The tiles are where the zones lie. -/
theorem Tiled.change (h : w.Tiled) (hk : w.zones[k]? = some zone) (i : Nat) (b : Bool) (count : Nat) :
    (w.change k i b zone count).Tiled := by
  have hlt : k < w.zones.length := (List.getElem?_eq_some_iff.mp hk).1
  have hold : ∀ (j : Nat) (a : ZoneInfo), (w.change k i b zone count).zones[j]? = some a →
      ∃ a', w.zones[j]? = some a' ∧ a.basePfn = a'.basePfn ∧ a.pageCount = a'.pageCount := by
    intro j a ha
    rw [ZonedPool.change, getElem?_set] at ha
    split at ha
    · next heq =>
      subst heq
      rw [Option.some.injEq] at ha
      exact ⟨zone, hk, by rw [← ha], by rw [← ha]⟩
    · exact ⟨a, ha, rfl, rfl⟩
  have hcontains {a a' : ZoneInfo} (hbase : a.basePfn = a'.basePfn) (hcount : a.pageCount = a'.pageCount) (x : Nat) :
      a.containsPfn x = a'.containsPfn x := by
    rw [ZoneInfo.containsPfn, hbase, hcount]
    rfl
  have hlength : (w.change k i b zone count).pool.slots.length = w.pool.slots.length := length_set
  refine ⟨by rw [hlength]; exact h.word, fun j a ha => ?_, fun x hx => ?_, fun j j' a c x ha hc hax hcx => ?_⟩
  · obtain ⟨a', ha', hbase, hcount⟩ := hold j a ha
    rw [hlength, hbase, hcount]
    exact h.inside j a' ha'
  · rw [hlength] at hx
    obtain ⟨a, ha, hax⟩ := h.covered x hx
    obtain ⟨j, hj, hget⟩ := mem_iff_getElem.mp ha
    have ha' : w.zones[j]? = some a := List.getElem?_eq_some_iff.mpr ⟨hj, hget⟩
    by_cases hjk : k = j
    · subst hjk
      rw [hk, Option.some.injEq] at ha'
      subst ha'
      exact ⟨_, mem_set hlt _, hax⟩
    · refine ⟨a, mem_of_getElem? (i := j) ?_, hax⟩
      rw [ZonedPool.change, getElem?_set_ne hjk]
      exact ha'
  · obtain ⟨a', ha', hbase, hcount⟩ := hold j a ha
    obtain ⟨c', hc', hbase', hcount'⟩ := hold j' c hc
    rw [hcontains hbase hcount] at hax
    rw [hcontains hbase' hcount'] at hcx
    exact h.apart j j' a' c' x ha' hc' hax hcx

theorem Tiled.freeFrames_set (h : w.Tiled) (hk : w.zones[k]? = some zone)
    (hi : zone.containsPfn i = some true) (b : Bool) :
    zone.freeFrames (w.pool.slots.set i b) + (if w.pool.avail i then 1 else 0) =
      zone.freeFrames w.pool.slots + if b then 1 else 0 := by
  obtain ⟨hlo, hhi⟩ := (h.containsPfn_iff hk).mp hi
  have hlt : i < w.pool.slots.length := hhi.trans_le (h.inside k zone hk)
  have hzone := freeIn_set hlt b zone.basePfn zone.pageCount
  simp only [hlo, hhi, true_and] at hzone
  exact hzone

/-- A change inside zone `k` is accounted for exactly where the new count is the zone's new number of free frames:
no other zone has the slot. -/
theorem accounted_change_iff (h : w.Tiled) (hcount : w.Accounted) (hk : w.zones[k]? = some zone)
    (hi : zone.containsPfn i = some true) (b : Bool) (count : Nat) :
    (w.change k i b zone count).Accounted ↔
      count + (if w.pool.avail i then 1 else 0) = zone.freeCount + if b then 1 else 0 := by
  have hklt : k < w.zones.length := (List.getElem?_eq_some_iff.mp hk).1
  obtain ⟨hlo, hhi⟩ := (h.containsPfn_iff hk).mp hi
  have hlt : i < w.pool.slots.length := hhi.trans_le (h.inside k zone hk)
  have hright := hcount.count zone (mem_of_getElem? hk)
  have hother : ∀ (j : Nat) (a : ZoneInfo), j ≠ k → w.zones[j]? = some a →
      a.freeFrames (w.pool.slots.set i b) = a.freeFrames w.pool.slots := by
    intro j a hne ha
    have hout : ¬(a.basePfn ≤ i ∧ i < a.basePfn + a.pageCount) := fun hin =>
      hne (h.apart j k a zone i ha hk ((h.containsPfn_iff ha).mpr hin) hi)
    have hset := freeIn_set hlt b a.basePfn a.pageCount
    rw [if_neg fun hin => hout ⟨hin.1, hin.2.1⟩, if_neg fun hin => hout ⟨hin.1, hin.2.1⟩] at hset
    exact hset
  have hnew : zone.freeFrames (w.pool.slots.set i b) + (if w.pool.avail i then 1 else 0) =
      zone.freeCount + if b then 1 else 0 := by
    rw [hright]
    exact h.freeFrames_set hk hi b
  rw [accounted_iff_count]
  constructor
  · intro hall
    have hself : count = zone.freeFrames (w.pool.slots.set i b) :=
      hall {zone with freeCount := count} (mem_set hklt _)
    rw [hself]
    exact hnew
  · intro heq a ha
    obtain ⟨j, hj, hget⟩ := mem_iff_getElem.mp ha
    have hget' : (w.zones.set k {zone with freeCount := count})[j]? = some a :=
      List.getElem?_eq_some_iff.mpr ⟨hj, hget⟩
    rw [getElem?_set] at hget'
    split at hget'
    · rw [Option.some.injEq] at hget'
      rw [← hget']
      show count = zone.freeFrames (w.pool.slots.set i b)
      omega
    · next hne =>
      exact (hcount.count a (mem_of_getElem? hget')).trans (hother j a (Ne.symm hne) hget').symm

/-! ### The calls -/

theorem step_get (h : w.Tiled) (hstep : system.step w (.getZoneAware k) = some w') :
    w' = w ∨ ∃ zone i, w.zones[k]? = some zone ∧ zone.containsPfn i = some true ∧ w.pool.avail i = true ∧
      1 ≤ zone.freeCount ∧ w' = w.change k i false zone (zone.freeCount - 1) := by
  obtain ⟨zone, hk, hstep⟩ := Option.bind_eq_some_iff.mp hstep
  have hinside := h.inside k zone hk
  have hsame : w.zones.set k zone = w.zones := by
    obtain ⟨hlt, hget⟩ := List.getElem?_eq_some_iff.mp hk
    rw [← hget, set_getElem_self]
  rw [FramePool.getZoneAware, add?_of_lt (hinside.trans_lt h.word)] at hstep
  cases hcan : zone.zoneCanAlloc with
  | false =>
    rw [hcan, if_neg Bool.false_ne_true] at hstep
    simp only [returned, if_true, Option.some.injEq, hsame] at hstep
    exact .inl hstep.symm
  | true =>
    rw [hcan, if_pos rfl] at hstep
    simp only [Nat.min_eq_left hinside, Nat.add_sub_cancel_left] at hstep
    cases hfind : (List.range' zone.basePfn zone.pageCount).find? fun i => w.pool.slots.getD i false with
    | none =>
      simp only [hfind, returned, if_true, Option.some.injEq, hsame] at hstep
      exact .inl hstep.symm
    | some i =>
      simp only [hfind, returned, if_true, Option.some.injEq] at hstep
      have hmem := mem_of_find?_eq_some hfind
      rw [mem_range'_1] at hmem
      have hpos : zone.lowWatermark < zone.freeCount := by simpa [ZoneInfo.zoneCanAlloc] using hcan
      exact .inr ⟨zone, i, hk, (h.containsPfn_iff hk).mpr hmem, find?_some hfind, by omega, hstep.symm⟩

theorem step_put (h : w.Tiled) (hstep : system.step w (.putZoneAware k idx) = some w') :
    ∃ zone, w.zones[k]? = some zone ∧ zone.containsPfn idx = some true ∧
      w' = w.change k idx true zone (wrappingAdd zone.freeCount 1) := by
  obtain ⟨zone, hk, hstep⟩ := Option.bind_eq_some_iff.mp hstep
  rw [Option.ite_none_right_eq_some] at hstep
  obtain ⟨hcontains, hstep⟩ := hstep
  have hlt : idx < w.pool.slots.length :=
    ((h.containsPfn_iff hk).mp hcontains).2.trans_le (h.inside k zone hk)
  rw [FramePool.putZoneAware, if_pos hlt] at hstep
  exact ⟨zone, hk, hcontains, (Option.some.inj hstep).symm⟩

theorem Tiled.step (h : w.Tiled) (hstep : system.step w call = some w') : w'.Tiled := by
  cases call with
  | getZoneAware k =>
    rcases step_get h hstep with rfl | ⟨zone, i, hk, _, _, _, rfl⟩
    · exact h
    · exact h.change hk i false _
  | putZoneAware k idx =>
    obtain ⟨zone, hk, _, rfl⟩ := step_put h hstep
    exact h.change hk idx true _

/-- A release of a free frame counts it again. -/
theorem step_accounted_iff (h : w.Tiled) (hcount : w.Accounted) (hstep : system.step w call = some w') :
    w'.Accounted ↔ w.Releases call := by
  cases call with
  | getZoneAware k =>
    rcases step_get h hstep with rfl | ⟨zone, i, hk, hi, hfree, hpos, rfl⟩
    · exact iff_of_true hcount trivial
    · rw [accounted_change_iff h hcount hk hi, hfree, if_pos rfl, if_neg Bool.false_ne_true]
      exact iff_of_true (Nat.sub_add_cancel hpos) trivial
  | putZoneAware k idx =>
    obtain ⟨zone, hk, hidx, rfl⟩ := step_put h hstep
    have hle := hcount.le zone (mem_of_getElem? hk)
    have hinside := h.inside k zone hk
    have hin := (h.containsPfn_iff hk).mp hidx
    have hword := h.word
    have hpos : 1 < wordSize := by decide
    rw [accounted_change_iff h hcount hk hidx, if_pos rfl, Releases, wrappingAdd]
    cases havail : w.pool.avail idx with
    | true =>
      rw [if_pos rfl]
      refine iff_of_false (fun heq => ?_) nofun
      by_cases hlt : zone.freeCount + 1 < wordSize
      · rw [Nat.mod_eq_of_lt hlt] at heq
        omega
      · rw [show zone.freeCount + 1 = wordSize by omega, Nat.mod_self] at heq
        omega
    | false =>
      have hafter := h.freeFrames_set hk hidx true
      rw [havail, if_neg Bool.false_ne_true, if_pos rfl, ← hcount.count zone (mem_of_getElem? hk)] at hafter
      have hroom : zone.freeFrames (w.pool.slots.set idx true) ≤ zone.pageCount := freeIn_le _ _ _
      have hlt : zone.freeCount + 1 < wordSize := by omega
      rw [if_neg Bool.false_ne_true]
      exact iff_of_true (Nat.mod_eq_of_lt hlt) rfl

/-- **The zones of a tiled pool are accounted for in all states of a run if and only if they are at its start and
every frame that is given back is in use.** -/
theorem accounted_iff (start : ZonedPool) (htiled : start.Tiled) (calls : List ZoneCall) :
    system.Always Accounted start calls ↔ start.Accounted ∧ system.Guarded Releases start calls := by
  have hiff (hcount : start.Accounted) :
      system.Always Accounted start calls ↔ system.Guarded Releases start calls :=
    System.always_iff_guarded (J := Tiled) (fun _ _ _ h hstep => h.step hstep)
      (fun _ _ _ h hc hstep => step_accounted_iff h hc hstep) htiled hcount
  constructor
  · intro hall
    have hstart : start.Accounted := hall [] start nil_prefix rfl
    exact ⟨hstart, (hiff hstart).mp hall⟩
  · intro ⟨hstart, hguarded⟩
    exact (hiff hstart).mpr hguarded

theorem accounted_new {zones : List ZoneInfo} (hnew : ∀ zone ∈ zones, zone.freeCount = zone.pageCount)
    (hinside : ∀ zone ∈ zones, zone.basePfn + zone.pageCount ≤ n) : Accounted ⟨FramePool.new n, zones⟩ := by
  rw [accounted_iff_count]
  intro zone hzone
  have hle := hinside zone hzone
  have hall : ∀ i ∈ List.range' zone.basePfn zone.pageCount, (List.replicate n true).getD i false = true := by
    intro i hi
    rw [mem_range'_1] at hi
    rw [getD_eq_getElem?_getD, getElem?_replicate, if_pos (by omega), Option.getD_some]
  rw [hnew zone hzone]
  show zone.pageCount = (List.range' zone.basePfn zone.pageCount).countP fun i => (List.replicate n true).getD i false
  rw [countP_eq_length.mpr hall, length_range']

/-- Two frames in one zone. -/
def oneZone : ZonedPool := ⟨FramePool.new 2, [ZoneInfo.new 0 0 2 0 1]⟩

theorem oneZone_tiled : oneZone.Tiled := by
  have hlast {k : Nat} {zone : ZoneInfo} (hk : oneZone.zones[k]? = some zone) : k = 0 := by
    have hlt : k < 1 := (List.getElem?_eq_some_iff.mp hk).1
    omega
  refine ⟨by decide, fun k zone hk => ?_, by decide, fun j k a b i ha hb _ _ => (hlast ha).trans (hlast hb).symm⟩
  rw [mem_singleton.mp (mem_of_getElem? hk)]
  decide

theorem accounted_iff_oneZone : system.Always Accounted oneZone [.getZoneAware 0, .putZoneAware 0 0] ↔
    oneZone.Accounted ∧ system.Guarded Releases oneZone [.getZoneAware 0, .putZoneAware 0 0] :=
  accounted_iff oneZone oneZone_tiled _

/-- A frame that is given back twice: the zone counts three free frames of two. -/
theorem counted_again : oneZone.Tiled ∧ oneZone.Accounted ∧ ∃ w, system.run oneZone
    [.getZoneAware 0, .putZoneAware 0 0, .putZoneAware 0 0] = some w ∧
      w.zones.map ZoneInfo.freeCount = [3] ∧ w.pool.slots = [true, true] ∧ ¬w.Accounted := by
  have hrun : ((system.run oneZone [.getZoneAware 0, .putZoneAware 0 0, .putZoneAware 0 0]).any fun w =>
      w.zones.map ZoneInfo.freeCount = [3] ∧ w.zones.map ZoneInfo.pageCount = [2] ∧ w.pool.slots = [true, true]) =
        true := by
    decide +kernel
  obtain ⟨w, hw, hfree, hpages, hslots⟩ := System.exists_of_run_any hrun
  refine ⟨oneZone_tiled, accounted_new (by decide) (by decide), w, hw, hfree, hslots, fun hcount => ?_⟩
  cases hzones : w.zones with
  | nil =>
    rw [hzones] at hfree
    cases hfree
  | cons zone rest =>
    rw [hzones, map_cons] at hfree hpages
    have hle := hcount.le zone (by rw [hzones]; exact mem_cons_self)
    rw [(List.cons.inj hfree).1, (List.cons.inj hpages).1] at hle
    exact absurd hle (by decide)

end ZonedPool
end ChaosKernel.Memory
