import ChaosKernel.Base.Bisect
import ChaosKernel.Memory.Regions

/-! The map of one address space as an ordered interval map.

The maps that `insert` and `remove_range` build, with regions that have an address
and end at a word, are in order (`Regions`), and then every search is right:
`insert` sees every overlap although it stops at the first region that starts
above the new one, and `find` is a bisection whose probes point to each other.

Only `remove_range` is not exact. An empty range shares no address with anything,
and still removes the region in whose inside it lies (`intervalMap_iff`). -/
namespace ChaosKernel.Memory
open Base List

/-- A region with at least one address, whose end is a word. -/
def VmRegion.Proper (region : VmRegion) : Prop := 1 ≤ region.len ∧ region.base + region.len < wordSize

instance (region : VmRegion) : Decidable region.Proper := inferInstanceAs (Decidable (_ ∧ _))

/-- An address of the range belongs to the region. -/
def VmRegion.Shares (region : VmRegion) (base len : Nat) : Prop :=
  ∃ addr, base ≤ addr ∧ addr < base + len ∧ region.Covers addr

variable {region r s : VmRegion}

theorem VmRegion.endAddr_proper (h : region.Proper) :
    region.endAddr = some (region.base + region.len) := add?_of_lt h.2

theorem VmRegion.shares_iff (h : region.Proper) (base len : Nat) :
    region.Shares base len ↔ 1 ≤ len ∧ region.base < base + len ∧ base < region.base + region.len := by
  have hlen := h.1
  constructor
  · intro ⟨addr, hlo, hhi, hcovers⟩
    have h₁ := hcovers.1
    have h₂ := hcovers.2
    exact ⟨by omega, by omega, by omega⟩
  · intro ⟨hpos, hlo, hhi⟩
    exact ⟨max base region.base, by omega, by omega, by omega, by omega⟩

theorem VmRegion.apart_iff (hr : r.Proper) (hs : s.Proper) :
    r.Apart s ↔ ¬(r.base < s.base + s.len ∧ s.base < r.base + r.len) := by
  have hshares := shares_iff hs r.base r.len
  have hpos := hr.1
  constructor
  · intro hapart hover
    obtain ⟨addr, hlo, hhi, hcovers⟩ := hshares.mpr ⟨hpos, hover.2, hover.1⟩
    exact hapart addr ⟨hlo, hhi⟩ hcovers
  · intro hmiss addr hcr hcs
    have hover := hshares.mp ⟨addr, hcr.1, hcr.2, hcs⟩
    exact hmiss ⟨hover.2.2, hover.2.1⟩

namespace VmMap

/-- What `insert` and `remove_range` keep. -/
structure Kept (map : VmMap) : Prop where
  proper : ∀ r ∈ map.regions, r.Proper
  inOrder : InOrder map.regions

/-! ### Insertion -/

variable {region r s : VmRegion} {regions : List VmRegion} {map map' : VmMap} {addr i base j fuel lo hi len : Nat}

theorem insertLoop_error {e : Stop Errno} (hregion : region.Proper) (hproper : ∀ r ∈ regions, r.Proper)
    (h : insertLoop region regions = .error e) : e = .err .overlap ∧ ¬∀ r ∈ regions, region.Apart r := by
  induction regions with
  | nil => cases h
  | cons r rest ih =>
    have hr := hproper r mem_cons_self
    have hend : wrappingAdd region.base region.len = region.base + region.len := Nat.mod_eq_of_lt hregion.2
    rw [insertLoop, VmRegion.endAddr_proper hr] at h
    simp only [hend] at h
    split at h
    · next hover =>
      cases h
      exact ⟨rfl, fun hall => (VmRegion.apart_iff hregion hr).mp (hall r mem_cons_self) hover⟩
    · split at h
      · cases h
      · cases hrest : insertLoop region rest with
        | ok rest' =>
          rw [hrest] at h
          cases h
        | error e' =>
          rw [hrest] at h
          cases h
          obtain ⟨he, hover⟩ := ih (fun s hs => hproper s (mem_cons_of_mem r hs)) hrest
          exact ⟨he, fun hall => hover fun s hs => hall s (mem_cons_of_mem r hs)⟩

theorem Kept.insert_cases (h : map.Kept) (hregion : region.Proper) :
    ((∀ r ∈ map.regions, region.Apart r) ∧ ∃ map', map.insert region = .ok map' ∧
        map'.regions.Perm (region :: map.regions) ∧ map'.Kept) ∨
      ((¬∀ r ∈ map.regions, region.Apart r) ∧ map.insert region = .error (.err .overlap)) := by
  cases hloop : insertLoop region map.regions with
  | error e =>
    obtain ⟨he, hover⟩ := insertLoop_error hregion h.proper hloop
    refine .inr ⟨hover, ?_⟩
    rw [VmMap.insert, hloop, he]
    rfl
  | ok regions' =>
    have hapart := insertLoop_apart hregion.2 h.inOrder.sorted hloop
    have hinsert : map.insert region = .ok {map with regions := regions'} := by
      rw [VmMap.insert, hloop]
      rfl
    refine .inl ⟨hapart, _, hinsert, insertLoop_perm hloop, fun r hr => ?_,
      (insert_inOrder_iff h.inOrder hinsert).mpr (.inl hregion.2)⟩
    rcases insert_mem hinsert hr with rfl | hold
    · exact hregion
    · exact h.proper r hold

/-! ### Search -/

/-- Where an address lies from the region with an index. -/
def place (regions : List VmRegion) (addr i : Nat) : Ordering :=
  match regions[i]? with
  | none => .eq
  | some r => if addr < r.base then .lt else if r.base + r.len ≤ addr then .gt else .eq

theorem place_eq_lt (h : place regions addr i = .lt) : ∃ r, regions[i]? = some r ∧ addr < r.base := by
  unfold place at h
  split at h
  · cases h
  · next r hget =>
    by_cases hlt : addr < r.base
    · exact ⟨r, hget, hlt⟩
    · rw [if_neg hlt] at h
      split at h <;> cases h

theorem place_eq_gt (h : place regions addr i = .gt) :
    ∃ r, regions[i]? = some r ∧ r.base ≤ addr ∧ r.base + r.len ≤ addr := by
  unfold place at h
  split at h
  · cases h
  · next r hget =>
    split at h
    · cases h
    · next hge =>
      split at h
      · next hle => exact ⟨r, hget, by omega, hle⟩
      · cases h

theorem place_of_lt (hget : regions[i]? = some r) (hlt : addr < r.base) : place regions addr i = .lt := by
  simp only [place, hget, if_pos hlt]

theorem place_of_ge (hget : regions[i]? = some r) (hge : r.base + r.len ≤ addr) :
    place regions addr i = .gt := by
  simp only [place, hget, if_neg (show ¬addr < r.base by omega), if_pos hge]

theorem place_eq_iff (hget : regions[i]? = some r) : place regions addr i = .eq ↔ r.Covers addr := by
  simp only [place, hget, VmRegion.Covers]
  split_ifs
  · exact iff_of_false nofun (by omega)
  · exact iff_of_false nofun (by omega)
  · exact iff_of_true rfl (by omega)

theorem Kept.end_le (h : map.Kept) (hij : i < j) (hr : map.regions[i]? = some r)
    (hs : map.regions[j]? = some s) : r.base + r.len ≤ s.base := by
  obtain ⟨hj, hs'⟩ := List.getElem?_eq_some_iff.mp hs
  obtain ⟨hi, hr'⟩ := List.getElem?_eq_some_iff.mp hr
  have hle := pairwise_iff_getElem.mp h.inOrder.sorted i j hi hj hij
  have hapart := pairwise_iff_getElem.mp h.inOrder.disjoint i j hi hj hij
  rw [hr', hs'] at hle hapart
  have hpr := h.proper r (mem_of_getElem? hr)
  have hps := h.proper s (mem_of_getElem? hs)
  have hmiss := (VmRegion.apart_iff hpr hps).mp hapart
  have hpos := hps.1
  omega

theorem Kept.pointing (h : map.Kept) (addr : Nat) :
    Pointing (place map.regions addr) map.regions.length := by
  constructor
  · intro i j hij hj hlt
    obtain ⟨r, hr, haddr⟩ := place_eq_lt hlt
    have hs := getElem?_eq_getElem hj
    have hend := h.end_le hij hr hs
    exact place_of_lt hs (by omega)
  · intro i j hij hj hgt
    obtain ⟨s, hs, haddr, _⟩ := place_eq_gt hgt
    have hr := getElem?_eq_getElem (hij.trans hj)
    have hend := h.end_le hij hr hs
    exact place_of_ge hr (by omega)

/-- The loop of `find` is the bisection, which has no fuel to run out of. -/
theorem findLoop_eq_bisect (hproper : ∀ r ∈ regions, r.Proper) (addr : Nat) (hhi : hi ≤ regions.length)
    (hfuel : hi - lo ≤ fuel) :
    findLoop regions addr fuel lo hi =
      .ok ((bisect (place regions addr) lo hi).bind fun i => regions[i]?) := by
  induction fuel generalizing lo hi with
  | zero =>
    rw [bisect, if_neg (by omega)]
    rfl
  | succ fuel ih =>
    rw [findLoop, bisect]
    by_cases hlt : lo < hi
    · have hmid : lo + (hi - lo) / 2 < regions.length := by omega
      have hget := getElem?_eq_getElem hmid
      have hr := hproper _ (mem_of_getElem? hget)
      simp only [if_pos hlt, place, hget, VmRegion.endAddr_proper hr]
      split
      · exact ih (by omega) (by omega)
      · split
        · exact ih hhi (by omega)
        · simp only [Option.bind_some, hget]
    · rw [if_neg hlt, if_neg hlt]
      rfl

theorem Kept.find_eq (h : map.Kept) (addr : Nat) :
    map.find addr =
      .ok ((bisect (place map.regions addr) 0 map.regions.length).bind fun i => map.regions[i]?) :=
  findLoop_eq_bisect h.proper addr le_rfl (Nat.sub_le _ _)

theorem Kept.find_spec (h : map.Kept) (addr : Nat) :
    ∃ found, map.find addr = .ok found ∧ ∀ r, found = some r ↔ r ∈ map.regions ∧ r.Covers addr := by
  refine ⟨_, h.find_eq addr, fun r => ?_⟩
  cases hbisect : bisect (place map.regions addr) 0 map.regions.length with
  | none =>
    refine iff_of_false nofun fun ⟨hmem, hcovers⟩ => ?_
    obtain ⟨i, hi, hget⟩ := mem_iff_getElem.mp hmem
    have hr : map.regions[i]? = some r := List.getElem?_eq_some_iff.mpr ⟨hi, hget⟩
    exact bisect_none (h.pointing addr) le_rfl hbisect (Nat.zero_le i) hi ((place_eq_iff hr).mpr hcovers)
  | some i =>
    obtain ⟨_, hi, heq⟩ := bisect_some hbisect
    have hget := getElem?_eq_getElem hi
    have hcovers := (place_eq_iff hget).mp heq
    rw [Option.bind_some, hget, Option.some.injEq]
    constructor
    · intro hfound
      rw [← hfound]
      exact ⟨getElem_mem hi, hcovers⟩
    · intro ⟨hmem, hr⟩
      obtain ⟨j, hj, hgetj⟩ := mem_iff_getElem.mp hmem
      have hs : map.regions[j]? = some r := List.getElem?_eq_some_iff.mpr ⟨hj, hgetj⟩
      have h₁ := hcovers.1
      have h₂ := hcovers.2
      have h₃ := hr.1
      have h₄ := hr.2
      rcases Nat.lt_trichotomy i j with hlt | heq' | hgt
      · have hend := h.end_le hlt hget hs
        omega
      · subst heq'
        exact hgetj
      · have hend := h.end_le hgt hs hget
        omega

/-! ### Removal -/

/-- The test of `remove_range` on a region. -/
def hits (base stop : Nat) (r : VmRegion) : Bool :=
  (base ≤ r.base ∧ r.base + r.len ≤ stop) ∨ (r.base < stop ∧ base < r.base + r.len)

theorem removeLoop_eq (hends : ∀ r ∈ regions, r.base + r.len < wordSize) (base stop : Nat) :
    removeLoop base stop regions = (.ok (), regions.filter fun r => !hits base stop r) := by
  induction regions with
  | nil => rfl
  | cons r rest ih =>
    rw [removeLoop, show r.endAddr = some (r.base + r.len) from add?_of_lt (hends r mem_cons_self),
      ih fun s hs => hends s (mem_cons_of_mem r hs), filter_cons]
    simp only [hits, Bool.not_eq_true', decide_eq_false_iff_not, ite_not]
    split <;> rfl

theorem removeRange_eq (hends : ∀ r ∈ map.regions, r.base + r.len < wordSize)
    (hword : base + len < wordSize) : map.removeRange base len =
      (.ok (map.regions.length - (map.regions.filter fun r => !hits base (base + len) r).length),
        {map with regions := map.regions.filter fun r => !hits base (base + len) r}) := by
  have hend : wrappingAdd base len = base + len := Nat.mod_eq_of_lt hword
  rw [removeRange, hend, removeLoop_eq hends]
  rfl

/-- A region that the range misses may be hit all the same, by an empty range inside it. -/
theorem hits_iff (h : r.Proper) (base len : Nat) :
    hits base (base + len) r = true ↔ r.Shares base len ∨ (len = 0 ∧ r.base < base ∧ base < r.base + r.len) := by
  have hpos := h.1
  rw [VmRegion.shares_iff h, hits, decide_eq_true_eq]
  omega

/-- Of the map exactly the regions are gone that share an address with the range; the others are left in
their order, and the answer is the number of those that are gone. -/
def RemovesShared (map : VmMap) (base len : Nat) : Prop :=
  ∃ left, map.removeRange base len = (.ok (map.regions.length - left.length), {map with regions := left}) ∧
    left.Sublist map.regions ∧ ∀ r, r ∈ left ↔ r ∈ map.regions ∧ ¬r.Shares base len

theorem Kept.removesShared_iff (h : map.Kept) (hword : base + len < wordSize) :
    map.RemovesShared base len ↔ 1 ≤ len ∨ ∀ r ∈ map.regions, ¬(r.base < base ∧ base < r.base + r.len) := by
  have hremove := removeRange_eq (fun r hr => (h.proper r hr).2) hword
  constructor
  · intro ⟨left, heq, _, hmem⟩
    rw [or_iff_not_imp_left]
    intro hempty r hr hinside
    have hleft : map.regions.filter (fun r => !hits base (base + len) r) = left :=
      congrArg (fun out => out.2.regions) (hremove.symm.trans heq)
    have hmiss : ¬r.Shares base len := by
      rw [VmRegion.shares_iff (h.proper r hr)]
      omega
    have hstays := (hmem r).mpr ⟨hr, hmiss⟩
    rw [← hleft, mem_filter, Bool.not_eq_true', ← Bool.not_eq_true, hits_iff (h.proper r hr)] at hstays
    exact hstays.2 (.inr ⟨by omega, hinside⟩)
  · intro hclear
    refine ⟨_, hremove, filter_sublist, fun r => ?_⟩
    rw [mem_filter, Bool.not_eq_true', ← Bool.not_eq_true]
    refine and_congr_right fun hr => not_congr ((hits_iff (h.proper r hr) base len).trans (or_iff_left ?_))
    intro ⟨hzero, hinside⟩
    rcases hclear with hpos | hclear
    · omega
    · exact hclear r hr hinside

/-! ### Runs -/

inductive MapOp where
  | insert (region : VmRegion)
  | removeRange (base len : Nat)
  deriving DecidableEq, Repr

/-- The calls with proper regions and with ranges that do not wrap. -/
def step (map : VmMap) : MapOp → Option VmMap
  | .insert region =>
    if region.Proper then
      match map.insert region with
      | .ok map' => some map'
      | .error _ => some map
    else none
  | .removeRange base len =>
    if base + len < wordSize then some (map.removeRange base len).2 else none

def system : System VmMap MapOp := ⟨step⟩

theorem Kept.step {op : MapOp} (h : map.Kept) (hstep : system.step map op = some map') : map'.Kept := by
  cases op with
  | insert region =>
    simp only [system, VmMap.step, Option.ite_none_right_eq_some] at hstep
    obtain ⟨hregion, hstep⟩ := hstep
    rcases h.insert_cases hregion with ⟨_, after, hinsert, _, hkept⟩ | ⟨_, hinsert⟩
    · rw [hinsert] at hstep
      cases hstep
      exact hkept
    · rw [hinsert] at hstep
      cases hstep
      exact h
  | removeRange base len =>
    simp only [system, VmMap.step, Option.ite_none_right_eq_some, Option.some.injEq] at hstep
    obtain ⟨hword, rfl⟩ := hstep
    rw [removeRange_eq (fun r hr => (h.proper r hr).2) hword]
    exact ⟨fun r hr => h.proper r (mem_of_mem_filter hr), h.inOrder.sublist filter_sublist⟩

/-- What is asked of an ordered interval map, apart from removals. -/
structure IsIntervalMap (map : VmMap) : Prop where
  inOrder : InOrder map.regions
  /-- A region goes in exactly where it shares no address with another one. -/
  insert : ∀ region, region.Proper →
    ((∃ map', map.insert region = .ok map' ∧ map'.regions.Perm (region :: map.regions)) ↔
      ∀ r ∈ map.regions, region.Apart r)
  /-- Otherwise the overlap is reported. -/
  overlap : ∀ region, region.Proper →
    (map.insert region = .error (.err .overlap) ↔ ¬∀ r ∈ map.regions, region.Apart r)
  /-- The loop of `find` ends: it is the bisection without fuel. -/
  ends : ∀ addr, map.find addr =
    .ok ((bisect (place map.regions addr) 0 map.regions.length).bind fun i => map.regions[i]?)
  find : ∀ addr, ∃ found, map.find addr = .ok found ∧
    ∀ r, found = some r ↔ r ∈ map.regions ∧ r.Covers addr

theorem Kept.isIntervalMap (h : map.Kept) : map.IsIntervalMap := by
  refine ⟨h.inOrder, fun region hregion => ?_, fun region hregion => ?_, h.find_eq, h.find_spec⟩
  · rcases h.insert_cases hregion with ⟨hapart, after, hinsert, hperm, _⟩ | ⟨hover, hinsert⟩
    · exact iff_of_true ⟨after, hinsert, hperm⟩ hapart
    · refine iff_of_false (fun ⟨after, hok, _⟩ => ?_) hover
      rw [hinsert] at hok
      cases hok
  · rcases h.insert_cases hregion with ⟨hapart, after, hinsert, _, _⟩ | ⟨hover, hinsert⟩
    · refine iff_of_false (fun herror => ?_) (not_not_intro hapart)
      rw [hinsert] at herror
      cases herror
    · exact iff_of_true hinsert hover

/-- **Every map that insertions and removals build is an ordered interval map, and a removal from it is exact
if and only if its range is not an empty one inside a region.** -/
theorem intervalMap_iff (ops : List MapOp) (map : VmMap) (hrun : system.run VmMap.new ops = some map) :
    map.IsIntervalMap ∧ ∀ base len, base + len < wordSize →
      (map.RemovesShared base len ↔ 1 ≤ len ∨ ∀ r ∈ map.regions, ¬(r.base < base ∧ base < r.base + r.len)) := by
  have hkept : map.Kept :=
    System.invariant_run (fun _ _ _ h hstep => Kept.step h hstep) ⟨fun _ hr => absurd hr not_mem_nil, .nil⟩ hrun
  exact ⟨hkept.isIntervalMap, fun base len hword => hkept.removesShared_iff hword⟩

/-- One region, and the history that made it. -/
def onePage : VmMap := {VmMap.new with regions := [VmRegion.new 0x1000 0x1000 vmRead]}

def insertPage : List MapOp := [.insert (VmRegion.new 0x1000 0x1000 vmRead)]

theorem intervalMap_iff_onePage : onePage.IsIntervalMap ∧ ∀ base len, base + len < wordSize →
    (onePage.RemovesShared base len ↔
      1 ≤ len ∨ ∀ r ∈ onePage.regions, ¬(r.base < base ∧ base < r.base + r.len)) :=
  intervalMap_iff insertPage onePage rfl

/-- The empty range at `0x1800` shares no address with the region, which is removed. -/
theorem empty_range_removes : system.run VmMap.new insertPage = some onePage ∧
    onePage.removeRange 0x1800 0 = (.ok 1, VmMap.new) ∧ ∀ r ∈ onePage.regions, ¬r.Shares 0x1800 0 :=
  ⟨rfl, rfl, fun _ _ ⟨_, hlo, hhi, _⟩ => absurd hlo (by omega)⟩

end VmMap
end ChaosKernel.Memory
