import ChaosKernel.Memory.IntervalMap
import ChaosKernel.Memory.Spaces

/-! Which addresses an unmapping and a change of protection reach.

Both calls take whole regions: what the range meets of a region decides about all
of it. An unmapping is exact where the addresses that a removed region has outside
the range are mapped by a region that stays, with the same flags; a change of
protection where outside the range the flags are the same before and after. In a
map in order, with regions that share no address, this says that the regions that
the range meets lie inside it (`unmappable_iff`). -/
namespace ChaosKernel.Memory
open Base List

namespace AddrSpace
variable {space : AddrSpace} {start len : Nat}

/-! ### Unmapping -/

/-- After the call an address is mapped with some flags exactly where it was before and lies outside the range,
and the page entries of the addresses outside are as they were. -/
def UnmapsExactly (space : AddrSpace) (start len : Nat) : Prop :=
  ∃ n after, space.unmapRange start len = (.ok n, after) ∧
    (∀ addr flags, after.MapsTo addr flags ↔
      space.MapsTo addr flags ∧ ¬(start ≤ addr ∧ addr < start + len)) ∧
    ∀ addr, ¬(start ≤ addr ∧ addr < start + len) →
      after.cowPages[pageAddr addr]? = space.cowPages[pageAddr addr]?

/-- The ends of all regions are words, and what a region that is hit has outside the range stays mapped. -/
structure Unmappable (regions : List VmRegion) (start len : Nat) : Prop where
  ends : ∀ r ∈ regions, r.base + r.len < wordSize
  outside : ∀ r ∈ regions, VmMap.hits start (start + len) r = true → ∀ addr, r.Covers addr →
    ¬(start ≤ addr ∧ addr < start + len) →
      ∃ s ∈ regions, VmMap.hits start (start + len) s = false ∧ s.Covers addr ∧ s.flags = r.flags

variable {regions regions' : List VmRegion} {stop addr start newFlags base n : Nat} {after : AddrSpace} {r : VmRegion}

theorem ends_of_removeLoop (h : (VmMap.removeLoop base stop regions).1 = .ok ()) :
    ∀ r ∈ regions, r.base + r.len < wordSize := by
  induction regions with
  | nil => exact nofun
  | cons r rest ih =>
    rw [VmMap.removeLoop] at h
    cases hend : r.endAddr with
    | none =>
      rw [hend] at h
      cases h
    | some re =>
      obtain ⟨_, hword⟩ := add?_eq_some hend
      simp only [hend] at h
      refine forall_mem_cons.mpr ⟨hword, ih ?_⟩
      split at h <;> exact h

theorem dropPages_returns (start stop : Nat) {pages : List (Nat × PgFrame)} (h : ∀ page ∈ pages, 1 ≤ page.2.rc)
    (cow : BTreeMap PgFrame) : ∃ n cow', dropPages start stop pages cow = (.ok n, cow') := by
  induction pages generalizing cow with
  | nil => exact ⟨0, cow, rfl⟩
  | cons page rest ih =>
    obtain ⟨addr, frame⟩ := page
    have hrest := fun p hp => h p (mem_cons_of_mem _ hp)
    rw [dropPages]
    split
    · have hrc : frame.rc ≠ 0 := Nat.one_le_iff_ne_zero.mp (h (addr, frame) mem_cons_self)
      obtain ⟨n, cow', hdrop⟩ := ih hrest (cow.erase addr)
      rw [PgFrame.down, if_neg hrc]
      exact ⟨n + 1, cow', by simp only [hdrop]; rfl⟩
    · exact ih hrest cow

theorem unmapRange_regions (hword : start + len < wordSize)
    (h : space.unmapRange start len = (.ok n, after)) : (∀ r ∈ space.vmMap.regions, r.base + r.len < wordSize) ∧
      after.vmMap.regions = space.vmMap.regions.filter fun r => !VmMap.hits start (start + len) r := by
  have hend : wrappingAdd start len = start + len := Nat.mod_eq_of_lt hword
  rw [unmapRange, add?_of_lt hword] at h
  dsimp only at h
  split at h
  · cases h
  · next removed map hremove =>
    rw [VmMap.removeRange] at hremove
    have hends : ∀ r ∈ space.vmMap.regions, r.base + r.len < wordSize := by
      cases hloop : (VmMap.removeLoop start (wrappingAdd start len) space.vmMap.regions).1 with
      | ok _ => exact ends_of_removeLoop hloop
      | error e =>
        have hfirst := congrArg Prod.fst hremove
        simp only [hloop] at hfirst
        cases hfirst
    rw [hend, VmMap.removeLoop_eq hends] at hremove
    obtain ⟨_, rfl⟩ := Prod.mk.inj hremove
    obtain ⟨_, rfl⟩ := Prod.mk.inj h
    exact ⟨hends, rfl⟩

theorem unmapRange_returns (hcounted : space.Counted) (hword : start + len < wordSize)
    (hends : ∀ r ∈ space.vmMap.regions, r.base + r.len < wordSize) :
    ∃ n after, space.unmapRange start len = (.ok n, after) := by
  have hcounts : ∀ page ∈ space.cowPages.toList, 1 ≤ page.2.rc := fun page hpage =>
    hcounted page.1 page.2 (Std.ExtTreeMap.mem_toList_iff_getElem?_eq_some.mp hpage)
  obtain ⟨n, cow, hdrop⟩ := dropPages_returns start (start + len) hcounts space.cowPages
  rw [unmapRange, add?_of_lt hword, VmMap.removeRange_eq hends hword]
  simp only [hdrop]
  exact ⟨_, _, rfl⟩

theorem hits_of_covers (hcovers : r.Covers addr) (hin : start ≤ addr ∧ addr < start + len) :
    r.base < start + len ∧ start < r.base + r.len := by
  have h₁ := hcovers.1
  have h₂ := hcovers.2
  omega

theorem page_outside (hstart : pageSz ∣ start) (hlen : pageSz ∣ len)
    (hout : ¬(start ≤ addr ∧ addr < start + len)) : ¬(start ≤ pageAddr addr ∧ pageAddr addr < start + len) := by
  unfold pageAddr pageSz at *
  omega

theorem unmapsExactly_iff (hcounted : space.Counted) (hstart : pageSz ∣ start) (hlen : pageSz ∣ len)
    (hword : start + len < wordSize) :
    space.UnmapsExactly start len ↔ Unmappable space.vmMap.regions start len := by
  constructor
  · intro ⟨n, after, hunmap, hmaps, _⟩
    obtain ⟨hends, hregions⟩ := unmapRange_regions hword hunmap
    refine ⟨hends, fun r hr _ addr hcovers hout => ?_⟩
    obtain ⟨s, hs, hcovers', hflags⟩ := (hmaps addr r.flags).mpr ⟨⟨r, hr, hcovers, rfl⟩, hout⟩
    rw [hregions, mem_filter, Bool.not_eq_true'] at hs
    exact ⟨s, hs.1, hs.2, hcovers', hflags⟩
  · intro ⟨hends, houtside⟩
    obtain ⟨n, after, hunmap⟩ := unmapRange_returns hcounted hword hends
    obtain ⟨_, hregions⟩ := unmapRange_regions hword hunmap
    refine ⟨n, after, hunmap, fun addr flags => ⟨fun hafter => ?_, fun hbefore => ?_⟩, fun addr hout => ?_⟩
    · obtain ⟨s, hs, hcovers, hflags⟩ := hafter
      rw [hregions, mem_filter, Bool.not_eq_true'] at hs
      refine ⟨⟨s, hs.1, hcovers, hflags⟩, fun hin => ?_⟩
      have hmiss := hs.2
      rw [VmMap.hits, decide_eq_false_iff_not] at hmiss
      exact hmiss (.inr (hits_of_covers hcovers hin))
    · obtain ⟨⟨r, hr, hcovers, hflags⟩, hout⟩ := hbefore
      rw [MapsTo, hregions]
      cases hhit : VmMap.hits start (start + len) r with
      | false => exact ⟨r, mem_filter.mpr ⟨hr, by rw [hhit]; rfl⟩, hcovers, hflags⟩
      | true =>
        obtain ⟨s, hs, hmiss, hcovers', hflags'⟩ := houtside r hr hhit addr hcovers hout
        exact ⟨s, mem_filter.mpr ⟨hs, by rw [hmiss]; rfl⟩, hcovers', hflags'.trans hflags⟩
    · rw [unmapRange_ok hunmap, if_neg (page_outside hstart hlen hout)]

/-- In a map in order, the regions that are hit have to lie inside the range. -/
theorem unmappable_iff (horder : InOrder regions) :
    Unmappable regions start len ↔ (∀ r ∈ regions, r.base + r.len < wordSize) ∧
      ∀ r ∈ regions, VmMap.hits start (start + len) r = true → ∀ addr, r.Covers addr →
        start ≤ addr ∧ addr < start + len := by
  constructor
  · intro ⟨hends, houtside⟩
    refine ⟨hends, fun r hr hhit addr hcovers => ?_⟩
    by_contra hout
    obtain ⟨s, hs, hmiss, hcovers', _⟩ := houtside r hr hhit addr hcovers hout
    have hne : r ≠ s := fun heq => by
      rw [← heq, hhit] at hmiss
      cases hmiss
    have hsymm : Std.Symm VmRegion.Apart := ⟨fun _ _ hrs => VmRegion.Apart.symm hrs⟩
    exact horder.disjoint.forall hr hs hne addr hcovers hcovers'
  · intro ⟨hends, hinside⟩
    exact ⟨hends, fun r hr hhit addr hcovers hout => absurd (hinside r hr hhit addr hcovers) hout⟩

/-! ### Protection -/

/-- After the call the same addresses are mapped: those in the range with the new flags, the others with theirs. -/
def ProtectsExactly (space : AddrSpace) (start len newFlags : Nat) : Prop :=
  ∃ after, space.protect start len newFlags = (.ok (), after) ∧ ∀ addr flags, after.MapsTo addr flags ↔
    if start ≤ addr ∧ addr < start + len then flags = newFlags ∧ ∃ old, space.MapsTo addr old
    else space.MapsTo addr flags

/-- The region is given the new flags. -/
def Affected (start stop : Nat) (r : VmRegion) : Prop := r.base < stop ∧ start < r.base + r.len

instance (start stop : Nat) (r : VmRegion) : Decidable (Affected start stop r) := inferInstanceAs (Decidable (_ ∧ _))

/-- The ends that are looked at are words, and at every address that an affected region has outside the range
the new flags were there before, and the region's own are still there. -/
structure Protectable (regions : List VmRegion) (start len newFlags : Nat) : Prop where
  ends : ∀ r ∈ regions, r.base < start + len → r.base + r.len < wordSize
  outside : ∀ r ∈ regions, Affected start (start + len) r → ∀ addr, r.Covers addr →
    ¬(start ≤ addr ∧ addr < start + len) →
      (∃ s ∈ regions, s.Covers addr ∧ s.flags = newFlags) ∧
        (r.flags = newFlags ∨ ∃ s ∈ regions, ¬Affected start (start + len) s ∧ s.Covers addr ∧ s.flags = r.flags)

/-- A region after the call. -/
def reflagged (start stop newFlags : Nat) (r : VmRegion) : VmRegion :=
  if Affected start stop r then {r with flags := newFlags} else r

theorem meets_eq (hend : r.base < stop → r.base + r.len < wordSize) :
    meets start stop r = some (decide (Affected start stop r)) := by
  unfold meets
  by_cases hlt : r.base < stop
  · rw [if_pos hlt, show r.endAddr = some (r.base + r.len) from add?_of_lt (hend hlt), Option.map_some]
    congr 2
    exact propext (and_iff_right hlt).symm
  · rw [if_neg hlt, decide_eq_false fun h => hlt h.1]

theorem meets_none (hlt : r.base < stop) (hend : ¬r.base + r.len < wordSize) :
    meets start stop r = none := by
  rw [meets, if_pos hlt, show r.endAddr = none from add?_of_ge (by omega), Option.map_none]

theorem protect_mapM :
    (regions.mapM fun r => (meets start stop r).map fun hit => if hit then {r with flags := newFlags} else r) =
        some regions' ↔
      (∀ r ∈ regions, r.base < stop → r.base + r.len < wordSize) ∧
        regions' = regions.map (reflagged start stop newFlags) := by
  induction regions generalizing regions' with
  | nil => simp [eq_comm]
  | cons r rest ih =>
    rw [mapM_cons, forall_mem_cons]
    by_cases hend : r.base < stop → r.base + r.len < wordSize
    · have hr : (if decide (Affected start stop r) = true then {r with flags := newFlags} else r) =
          reflagged start stop newFlags r := by
        simp only [decide_eq_true_eq]
        rfl
      simp only [meets_eq hend, Option.map_some, Option.bind_eq_bind, Option.bind_some, Option.bind_eq_some_iff, ih,
        Option.pure_def, Option.some.injEq, hr]
      constructor
      · intro ⟨rest', ⟨hrest, hrest'⟩, heq⟩
        exact ⟨⟨hend, hrest⟩, by rw [← heq, hrest', map_cons]⟩
      · intro ⟨⟨_, hrest⟩, heq⟩
        exact ⟨_, ⟨hrest, rfl⟩, heq.symm⟩
    · obtain ⟨hlt, hover⟩ := Classical.not_imp.mp hend
      simp [meets_none hlt hover, hend]

theorem protect_returns_iff (hword : start + len < wordSize) :
    space.protect start len newFlags = (.ok (), after) ↔
      (∀ r ∈ space.vmMap.regions, r.base < start + len → r.base + r.len < wordSize) ∧
        after = {space with vmMap := {space.vmMap with
          regions := space.vmMap.regions.map (reflagged start (start + len) newFlags)}} := by
  rw [protect, add?_of_lt hword]
  dsimp only
  split
  · next hnone =>
    refine iff_of_false nofun fun ⟨hends, _⟩ => ?_
    rw [protect_mapM.mpr ⟨hends, rfl⟩] at hnone
    cases hnone
  · next regions' hsome =>
    obtain ⟨hends, rfl⟩ := protect_mapM.mp hsome
    rw [Prod.mk.injEq]
    exact ⟨fun h => ⟨hends, h.2.symm⟩, fun h => ⟨rfl, h.2.symm⟩⟩

theorem reflagged_covers (r : VmRegion) :
    (reflagged start stop newFlags r).Covers addr ↔ r.Covers addr := by
  unfold reflagged
  split <;> rfl

theorem reflagged_affected (h : Affected start stop r) :
    (reflagged start stop newFlags r).flags = newFlags := by
  rw [reflagged, if_pos h]

theorem reflagged_other (h : ¬Affected start stop r) :
    reflagged start stop newFlags r = r := if_neg h

theorem protectsExactly_iff (hword : start + len < wordSize) (newFlags : Nat) :
    space.ProtectsExactly start len newFlags ↔ Protectable space.vmMap.regions start len newFlags := by
  have hafter (addr flags : Nat) : (∃ r ∈ space.vmMap.regions.map (reflagged start (start + len) newFlags),
      r.Covers addr ∧ r.flags = flags) ↔ ∃ r ∈ space.vmMap.regions, r.Covers addr ∧
        (reflagged start (start + len) newFlags r).flags = flags := by
    simp only [mem_map, exists_exists_and_eq_and, reflagged_covers]
  constructor
  · intro ⟨after, hprotect, hmaps⟩
    obtain ⟨hends, rfl⟩ := (protect_returns_iff hword).mp hprotect
    refine ⟨hends, fun r hr haffected addr hcovers hout => ⟨?_, ?_⟩⟩
    · have hnew := (hmaps addr newFlags).mp ((hafter addr newFlags).mpr
        ⟨r, hr, hcovers, reflagged_affected haffected⟩)
      rwa [if_neg hout] at hnew
    · have hold := (hmaps addr r.flags).mpr (by rw [if_neg hout]; exact ⟨r, hr, hcovers, rfl⟩)
      obtain ⟨s, hs, hcovers', hflags⟩ := (hafter addr r.flags).mp hold
      by_cases hs' : Affected start (start + len) s
      · exact .inl (hflags.symm.trans (reflagged_affected hs'))
      · rw [reflagged_other hs'] at hflags
        exact .inr ⟨s, hs, hs', hcovers', hflags⟩
  · intro ⟨hends, houtside⟩
    refine ⟨_, (protect_returns_iff hword).mpr ⟨hends, rfl⟩, fun addr flags => (hafter addr flags).trans ?_⟩
    by_cases hin : start ≤ addr ∧ addr < start + len
    · rw [if_pos hin]
      constructor
      · intro ⟨r, hr, hcovers, hflags⟩
        rw [reflagged_affected (hits_of_covers hcovers hin)] at hflags
        exact ⟨hflags.symm, r.flags, r, hr, hcovers, rfl⟩
      · intro ⟨hflags, old, r, hr, hcovers, _⟩
        exact ⟨r, hr, hcovers, (reflagged_affected (hits_of_covers hcovers hin)).trans hflags.symm⟩
    · rw [if_neg hin]
      constructor
      · intro ⟨r, hr, hcovers, hflags⟩
        by_cases hr' : Affected start (start + len) r
        · rw [reflagged_affected hr'] at hflags
          rw [← hflags]
          exact (houtside r hr hr' addr hcovers hin).1
        · rw [reflagged_other hr'] at hflags
          exact ⟨r, hr, hcovers, hflags⟩
      · intro ⟨r, hr, hcovers, hflags⟩
        by_cases hr' : Affected start (start + len) r
        · rcases (houtside r hr hr' addr hcovers hin).2 with heq | ⟨s, hs, hs', hcovers', heq⟩
          · exact ⟨r, hr, hcovers, (reflagged_affected hr').trans (heq.symm.trans hflags)⟩
          · exact ⟨s, hs, hcovers', by rw [reflagged_other hs', heq, hflags]⟩
        · exact ⟨r, hr, hcovers, by rw [reflagged_other hr', hflags]⟩

/-- **On a range of pages, an unmapping and a change of protection act on exactly the range if and only if the
regions that it meets leave nothing outside it that changes.** -/
theorem range_calls_iff (space : AddrSpace) (h : space.Reachable) (start len newFlags : Nat) (hstart : pageSz ∣ start)
    (hlen : pageSz ∣ len) (hword : start + len < wordSize) :
    (space.UnmapsExactly start len ↔ Unmappable space.vmMap.regions start len) ∧
      (space.ProtectsExactly start len newFlags ↔ Protectable space.vmMap.regions start len newFlags) :=
  ⟨unmapsExactly_iff h.counted hstart hlen hword, protectsExactly_iff hword newFlags⟩

/-- A region that is the range and one behind it. -/
theorem range_calls_iff_two : ∃ space, Reachable space ∧
    space.vmMap.regions = [VmRegion.new 0x1000 0x1000 3, VmRegion.new 0x3000 0x1000 3] ∧
    space.UnmapsExactly 0x1000 0x1000 ∧ space.ProtectsExactly 0x1000 0x1000 1 := by
  have hrun : ((cowWorld.run ⟨[], FramePool.new 0⟩ [.new 1, .insert 0 (VmRegion.new 0x1000 0x1000 3),
      .insert 0 (VmRegion.new 0x3000 0x1000 3)]).any fun w => w.spaces[0]?.any fun space =>
        space.vmMap.regions = [VmRegion.new 0x1000 0x1000 3, VmRegion.new 0x3000 0x1000 3]) = true := by
    decide +kernel
  obtain ⟨space, hreachable, hregions⟩ := exists_of_run_any hrun
  -- the region that is hit has no address outside the range
  have hinside : ∀ r ∈ space.vmMap.regions, VmMap.hits 0x1000 (0x1000 + 0x1000) r = true → ∀ addr, r.Covers addr →
      0x1000 ≤ addr ∧ addr < 0x1000 + 0x1000 := by
    rw [hregions, forall_mem_cons, forall_mem_singleton]
    exact ⟨fun _ _ hcovers => hcovers, fun hhit => absurd hhit (by decide)⟩
  have hends : ∀ r ∈ space.vmMap.regions, r.base + r.len < wordSize := by
    rw [hregions]
    decide
  obtain ⟨hunmap, hprotect⟩ := range_calls_iff space hreachable 0x1000 0x1000 1 (by decide) (by decide) (by decide)
  refine ⟨space, hreachable, hregions, hunmap.mpr ⟨hends, fun r hr hhit addr hcovers hout => ?_⟩,
    hprotect.mpr ⟨fun r hr _ => hends r hr, fun r hr haffected addr hcovers hout => ?_⟩⟩
  · exact absurd (hinside r hr hhit addr hcovers) hout
  · exact absurd (hinside r hr (decide_eq_true (.inr haffected)) addr hcovers) hout

/-- With one region of two pages, the first page taken out takes the second with it, and so does its protection. -/
theorem second_page_lost : ∃ space, Reachable space ∧ space.MapsTo 0x2000 3 ∧
    (space.unmapRange 0x1000 0x1000).2.vmMap.regions = [] ∧ ¬space.UnmapsExactly 0x1000 0x1000 ∧
    (space.protect 0x1000 0x1000 1).2.vmMap.regions = [VmRegion.new 0x1000 0x2000 1] ∧
    ¬space.ProtectsExactly 0x1000 0x1000 1 := by
  have hrun : ((cowWorld.run ⟨[], FramePool.new 0⟩ [.new 1, .insert 0 (VmRegion.new 0x1000 0x2000 3)]).any fun w =>
      w.spaces[0]?.any fun space => space.vmMap.regions = [VmRegion.new 0x1000 0x2000 3] ∧
        (space.unmapRange 0x1000 0x1000).2.vmMap.regions = [] ∧
        (space.protect 0x1000 0x1000 1).2.vmMap.regions = [VmRegion.new 0x1000 0x2000 1]) = true := by
    decide +kernel
  obtain ⟨space, hreachable, hbefore, hunmap, hprotect⟩ := exists_of_run_any hrun
  have hmaps : space.MapsTo 0x2000 3 := by
    refine ⟨VmRegion.new 0x1000 0x2000 3, ?_, by decide, rfl⟩
    rw [hbefore]
    exact mem_singleton_self _
  refine ⟨space, hreachable, hmaps, hunmap, ?_, hprotect, ?_⟩
  · intro ⟨n, after, hcall, hexact, _⟩
    rw [hcall] at hunmap
    obtain ⟨s, hs, _⟩ := (hexact 0x2000 3).mpr ⟨hmaps, by decide⟩
    rw [hunmap] at hs
    exact absurd hs not_mem_nil
  · intro ⟨after, hcall, hexact⟩
    rw [hcall] at hprotect
    obtain ⟨s, hs, _, hflags⟩ := (hexact 0x2000 3).mpr hmaps
    rw [hprotect, mem_singleton] at hs
    rw [hs] at hflags
    cases hflags

end AddrSpace
end ChaosKernel.Memory
