import ChaosKernel.Memory.Cow

/-! The regions of an address space stay in order.

Every search in a `VmMap` relies on regions that are sorted by base and share no
address. An `insert` puts the new region in its place and finds the overlaps, as
long as the end of the region is a word: a region that reaches past the last word
has a small end and passes all the tests. Everything else takes regions out or
changes what is not their extent, except `split_region`, which adds the second
part behind the others and leaves the first part as long as it was.

So a run keeps all maps in order exactly when no split finds a region that begins
below its address, and no region that reaches past the last word is put over another
one (`ordered_along_iff`). -/
namespace ChaosKernel.Memory
open Base List Option

namespace VmRegion

/-- The address belongs to the region. -/
def Covers (region : VmRegion) (addr : Nat) : Prop :=
  region.base ≤ addr ∧ addr < region.base + region.len

instance (region : VmRegion) (addr : Nat) : Decidable (region.Covers addr) :=
  inferInstanceAs (Decidable (_ ∧ _))

/-- The regions share no address. -/
def Apart (r s : VmRegion) : Prop := ∀ addr, r.Covers addr → ¬s.Covers addr

variable {r s : VmRegion}

theorem Apart.symm (h : r.Apart s) : s.Apart r :=
  fun addr hs hr => h addr hr hs

theorem Apart.of_le (h : r.base + r.len ≤ s.base) : r.Apart s := by
  intro addr hr hs
  have hlt := hr.2
  have hle := hs.1
  omega

/-- Where it lies. -/
def span (region : VmRegion) : Nat × Nat := (region.base, region.len)

end VmRegion

/-- Sorted by base, and no two of them share an address. -/
structure InOrder (regions : List VmRegion) : Prop where
  sorted : regions.Pairwise fun r s => r.base ≤ s.base
  disjoint : regions.Pairwise VmRegion.Apart

namespace InOrder
variable {regions regions' : List VmRegion}

theorem nil : InOrder [] := ⟨.nil, .nil⟩

theorem sublist (h : InOrder regions) (hsub : regions'.Sublist regions) : InOrder regions' :=
  ⟨h.sorted.sublist hsub, h.disjoint.sublist hsub⟩

/-- The order is about where the regions lie and about nothing else. -/
theorem of_spans (h : InOrder regions) (hspans : regions'.map VmRegion.span = regions.map VmRegion.span) :
    InOrder regions' := by
  have hkeep (R : Nat × Nat → Nat × Nat → Prop) (hold : regions.Pairwise fun r s => R r.span s.span) :
      regions'.Pairwise fun r s => R r.span s.span := by
    rw [← pairwise_map] at hold ⊢
    rwa [hspans]
  exact ⟨hkeep (fun p q => p.1 ≤ q.1) h.sorted,
    hkeep (fun p q => ∀ addr, p.1 ≤ addr ∧ addr < p.1 + p.2 → ¬(q.1 ≤ addr ∧ addr < q.1 + q.2)) h.disjoint⟩

end InOrder

namespace VmMap
variable {region : VmRegion} {regions regions' : List VmRegion}

/-! ### Insertion -/

variable {r : VmRegion} {map map' : VmMap}

theorem insertLoop_cons (h : insertLoop region (r :: regions) = .ok regions') :
    ¬(region.base < r.base + r.len ∧ r.base < wrappingAdd region.base region.len) ∧
      ((region.base < r.base ∧ regions' = region :: r :: regions) ∨
        (r.base ≤ region.base ∧ ∃ rest, insertLoop region regions = .ok rest ∧ regions' = r :: rest)) := by
  rw [insertLoop] at h
  cases hend : r.endAddr with
  | none =>
    rw [hend] at h
    cases h
  | some ee =>
    obtain ⟨hee, _⟩ := add?_eq_some hend
    simp only [hend] at h
    rw [← hee]
    split at h
    · cases h
    · next hmiss =>
      refine ⟨hmiss, ?_⟩
      split at h
      · next hlt =>
        cases h
        exact .inl ⟨hlt, rfl⟩
      · next hge =>
        cases hrest : insertLoop region regions with
        | error e =>
          rw [hrest] at h
          cases h
        | ok rest =>
          rw [hrest] at h
          cases h
          exact .inr ⟨by omega, rest, rfl, rfl⟩

theorem insertLoop_perm (h : insertLoop region regions = .ok regions') :
    regions'.Perm (region :: regions) := by
  induction regions generalizing regions' with
  | nil =>
    cases h
    exact .refl _
  | cons r rest ih =>
    obtain ⟨_, ⟨_, rfl⟩ | ⟨_, rest', hrest, rfl⟩⟩ := insertLoop_cons h
    · exact .refl _
    · exact ((ih hrest).cons r).trans (.swap region r rest)

theorem insertLoop_sorted (hsorted : regions.Pairwise fun r s => r.base ≤ s.base)
    (h : insertLoop region regions = .ok regions') : regions'.Pairwise fun r s => r.base ≤ s.base := by
  induction regions generalizing regions' with
  | nil =>
    cases h
    exact pairwise_singleton _ _
  | cons r rest ih =>
    obtain ⟨hr, hrest⟩ := pairwise_cons.mp hsorted
    obtain ⟨_, ⟨hlt, rfl⟩ | ⟨hle, rest', hrest', rfl⟩⟩ := insertLoop_cons h
    · refine pairwise_cons.mpr ⟨fun s hs => ?_, hsorted⟩
      rcases mem_cons.mp hs with rfl | hs
      · exact hlt.le
      · exact hlt.le.trans (hr s hs)
    · refine pairwise_cons.mpr ⟨fun s hs => ?_, ih hrest hrest'⟩
      rcases mem_cons.mp ((insertLoop_perm hrest').mem_iff.mp hs) with rfl | hs
      · exact hle
      · exact hr s hs

/-- A region whose end is a word is inserted only where it overlaps nothing. -/
theorem insertLoop_apart (hword : region.base + region.len < wordSize)
    (hsorted : regions.Pairwise fun r s => r.base ≤ s.base) (h : insertLoop region regions = .ok regions') :
    ∀ r ∈ regions, region.Apart r := by
  induction regions generalizing regions' with
  | nil => exact nofun
  | cons r rest ih =>
    obtain ⟨hr, hrest⟩ := pairwise_cons.mp hsorted
    obtain ⟨hmiss, hplace⟩ := insertLoop_cons h
    have hend : wrappingAdd region.base region.len = region.base + region.len := Nat.mod_eq_of_lt hword
    rw [hend] at hmiss
    intro s hs
    rcases hplace with ⟨hlt, _⟩ | ⟨hle, rest', hrest', _⟩
    · have hbefore : region.base + region.len ≤ r.base := by omega
      rcases mem_cons.mp hs with rfl | hs
      · exact .of_le hbefore
      · exact .of_le (hbefore.trans (hr s hs))
    · rcases mem_cons.mp hs with rfl | hs
      · intro addr hnew hold
        have h₁ := hnew.1
        have h₂ := hnew.2
        have h₃ := hold.1
        have h₄ := hold.2
        omega
      · exact ih hrest hrest' s hs

theorem insert_ok (hinsert : map.insert region = .ok map') :
    ∃ regions', insertLoop region map.regions = .ok regions' ∧ map' = {map with regions := regions'} := by
  rw [VmMap.insert] at hinsert
  cases hloop : insertLoop region map.regions with
  | error e =>
    rw [hloop] at hinsert
    cases hinsert
  | ok regions' =>
    rw [hloop] at hinsert
    cases hinsert
    exact ⟨regions', rfl, rfl⟩

theorem insert_inOrder_iff (h : InOrder map.regions) (hinsert : map.insert region = .ok map') :
    InOrder map'.regions ↔
      region.base + region.len < wordSize ∨ ∀ r ∈ map.regions, region.Apart r := by
  obtain ⟨regions', hloop, rfl⟩ := insert_ok hinsert
  have hperm : regions'.Pairwise VmRegion.Apart ↔ (region :: map.regions).Pairwise VmRegion.Apart :=
    (insertLoop_perm hloop).pairwise_iff fun hrs => VmRegion.Apart.symm hrs
  constructor
  · intro hafter
    exact .inr (pairwise_cons.mp (hperm.mp hafter.disjoint)).1
  · intro hok
    have hapart : ∀ r ∈ map.regions, region.Apart r :=
      hok.elim (fun hword => insertLoop_apart hword h.sorted hloop) id
    exact ⟨insertLoop_sorted h.sorted hloop, hperm.mpr (pairwise_cons.mpr ⟨hapart, h.disjoint⟩)⟩

theorem insert_mem (hinsert : map.insert region = .ok map') (hr : r ∈ map'.regions) :
    r = region ∨ r ∈ map.regions := by
  obtain ⟨regions', hloop, rfl⟩ := insert_ok hinsert
  exact mem_cons.mp ((insertLoop_perm hloop).mem_iff.mp hr)

/-! ### Removal and search -/

theorem removeLoop_sublist (base stop : Nat) (regions : List VmRegion) :
    (removeLoop base stop regions).2.Sublist regions := by
  induction regions with
  | nil => exact .slnil
  | cons r rest ih =>
    rw [removeLoop]
    split
    · exact .refl _
    · dsimp only
      split
      · exact ih.cons r
      · exact ih.cons_cons r

theorem findLoop_covers {addr fuel lo hi : Nat} (h : findLoop regions addr fuel lo hi = .ok (some r)) :
    r ∈ regions ∧ r.Covers addr := by
  induction fuel generalizing lo hi with
  | zero => cases h
  | succ fuel ih =>
    simp only [findLoop] at h
    split at h
    · split at h
      · cases h
      · next r' hget =>
        split at h
        · exact ih h
        · next hbase =>
          split at h
          · cases h
          · next ee hend =>
            obtain ⟨hee, _⟩ := add?_eq_some hend
            split at h
            · exact ih h
            · next hlt =>
              cases h
              exact ⟨mem_of_getElem? hget, by omega, by omega⟩
    · cases h

end VmMap

/-! ### The calls on one space -/

namespace AddrSpace
variable {space space' child : AddrSpace}

theorem refUpWritable_span (region : VmRegion) : (refUpWritable region).span = region.span := by
  unfold refUpWritable
  split <;> rfl

theorem forkRegions_spans (regions : List VmRegion) (map : VmMap) :
    (forkRegions regions map).2.map VmRegion.span = regions.map VmRegion.span := by
  induction regions generalizing map with
  | nil => rfl
  | cons r rest ih =>
    rw [forkRegions]
    split
    · simp only [map_cons, refUpWritable_span]
    · simp only [map_cons, refUpWritable_span, ih]
    · simp only [map_cons, refUpWritable_span, ih]

variable {regions regions' : List VmRegion} {addr start newFlags asid len n stop : Nat}

/-- The child's regions are copies of regions of the parent, which are apart. -/
theorem forkRegions_inOrder {map map' : VmMap} (h : InOrder map.regions)
    (hregions : regions.Pairwise VmRegion.Apart) (hapart : ∀ r ∈ regions, ∀ s ∈ map.regions, r.Apart s)
    (hfork : (forkRegions regions map).1 = .ok map') : InOrder map'.regions := by
  induction regions generalizing map with
  | nil =>
    cases hfork
    exact h
  | cons r rest ih =>
    obtain ⟨hr, hrest⟩ := pairwise_cons.mp hregions
    have hothers : ∀ s ∈ rest, ∀ s' ∈ map.regions, s.Apart s' :=
      fun s hs => hapart s (mem_cons_of_mem r hs)
    rw [forkRegions] at hfork
    split at hfork
    · cases hfork
    · exact ih h hrest hothers hfork
    · next map₁ hinsert =>
      have hcopy : ∀ s ∈ map.regions, (VmRegion.new r.base r.len r.flags).Apart s :=
        hapart r mem_cons_self
      refine ih ((VmMap.insert_inOrder_iff h hinsert).mpr (.inr hcopy)) hrest (fun s hs s' hs' => ?_) hfork
      rcases VmMap.insert_mem hinsert hs' with rfl | hold
      · exact (hr s hs).symm
      · exact hothers s hs s' hold

theorem forkFrom_inOrder (h : InOrder space.vmMap.regions)
    (hfork : space.forkFrom asid = (.ok child, space')) :
    InOrder child.vmMap.regions ∧ InOrder space'.vmMap.regions := by
  simp only [forkFrom] at hfork
  split at hfork
  · cases hfork
  · next map hmap =>
    cases hfork
    refine ⟨forkRegions_inOrder InOrder.nil h.disjoint (fun _ _ _ hs => absurd hs not_mem_nil) hmap,
      h.of_spans ?_⟩
    simp only [List.map_map, Function.comp_def, refUpWritable_span]
    exact forkRegions_spans _ _

theorem handleCowFault_vmMap {pool pool' : FramePool} {res : Except (Stop Errno) Nat}
    (h : space.handleCowFault addr pool = (res, space', pool')) : space'.vmMap = space.vmMap := by
  rcases handleCowFault_cases h with ⟨_, hspace, _⟩ | ⟨_, i, _, hspace, _⟩
  · rw [hspace]
  · rw [hspace]

theorem unmapRange_inOrder (h : InOrder space.vmMap.regions)
    (hunmap : space.unmapRange start len = (.ok n, space')) : InOrder space'.vmMap.regions := by
  simp only [unmapRange] at hunmap
  split at hunmap
  · cases hunmap
  · split at hunmap
    · cases hunmap
    · next map hremove =>
      have hsub : map.regions.Sublist space.vmMap.regions := by
        rw [← congrArg (fun out => out.2.regions) hremove]
        exact VmMap.removeLoop_sublist _ _ _
      obtain ⟨_, rfl⟩ := Prod.mk.inj hunmap
      exact h.sublist hsub

theorem protect_spans
    (h : (regions.mapM fun r => (meets start stop r).map fun hit =>
      if hit then {r with flags := newFlags} else r) = some regions') :
    regions'.map VmRegion.span = regions.map VmRegion.span := by
  induction regions generalizing regions' with
  | nil =>
    cases h
    rfl
  | cons r rest ih =>
    rw [mapM_cons] at h
    simp only [bind_eq_bind, bind_eq_some_iff, map_eq_some_iff, Option.pure_def,
      some.injEq] at h
    obtain ⟨r', ⟨hit, _, hr'⟩, rest', hrest, rfl⟩ := h
    have hspan : r'.span = r.span := by
      rw [← hr']
      split <;> rfl
    rw [map_cons, map_cons, ih hrest, hspan]

theorem protect_inOrder (h : InOrder space.vmMap.regions)
    (hreturned : returned (space.protect start len newFlags).1 = true) :
    InOrder (space.protect start len newFlags).2.vmMap.regions := by
  unfold protect at hreturned ⊢
  split at hreturned
  · cases hreturned
  · split at hreturned
    · cases hreturned
    · next hmap => exact h.of_spans (protect_spans hmap)

/-- The address is mapped with these flags. -/
def MapsTo (space : AddrSpace) (addr flags : Nat) : Prop :=
  ∃ r ∈ space.vmMap.regions, r.Covers addr ∧ r.flags = flags

/-- A split fails and changes nothing, or it adds a region inside one that stays: one that is found for the
address and begins below it. -/
theorem splitRegion_cases (space : AddrSpace) (addr : Nat) :
    ((∀ r, space.vmMap.find addr = .ok (some r) → r.base = addr) ∧ ∃ e, space.splitRegion addr = (.error e, space)) ∨
      ∃ r ∈ space.vmMap.regions, space.vmMap.find addr = .ok (some r) ∧ r.Covers addr ∧ r.base < addr ∧
        space.splitRegion addr = (.ok (), {space with vmMap := {space.vmMap with
          regions := space.vmMap.regions ++ [VmRegion.new addr (r.len - (addr - r.base)) r.flags]}}) := by
  unfold splitRegion
  rcases hfind : space.vmMap.find addr with e | (_ | r)
  · exact .inl ⟨nofun, e, rfl⟩
  · exact .inl ⟨nofun, _, rfl⟩
  · obtain ⟨hmem, hcovers⟩ := VmMap.findLoop_covers hfind
    have hlo := hcovers.1
    have hhi := hcovers.2
    dsimp only
    split
    · refine .inl ⟨fun r' hr' => ?_, _, rfl⟩
      cases hr'
      omega
    · exact .inr ⟨r, hmem, rfl, hcovers, by omega, rfl⟩

/-- The second part overlaps the first one, which is as long as before. -/
theorem splitRegion_inOrder_iff (h : InOrder space.vmMap.regions) :
    InOrder (space.splitRegion addr).2.vmMap.regions ↔
      ∀ r, space.vmMap.find addr = .ok (some r) → r.base = addr := by
  rcases space.splitRegion_cases addr with ⟨hbegins, e, heq⟩ | ⟨r, hmem, hfind, hcovers, hbase, heq⟩
  · rw [heq]
    exact iff_of_true h hbegins
  · rw [heq]
    refine iff_of_false (fun horder => ?_) fun hbegins => hbase.ne (hbegins r hfind)
    have hapart := (pairwise_append.mp horder.disjoint).2.2 r hmem _ (mem_singleton_self _)
    refine hapart addr hcovers ⟨le_rfl, ?_⟩
    have hlt := hcovers.2
    simp only [VmRegion.new]
    omega

theorem splitRegion_mapsTo (space : AddrSpace) (addr a flags : Nat) :
    (space.splitRegion addr).2.MapsTo a flags ↔ space.MapsTo a flags := by
  rcases space.splitRegion_cases addr with ⟨_, e, heq⟩ | ⟨r, hmem, _, hcovers, hbase, heq⟩
  · rw [heq]
  · rw [heq]
    constructor
    · intro h
      obtain ⟨s, hs, hcov, hflags⟩ := h
      rcases mem_append.mp hs with hs | hs
      · exact ⟨s, hs, hcov, hflags⟩
      · obtain rfl := mem_singleton.mp hs
        obtain ⟨hlo, hhi⟩ := hcov
        simp only [VmRegion.new] at hlo hhi
        exact ⟨r, hmem, ⟨by omega, by omega⟩, hflags⟩
    · intro h
      obtain ⟨s, hs, hcov⟩ := h
      exact ⟨s, mem_append_left _ hs, hcov⟩

end AddrSpace

/-! ### Runs -/

namespace World

/-- The regions of every space are in order. -/
def Ordered (w : World) : Prop := ∀ space ∈ w.spaces, InOrder space.vmMap.regions

/-- An insertion that succeeds is of a region that ends at a word, or that shares no address with
another one; the region that is found where one is to be split begins there. -/
def KeepsOrder (w : World) : Call → Prop
  | .insert x region => ∀ space map, w.spaces[x]? = some space → space.vmMap.insert region = .ok map →
    region.base + region.len < 2 ^ 64 ∨ ∀ r ∈ space.vmMap.regions, region.Apart r
  | .splitRegion x addr => ∀ space, w.spaces[x]? = some space →
    ∀ r, space.vmMap.find addr = .ok (some r) → r.base = addr
  | _ => True

variable {w w' : World}
variable {space s : AddrSpace}

theorem Ordered.set_iff (h : w.Ordered) {x : Nat} (hx : w.spaces[x]? = some space) (space' : AddrSpace) :
    (w.set x space').Ordered ↔ InOrder space'.vmMap.regions := by
  constructor
  · intro hafter
    exact hafter space' (mem_set (List.getElem?_eq_some_iff.mp hx).1 space')
  · intro hspace' s hs
    rcases mem_or_eq_of_mem_set hs with hold | rfl
    · exact h s hold
    · exact hspace'

theorem Ordered.append (h : w.Ordered) (hs : InOrder s.vmMap.regions) :
    Ordered {w with spaces := w.spaces ++ [s]} := by
  intro s' hs'
  rcases mem_append.mp hs' with hold | hnew
  · exact h s' hold
  · rw [mem_singleton.mp hnew]
    exact hs

theorem step_ordered_iff (h : w.Ordered) {call : Call} (hstep : cowWorld.step w call = some w') :
    w'.Ordered ↔ w.KeepsOrder call := by
  cases call with
  | new asid =>
    cases hstep
    exact iff_of_true (h.append .nil) trivial
  | insert x region =>
    obtain ⟨space, hx, hstep⟩ := bind_eq_some_iff.mp hstep
    cases hinsert : space.vmMap.insert region with
    | ok map =>
      rw [hinsert] at hstep
      cases hstep
      rw [h.set_iff hx, VmMap.insert_inOrder_iff (h space (mem_of_getElem? hx)) hinsert]
      constructor
      · intro hok space' map' hx' _
        rw [hx] at hx'
        cases hx'
        exact hok
      · intro hkeeps
        exact hkeeps space map hx hinsert
    | error e =>
      rw [hinsert] at hstep
      cases e with
      | err e =>
        cases hstep
        refine iff_of_true h fun space' map' hx' hinsert' => ?_
        rw [hx] at hx'
        cases hx'
        rw [hinsert] at hinsert'
        cases hinsert'
      | panic | hang => cases hstep
  | forkFrom x newAsid =>
    obtain ⟨space, hx, hstep⟩ := bind_eq_some_iff.mp hstep
    have hspace := h space (mem_of_getElem? hx)
    split at hstep
    · next child parent hfork =>
      cases hstep
      obtain ⟨hchild, hparent⟩ := AddrSpace.forkFrom_inOrder hspace hfork
      exact iff_of_true (((h.set_iff hx parent).mpr hparent).append hchild) trivial
    · cases hstep
  | handleCowFault x addr =>
    obtain ⟨space, hx, hstep⟩ := bind_eq_some_iff.mp hstep
    have hspace := h space (mem_of_getElem? hx)
    rcases hfault : space.handleCowFault addr w.pool with ⟨res, space', pool'⟩
    rw [hfault] at hstep
    simp only [ite_none_right_eq_some, some.injEq] at hstep
    obtain ⟨_, rfl⟩ := hstep
    rw [← AddrSpace.handleCowFault_vmMap hfault] at hspace
    exact iff_of_true ((h.set_iff hx space').mpr hspace) trivial
  | unmapRange x start len =>
    obtain ⟨space, hx, hstep⟩ := bind_eq_some_iff.mp hstep
    have hspace := h space (mem_of_getElem? hx)
    split at hstep
    · next hunmap =>
      cases hstep
      exact iff_of_true ((h.set_iff hx _).mpr (AddrSpace.unmapRange_inOrder hspace hunmap)) trivial
    · cases hstep
  | protect x start len newFlags =>
    obtain ⟨space, hx, hstep⟩ := bind_eq_some_iff.mp hstep
    have hspace := h space (mem_of_getElem? hx)
    simp only [update, ite_none_right_eq_some, some.injEq] at hstep
    obtain ⟨hreturned, rfl⟩ := hstep
    exact iff_of_true ((h.set_iff hx _).mpr (AddrSpace.protect_inOrder hspace hreturned)) trivial
  | splitRegion x addr =>
    obtain ⟨space, hx, hstep⟩ := bind_eq_some_iff.mp hstep
    have hspace := h space (mem_of_getElem? hx)
    simp only [update, ite_none_right_eq_some, some.injEq] at hstep
    obtain ⟨_, rfl⟩ := hstep
    rw [h.set_iff hx, AddrSpace.splitRegion_inOrder_iff hspace]
    constructor
    · intro hbegins space' hx'
      rw [hx] at hx'
      cases hx'
      exact hbegins
    · exact fun hkeeps => hkeeps space hx

end World

/-- **The regions stay sorted and disjoint** in all states of a run exactly when every call of the
run keeps the order; a split never changes which addresses are mapped, or how. -/
theorem ordered_along_iff (pool : FramePool) (calls : List Call) :
    (cowWorld.Always World.Ordered ⟨[], pool⟩ calls ↔ cowWorld.Guarded World.KeepsOrder ⟨[], pool⟩ calls) ∧
      ∀ (space : AddrSpace) (addr a flags : Nat),
        (space.splitRegion addr).2.MapsTo a flags ↔ space.MapsTo a flags := by
  refine ⟨?_, AddrSpace.splitRegion_mapsTo⟩
  exact System.always_iff_guarded (J := fun _ => True) (fun _ _ _ _ _ => trivial)
    (fun _ _ _ _ h hstep => World.step_ordered_iff h hstep) trivial fun _ hs => nomatch hs

/-- A region of two pages, split after the first one: the first part still has both. -/
theorem split_breaks_order : ¬ cowWorld.Always World.Ordered ⟨[], FramePool.new 0⟩
    [.new 1, .insert 0 (VmRegion.new 0 8192 3), .splitRegion 0 4096] := by
  intro hall
  have hrun : ((cowWorld.run ⟨[], FramePool.new 0⟩
      [.new 1, .insert 0 (VmRegion.new 0 8192 3), .splitRegion 0 4096]).any fun w =>
        w.spaces[0]?.map (fun space => space.vmMap.regions) =
          some [VmRegion.new 0 8192 3, VmRegion.new 4096 4096 3]) = true := by
    decide +kernel
  obtain ⟨w, hrun, hregions⟩ := System.exists_of_run_any hrun
  obtain ⟨space, hx, hspace⟩ := map_eq_some_iff.mp hregions
  have hdisjoint := (hall _ w prefix_rfl hrun space (mem_of_getElem? hx)).disjoint
  rw [hspace] at hdisjoint
  refine rel_of_pairwise_cons hdisjoint (mem_singleton_self _) 4096 ?_ ?_
  · decide
  · decide

end ChaosKernel.Memory
