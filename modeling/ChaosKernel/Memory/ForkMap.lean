import ChaosKernel.Memory.Spaces

/-! What a fork makes of the memory map.

The child's regions are built anew, with base, length and flags of the parent's,
and inserted one by one; an overlap is dropped. So the child has the parent's
regions exactly where the insertions go through at the end of the list, nothing
else was kept in a region, and no region is marked to stay behind, except one that
overlaps an earlier one. The parent's counts go up in both loops of the fork: by
two for a writable region. `fork_faithful_iff` puts this together. -/
namespace ChaosKernel.Memory
open Base List

namespace VmRegion

/-- Marked `VM_DONTCOPY`. -/
def dontcopy (region : VmRegion) : Bool := region.flags &&& vmDontcopy != 0

/-- The region that a fork puts into the child. -/
def copy (region : VmRegion) : VmRegion := VmRegion.new region.base region.len region.flags

/-- The test of `insert`, of a new region against one that is there. -/
def Overlaps (region r : VmRegion) : Prop :=
  region.base < r.base + r.len ∧ r.base < wrappingAdd region.base region.len

/-- Everything but the count. -/
def layout (region : VmRegion) : Nat × Nat × Nat × Nat × Nat :=
  (region.base, region.len, region.flags, region.offset, region.tag)

/-- A region may come after another one in a list that is inserted in its order. -/
def Precedes (s r : VmRegion) : Prop := s.base + s.len < wordSize ∧ s.base ≤ r.base ∧ ¬r.Overlaps s

end VmRegion

/-! ### Insertion at the end -/

namespace VmMap
open VmRegion
variable {region : VmRegion} {regions regions' : List VmRegion}

theorem insertLoop_append (h : ∀ s ∈ regions, s.Precedes region) :
    insertLoop region regions = .ok (regions ++ [region]) := by
  induction regions with
  | nil => rfl
  | cons s rest ih =>
    obtain ⟨hword, hle, hmiss⟩ := h s mem_cons_self
    have hmiss' : ¬(region.base < s.base + s.len ∧ s.base < wrappingAdd region.base region.len) := hmiss
    rw [insertLoop, show s.endAddr = some (s.base + s.len) from add?_of_lt hword]
    simp only [if_neg hmiss', if_neg (Nat.not_lt.mpr hle), ih fun t ht => h t (mem_cons_of_mem s ht)]
    rfl

/-- Where everything starts at or below the new region, it is inserted at the end or not at all. -/
theorem insertLoop_last (hle : ∀ s ∈ regions, s.base ≤ region.base) (h : insertLoop region regions = .ok regions') :
    regions' = regions ++ [region] ∧ ∀ s ∈ regions, s.Precedes region := by
  induction regions generalizing regions' with
  | nil =>
    cases h
    exact ⟨rfl, nofun⟩
  | cons s rest ih =>
    have hs := hle s mem_cons_self
    obtain ⟨hmiss, ⟨hlt, _⟩ | ⟨_, rest', hrest, rfl⟩⟩ := insertLoop_cons h
    · omega
    · obtain ⟨rfl, hprecedes⟩ := ih (fun t ht => hle t (mem_cons_of_mem s ht)) hrest
      refine ⟨rfl, forall_mem_cons.mpr ⟨⟨?_, hs, hmiss⟩, hprecedes⟩⟩
      by_contra hword
      rw [insertLoop, show s.endAddr = none from add?_of_ge (by omega)] at h
      cases h

/-- An insertion fails because the end of a region overflows, or because of an overlap. -/
theorem insertLoop_fails {e : Stop Errno} (h : insertLoop region regions = .error e) :
    e = .panic ∨ ∃ s ∈ regions, s.base + s.len < wordSize ∧ region.Overlaps s := by
  induction regions generalizing e with
  | nil => cases h
  | cons s rest ih =>
    rw [insertLoop] at h
    cases hend : s.endAddr with
    | none =>
      rw [hend] at h
      cases h
      exact .inl rfl
    | some ee =>
      obtain ⟨rfl, hword⟩ := add?_eq_some hend
      simp only [hend] at h
      split at h
      · next hover => exact .inr ⟨s, mem_cons_self, hword, hover⟩
      · split at h
        · cases h
        · cases hrest : insertLoop region rest with
          | ok rest' =>
            rw [hrest] at h
            cases h
          | error e' =>
            rw [hrest] at h
            cases h
            rcases ih hrest with hpanic | ⟨t, ht, hover⟩
            · exact .inl hpanic
            · exact .inr ⟨t, mem_cons_of_mem s ht, hover⟩

/-- In a list in its order every overlap is found: a region at which the search stops before overlaps too. -/
theorem insertLoop_overlap (hprecedes : regions.Pairwise Precedes)
    (hover : ∃ s ∈ regions, s.base + s.len < wordSize ∧ region.Overlaps s) :
    insertLoop region regions = .error (.err .overlap) := by
  induction regions with
  | nil =>
    obtain ⟨s, hs, _⟩ := hover
    exact absurd hs not_mem_nil
  | cons t rest ih =>
    obtain ⟨ht, hrest⟩ := pairwise_cons.mp hprecedes
    obtain ⟨s, hs, hword, hlo, hhi⟩ := hover
    rcases mem_cons.mp hs with rfl | hs
    · rw [insertLoop, show s.endAddr = some (s.base + s.len) from add?_of_lt hword]
      exact if_pos ⟨hlo, hhi⟩
    · obtain ⟨htword, hts, _⟩ := ht s hs
      rw [insertLoop, show t.endAddr = some (t.base + t.len) from add?_of_lt htword]
      dsimp only
      split
      · rfl
      · next hmiss =>
        rw [if_neg (by omega), ih hrest ⟨s, hs, hword, hlo, hhi⟩]
        rfl

end VmMap

/-! ### The child's regions -/

namespace AddrSpace
open VmRegion

/-- The regions that a fork is to copy. -/
def copied (regions : List VmRegion) : List VmRegion := (regions.filter fun r => !r.dontcopy).map copy

theorem copied_cons (r : VmRegion) (rest : List VmRegion) :
    copied (r :: rest) = if r.dontcopy then copied rest else r.copy :: copied rest := by
  unfold copied
  cases h : r.dontcopy <;> simp [h]

variable {regions done rest : List VmRegion} {s r region : VmRegion} {map map' : VmMap}

theorem dontcopy_copied (hs : s ∈ copied regions) : s.dontcopy = false := by
  obtain ⟨r, hr, rfl⟩ := mem_map.mp hs
  have hkeep := (mem_filter.mp hr).2
  rwa [Bool.not_eq_true'] at hkeep

/-- Every region that stays behind overlaps one that is copied before it. -/
def Covered (done regions : List VmRegion) : Prop :=
  ∀ before r later, regions = before ++ r :: later → r.dontcopy = true →
    ∃ s ∈ done ++ copied before, s.base + s.len < wordSize ∧ r.Overlaps s

theorem covered_cons : Covered done (r :: rest) ↔
    (r.dontcopy = true → ∃ s ∈ done, s.base + s.len < wordSize ∧ r.Overlaps s) ∧
      Covered (done ++ copied [r]) rest := by
  have hsplit (before : List VmRegion) : done ++ copied (r :: before) = done ++ copied [r] ++ copied before := by
    rw [append_assoc, copied_cons, copied_cons]
    split <;> rfl
  constructor
  · intro h
    refine ⟨fun hr => ?_, fun before s later heq hs => ?_⟩
    · have hfirst := h [] r rest rfl hr
      rwa [show done ++ copied [] = done from append_nil done] at hfirst
    · rw [← hsplit]
      exact h (r :: before) s later (by rw [heq]; rfl) hs
  · intro ⟨hfirst, hrest⟩ before s later heq hs
    cases before with
    | nil =>
      obtain ⟨rfl, _⟩ := List.cons.inj heq
      rw [show done ++ copied [] = done from append_nil done]
      exact hfirst hs
    | cons r' before =>
      obtain ⟨rfl, hlater⟩ := List.cons.inj heq
      rw [hsplit]
      exact hrest before s later hlater hs

theorem forkRegions_copies (hmap : map.regions = done) (horder : (done ++ copied regions).Pairwise Precedes)
    (hcovered : Covered done regions) :
    (forkRegions regions map).1 = .ok {map with regions := done ++ copied regions} := by
  induction regions generalizing done map with
  | nil =>
    rw [show done ++ copied [] = done from append_nil done, ← hmap]
    rfl
  | cons r rest ih =>
    obtain ⟨hfirst, hrest⟩ := covered_cons.mp hcovered
    rw [copied_cons] at horder ⊢
    rw [copied_cons] at hrest
    cases hr : r.dontcopy with
    | true =>
      rw [hr, if_pos rfl] at horder hrest
      rw [show copied [] = [] from rfl, append_nil] at hrest
      have hover : ∃ s ∈ done, s.base + s.len < wordSize ∧ r.copy.Overlaps s := hfirst hr
      have hinsert : map.insert r.copy = .error (.err .overlap) := by
        rw [VmMap.insert, hmap, VmMap.insertLoop_overlap (pairwise_append.mp horder).1 hover]
        rfl
      rw [forkRegions, show VmRegion.new r.base r.len r.flags = r.copy from rfl, hinsert]
      exact ih hmap horder hrest
    | false =>
      rw [hr, if_neg Bool.false_ne_true] at horder hrest
      rw [show copied [] = [] from rfl] at hrest
      rw [if_neg Bool.false_ne_true, append_cons]
      rw [append_cons] at horder
      have hprecedes : ∀ s ∈ done, s.Precedes r.copy := fun s hs =>
        (pairwise_append.mp (pairwise_append.mp horder).1).2.2 s hs r.copy (mem_singleton_self _)
      have hinsert : map.insert r.copy = .ok {map with regions := done ++ [r.copy]} := by
        rw [VmMap.insert, hmap, VmMap.insertLoop_append hprecedes]
        rfl
      rw [forkRegions, show VmRegion.new r.base r.len r.flags = r.copy from rfl, hinsert]
      have hdone : VmMap.regions {map with regions := done ++ [r.copy]} = done ++ [r.copy] := rfl
      exact ih hdone horder hrest

theorem forkRegions_perm (h : (forkRegions regions map).1 = .ok map') :
    ∃ added, added.Sublist (regions.map copy) ∧ map'.regions.Perm (map.regions ++ added) := by
  induction regions generalizing map with
  | nil =>
    cases h
    exact ⟨[], .slnil, by rw [append_nil]⟩
  | cons r rest ih =>
    rw [forkRegions] at h
    split at h
    · cases h
    · obtain ⟨added, hsub, hperm⟩ := ih h
      exact ⟨added, hsub.cons _, hperm⟩
    · next map₁ hinsert =>
      obtain ⟨added, hsub, hperm⟩ := ih h
      obtain ⟨regions₁, hloop, rfl⟩ := VmMap.insert_ok hinsert
      refine ⟨r.copy :: added, hsub.cons_cons _, hperm.trans ?_⟩
      exact ((VmMap.insertLoop_perm hloop).append_right added).trans perm_middle.symm

theorem forkRegions_sorted (hsorted : map.regions.Pairwise fun r s => r.base ≤ s.base)
    (h : (forkRegions regions map).1 = .ok map') : map'.regions.Pairwise fun r s => r.base ≤ s.base := by
  induction regions generalizing map with
  | nil =>
    cases h
    exact hsorted
  | cons r rest ih =>
    rw [forkRegions] at h
    split at h
    · cases h
    · exact ih hsorted h
    · next map₁ hinsert =>
      obtain ⟨regions₁, hloop, rfl⟩ := VmMap.insert_ok hinsert
      exact ih (VmMap.insertLoop_sorted hsorted hloop) h

theorem overlap_of_insert {e : Stop Errno} (h : map.insert region = .error e) (hne : e ≠ .panic) :
    ∃ s ∈ map.regions, s.base + s.len < wordSize ∧ region.Overlaps s := by
  cases hloop : VmMap.insertLoop region map.regions with
  | ok regions =>
    rw [VmMap.insert, hloop] at h
    cases h
  | error e' =>
    rw [VmMap.insert, hloop] at h
    cases h
    exact (VmMap.insertLoop_fails hloop).resolve_left hne

theorem mem_forkRegions {map₁ : VmMap} (hinsert : map.insert region = .ok map₁)
    (h : (forkRegions rest map₁).1 = .ok map') : region ∈ map'.regions := by
  obtain ⟨added, _, hperm⟩ := forkRegions_perm h
  obtain ⟨regions₁, hloop, rfl⟩ := VmMap.insert_ok hinsert
  have hmem : region ∈ regions₁ := (VmMap.insertLoop_perm hloop).mem_iff.mpr mem_cons_self
  exact hperm.mem_iff.mpr (mem_append_left added hmem)

theorem length_forkRegions_le (h : (forkRegions regions map).1 = .ok map')
    (hall : ∀ s ∈ map'.regions, s.dontcopy = false) :
    map'.regions.length ≤ map.regions.length + (copied regions).length := by
  obtain ⟨added, hsub, hperm⟩ := forkRegions_perm h
  have hadded : added.Sublist (copied regions) := by
    have hfilter := hsub.filter fun s => !s.dontcopy
    rw [List.filter_map, filter_eq_self.mpr] at hfilter
    · exact hfilter
    · intro s hs
      rw [hall s (hperm.mem_iff.mpr (mem_append_right _ hs))]
      rfl
  have hlength := hperm.length_eq
  rw [length_append] at hlength
  have hle := hadded.length_le
  omega

theorem copies_of_forkRegions (hmap : map.regions = done) (hdone : done.Pairwise Precedes)
    (hkept : ∀ s ∈ done, s.dontcopy = false) (h : (forkRegions regions map).1 = .ok map')
    (hresult : map'.regions = done ++ copied regions) :
    (done ++ copied regions).Pairwise Precedes ∧ Covered done regions := by
  have hall : ∀ s ∈ map'.regions, s.dontcopy = false := by
    rw [hresult]
    exact forall_mem_append.mpr ⟨hkept, fun s hs => dontcopy_copied hs⟩
  induction regions generalizing done map with
  | nil =>
    refine ⟨by rwa [show done ++ copied [] = done from append_nil done], fun before r later heq => ?_⟩
    exact absurd heq (append_ne_nil_of_right_ne_nil before (cons_ne_nil r later)).symm
  | cons r rest ih =>
    have hsorted : map.regions.Pairwise fun r s => r.base ≤ s.base := hmap ▸ hdone.imp fun hrs => hrs.2.1
    have hfinal := forkRegions_sorted hsorted h
    rw [forkRegions] at h
    rw [copied_cons] at hresult
    rw [covered_cons, copied_cons r, copied_cons r, show copied [] = [] from rfl]
    cases hr : r.dontcopy with
    | true =>
      rw [hr, if_pos rfl] at hresult
      rw [if_pos rfl, if_pos rfl, append_nil]
      split at h
      · cases h
      · next e hne hinsert =>
        obtain ⟨horder, hcovered⟩ := ih hmap hdone hkept h hresult
        have hover := overlap_of_insert hinsert hne
        rw [hmap] at hover
        exact ⟨horder, fun _ => hover, hcovered⟩
      · next map₁ hinsert =>
        -- The region would be in the child, although it is marked.
        exact Bool.noConfusion (hr.symm.trans (hall r.copy (mem_forkRegions hinsert h)))
    | false =>
      rw [hr, if_neg Bool.false_ne_true] at hresult
      rw [if_neg Bool.false_ne_true, if_neg Bool.false_ne_true]
      split at h
      · cases h
      · -- The child would be short of a region.
        have hle := length_forkRegions_le h hall
        rw [hresult, hmap, length_append, length_cons] at hle
        omega
      · next map₁ hinsert =>
        obtain ⟨regions₁, hloop, rfl⟩ := VmMap.insert_ok hinsert
        rw [hmap] at hloop
        rw [hresult] at hfinal
        have hle : ∀ s ∈ done, s.base ≤ r.copy.base := fun s hs =>
          (pairwise_append.mp hfinal).2.2 s hs r.copy mem_cons_self
        obtain ⟨rfl, hprecedes⟩ := VmMap.insertLoop_last hle hloop
        rw [append_cons] at hresult ⊢
        have hnext : (done ++ [r.copy]).Pairwise Precedes :=
          pairwise_append.mpr ⟨hdone, pairwise_singleton _ _, fun s hs t ht => by
            rw [mem_singleton.mp ht]
            exact hprecedes s hs⟩
        have hkept' : ∀ s ∈ done ++ [r.copy], s.dontcopy = false :=
          forall_mem_append.mpr ⟨hkept, forall_mem_singleton.mpr hr⟩
        obtain ⟨horder, hcovered⟩ := ih rfl hnext hkept' h hresult
        exact ⟨horder, fun hmarked => Bool.noConfusion hmarked, hcovered⟩

/-! ### The parent's counts -/

theorem forkRegions_counts (h : (forkRegions regions map).1 = .ok map') :
    (forkRegions regions map).2 = regions.map refUpWritable := by
  induction regions generalizing map with
  | nil => rfl
  | cons r rest ih =>
    rw [forkRegions] at h ⊢
    split at h
    · cases h
    · exact congrArg (refUpWritable r :: ·) (ih h)
    · exact congrArg (refUpWritable r :: ·) (ih h)

/-- Counted in both loops, a count has gone up by one only where it does not go up. -/
theorem refUpWritable_twice : refUpWritable (refUpWritable r) = refUpWritable r ↔ r.writable = false := by
  unfold refUpWritable
  cases hr : r.writable with
  | true =>
    refine iff_of_false (fun heq => ?_) nofun
    have htwice : (r.refUp).writable = true := hr
    rw [if_pos rfl, if_pos htwice] at heq
    exact absurd (congrArg VmRegion.refCount heq) (Nat.succ_ne_self _)
  | false =>
    rw [if_neg Bool.false_ne_true, if_neg (by rw [hr]; exact Bool.false_ne_true)]
    exact iff_of_true rfl rfl

/-! ### Faithful forks -/

/-- The child has the break, the base for mappings and, in order, the regions of the parent that are not marked
`VM_DONTCOPY`; the parent's map is as it was, with the counts of the writable regions one higher. -/
def ForksFaithfully (parent : AddrSpace) (asid : Nat) : Prop :=
  ∃ child after, parent.forkFrom asid = (.ok child, after) ∧
    child.vmMap.brk = parent.vmMap.brk ∧ child.vmMap.mmapBase = parent.vmMap.mmapBase ∧
    child.vmMap.regions.map layout = (parent.vmMap.regions.filter fun r => !r.dontcopy).map layout ∧
    after.vmMap = {parent.vmMap with regions := parent.vmMap.regions.map refUpWritable}

structure Copyable (regions : List VmRegion) : Prop where
  readOnly : ∀ r ∈ regions, r.writable = false
  plain : ∀ r ∈ regions, r.dontcopy = false → r.offset = 0 ∧ r.tag = 0
  inOrder : (copied regions).Pairwise Precedes
  covered : Covered [] regions

/-- The copies have all there is to a region exactly where it has neither an offset nor a tag. -/
theorem layout_copied (h : ∀ r ∈ regions, r.dontcopy = false → r.offset = 0 ∧ r.tag = 0) :
    (copied regions).map layout = (regions.filter fun r => !r.dontcopy).map layout := by
  unfold copied
  rw [map_map]
  refine map_congr_left fun r hr => ?_
  obtain ⟨hmem, hkeep⟩ := mem_filter.mp hr
  rw [Bool.not_eq_true'] at hkeep
  obtain ⟨hoffset, htag⟩ := h r hmem hkeep
  simp only [Function.comp_apply, layout, copy, VmRegion.new, hoffset, htag]

theorem forkFrom_eq {parent : AddrSpace} (asid : Nat)
    (h : (forkRegions parent.vmMap.regions {parent.vmMap with regions := []}).1 = .ok map) :
    ∃ child after, parent.forkFrom asid = (.ok child, after) ∧ child.vmMap = map ∧ after.vmMap =
      {parent.vmMap with regions := (parent.vmMap.regions.map refUpWritable).map refUpWritable} := by
  have hcounts := forkRegions_counts h
  have hresult : forkRegions parent.vmMap.regions {parent.vmMap with regions := []} =
      (.ok map, parent.vmMap.regions.map refUpWritable) := Prod.ext h hcounts
  have hstart : ({(AddrSpace.new asid).vmMap with
      brk := parent.vmMap.brk, mmapBase := parent.vmMap.mmapBase} : VmMap) = {parent.vmMap with regions := []} := rfl
  refine ⟨{AddrSpace.new asid with vmMap := map, cowPages := parent.cowPages.map fun _ frame => frame.up},
    {parent with vmMap := {parent.vmMap with regions := (parent.vmMap.regions.map refUpWritable).map refUpWritable},
                 cowPages := parent.cowPages.map fun _ frame => frame.up}, ?_, rfl, rfl⟩
  rw [forkFrom, hstart, hresult]

theorem copy_of_forkRegions (hmap : map.regions = []) (h : (forkRegions regions map).1 = .ok map')
    (hs : s ∈ map'.regions) : s.copy = s := by
  obtain ⟨added, hsub, hperm⟩ := forkRegions_perm h
  rw [hmap, nil_append] at hperm
  obtain ⟨r, _, rfl⟩ := mem_map.mp (hsub.subset (hperm.mem_iff.mp hs))
  rfl

/-- **A fork copies the map faithfully if and only if no region is writable, the regions to copy have no offset
and no tag and can be put one behind the other, and each region that is marked overlaps one of them before it.** -/
theorem fork_faithful_iff (parent : AddrSpace) (asid : Nat) :
    parent.ForksFaithfully asid ↔ Copyable parent.vmMap.regions := by
  have hempty : VmMap.regions {parent.vmMap with regions := []} = [] := rfl
  constructor
  · intro ⟨child, after, hfork, _, _, hlayout, hafter⟩
    obtain ⟨hchild, hcounts⟩ := forkFrom_cases hfork
    -- The copies are determined by their layout.
    have hcopies : child.vmMap.regions = copied parent.vmMap.regions := by
      have hself : child.vmMap.regions.map copy = child.vmMap.regions := by
        conv_rhs => rw [← List.map_id child.vmMap.regions]
        exact map_congr_left fun s hs => copy_of_forkRegions hempty hchild hs
      have hfactor := congrArg (List.map fun l => VmRegion.new l.1 l.2.1 l.2.2.1) hlayout
      rw [map_map, map_map] at hfactor
      exact hself.symm.trans hfactor
    obtain ⟨horder, hcovered⟩ := copies_of_forkRegions hempty .nil nofun hchild hcopies
    refine ⟨fun r hr => ?_, fun r hr hkeep => ?_, horder, hcovered⟩
    · rw [hafter, forkRegions_counts hchild, map_map] at hcounts
      have heq := congrArg VmMap.regions hcounts
      exact refUpWritable_twice.mp ((map_inj_left.mp heq r hr).symm)
    · have hmem : layout r ∈ child.vmMap.regions.map layout := by
        rw [hlayout]
        exact List.mem_map_of_mem (mem_filter.mpr ⟨hr, by rw [hkeep]; rfl⟩)
      obtain ⟨s, hs, heq⟩ := mem_map.mp hmem
      have hplain := copy_of_forkRegions hempty hchild hs
      rw [← hplain] at heq
      simp only [layout, copy, VmRegion.new, Prod.mk.injEq] at heq
      exact ⟨heq.2.2.2.1.symm, heq.2.2.2.2.symm⟩
  · intro h
    have hresult := forkRegions_copies hempty h.inOrder h.covered
    obtain ⟨child, after, hfork, hchild, hafter⟩ := forkFrom_eq asid hresult
    refine ⟨child, after, hfork, by rw [hchild], by rw [hchild], ?_, ?_⟩
    · rw [hchild]
      exact layout_copied h.plain
    · have hcounts : (parent.vmMap.regions.map refUpWritable).map refUpWritable =
          parent.vmMap.regions.map refUpWritable := by
        rw [map_map]
        exact map_congr_left fun r hr => refUpWritable_twice.mpr (h.readOnly r hr)
      rw [hafter, hcounts]

/-- A fork of a space with one writable region leaves it counted three times. -/
theorem counted_twice : ∃ space, Reachable space ∧ space.vmMap.regions.map VmRegion.refCount = [1] ∧
    (space.forkFrom 2).2.vmMap.regions.map VmRegion.refCount = [3] ∧ ¬space.ForksFaithfully 2 := by
  have hrun : ((cowWorld.run ⟨[], FramePool.new 0⟩ [.new 1, .insert 0 (VmRegion.new 0x1000 0x1000 3)]).any fun w =>
      w.spaces[0]?.any fun space => space.vmMap.regions = [VmRegion.new 0x1000 0x1000 3] ∧
        (space.forkFrom 2).2.vmMap.regions.map VmRegion.refCount = [3]) = true := by
    decide +kernel
  obtain ⟨space, hreachable, hbefore, hafter⟩ := exists_of_run_any hrun
  refine ⟨space, hreachable, by rw [hbefore]; rfl, hafter, ?_⟩
  intro ⟨child, after, hfork, _, _, _, hcounted⟩
  have hcounts : [VmRegion.new 0x1000 0x1000 3].map (fun r => (refUpWritable r).refCount) = [3] := by
    rw [← hafter, hfork, hcounted, hbefore]
    rfl
  exact absurd hcounts (by decide)

end AddrSpace
end ChaosKernel.Memory
