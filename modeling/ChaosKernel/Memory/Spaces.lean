import ChaosKernel.Memory.Regions

/-! What every address space of a run has.

A property of single spaces that a new space has, that each call keeps and that a
fork hands on (`SpaceInvariant`) holds of all spaces that calls lead to. Two such
properties are used later: the base for mappings is the one of `VmMap::new`, and
no page is counted zero times. -/
namespace ChaosKernel.Memory
open Base Option List

/-- What one call on a space keeps. -/
structure SpaceInvariant (K : AddrSpace → Prop) : Prop where
  new : ∀ asid, K (AddrSpace.new asid)
  insert : ∀ space region map, K space → space.vmMap.insert region = .ok map → K {space with vmMap := map}
  forkFrom : ∀ space asid child parent, K space → space.forkFrom asid = (.ok child, parent) → K child ∧ K parent
  handleCowFault : ∀ space addr pool, K space → K (space.handleCowFault addr pool).2.1
  unmapRange : ∀ space start len n space', K space → space.unmapRange start len = (.ok n, space') → K space'
  protect : ∀ space start len newFlags, K space → K (space.protect start len newFlags).2
  splitRegion : ∀ space addr, K space → K (space.splitRegion addr).2

namespace World
variable {K : AddrSpace → Prop} {w w' : World}

theorem forall_set {x : Nat} {space : AddrSpace} (h : ∀ s ∈ w.spaces, K s) (hspace : K space) :
    ∀ s ∈ (w.set x space).spaces, K s := by
  intro s hs
  rcases mem_or_eq_of_mem_set hs with hold | rfl
  · exact h s hold
  · exact hspace

theorem forall_step (hK : SpaceInvariant K) (h : ∀ s ∈ w.spaces, K s) {call : Call}
    (hstep : cowWorld.step w call = some w') : ∀ s ∈ w'.spaces, K s := by
  have hat {x : Nat} {space : AddrSpace} (hx : w.spaces[x]? = some space) : K space :=
    h space (mem_of_getElem? hx)
  cases call with
  | new asid =>
    cases hstep
    exact forall_mem_append.mpr ⟨h, forall_mem_singleton.mpr (hK.new asid)⟩
  | insert x region =>
    obtain ⟨space, hx, hstep⟩ := bind_eq_some_iff.mp hstep
    split at hstep
    · next map hinsert =>
      cases hstep
      exact forall_set h (hK.insert space region map (hat hx) hinsert)
    · cases hstep
      exact h
    · cases hstep
  | forkFrom x newAsid =>
    obtain ⟨space, hx, hstep⟩ := bind_eq_some_iff.mp hstep
    split at hstep
    · next child parent hfork =>
      cases hstep
      obtain ⟨hchild, hparent⟩ := hK.forkFrom space newAsid child parent (hat hx) hfork
      exact forall_mem_append.mpr ⟨forall_set h hparent, forall_mem_singleton.mpr hchild⟩
    · cases hstep
  | handleCowFault x addr =>
    obtain ⟨space, hx, hstep⟩ := bind_eq_some_iff.mp hstep
    simp only [ite_none_right_eq_some, some.injEq] at hstep
    obtain ⟨_, rfl⟩ := hstep
    exact forall_set h (hK.handleCowFault space addr w.pool (hat hx))
  | unmapRange x start len =>
    obtain ⟨space, hx, hstep⟩ := bind_eq_some_iff.mp hstep
    split at hstep
    · next n space' hunmap =>
      cases hstep
      exact forall_set h (hK.unmapRange space start len n space' (hat hx) hunmap)
    · cases hstep
  | protect x start len newFlags =>
    obtain ⟨space, hx, hstep⟩ := bind_eq_some_iff.mp hstep
    simp only [update, ite_none_right_eq_some, some.injEq] at hstep
    obtain ⟨_, rfl⟩ := hstep
    exact forall_set h (hK.protect space start len newFlags (hat hx))
  | splitRegion x addr =>
    obtain ⟨space, hx, hstep⟩ := bind_eq_some_iff.mp hstep
    simp only [update, ite_none_right_eq_some, some.injEq] at hstep
    obtain ⟨_, rfl⟩ := hstep
    exact forall_set h (hK.splitRegion space addr (hat hx))

end World

namespace AddrSpace

/-- A run of calls leads to the space. -/
def Reachable (space : AddrSpace) : Prop :=
  ∃ pool calls w, cowWorld.run ⟨[], pool⟩ calls = some w ∧ space ∈ w.spaces

variable {K p : AddrSpace → Prop} {space parent parent' child : AddrSpace} {x asid : Nat}

theorem Reachable.of_invariant (hK : SpaceInvariant K) (h : space.Reachable) : K space := by
  obtain ⟨pool, calls, w, hrun, hmem⟩ := h
  refine System.invariant_run (I := fun w => ∀ s ∈ w.spaces, K s)
    (fun _ _ _ hall hstep => World.forall_step hK hall hstep) (fun s hs => absurd hs not_mem_nil) hrun space hmem

theorem exists_of_run_any {ops : List Call} {pool : FramePool} [DecidablePred p]
    (h : ((cowWorld.run ⟨[], pool⟩ ops).any fun w => w.spaces[x]?.any fun space => p space) = true) :
    ∃ space, Reachable space ∧ p space := by
  obtain ⟨w, hrun, hspace⟩ := (Option.any_eq_true _ _).mp h
  obtain ⟨space, hx, hp⟩ := (Option.any_eq_true _ _).mp hspace
  exact ⟨space, ⟨_, _, w, hrun, mem_of_getElem? hx⟩, of_decide_eq_true hp⟩

theorem forkFrom_cases (h : parent.forkFrom asid = (.ok child, parent')) :
    (forkRegions parent.vmMap.regions {parent.vmMap with regions := []}).1 = .ok child.vmMap ∧
      parent'.vmMap = {parent.vmMap with regions :=
        (forkRegions parent.vmMap.regions {parent.vmMap with regions := []}).2.map refUpWritable} := by
  simp only [forkFrom] at h
  split at h
  · cases h
  · next map hmap =>
    cases h
    exact ⟨hmap, rfl⟩

/-! ### The counts -/

/-- No page is counted zero times, so that a count can go down. -/
def Counted (space : AddrSpace) : Prop :=
  ∀ (p : Nat) (frame : PgFrame), space.cowPages[p]? = some frame → 1 ≤ frame.rc

theorem invariant_counted : SpaceInvariant Counted where
  new _ := by
    intro p frame h
    exact absurd h (by simp [AddrSpace.new])
  insert space region map h _ := h
  forkFrom space asid child parent h hfork := by
    obtain ⟨hchild, hparent⟩ := forkFrom_ok hfork
    have hup : ∀ (p : Nat) (frame : PgFrame),
        (space.cowPages.map fun _ frame => frame.up)[p]? = some frame → 1 ≤ frame.rc := by
      intro p frame hframe
      rw [get_map_up, map_eq_some_iff] at hframe
      obtain ⟨old, _, rfl⟩ := hframe
      exact Nat.le_add_left 1 old.rc
    exact ⟨by rw [Counted, hchild]; exact hup, by rw [Counted, hparent]; exact hup⟩
  handleCowFault space addr pool h := by
    rcases hfault : space.handleCowFault addr pool with ⟨res, space', pool'⟩
    rcases handleCowFault_cases hfault with ⟨_, hspace, _⟩ | ⟨_, i, _, hspace, _⟩
    · rw [hspace]
      exact h
    · rw [hspace]
      intro p frame hframe
      rw [get_insert] at hframe
      split at hframe
      · cases hframe
        exact le_rfl
      · exact h p frame hframe
  unmapRange space start len n space' h hunmap := by
    intro p frame hframe
    rw [unmapRange_ok hunmap] at hframe
    split at hframe
    · cases hframe
    · exact h p frame hframe
  protect space start len newFlags h := by
    unfold protect
    split
    · exact h
    · split <;> exact h
  splitRegion space addr h := by
    rcases space.splitRegion_cases addr with ⟨_, e, heq⟩ | ⟨r, _, _, _, _, heq⟩
    · rw [heq]
      exact h
    · rw [heq]
      exact h

theorem Reachable.counted (h : space.Reachable) : space.Counted :=
  h.of_invariant invariant_counted

end AddrSpace
end ChaosKernel.Memory
