import ChaosKernel.Memory.Cow

/-! What the counts of copy-on-write pages count.

A frame's count is meant to be the number of spaces that use the frame, and a
frame nobody uses is meant to be free. The code keeps both only as long as
nothing happens to a page that is shared: the counts of a page shared by three
spaces, or by two after one of them left, are not those numbers any more, and an
unmapped frame never goes back to the pool. `exact_along_iff` says exactly which
calls keep the accounts. -/
namespace ChaosKernel.Memory
open Base

namespace World
variable {w w' : World}

/-- Every count is the number of spaces that map the frame, and the used frames are the mapped ones. -/
def Exact (w : World) : Prop := Base.Exact PgFrame.frameId PgFrame.rc w.Used w.entry

/-- The calls that touch no page whose users somebody else counts: a fork of a space that shares
nothing, a fault that gets a frame only for a page that was not there, an unmapping of pages
that are not there. -/
def KeepsCounts (w : World) : Call → Prop
  | .forkFrom x _ => ∀ p frame, w.entry x p = some frame → frame.rc ≤ 1
  | .handleCowFault x addr => ∀ space, w.spaces[x]? = some space → space.TakesFrame addr w.pool →
      w.entry x (pageAddr addr) = none
  | .unmapRange x start len => ∀ p, start ≤ p → p < start + len → w.entry x p = none
  | _ => True

theorem users_finite (w : World) (f : Nat) : (users PgFrame.frameId w.entry f).Finite := by
  refine (Set.finite_lt_nat w.spaces.length).subset ?_
  rintro x ⟨p, e, he, _⟩
  by_contra hge
  rw [entry_none_of_le w (Nat.le_of_not_lt hge)] at he
  cases he

theorem exact_congr (hentry : w'.entry = w.entry) (hpool : w'.pool = w.pool) (hw : w.Exact) :
    w'.Exact := by
  unfold Exact Used
  rw [hentry, hpool]
  exact hw

variable {x p addr start len : Nat}

theorem not_exact_of_loses (hw : w.Exact) {frame : PgFrame} (hframe : w.entry x p = some frame)
    (hloses : ∀ q e, w'.entry x q = some e → e.frameId ≠ frame.frameId) (hused : w'.Used frame.frameId)
    (hother : ∀ z q, z ≠ x → w'.entry z q = w.entry z q) : ¬w'.Exact := by
  refine Base.Exact.not_of_loses hw (users_finite w _) ⟨p, frame, hframe, rfl⟩ hused ?_ hother
  rintro ⟨q, e, he, heq⟩
  exact hloses q e he heq

/-- A fault keeps the accounts unless it replaces the frame of a page. -/
theorem exact_fault_iff (hcounted : w.Counted) (hw : w.Exact)
    (h : w.step (.handleCowFault x addr) = some w') : w'.Exact ↔ w.KeepsCounts (.handleCowFault x addr) := by
  obtain ⟨space, hx, _⟩ := Option.bind_eq_some_iff.mp h
  rcases step_handleCowFault h hx with ⟨hnot, hentry, hpool, _⟩ | ⟨htakes, i, hfree, hpool, hentry, _⟩
  · refine iff_of_true (exact_congr hentry hpool hw) fun space' hx' htakes => ?_
    rw [Option.some.inj (hx'.symm.trans hx)] at htakes
    exact absurd htakes hnot
  · have hnotused : ¬w.Used i := fun hused => absurd (hfree.symm.trans hused) (by simp)
    cases hpage : w.entry x (pageAddr addr) with
    | none =>
      exact iff_of_true (Base.Exact.fresh hw hnotused rfl hpage hentry (used_set w hfree hpool))
        fun _ _ _ => hpage
    | some frame =>
      have hused := hcounted.used x _ frame hpage
      refine iff_of_false (not_exact_of_loses hw hpage (fun q e he heq => ?_) ?_ fun z q hz => ?_) fun hkeeps => ?_
      · rw [hentry] at he
        by_cases hq : q = pageAddr addr
        · rw [if_pos ⟨rfl, hq⟩] at he
          cases he
          rw [← heq] at hused
          exact hnotused hused
        · rw [if_neg (fun hand => hq hand.2)] at he
          exact hq (hcounted.once x (pageAddr addr) q frame e hpage he heq)
      · exact (used_set w hfree hpool _).mpr (.inl hused)
      · rw [hentry, if_neg (fun hand => hz hand.1)]
      · rw [hkeeps space hx htakes] at hpage
        cases hpage

/-- An unmapping keeps the accounts only where there is nothing to unmap. -/
theorem exact_unmap_iff (hcounted : w.Counted) (hw : w.Exact)
    (h : w.step (.unmapRange x start len) = some w') :
    w'.Exact ↔ w.KeepsCounts (.unmapRange x start len) := by
  obtain ⟨hpool, hentry⟩ := step_unmapRange h
  constructor
  · intro hexact p hlo hhi
    by_contra hne
    obtain ⟨frame, hframe⟩ := Option.ne_none_iff_exists'.mp hne
    refine not_exact_of_loses hw hframe (fun q e he heq => ?_) ?_ (fun z q hz => ?_) hexact
    · rw [hentry] at he
      split at he
      · cases he
      · next hout =>
        have hqp := hcounted.once x p q frame e hframe he heq
        exact hout ⟨rfl, hqp ▸ hlo, hqp ▸ hhi⟩
    · rw [Used, hpool]
      exact hcounted.used x p frame hframe
    · rw [hentry, if_neg (fun hand => hz hand.1)]
  · intro hkeeps
    refine exact_congr (funext fun y => funext fun q => ?_) hpool hw
    rw [hentry]
    split
    · next hin => rw [hin.1, hkeeps q hin.2.1 hin.2.2]
    · rfl

theorem exact_step_iff {c : Call} (hcounted : w.Counted) (hw : w.Exact) (h : w.step c = some w') :
    w'.Exact ↔ w.KeepsCounts c := by
  have hquiet : regionCall c = true → w'.Exact := by
    intro hc
    obtain ⟨hentry, hpool⟩ := step_regionCall hc h
    exact exact_congr hentry hpool hw
  cases c with
  | new | insert | protect | splitRegion => exact iff_of_true (hquiet rfl) trivial
  | forkFrom x asid =>
    obtain ⟨hlt, hpool, hentry⟩ := step_forkFrom h
    have hiff := Base.Exact.fork_iff hcounted hw (users_finite w) PgFrame.up (fun _ => rfl)
      (fun _ => rfl) (fun _ => entry_none_of_le w (le_refl _)) hlt.ne hentry
    unfold Exact Used
    rw [hpool]
    exact hiff
  | handleCowFault x addr => exact exact_fault_iff hcounted hw h
  | unmapRange x start len => exact exact_unmap_iff hcounted hw h

theorem exact_new (n : Nat) : World.Exact ⟨[], FramePool.new n⟩ := by
  have hnone : ∀ x p, entry ⟨[], FramePool.new n⟩ x p = none :=
    fun x _ => entry_none_of_le ⟨[], FramePool.new n⟩ (Nat.zero_le x)
  refine ⟨fun x p e he => ?_, fun f => iff_of_false ?_ ?_⟩
  · rw [hnone] at he
    cases he
  · simp [Used, FramePool.new, List.getElem?_replicate]
  · rintro ⟨x, p, e, he, _⟩
    rw [hnone] at he
    cases he

/-- The frames each space maps, as a table that can be computed. -/
def frames (w : World) : List (List Nat) :=
  w.spaces.map fun space => space.cowPages.toList.map fun e => e.2.frameId

theorem mem_users_iff (w : World) (x f : Nat) :
    x ∈ users PgFrame.frameId w.entry f ↔ ∃ mapped, w.frames[x]? = some mapped ∧ f ∈ mapped := by
  simp only [users, Set.mem_ofPred_eq, entry, frames, List.getElem?_map, Option.bind_eq_some_iff,
    Option.map_eq_some_iff]
  constructor
  · rintro ⟨p, e, ⟨space, hx, he⟩, rfl⟩
    refine ⟨_, ⟨space, hx, rfl⟩, List.mem_map.mpr ⟨(p, e), ?_, rfl⟩⟩
    exact Std.ExtTreeMap.mem_toList_iff_getElem?_eq_some.mpr he
  · rintro ⟨_, ⟨space, hx, rfl⟩, hmem⟩
    obtain ⟨⟨p, e⟩, he, rfl⟩ := List.mem_map.mp hmem
    exact ⟨p, e, ⟨space, hx, Std.ExtTreeMap.mem_toList_iff_getElem?_eq_some.mp he⟩, rfl⟩

end World

/-- **What keeps the accounts.** From an empty pool, the counts and the pool are right in all
states of a run just when each call of the run is one that keeps them. -/
theorem exact_along_iff (n : Nat) (calls : List Call) :
    cowWorld.Always World.Exact ⟨[], FramePool.new n⟩ calls ↔
      cowWorld.Guarded World.KeepsCounts ⟨[], FramePool.new n⟩ calls :=
  System.always_iff_guarded (J := World.Counted) (fun _ _ _ hs hstep => World.counted_step hs hstep)
    (fun _ _ _ hcounted hexact hstep => World.exact_step_iff hcounted hexact hstep)
    (World.counted_new _) (World.exact_new n)

/-- One fork, one write by the child: the parent still counts two users of frame 0 and is the only
one left. Then the parent unmaps the page: frame 0 stays used and nobody maps it. -/
theorem exact_fails_after_fork : ∃ w w' : World,
    cowWorld.run ⟨[], FramePool.new 2⟩ [.new 0, .insert 0 (VmRegion.new 0 4096 3),
      .handleCowFault 0 0, .forkFrom 0 1, .handleCowFault 1 0] = some w ∧
    w.entry 0 0 = some ⟨0, 2⟩ ∧ users PgFrame.frameId w.entry 0 = {0} ∧ ¬w.Exact ∧
    w.step (.unmapRange 0 0 4096) = some w' ∧
    w'.pool.slots[0]? = some false ∧ users PgFrame.frameId w'.entry 0 = ∅ ∧ ¬w'.Exact := by
  have hrun : ((cowWorld.run ⟨[], FramePool.new 2⟩ [.new 0, .insert 0 (VmRegion.new 0 4096 3),
      .handleCowFault 0 0, .forkFrom 0 1, .handleCowFault 1 0]).any fun w =>
        decide (w.entry 0 0 = some ⟨0, 2⟩ ∧ w.frames = [[0], [1]]) &&
          (w.step (.unmapRange 0 0 4096)).any fun w' =>
            w'.pool.slots[0]? = some false ∧ w'.frames = [[], [1]]) = true := by
    decide +kernel
  simp only [Option.any_eq_true, Bool.and_eq_true, decide_eq_true_eq] at hrun
  obtain ⟨w, hw, ⟨hentry, hframes⟩, w', hw', hslot, hframes'⟩ := hrun
  have husers : users PgFrame.frameId w.entry 0 = {0} := by
    ext x
    rw [World.mem_users_iff, hframes]
    rcases x with _ | _ | x <;> simp
  have husers' : users PgFrame.frameId w'.entry 0 = ∅ := by
    ext x
    rw [World.mem_users_iff, hframes']
    rcases x with _ | _ | x <;> simp
  refine ⟨w, w', hw, hentry, husers, fun hexact => ?_, hw', hslot, husers', fun hexact => ?_⟩
  · have := hexact.counts 0 0 _ hentry
    rw [husers, Set.ncard_singleton] at this
    cases this
  · have := (hexact.used 0).mp hslot
    rw [husers'] at this
    exact Set.not_nonempty_empty this

end ChaosKernel.Memory
