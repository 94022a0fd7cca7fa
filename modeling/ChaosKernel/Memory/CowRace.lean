import ChaosKernel.Memory.CowFault

/-! Faults that race.

A second call that loads `pending` before the first one has cleared it takes a frame of
its own, or fails. So calls together resolve a page once exactly when the pool has no free
frame or a call that finds the page pending is the first one to look
(`resolved_once_iff`). -/
namespace ChaosKernel.Memory
open Base

section Calls
variable {τ : Type*} [DecidableEq τ]

/-! ### Two calls that find the page pending -/

/-- A call that found the page pending: the frame it has taken is marked. -/
def FaultPc.Racer (slots : List Bool) : FaultPc → Prop
  | .loadPending | .loadW _ => False
  | .loadFrame pend => pend = true
  | .scan _ | .done (.error _) => True
  | .storeFrame nf | .fetchSub nf | .storeW nf | .storePending nf | .done (.ok nf) => slots[nf]? = some false

/-- The frame that a call has taken. -/
def FaultPc.taken : FaultPc → Option Nat
  | .storeFrame nf | .fetchSub nf | .storeW nf | .storePending nf | .done (.ok nf) => some nf
  | _ => none

variable {s t : CowShared} {pc pc' : FaultPc} {a b : τ} {w : CowWorld τ}

theorem access_marked (h : s.access pc = some (t, pc')) {i : Nat} (hi : s.pool.slots[i]? = some false) :
    t.pool.slots[i]? = some false := by
  cases pc with
  | scan oldFrame =>
    rcases access_scan h with ⟨nf, hfree, ht, _⟩ | ⟨ht, _⟩
    · rw [ht]
      exact ((Takes.one hfree).used_iff i).mpr (.inl hi)
    · rwa [ht]
  | loadFrame pend =>
    cases pend <;> cases h <;> exact hi
  | done result => cases h
  | _ =>
    cases h
    exact hi

theorem FaultPc.Racer.mono {pc'' : FaultPc} (h : s.access pc' = some (t, pc''))
    (hpc : pc.Racer s.pool.slots) : pc.Racer t.pool.slots := by
  cases pc with
  | done result =>
    cases result with
    | ok nf => exact access_marked h hpc
    | error e => trivial
  | storeFrame nf => exact access_marked h hpc
  | fetchSub nf => exact access_marked h hpc
  | storeW nf => exact access_marked h hpc
  | storePending nf => exact access_marked h hpc
  | _ => exact hpc

/-- One access of a call that found the page pending; a frame it takes was free. -/
theorem access_racer (hpc : pc.Racer s.pool.slots) (h : s.access pc = some (t, pc')) :
    pc'.Racer t.pool.slots ∧ (pc'.taken = pc.taken ∨ ∃ nf, pc'.taken = some nf ∧ s.pool.slots[nf]? = some true) := by
  cases pc with
  | loadFrame pend =>
    cases hpc
    cases h
    exact ⟨trivial, .inl rfl⟩
  | scan oldFrame =>
    rcases access_scan h with ⟨nf, hfree, ht, hpc'⟩ | ⟨ht, hpc'⟩
    · subst ht hpc'
      exact ⟨((Takes.one hfree).used_iff nf).mpr (.inr (List.mem_singleton_self nf)), .inr ⟨nf, rfl, hfree⟩⟩
    · subst hpc'
      exact ⟨trivial, .inl rfl⟩
  | done result => cases h
  | loadPending => exact hpc.elim
  | loadW cur => exact hpc.elim
  | _ =>
    cases h
    exact ⟨hpc, .inl rfl⟩

/-- Both calls found the page pending, and they have not taken the same frame. -/
structure Racing (a b : τ) (w : CowWorld τ) : Prop where
  ne : a ≠ b
  left : (w.locals a).Racer w.shared.pool.slots
  right : (w.locals b).Racer w.shared.pool.slots
  apart : ∀ nf, (w.locals a).taken = some nf → (w.locals b).taken ≠ some nf

theorem FaultPc.Racer.marked {slots : List Bool} (h : pc.Racer slots) {nf : Nat} (ht : pc.taken = some nf) :
    slots[nf]? = some false := by
  cases pc with
  | done result =>
    cases result with
    | ok n =>
      cases ht
      exact h
    | error e => cases ht
  | loadPending => cases ht
  | loadFrame pend => cases ht
  | loadW cur => cases ht
  | scan oldFrame => cases ht
  | _ =>
    cases ht
    exact h

omit [DecidableEq τ] in
theorem Racing.symm (h : Racing a b w) : Racing b a w :=
  ⟨h.ne.symm, h.right, h.left, fun nf hb ha => h.apart nf ha hb⟩

theorem Racing.step_left (h : Racing a b w) (hacc : w.shared.access (w.locals a) = some (s, pc)) :
    Racing a b (w.set a s pc) := by
  obtain ⟨hpc, htaken⟩ := access_racer h.left hacc
  refine ⟨h.ne, ?_, ?_, ?_⟩
  · rwa [w.set_self, w.set_shared]
  · rw [w.set_other h.ne.symm, w.set_shared]
    exact h.right.mono hacc
  · intro nf hnf
    rw [w.set_self] at hnf
    rw [w.set_other h.ne.symm]
    rcases htaken with heq | ⟨n, hn, hfree⟩
    · exact h.apart nf (heq ▸ hnf)
    · intro hb
      rw [hn] at hnf
      cases hnf
      rw [h.right.marked hb] at hfree
      cases hfree

theorem step_racing (w : CowWorld τ) (t : τ) (w' : CowWorld τ) (hw : Racing a b w)
    (h : (faults τ).step w t = some w') : Racing a b w' := by
  obtain ⟨s, pc, hacc, heq⟩ := faults_eq_some h
  subst heq
  by_cases ha : t = a
  · subst ha
    exact hw.step_left hacc
  · by_cases hb : t = b
    · subst hb
      exact (hw.symm.step_left hacc).symm
    · refine ⟨hw.ne, ?_, ?_, ?_⟩
      · rw [w.set_other (Ne.symm ha), w.set_shared]
        exact hw.left.mono hacc
      · rw [w.set_other (Ne.symm hb), w.set_shared]
        exact hw.right.mono hacc
      · rw [w.set_other (Ne.symm ha), w.set_other (Ne.symm hb)]
        exact hw.apart

/-- While the page is pending, whoever has looked found it pending. -/
def AllRacers (w : CowWorld τ) : Prop :=
  w.shared.page.pending = true → ∀ t, w.locals t = .loadPending ∨ (w.locals t).Racer w.shared.pool.slots

theorem access_pending (h : s.access pc = some (t, pc')) (ht : t.page.pending = true) :
    s.page.pending = true := by
  cases pc with
  | scan oldFrame =>
    rcases access_scan h with ⟨nf, _, heq, _⟩ | ⟨heq, _⟩
    · rw [heq] at ht
      exact ht
    · rwa [heq] at ht
  | loadFrame pend => cases pend <;> cases h <;> exact ht
  | storePending nf =>
    cases h
    cases ht
  | done result => cases h
  | _ =>
    cases h
    exact ht

theorem step_allRacers (w : CowWorld τ) (t : τ) (w' : CowWorld τ) (hw : AllRacers w)
    (h : (faults τ).step w t = some w') : AllRacers w' := by
  obtain ⟨s, pc, hacc, heq⟩ := faults_eq_some h
  subst heq
  intro hpending
  have hold := access_pending hacc hpending
  refine w.forall_set (P := fun _ pc => pc = .loadPending ∨ pc.Racer s.pool.slots) ?_ fun u _ => ?_
  · rcases hw hold t with hstart | hracer
    · rw [hstart] at hacc
      cases hacc
      exact .inr hold
    · exact .inr (access_racer hracer hacc).1
  · exact (hw hold u).imp_right fun hr => hr.mono hacc

omit [DecidableEq τ] in
theorem Racing.not_resolvedOnce (h : Racing a b w) (hfree : ∃ nf : Nat, s.pool.slots[nf]? = some true) :
    ¬ResolvedOnce s w := by
  intro hres
  rcases hres with ⟨nf, _, _, _, _, hall⟩ | ⟨hnone, _⟩
  · exact h.apart nf (by rw [hall a]; rfl) (by rw [hall b]; rfl)
  · obtain ⟨nf, hnf⟩ := hfree
    exact hnone nf hnf

/-! ### Runs -/

theorem guarded_of_resolvedOnce {steps : List τ} (hfree : ∃ nf : Nat, s.pool.slots[nf]? = some true)
    (hrun : (faults τ).run (.start s) steps = some w) (hres : ResolvedOnce s w) :
    (faults τ).Guarded LooksFirst (.start s) steps := by
  intro before a v v' hpre hbefore hstep hstart hpending u
  by_contra hu
  obtain ⟨rest, hsteps⟩ := hpre
  have hracers : AllRacers v := by
    refine System.invariant_run step_allRacers ?_ hbefore
    intro _ t
    exact .inl rfl
  have hne : a ≠ u := fun heq => hu (heq ▸ hstart)
  have hracing : Racing a u v' := by
    obtain ⟨s', pc, hacc, heq⟩ := faults_eq_some hstep
    subst heq
    rw [hstart] at hacc
    cases hacc
    refine ⟨hne, ?_, ?_, fun nf hnf => ?_⟩
    · rw [v.set_self]
      exact hpending
    · rw [v.set_other hne.symm, v.set_shared]
      exact (hracers hpending u).resolve_left hu
    · rw [v.set_self] at hnf
      cases hnf
  have hv' : (faults τ).run (.start s) (before ++ [a]) = some v' := by
    rw [System.run_concat, hbefore]
    exact hstep
  rw [← hsteps, System.run_append, hv'] at hrun
  exact (System.invariant_run step_racing hracing hrun).not_resolvedOnce hfree hres

/-- **A complete run of calls on a pending page resolves it once exactly when the pool has no free frame
or every call that finds the page pending is the first one to look.** -/
theorem resolved_once_iff [Nonempty τ] (s : CowShared) (hpending : s.page.pending = true) (steps : List τ)
    (w : CowWorld τ) (hrun : (faults τ).run (.start s) steps = some w) (hdone : ∀ t, ∃ r, w.locals t = .done r) :
    ResolvedOnce s w ↔
      (∀ nf : Nat, s.pool.slots[nf]? ≠ some true) ∨ (faults τ).Guarded LooksFirst (.start s) steps := by
  by_cases hfree : ∃ nf : Nat, s.pool.slots[nf]? = some true
  · constructor
    · intro hres
      exact .inr (guarded_of_resolvedOnce hfree hrun hres)
    · intro hor
      rcases hor with hnone | hguard
      · obtain ⟨nf, hnf⟩ := hfree
        exact absurd hnf (hnone nf)
      · have hphase := System.always_of_guarded (step_phase hpending hfree) (.before rfl fun _ => rfl) hguard
        exact (hphase steps w (List.prefix_refl steps) hrun).resolvedOnce hdone
  · have hnone : ∀ nf : Nat, s.pool.slots[nf]? ≠ some true := fun nf hnf => hfree ⟨nf, hnf⟩
    refine iff_of_true ?_ (.inl hnone)
    have hstart : AllStarved s (.start s : CowWorld τ) := ⟨rfl, fun _ => trivial⟩
    exact (System.invariant_run (step_starved hpending hnone) hstart hrun).resolved hnone hdone

end Calls

/-- The second call looks when the first one has returned. -/
theorem resolved_once_in_turn :
    ∃ w, (faults Bool).run (.start ⟨.new 0, .new 2, .withRc 0 2⟩)
        (List.replicate 7 false ++ List.replicate 3 true) = some w ∧
      ResolvedOnce ⟨.new 0, .new 2, .withRc 0 2⟩ w := by
  have hrun : ((faults Bool).run (.start ⟨.new 0, .new 2, .withRc 0 2⟩)
      (List.replicate 7 false ++ List.replicate 3 true)).any (fun w => (w.locals false).isDone && (w.locals true).isDone) =
        true := by decide +kernel
  obtain ⟨w, hw, hdone⟩ := (Option.any_eq_true _ _).mp hrun
  obtain ⟨hfalse, htrue⟩ := Bool.and_eq_true_iff.mp hdone
  refine ⟨w, hw, (resolved_once_iff _ rfl _ w hw fun t => ?_).mpr (.inr ?_)⟩
  · cases t with
    | false => exact FaultPc.isDone_iff.mp hfalse
    | true => exact FaultPc.isDone_iff.mp htrue
  · decide +kernel

/-- Both calls look before one of them has returned. -/
theorem page_resolved_twice :
    ∃ w, (faults Bool).run (.start ⟨.new 0, .new 2, .withRc 0 2⟩)
        (false :: true :: (List.replicate 6 false ++ List.replicate 6 true)) = some w ∧
      (∀ t, ∃ r, w.locals t = .done r) ∧ ¬ResolvedOnce ⟨.new 0, .new 2, .withRc 0 2⟩ w := by
  have hrun : ((faults Bool).run (.start ⟨.new 0, .new 2, .withRc 0 2⟩)
      (false :: true :: (List.replicate 6 false ++ List.replicate 6 true))).any (fun w =>
        decide (w.locals false = .done (.ok 0) ∧ w.locals true = .done (.ok 1))) = true := by decide +kernel
  obtain ⟨w, hw, hfalse, htrue⟩ := System.exists_of_run_any hrun
  refine ⟨w, hw, fun t => ?_, fun hres => ?_⟩
  · cases t with
    | false => exact ⟨_, hfalse⟩
    | true => exact ⟨_, htrue⟩
  · rcases hres with ⟨nf, _, _, _, _, hall⟩ | ⟨_, _, hall⟩
    · have hzero := (hall false).symm.trans hfalse
      have hone := (hall true).symm.trans htrue
      cases hzero
      cases hone
    · cases (hall false).symm.trans hfalse

end ChaosKernel.Memory
