import ChaosKernel.Base.Run
import ChaosKernel.Base.Threads
import ChaosKernel.Memory.FrameAlloc

/-! Faults on one shared page, by several threads.

`SharedPage.fault` is a sequence of atomic accesses and one section under the mutex of
the pool, and `access` performs one of them; alone, a call does what `SharedPage.fault`
says (`alone_fault`). A call loads `pending` first and clears it last. Calls of which none
looks in between, and calls that find no free frame, resolve the page once or not at all. -/
namespace ChaosKernel.Memory
open Base

structure CowShared where
  page : SharedPage
  pool : FramePool
  src : PgFrame

/-- The next access of a call. -/
inductive FaultPc where
  | loadPending
  | loadFrame (pend : Bool)
  | loadW (cur : Nat)
  /-- The section under the mutex. -/
  | scan (oldFrame : Nat)
  | storeFrame (nf : Nat)
  | fetchSub (nf : Nat)
  | storeW (nf : Nat)
  | storePending (nf : Nat)
  | done (result : Except Errno Nat)
  deriving DecidableEq

def FaultPc.isDone : FaultPc → Bool
  | .done _ => true
  | _ => false

variable {pc : FaultPc}

theorem FaultPc.isDone_iff : pc.isDone = true ↔ ∃ r, pc = .done r := by
  cases pc <;> simp [isDone]

/-- `src.rc.fetch_sub(1)`. -/
def PgFrame.fetchSub (src : PgFrame) : PgFrame := {src with rc := if src.rc = 0 then usizeMax else src.rc - 1}

namespace CowShared

def access (s : CowShared) : FaultPc → Option (CowShared × FaultPc)
  | .loadPending => some (s, .loadFrame s.page.pending)
  | .loadFrame pend => if pend then some (s, .scan s.page.frame) else some (s, .loadW s.page.frame)
  | .loadW cur => some (s, .done (.ok cur))
  | .scan oldFrame =>
    match scanFrom s.pool.slots (oldFrame % max s.pool.slots.length 1) with
    | some nf => some ({s with pool := s.pool.take nf}, .storeFrame nf)
    | none => some (s, .done (.error .oom))
  | .storeFrame nf => some ({s with page := {s.page with frame := nf}}, .fetchSub nf)
  | .fetchSub nf => some ({s with src := s.src.fetchSub}, .storeW nf)
  | .storeW nf => some ({s with page := {s.page with w := true}}, .storePending nf)
  | .storePending nf => some ({s with page := {s.page with pending := false}}, .done (.ok nf))
  | .done _ => none

/-- A call that is not disturbed. -/
def alone (s : CowShared) : Nat → FaultPc → CowShared × FaultPc
  | 0, pc => (s, pc)
  | n + 1, pc =>
    match s.access pc with
    | some r => r.1.alone n r.2
    | none => (s, pc)

end CowShared

section Calls
variable {τ : Type*} [DecidableEq τ]

abbrev CowWorld (τ : Type*) := Threads τ CowShared FaultPc

/-- Every thread makes one call. -/
def CowWorld.start (s : CowShared) : CowWorld τ := ⟨s, fun _ => .loadPending⟩

/-- A step is the next access of a thread. -/
def faults (τ : Type*) [DecidableEq τ] : System (CowWorld τ) τ where
  step w t := (w.shared.access (w.locals t)).map fun r => w.set t r.1 r.2

/-- With a free frame, one is taken and the source loses one user; all calls return the frame, and the page
has it. Without one, all calls fail and nothing changes. -/
def ResolvedOnce (s : CowShared) (w : CowWorld τ) : Prop :=
  (∃ nf : Nat, s.pool.slots[nf]? = some true ∧ w.shared.pool = s.pool.take nf ∧ w.shared.src = s.src.fetchSub ∧
    w.shared.page.frame = nf ∧ ∀ t, w.locals t = .done (.ok nf)) ∨
  (∀ nf : Nat, s.pool.slots[nf]? ≠ some true) ∧ w.shared = s ∧ ∀ t, w.locals t = .done (.error .oom)

/-- A call that finds the page pending is the first one to look. -/
def LooksFirst (w : CowWorld τ) (t : τ) : Prop :=
  w.locals t = .loadPending → w.shared.page.pending = true → ∀ u, w.locals u = .loadPending

instance [Fintype τ] (w : CowWorld τ) (t : τ) : Decidable (LooksFirst w t) :=
  inferInstanceAs (Decidable (_ → _ → ∀ _, _))

end Calls

/-! ### A call alone -/

theorem alone_fault (s : CowShared) : ∃ result, (s.alone 7 .loadPending).2 = .done result ∧
    s.page.fault s.pool s.src = (result.mapError .err, (s.alone 7 .loadPending).1.page,
      (s.alone 7 .loadPending).1.pool, (s.alone 7 .loadPending).1.src) := by
  obtain ⟨⟨frame, w, pending⟩, pool, src⟩ := s
  cases pending with
  | false => exact ⟨.ok frame, rfl, rfl⟩
  | true =>
    simp only [CowShared.alone, CowShared.access, SharedPage.fault, FramePool.takeFrom, if_true]
    cases scanFrom pool.slots (frame % max pool.slots.length 1) with
    | some nf => exact ⟨.ok nf, rfl, rfl⟩
    | none => exact ⟨.error .oom, rfl, rfl⟩

theorem access_scan {s t : CowShared} {oldFrame : Nat} (h : s.access (.scan oldFrame) = some (t, pc)) :
    (∃ nf : Nat, s.pool.slots[nf]? = some true ∧ t = {s with pool := s.pool.take nf} ∧ pc = .storeFrame nf) ∨
      t = s ∧ pc = .done (.error .oom) := by
  simp only [CowShared.access] at h
  split at h
  · next nf hscan =>
    cases h
    exact .inl ⟨nf, scanFrom_free hscan, rfl, rfl⟩
  · cases h
    exact .inr ⟨rfl, rfl⟩

/-! ### Without a free frame -/

section Calls
variable {τ : Type*} [DecidableEq τ]
variable {w w' : CowWorld τ} {s s' t : CowShared} {pc pc' : FaultPc}

theorem faults_eq_some {t : τ} (h : (faults τ).step w t = some w') :
    ∃ s pc, w.shared.access (w.locals t) = some (s, pc) ∧ w' = w.set t s pc := by
  obtain ⟨r, hr, heq⟩ := Option.map_eq_some_iff.mp h
  exact ⟨r.1, r.2, hr, heq.symm⟩

/-- A call that can only fail. -/
def FaultPc.Starved : FaultPc → Prop
  | .loadPending | .loadFrame true | .scan _ | .done (.error .oom) => True
  | _ => False

def AllStarved (s : CowShared) (w : CowWorld τ) : Prop := w.shared = s ∧ ∀ t, (w.locals t).Starved

theorem scanFrom_none {slots : List Bool} (h : ∀ i : Nat, slots[i]? ≠ some true) (start : Nat) :
    scanFrom slots start = none := by
  cases hscan : scanFrom slots start with
  | none => rfl
  | some i => exact absurd (scanFrom_free hscan) (h i)

theorem access_starved (hpending : s.page.pending = true)
    (hnone : ∀ nf : Nat, s.pool.slots[nf]? ≠ some true) (hpc : pc.Starved)
    (h : s.access pc = some (s', pc')) : s' = s ∧ pc'.Starved := by
  cases pc with
  | loadPending =>
    cases h
    rw [hpending]
    exact ⟨rfl, trivial⟩
  | loadFrame pend =>
    cases pend with
    | true =>
      cases h
      exact ⟨rfl, trivial⟩
    | false => exact hpc.elim
  | scan oldFrame =>
    rw [CowShared.access, scanFrom_none hnone] at h
    cases h
    exact ⟨rfl, trivial⟩
  | done result => cases h
  | _ => exact hpc.elim

theorem step_starved (hpending : s.page.pending = true) (hnone : ∀ nf : Nat, s.pool.slots[nf]? ≠ some true)
    (w : CowWorld τ) (t : τ) (w' : CowWorld τ) (hw : AllStarved s w) (h : (faults τ).step w t = some w') :
    AllStarved s w' := by
  obtain ⟨s', pc, hacc, heq⟩ := faults_eq_some h
  subst heq
  rw [hw.1] at hacc
  obtain ⟨hs, hpc⟩ := access_starved hpending hnone (hw.2 t) hacc
  exact ⟨hs, w.forall_set (P := fun _ pc => pc.Starved) hpc fun u _ => hw.2 u⟩

omit [DecidableEq τ] in
theorem AllStarved.resolved (hw : AllStarved s w) (hnone : ∀ nf : Nat, s.pool.slots[nf]? ≠ some true)
    (hdone : ∀ t, ∃ r, w.locals t = .done r) : ResolvedOnce s w := by
  refine .inr ⟨hnone, hw.1, fun t => ?_⟩
  obtain ⟨r, hr⟩ := hdone t
  have hstarved := hw.2 t
  rw [hr] at hstarved ⊢
  cases r with
  | ok nf => exact hstarved.elim
  | error e =>
    cases e with
    | oom => rfl
    | _ => exact hstarved.elim

/-! ### One call after the other -/

/-- What the call that resolves the page has done when it comes to an access. -/
inductive Resolving (s : CowShared) : CowShared → FaultPc → Prop where
  | loadFrame : Resolving s s (.loadFrame true)
  | scan (oldFrame : Nat) : Resolving s s (.scan oldFrame)
  | storeFrame {nf : Nat} : s.pool.slots[nf]? = some true →
      Resolving s {s with pool := s.pool.take nf} (.storeFrame nf)
  | fetchSub {nf : Nat} : s.pool.slots[nf]? = some true →
      Resolving s ⟨{s.page with frame := nf}, s.pool.take nf, s.src⟩ (.fetchSub nf)
  | storeW {nf : Nat} : s.pool.slots[nf]? = some true →
      Resolving s ⟨{s.page with frame := nf}, s.pool.take nf, s.src.fetchSub⟩ (.storeW nf)
  | storePending {nf : Nat} : s.pool.slots[nf]? = some true →
      Resolving s ⟨⟨nf, true, s.page.pending⟩, s.pool.take nf, s.src.fetchSub⟩ (.storePending nf)

/-- The state in which the page is resolved. -/
def CowShared.resolved (s : CowShared) (nf : Nat) : CowShared := ⟨⟨nf, true, false⟩, s.pool.take nf, s.src.fetchSub⟩

/-- A call that finds the page resolved. -/
def FaultPc.Late (nf : Nat) : FaultPc → Prop
  | .loadPending | .loadFrame false => True
  | .loadW cur => cur = nf
  | .done result => result = .ok nf
  | _ => False

/-- Where calls that look one after the other can be. -/
inductive Phase (s : CowShared) (w : CowWorld τ) : Prop where
  | before : w.shared = s → (∀ t, w.locals t = .loadPending) → Phase s w
  | during (t : τ) : Resolving s w.shared (w.locals t) → (∀ u, u ≠ t → w.locals u = .loadPending) → Phase s w
  | after (nf : Nat) : s.pool.slots[nf]? = some true → w.shared = s.resolved nf →
      (∀ t, (w.locals t).Late nf) → Phase s w

theorem access_resolving (hfree : ∃ nf : Nat, s.pool.slots[nf]? = some true) (hr : Resolving s s' pc)
    (h : s'.access pc = some (t, pc')) :
    Resolving s t pc' ∨ ∃ nf, s.pool.slots[nf]? = some true ∧ t = s.resolved nf ∧ pc' = .done (.ok nf) := by
  cases hr with
  | loadFrame =>
    cases h
    exact .inl (.scan _)
  | scan oldFrame =>
    obtain ⟨i, hi⟩ := hfree
    obtain ⟨nf, hnf⟩ := Option.isSome_iff_exists.mp
      (scanFrom_isSome hi (oldFrame % max s.pool.slots.length 1))
    rw [CowShared.access, hnf] at h
    cases h
    exact .inl (.storeFrame (scanFrom_free hnf))
  | storeFrame hnf =>
    cases h
    exact .inl (.fetchSub hnf)
  | fetchSub hnf =>
    cases h
    exact .inl (.storeW hnf)
  | storeW hnf =>
    cases h
    exact .inl (.storePending hnf)
  | storePending hnf =>
    cases h
    exact .inr ⟨_, hnf, rfl, rfl⟩

theorem access_late {nf : Nat} (hpc : pc.Late nf) (h : (s.resolved nf).access pc = some (t, pc')) :
    t = s.resolved nf ∧ pc'.Late nf := by
  cases pc with
  | loadPending =>
    cases h
    exact ⟨rfl, trivial⟩
  | loadFrame pend =>
    cases pend with
    | true => exact hpc.elim
    | false =>
      cases h
      exact ⟨rfl, rfl⟩
  | loadW cur =>
    cases h
    exact ⟨rfl, congrArg _ hpc⟩
  | done result => cases h
  | _ => exact hpc.elim

theorem Resolving.not_loadPending (h : Resolving s s' pc) : pc ≠ .loadPending := by
  intro heq
  subst heq
  cases h

theorem Resolving.not_done (h : Resolving s s' pc) (r : Except Errno Nat) : pc ≠ .done r := by
  intro heq
  subst heq
  cases h

theorem Resolving.pending (h : Resolving s s' pc) : s'.page.pending = s.page.pending := by
  cases h <;> rfl

theorem step_phase (hpending : s.page.pending = true) (hfree : ∃ nf : Nat, s.pool.slots[nf]? = some true)
    (w : CowWorld τ) (t : τ) (w' : CowWorld τ) (hw : Phase s w) (hfirst : LooksFirst w t)
    (h : (faults τ).step w t = some w') : Phase s w' := by
  obtain ⟨s', pc, hacc, heq⟩ := faults_eq_some h
  subst heq
  cases hw with
  | before hs hall =>
    rw [hs, hall t] at hacc
    cases hacc
    refine .during t ?_ fun u hu => ?_
    · rw [w.set_self, w.set_shared, hpending]
      exact .loadFrame
    · rw [w.set_other hu]
      exact hall u
  | during r hr hothers =>
    -- another call would find the page pending and not be the first
    have htr : t = r := by
      by_contra hne
      have hlook := hfirst (hothers t hne) (hr.pending.trans hpending) r
      exact hr.not_loadPending hlook
    subst htr
    rcases access_resolving hfree hr hacc with hr | ⟨nf, hnf, hs, hpc⟩
    · refine .during t ?_ fun u hu => ?_
      · rwa [w.set_self, w.set_shared]
      · rw [w.set_other hu]
        exact hothers u hu
    · refine .after nf hnf hs (w.forall_set (P := fun _ pc => pc.Late nf) ?_ fun u hu => ?_)
      · rw [hpc]
        rfl
      · rw [hothers u hu]
        trivial
  | after nf hnf hs hlate =>
    rw [hs] at hacc
    obtain ⟨hs', hpc⟩ := access_late (hlate t) hacc
    exact .after nf hnf hs' (w.forall_set (P := fun _ pc => pc.Late nf) hpc fun u _ => hlate u)

omit [DecidableEq τ] in
theorem Phase.resolvedOnce (hw : Phase s w) [Nonempty τ] (hdone : ∀ t, ∃ r, w.locals t = .done r) :
    ResolvedOnce s w := by
  cases hw with
  | before _ hall =>
    obtain ⟨t⟩ := ‹Nonempty τ›
    obtain ⟨r, hr⟩ := hdone t
    rw [hall t] at hr
    cases hr
  | during t hr _ =>
    obtain ⟨r, hdone⟩ := hdone t
    exact absurd hdone (hr.not_done r)
  | after nf hnf hs hlate =>
    refine .inl ⟨nf, hnf, by rw [hs]; rfl, by rw [hs]; rfl, by rw [hs]; rfl, fun t => ?_⟩
    obtain ⟨r, hr⟩ := hdone t
    have hl := hlate t
    rw [hr] at hl ⊢
    exact congrArg _ hl

end Calls
end ChaosKernel.Memory
