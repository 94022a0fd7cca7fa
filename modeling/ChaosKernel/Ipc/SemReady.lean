import ChaosKernel.Base.Run
import ChaosKernel.Ipc.Semaphore

/-! Whether a semaphore says that it can be acquired.

Waiters look at the flag `SEM_ACQ` of the event bus and not at the count. A release
sets it and the acquisition that takes the last unit clears it, but `set_val` only
ever sets it: with a value below one it leaves the flag as it is. `SemaWorld` keeps
the last value that was set, and how often the semaphore was released and acquired
since. -/
namespace ChaosKernel.Ipc
open Base

namespace Sema

def new (c : Int) (fits : -maxCnt - 1 ≤ c ∧ c ≤ maxCnt) : Sema := ⟨c, 0, false, 0, fits⟩

def remove (s : Sema) : Sema := {s with rm := true, bus := s.bus ||| evSemRm}

def setVal (s : Sema) (v : Int) (fits : -maxCnt - 1 ≤ v ∧ v ≤ maxCnt) : Sema :=
  ⟨v, s.pid, s.rm, if 1 ≤ v then s.bus ||| evSemAcq else s.bus, fits⟩

/-- The flag that waiters look at. -/
def ready (s : Sema) : Bool := s.bus &&& evSemAcq != 0

end Sema

structure SemaWorld where
  sema : Sema
  value : Int
  released : Nat
  acquired : Nat

inductive SemaOp where
  | release
  | tryAcquire
  | setVal (v : Int)
  | remove
  deriving DecidableEq, Repr

namespace SemaWorld

def start : SemaWorld := ⟨Sema.new 0 (by decide), 0, 0, 0⟩

/-- A value is an `isize`; a release at the largest one overflows. -/
def step (w : SemaWorld) : SemaOp → Option SemaWorld
  | .release => w.sema.release.map fun sema => {w with sema := sema, released := w.released + 1}
  | .tryAcquire =>
    let (res, sema) := w.sema.tryAcquire
    some {w with sema := sema, acquired := if res = .ok true then w.acquired + 1 else w.acquired}
  | .setVal v => if h : -maxCnt - 1 ≤ v ∧ v ≤ maxCnt then some ⟨w.sema.setVal v h, v, 0, 0⟩ else none
  | .remove => some {w with sema := w.sema.remove}

def system : System SemaWorld SemaOp := ⟨step⟩

/-- The flag is set exactly when a unit is there. -/
def Accurate (w : SemaWorld) : Prop := w.sema.ready = true ↔ 1 ≤ w.sema.cnt

/-- Not more was acquired than the value that was set and the releases since. -/
def Bounded (w : SemaWorld) : Prop := (w.acquired : Int) ≤ w.value + w.released

/-- A value below one is set only while there is no unit, so that there is no flag to clear. -/
def NoStaleFlag (w : SemaWorld) : SemaOp → Prop
  | .setVal v => 1 ≤ v ∨ w.sema.cnt < 1
  | _ => True

/-- No negative value is set. -/
def NotNegative (_ : SemaWorld) : SemaOp → Prop
  | .setVal v => 0 ≤ v
  | _ => True

/-! ### The flag -/

theorem ready_iff (s : Sema) : s.ready = true ↔ s.bus.testBit 21 = true := by
  have hmask : evSemAcq = 2 ^ 21 := rfl
  rw [Sema.ready, hmask, Nat.and_two_pow, bne_iff_ne]
  cases s.bus.testBit 21 <;> decide

variable (bus : Nat) {op : SemaOp}

theorem testBit_set : (bus ||| evSemAcq).testBit 21 = true := by
  rw [Nat.testBit_or, show evSemAcq.testBit 21 = true by decide, Bool.or_true]

theorem testBit_clear : (bus &&& (2 ^ 32 - 1 - evSemAcq)).testBit 21 = false := by
  have hmask : Nat.testBit (2 ^ 32 - 1 - evSemAcq) 21 = false := by decide
  rw [Nat.testBit_and, hmask, Bool.and_false]

theorem testBit_removed : (bus ||| evSemRm).testBit 21 = bus.testBit 21 := by
  rw [Nat.testBit_or, show evSemRm.testBit 21 = false by decide, Bool.or_false]

/-! ### Steps -/

variable {w w' : SemaWorld}

/-- What a step does to the count, to the flag and to the numbers. -/
inductive Does (w : SemaWorld) : SemaOp → SemaWorld → Prop
  | released {s : Sema} (hcnt : s.cnt = w.sema.cnt + 1) (hrm : s.rm = w.sema.rm)
      (hready : s.ready = true ↔ 0 ≤ w.sema.cnt ∨ w.sema.ready = true) :
      Does w .release {w with sema := s, released := w.released + 1}
  /-- No unit is there, or the semaphore was removed. -/
  | refused : Does w .tryAcquire w
  | took {s : Sema} (hpos : 1 ≤ w.sema.cnt) (hcnt : s.cnt = w.sema.cnt - 1) (hrm : s.rm = w.sema.rm)
      (hready : s.ready = true ↔ 2 ≤ w.sema.cnt ∧ w.sema.ready = true) :
      Does w .tryAcquire {w with sema := s, acquired := w.acquired + 1}
  | valueSet {s : Sema} {v : Int} (hcnt : s.cnt = v) (hrm : s.rm = w.sema.rm)
      (hready : s.ready = true ↔ 1 ≤ v ∨ w.sema.ready = true) : Does w (.setVal v) ⟨s, v, 0, 0⟩
  | removed {s : Sema} (hcnt : s.cnt = w.sema.cnt) (hrm : s.rm = true)
      (hready : s.ready = true ↔ w.sema.ready = true) : Does w .remove {w with sema := s}

theorem does_release {s : Sema} (h : w.sema.release = some s) :
    w.Does .release {w with sema := s, released := w.released + 1} := by
  unfold Sema.release at h
  split at h
  · cases h
    refine .released rfl rfl ?_
    rw [ready_iff, ready_iff]
    by_cases hpos : 1 ≤ w.sema.cnt + 1
    · simp only [if_pos hpos, testBit_set]
      exact iff_of_true trivial (.inl (by omega))
    · simp only [if_neg hpos]
      exact (or_iff_right (by omega)).symm
  · cases h

theorem does_tryAcquire (hstep : system.step w .tryAcquire = some w') : w.Does .tryAcquire w' := by
  simp only [system, step, Option.some.injEq] at hstep
  subst hstep
  by_cases hrm : w.sema.rm = true
  · rw [Sema.tryAcquire, if_pos hrm]
    exact .refused
  by_cases hpos : 1 ≤ w.sema.cnt
  · rw [Sema.tryAcquire, if_neg hrm, dif_pos hpos]
    refine .took hpos rfl rfl ?_
    rw [ready_iff, ready_iff]
    by_cases hlast : w.sema.cnt - 1 < 1
    · simp only [if_pos hlast, testBit_clear]
      exact iff_of_false nofun fun h => absurd h.1 (by omega)
    · simp only [if_neg hlast]
      exact (and_iff_right (by omega)).symm
  · rw [Sema.tryAcquire, if_neg hrm, dif_neg hpos]
    exact .refused

theorem does_setVal {v : Int} (fits : -maxCnt - 1 ≤ v ∧ v ≤ maxCnt) :
    w.Does (.setVal v) ⟨w.sema.setVal v fits, v, 0, 0⟩ := by
  refine .valueSet rfl rfl ?_
  rw [ready_iff, ready_iff, Sema.setVal]
  by_cases hpos : 1 ≤ v
  · simp only [if_pos hpos, testBit_set]
    exact iff_of_true trivial (.inl hpos)
  · simp only [if_neg hpos]
    exact (or_iff_right hpos).symm

theorem does_of_step (hstep : system.step w op = some w') : w.Does op w' := by
  cases op with
  | release =>
    obtain ⟨s, hs, rfl⟩ := Option.map_eq_some_iff.mp hstep
    exact does_release hs
  | tryAcquire => exact does_tryAcquire hstep
  | setVal v =>
    simp only [system, step] at hstep
    split at hstep
    · cases hstep
      exact does_setVal _
    · cases hstep
  | remove =>
    cases hstep
    refine .removed rfl rfl ?_
    rw [ready_iff, ready_iff, Sema.remove, testBit_removed]

/-! ### What a step keeps -/

/-- The count is what was set and released, without what was acquired. -/
def Balanced (w : SemaWorld) : Prop := w.sema.cnt = w.value + w.released - w.acquired

theorem bounded_iff (h : w.Balanced) : w.Bounded ↔ 0 ≤ w.sema.cnt := by
  unfold Balanced at h
  unfold Bounded
  omega

theorem Balanced.step (h : w.Balanced) (hstep : system.step w op = some w') : w'.Balanced := by
  unfold Balanced at h ⊢
  cases does_of_step hstep with
  | released hcnt _ _ =>
    rw [hcnt]
    push_cast
    omega
  | refused => exact h
  | took _ hcnt _ _ =>
    rw [hcnt]
    push_cast
    omega
  | @valueSet s v hcnt _ _ =>
    show s.cnt = v + 0 - 0
    omega
  | removed hcnt _ _ =>
    rw [hcnt]
    exact h

theorem step_accurate_iff (h : w.Accurate) (hstep : system.step w op = some w') :
    w'.Accurate ↔ w.NoStaleFlag op := by
  unfold Accurate at h ⊢
  cases does_of_step hstep with
  | released hcnt _ hready =>
    refine iff_of_true ?_ trivial
    rw [hready, hcnt, h]
    omega
  | refused => exact iff_of_true h trivial
  | took hpos hcnt _ hready =>
    refine iff_of_true ?_ trivial
    rw [hready, hcnt, h]
    omega
  | @valueSet s v hcnt _ hready =>
    show (s.ready = true ↔ 1 ≤ s.cnt) ↔ (1 ≤ v ∨ w.sema.cnt < 1)
    rw [hready, hcnt, h]
    omega
  | removed hcnt _ hready =>
    refine iff_of_true ?_ trivial
    rw [hready, hcnt]
    exact h

theorem step_bounded_iff (hbalanced : w.Balanced) (h : w.Bounded) (hstep : system.step w op = some w') :
    w'.Bounded ↔ w.NotNegative op := by
  rw [bounded_iff (hbalanced.step hstep)]
  rw [bounded_iff hbalanced] at h
  cases does_of_step hstep with
  | released hcnt _ _ =>
    refine iff_of_true ?_ trivial
    rw [hcnt]
    omega
  | refused => exact iff_of_true h trivial
  | took hpos hcnt _ _ =>
    refine iff_of_true ?_ trivial
    rw [hcnt]
    omega
  | @valueSet s v hcnt _ _ =>
    show 0 ≤ s.cnt ↔ 0 ≤ v
    rw [hcnt]
  | removed hcnt _ _ =>
    refine iff_of_true ?_ trivial
    rw [hcnt]
    exact h

theorem step_rm (hstep : system.step w op = some w') (h : w.sema.rm = true ∨ op = .remove) :
    w'.sema.rm = true := by
  cases does_of_step hstep with
  | released _ hrm _ => exact hrm.trans (h.resolve_right nofun)
  | refused => exact h.resolve_right nofun
  | took _ _ hrm _ => exact hrm.trans (h.resolve_right nofun)
  | valueSet _ hrm _ => exact hrm.trans (h.resolve_right nofun)
  | removed _ hrm _ => exact hrm

theorem rm_of_remove {ops : List SemaOp} (hrun : system.run start ops = some w) (hmem : .remove ∈ ops) :
    w.sema.rm = true := by
  refine System.history_run (I := fun ops (w : SemaWorld) => .remove ∈ ops → w.sema.rm = true) ?_ nofun hrun hmem
  intro ops s op t ih hstep hmem
  refine step_rm hstep ?_
  rcases List.mem_append.mp hmem with hold | hlast
  · exact .inl (ih hold)
  · exact .inr (List.mem_singleton.mp hlast).symm

theorem accurate_start : start.Accurate :=
  iff_of_false nofun nofun

/-- **The flag is right in all states of a run if and only if no value below one is set while a unit is there;
the acquisitions keep to the last value and the releases since if and only if no negative value is set; and a
semaphore that was removed refuses every attempt.** -/
theorem flag_iff (ops : List SemaOp) :
    (system.Always Accurate start ops ↔ system.Guarded NoStaleFlag start ops) ∧
      (system.Always Bounded start ops ↔ system.Guarded NotNegative start ops) ∧
      ∀ w, system.run start ops = some w → .remove ∈ ops → w.sema.tryAcquire = (.error .removed, w.sema) := by
  refine ⟨?_, ?_, fun w hrun hmem => ?_⟩
  · exact System.always_iff_guarded (J := fun _ => True) (fun _ _ _ _ _ => trivial)
      (fun _ _ _ _ h hstep => step_accurate_iff h hstep) trivial accurate_start
  · exact System.always_iff_guarded (J := Balanced) (fun _ _ _ h hstep => h.step hstep)
      (fun _ _ _ hbalanced h hstep => step_bounded_iff hbalanced h hstep) rfl (Int.le_refl 0)
  · rw [Sema.tryAcquire, if_pos (rm_of_remove hrun hmem)]

/-- Set to one and then to zero, the semaphore has no unit and still says that it can be acquired. -/
theorem stale_flag : ∃ w, system.run start [.setVal 1, .setVal 0] = some w ∧ w.sema.cnt = 0 ∧
    w.sema.ready = true ∧ ¬w.Accurate := by
  have hrun : ((system.run start [.setVal 1, .setVal 0]).any fun w =>
      w.sema.cnt = 0 ∧ w.sema.ready = true) = true := by
    decide +kernel
  obtain ⟨w, hw, hcnt, hready⟩ := System.exists_of_run_any hrun
  refine ⟨w, hw, hcnt, hready, fun haccurate => ?_⟩
  have hpos := haccurate.mp hready
  rw [hcnt] at hpos
  exact absurd hpos (by decide)

end SemaWorld
end ChaosKernel.Ipc
