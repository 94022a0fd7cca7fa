import ChaosKernel.Base.BitSets
import ChaosKernel.Base.Recency
import ChaosKernel.Sys.ProcessCalls

/-! The signals of a process.

A `SigSet` keeps the raised and the blocked signals as words and an action for every
signal. What it is for is said over histories: a signal is `Raised` when it was
raised after it was cleared last, and `blockedAfter` is the set that the mask calls
ask for. `delivery` says that the words are these sets, and that the two loops over
the signals read them as they should. -/
namespace ChaosKernel.Sys
open Base

def sigDfl : Nat := 0
def sigIgn : Nat := 1

structure SigAction where
  handler : Nat
  flags : Nat
  mask : BitVec 64
  deriving DecidableEq, Repr

structure SigSet where
  pending : BitVec 64
  blocked : BitVec 64
  actions : Vector SigAction (nsig + 1)

namespace SigSet

def new : SigSet := ⟨0#64, 0#64, Vector.replicate (nsig + 1) ⟨sigDfl, 0, 0#64⟩⟩

def sigRaise (s : SigSet) (signo : Nat) : SigSet :=
  if signo < nsig then {s with pending := s.pending ||| bit signo} else s

def coalescePending (s : SigSet) : BitVec 64 :=
  let active := s.pending &&& ~~~s.blocked
  (List.range' 1 (nsig - 1)).foldl (fun result i => if hasBit active i then result ||| bit i else result) 0#64

def sigClear (s : SigSet) (signo : Nat) : SigSet :=
  if signo < nsig then {s with pending := s.pending &&& ~~~bit signo} else s

def sigBlock (s : SigSet) (mask : BitVec 64) : SigSet :=
  {s with blocked := (s.blocked ||| mask) &&& ~~~(bit sigkill ||| bit sigstop)}

def sigUnblock (s : SigSet) (mask : BitVec 64) : SigSet := {s with blocked := s.blocked &&& ~~~mask}

def sigSetmask (s : SigSet) (mask : BitVec 64) : SigSet :=
  {s with blocked := mask &&& ~~~(bit sigkill ||| bit sigstop)}

def deliverable (s : SigSet) : Option Nat :=
  let actionable := s.pending &&& ~~~s.blocked
  if actionable = 0#64 then none else (List.range' 1 (nsig - 1)).find? fun i => hasBit actionable i

def setAction (s : SigSet) (signo : Nat) (action : SigAction) : SigSet :=
  if signo < nsig ∧ signo ≠ sigkill ∧ signo ≠ sigstop then
    {s with actions := s.actions.setIfInBounds signo action}
  else s

def getAction (s : SigSet) (signo : Nat) : SigAction :=
  if h : signo < nsig + 1 then s.actions[signo] else s.actions[0]

/-- The loop starts at signal 1. -/
def clearNonCaught (s : SigSet) : SigSet :=
  {s with actions := s.actions.mapIdx fun i a =>
    if 1 ≤ i ∧ a.handler ≠ sigDfl ∧ a.handler ≠ sigIgn then {a with handler := sigDfl} else a}

end SigSet

/-! ### Histories -/

inductive SigOp where
  | sigRaise (signo : Nat)
  | sigClear (signo : Nat)
  | sigBlock (mask : BitVec 64)
  | sigUnblock (mask : BitVec 64)
  | sigSetmask (mask : BitVec 64)
  | setAction (signo : Nat) (action : SigAction)
  | clearNonCaught
  deriving DecidableEq, Repr

def SigSet.step (s : SigSet) : SigOp → SigSet
  | .sigRaise signo => s.sigRaise signo
  | .sigClear signo => s.sigClear signo
  | .sigBlock mask => s.sigBlock mask
  | .sigUnblock mask => s.sigUnblock mask
  | .sigSetmask mask => s.sigSetmask mask
  | .setAction signo action => s.setAction signo action
  | .clearNonCaught => s.clearNonCaught

/-- The signals of a process after the calls `ops`. -/
def SigSet.after (ops : List SigOp) : SigSet := ops.foldl step new

/-- Signal `i` was raised, and not cleared since. -/
def Raised (ops : List SigOp) (i : Nat) : Prop := i < nsig ∧ Since (.sigRaise i) (.sigClear i) ops

/-- What a call does to the set of blocked signals. -/
def blockedStep (blocked : Set Nat) : SigOp → Set Nat
  | .sigBlock mask => (blocked ∪ members mask) \ {sigkill, sigstop}
  | .sigUnblock mask => blocked \ members mask
  | .sigSetmask mask => members mask \ {sigkill, sigstop}
  | _ => blocked

/-- The signals that are blocked after the calls `ops`. -/
def blockedAfter (ops : List SigOp) : Set Nat := ops.foldl blockedStep ∅

/-- Signal `i` is to be delivered. -/
def Due (ops : List SigOp) (i : Nat) : Prop := 1 ≤ i ∧ i < 64 ∧ Raised ops i ∧ i ∉ blockedAfter ops

namespace SigSet
variable {s : SigSet} {ops : List SigOp} {op : SigOp}

theorem after_concat : after (ops ++ [op]) = (after ops).step op := List.foldl_concat ..

theorem blockedAfter_concat : blockedAfter (ops ++ [op]) = blockedStep (blockedAfter ops) op := List.foldl_concat ..

/-! ### The words -/

variable {i : Nat}

theorem pending_step : (s.step op).pending.getLsbD i = true ↔
    (i < nsig ∧ op = .sigRaise i) ∨ (s.pending.getLsbD i = true ∧ op ≠ .sigClear i) := by
  have hlt : s.pending.getLsbD i = true → i < nsig := BitVec.lt_of_getLsbD
  cases op with
  | sigRaise signo =>
    simp only [step, sigRaise, SigOp.sigRaise.injEq, ne_eq, reduceCtorEq, not_false_eq_true, and_true]
    split
    · next h =>
      rw [getLsbD_insert h, or_comm, @eq_comm _ i]
      exact or_congr_left (and_iff_right_of_imp fun hi => hi ▸ h).symm
    · next h =>
      have hother : ¬(i < nsig ∧ signo = i) := fun hi => h (hi.2 ▸ hi.1)
      exact (or_iff_right hother).symm
  | sigClear signo =>
    simp only [step, sigClear, SigOp.sigClear.injEq, ne_eq, reduceCtorEq, and_false, false_or]
    split
    · next h => rw [getLsbD_remove h, ne_eq, @eq_comm _ i]
    · next h =>
      have hother : s.pending.getLsbD i = true → ¬signo = i := fun hi heq => h (heq ▸ hlt hi)
      exact (and_iff_left_of_imp hother).symm
  | sigBlock mask => simp [step, sigBlock]
  | sigUnblock mask => simp [step, sigUnblock]
  | sigSetmask mask => simp [step, sigSetmask]
  | setAction signo action =>
    simp only [step, setAction, ne_eq, reduceCtorEq, and_false, false_or, not_false_eq_true, and_true]
    split <;> exact Iff.rfl
  | clearNonCaught => simp [step, clearNonCaught]

theorem pending_after : (after ops).pending.getLsbD i = true ↔ Raised ops i := by
  induction ops using List.reverseRecOn with
  | nil =>
    refine iff_of_false ?_ fun h => since_nil _ _ h.2
    show ¬(0#64).getLsbD i = true
    rw [BitVec.getLsbD_zero]
    exact Bool.false_ne_true
  | append_singleton ops op ih =>
    rw [after_concat, pending_step, ih, Raised, Raised, since_concat, and_assoc, and_or_left]

theorem members_unmaskable : members (bit sigkill ||| bit sigstop) = {sigkill, sigstop} := by
  rw [members_or, members_bit (by decide), members_bit (by decide)]
  rfl

theorem blocked_step : members (s.step op).blocked = blockedStep (members s.blocked) op := by
  cases op with
  | sigRaise signo =>
    simp only [step, sigRaise, blockedStep]
    split <;> rfl
  | sigClear signo =>
    simp only [step, sigClear, blockedStep]
    split <;> rfl
  | sigBlock mask =>
    simp only [step, sigBlock, blockedStep]
    rw [members_diff, members_or, members_unmaskable]
  | sigUnblock mask => exact members_diff _ _
  | sigSetmask mask =>
    simp only [step, sigSetmask, blockedStep]
    rw [members_diff, members_unmaskable]
  | setAction signo action =>
    simp only [step, setAction, blockedStep]
    split <;> rfl
  | clearNonCaught => rfl

theorem blocked_after : members (after ops).blocked = blockedAfter ops := by
  induction ops using List.reverseRecOn with
  | nil =>
    ext i
    show (0#64).getLsbD i = true ↔ False
    rw [BitVec.getLsbD_zero]
    exact iff_of_false Bool.false_ne_true id
  | append_singleton ops op ih => rw [after_concat, blocked_step, ih, blockedAfter_concat]

theorem blocked_bit : (after ops).blocked.getLsbD i = true ↔ i ∈ blockedAfter ops := by
  rw [← blocked_after]
  exact Iff.rfl

theorem not_blocked (hi : i = sigkill ∨ i = sigstop) : i ∉ blockedAfter ops := by
  induction ops using List.reverseRecOn with
  | nil => exact id
  | append_singleton ops op ih =>
    rw [blockedAfter_concat]
    cases op with
    | sigBlock mask | sigSetmask mask => exact fun h => h.2 hi
    | sigUnblock mask => exact fun h => ih h.1
    | sigRaise signo | sigClear signo | setAction signo action | clearNonCaught => exact ih

/-! ### The actions -/

theorem handler_step (hi : i = sigkill ∨ i = sigstop) (h : (s.getAction i).handler = sigDfl) :
    ((s.step op).getAction i).handler = sigDfl := by
  have hlt : i < nsig + 1 := by
    rcases hi with hi | hi <;> rw [hi] <;> decide
  simp only [getAction, hlt, dif_pos] at h ⊢
  cases op with
  | setAction signo action =>
    simp only [step, setAction]
    split
    · next hsig =>
      have hne : signo ≠ i := fun heq => hi.elim (fun hi => hsig.2.1 (heq.trans hi)) fun hi => hsig.2.2 (heq.trans hi)
      rw [Vector.getElem_setIfInBounds_ne hlt hne]
      exact h
    · exact h
  | clearNonCaught =>
    simp only [step, clearNonCaught, Vector.getElem_mapIdx]
    split
    · rfl
    · exact h
  | sigRaise signo =>
    simp only [step, sigRaise]
    split <;> exact h
  | sigClear signo =>
    simp only [step, sigClear]
    split <;> exact h
  | sigBlock mask | sigUnblock mask | sigSetmask mask => exact h

theorem handler_after (hi : i = sigkill ∨ i = sigstop) : ((after ops).getAction i).handler = sigDfl := by
  induction ops using List.reverseRecOn with
  | nil => rcases hi with hi | hi <;> rw [hi] <;> decide
  | append_singleton ops op ih =>
    rw [after_concat]
    exact handler_step hi ih

/-! ### The loops -/

theorem active_iff :
    (1 ≤ i ∧ ((after ops).pending &&& ~~~(after ops).blocked).getLsbD i = true) ↔ Due ops i := by
  rw [getLsbD_diff, pending_after, ← Bool.not_eq_true, blocked_bit, Due]
  exact ⟨fun h => ⟨h.1, h.2.1.1, h.2⟩, fun h => ⟨h.1, h.2.2⟩⟩

/-- The test for an empty word only saves the loop. -/
theorem deliverable_eq_find : s.deliverable =
    (List.range' 1 (nsig - 1)).find? fun i => hasBit (s.pending &&& ~~~s.blocked) i := by
  simp only [deliverable]
  split
  · next h =>
    rw [h, eq_comm, List.find?_eq_none]
    exact fun i _ hi => absurd (hasBit_iff.mp hi) (by rw [BitVec.getLsbD_zero]; exact Bool.false_ne_true)
  · rfl

theorem mem_signals : i ∈ List.range' 1 (nsig - 1) ↔ 1 ≤ i ∧ i < 64 := by
  rw [List.mem_range'_1]
  exact Iff.rfl

theorem deliverable_eq_none : s.deliverable = none ↔
    ∀ i, 1 ≤ i → ¬(s.pending &&& ~~~s.blocked).getLsbD i = true := by
  rw [deliverable_eq_find, List.find?_eq_none]
  constructor
  · intro h i hi hbit
    exact h i (mem_signals.mpr ⟨hi, BitVec.lt_of_getLsbD hbit⟩) (hasBit_iff.mpr hbit)
  · intro h i hi hbit
    exact h i (mem_signals.mp hi).1 (hasBit_iff.mp hbit)

theorem deliverable_eq_some : s.deliverable = some i ↔
    (1 ≤ i ∧ (s.pending &&& ~~~s.blocked).getLsbD i = true) ∧
      ∀ j, 1 ≤ j → (s.pending &&& ~~~s.blocked).getLsbD j = true → i ≤ j := by
  rw [deliverable_eq_find, List.find?_range'_eq_some]
  constructor
  · intro h
    obtain ⟨hbit, hmem, hsmaller⟩ := h
    refine ⟨⟨(mem_signals.mp hmem).1, hasBit_iff.mp hbit⟩, fun j hj hbitj => not_lt.mp fun hlt => ?_⟩
    have := hsmaller j hj hlt
    rw [hasBit_iff.mpr hbitj] at this
    cases this
  · intro h
    obtain ⟨⟨hi, hbit⟩, hleast⟩ := h
    refine ⟨hasBit_iff.mpr hbit, mem_signals.mpr ⟨hi, BitVec.lt_of_getLsbD hbit⟩, fun j hj hlt => ?_⟩
    rw [Bool.not_eq_true', Bool.eq_false_iff]
    exact fun hbitj => absurd (hleast j hj (hasBit_iff.mp hbitj)) (not_le.mpr hlt)

theorem coalesceLoop {active : BitVec 64} {l : List Nat} (result : BitVec 64) :
    (l.foldl (fun result i => if hasBit active i then result ||| bit i else result) result).getLsbD i = true ↔
      result.getLsbD i = true ∨ (i ∈ l ∧ active.getLsbD i = true) := by
  induction l generalizing result with
  | nil => simp only [List.foldl_nil, List.not_mem_nil, false_and, or_false]
  | cons j rest ih =>
    rw [List.foldl_cons, ih, List.mem_cons]
    split
    · next hj =>
      have hbit := hasBit_iff.mp hj
      rw [getLsbD_insert (BitVec.lt_of_getLsbD hbit), or_assoc, or_and_right]
      exact or_congr_right (or_congr_left (and_iff_left_of_imp fun hi => hi ▸ hbit).symm)
    · next hj =>
      have hother : ¬(i = j ∧ active.getLsbD i = true) := fun hi => hj (hasBit_iff.mpr (hi.1 ▸ hi.2))
      rw [or_and_right, or_iff_right hother]

theorem coalescePending_iff :
    s.coalescePending.getLsbD i = true ↔ 1 ≤ i ∧ (s.pending &&& ~~~s.blocked).getLsbD i = true := by
  rw [coalescePending, coalesceLoop, mem_signals, BitVec.getLsbD_zero]
  exact ⟨fun h => h.elim (fun h => by cases h) fun h => ⟨h.1.1, h.2⟩,
    fun h => .inr ⟨⟨h.1, BitVec.lt_of_getLsbD h.2⟩, h.2⟩⟩

/-- **Whatever was called, the two signals that cannot be masked are not blocked and keep their handler, the
smallest signal that is due is the one to deliver, and the word of all of them has no others.** -/
theorem delivery (ops : List SigOp) :
    (∀ i, i = sigkill ∨ i = sigstop →
      (after ops).blocked.getLsbD i = false ∧ ((after ops).getAction i).handler = sigDfl) ∧
    (∀ i, (after ops).deliverable = some i ↔ Due ops i ∧ ∀ j, Due ops j → i ≤ j) ∧
    ((after ops).deliverable = none ↔ ∀ i, ¬Due ops i) ∧
    ∀ i, (after ops).coalescePending.getLsbD i = true ↔ Due ops i := by
  refine ⟨fun i hi => ⟨?_, handler_after hi⟩, fun i => ?_, ?_, fun i => ?_⟩
  · rw [← Bool.not_eq_true, blocked_bit]
    exact not_blocked hi
  · rw [deliverable_eq_some, active_iff]
    exact and_congr_right fun _ => forall_congr' fun j => by rw [← active_iff, and_imp]
  · rw [deliverable_eq_none]
    exact forall_congr' fun i => by rw [← active_iff, not_and]
  · rw [coalescePending_iff, active_iff]

end SigSet
end ChaosKernel.Sys
