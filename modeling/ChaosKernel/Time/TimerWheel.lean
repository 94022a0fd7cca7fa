import ChaosKernel.Base.Rust
import ChaosKernel.Base.Slots

/-! Timers and the timer wheel.

The wheel is an array of slots, and a timer lies in the slot of its deadline.
`advance` goes on to the next slot and takes out what has expired there; a periodic
timer is put back with its next deadline, possibly into the slot that was just
rebuilt. A cancelled timer stays where it is until its slot is visited.

The entries of two timers can be equal. `Timer` adds a tag, which a successor
inherits and which no operation looks at: its type is arbitrary. It tells apart what
the entries do not. The clock is read once for each call. -/
namespace ChaosKernel.Time
open Base List Option

def timerWheelSize : Nat := 256

structure TimerEntry where
  deadline : Nat
  interval : Nat
  callbackId : Nat
  active : Bool
  /-- `repeat`. -/
  repeats : Bool
  deriving DecidableEq, Repr

namespace TimerEntry

def new (deadline interval cbId : Nat) : TimerEntry := ⟨deadline, interval, cbId, true, decide (0 < interval)⟩

def expired (e : TimerEntry) (clk : Nat) : Bool := decide (e.deadline < clk)

/-- The next deadline may be no word. -/
def reset (e : TimerEntry) (clk : Nat) : Option TimerEntry :=
  if e.repeats then (add? clk e.interval).map fun d => {e with deadline := d}
  else some {e with active := false}

def remaining (e : TimerEntry) (clk : Nat) : Nat := if e.deadline ≤ clk then 0 else e.deadline - clk

def cancel (e : TimerEntry) : TimerEntry := {e with active := false}

end TimerEntry

/-- An entry with its tag. -/
structure Timer (ι : Type) extends TimerEntry where
  tag : ι
  deriving DecidableEq, Repr

namespace Timer
variable {ι : Type}

def slot (t : Timer ι) : Nat := t.deadline % timerWheelSize

/-- What the wheel keeps of a periodic timer that fires. -/
def successor (clk : Nat) (t : Timer ι) : Timer ι :=
  ⟨.new (clk + t.interval) t.interval t.callbackId, t.tag⟩

/-- What `advance` returns of a timer that fires. -/
def returned (clk : Nat) (t : Timer ι) : Timer ι :=
  if t.repeats then {t with deadline := clk + t.interval} else t

variable (clk : Nat)

@[simp] theorem successor_tag (t : Timer ι) : (t.successor clk).tag = t.tag := rfl

@[simp] theorem returned_tag (t : Timer ι) : (t.returned clk).tag = t.tag := by
  unfold returned
  split <;> rfl

@[simp] theorem returned_repeats (t : Timer ι) : (t.returned clk).repeats = t.repeats := by
  unfold returned
  split <;> rfl

@[simp] theorem returned_interval (t : Timer ι) : (t.returned clk).interval = t.interval := by
  unfold returned
  split <;> rfl

theorem returned_of_oneShot {t : Timer ι} (h : t.repeats = false) : t.returned clk = t := by
  unfold returned
  simp only [h, Bool.false_eq_true, if_false]

end Timer

/-- A wheel with all its slots. -/
@[ext] structure TimerWheel (ι : Type) where
  slots : List (List (Timer ι))
  currentSlot : Nat
  size : slots.length = timerWheelSize
  filed : Filed Timer.slot slots

namespace TimerWheel
variable {ι : Type}

theorem slot_lt (t : Timer ι) : t.slot < timerWheelSize := Nat.mod_lt _ (by decide)

def new : TimerWheel ι where
  slots := List.replicate timerWheelSize []
  currentSlot := 0
  size := length_replicate
  filed := by
    intro i a ha
    rw [slotAt, getElem?_replicate] at ha
    split at ha <;> cases ha

/-- `self.slots[slot].push(entry)`. -/
def addTimer (wheel : TimerWheel ι) (t : Timer ι) : TimerWheel ι where
  slots := wheel.slots.modify t.slot (· ++ [t])
  currentSlot := wheel.currentSlot
  size := (length_modify ..).trans wheel.size
  filed := by
    refine wheel.filed.modify (wheel.size ▸ slot_lt t) fun a ha => ?_
    rcases mem_append.mp ha with ha | ha
    · exact wheel.filed _ a ha
    · rw [mem_singleton.mp ha]

/-- The loop over the timers that fire. -/
def rearm (clk : Nat) (wheel : TimerWheel ι) : List (Timer ι) → Option (List (Timer ι) × TimerWheel ι)
  | [] => some ([], wheel)
  | t :: rest =>
    if t.repeats then
      (t.toTimerEntry.reset clk).bind fun e =>
        let clone := TimerEntry.new e.deadline e.interval e.callbackId
        (rearm clk (wheel.addTimer ⟨clone, t.tag⟩) rest).map fun r => (⟨e, t.tag⟩ :: r.1, r.2)
    else (rearm clk wheel rest).map fun r => (t :: r.1, r.2)

/-- The slot that the next `advance` visits. -/
def nextSlot (wheel : TimerWheel ι) : Nat := (wheel.currentSlot + 1) % timerWheelSize

theorem nextSlot_lt (wheel : TimerWheel ι) : wheel.nextSlot < wheel.slots.length :=
  wheel.size ▸ Nat.mod_lt _ (by decide)

/-- The timers that the next `advance` takes out of their slot. -/
def due (wheel : TimerWheel ι) (clk : Nat) : List (Timer ι) :=
  (slotAt wheel.slots wheel.nextSlot).filter fun t => t.active && t.expired clk

/-- The wheel with the slot rebuilt. -/
def drained (wheel : TimerWheel ι) (clk : Nat) : TimerWheel ι where
  slots := wheel.slots.modify wheel.nextSlot (·.filter fun t => t.active && !t.expired clk)
  currentSlot := wheel.nextSlot
  size := (length_modify ..).trans wheel.size
  filed := wheel.filed.modify wheel.nextSlot_lt fun a ha => wheel.filed _ a (mem_of_mem_filter ha)

def advance (wheel : TimerWheel ι) (clk : Nat) : Option (List (Timer ι) × TimerWheel ι) :=
  rearm clk (wheel.drained clk) (wheel.due clk)

def cancels (cbId : Nat) (t : Timer ι) : Bool := t.callbackId == cbId && t.active

def cancelOne (cbId : Nat) (t : Timer ι) : Option (Timer ι) :=
  if cancels cbId t then some {t with toTimerEntry := t.toTimerEntry.cancel} else none

theorem cancelOne_slot (cbId : Nat) (t t' : Timer ι) (h : cancelOne cbId t = some t') : t'.slot = t.slot := by
  unfold cancelOne at h
  split at h
  · cases h
    rfl
  · cases h

/-- The first active timer with the callback is marked. -/
def cancel (wheel : TimerWheel ι) (cbId : Nat) : Bool × TimerWheel ι :=
  match h : updateFirst? (updateFirst? (cancelOne cbId)) wheel.slots with
  | some slots => (true, ⟨slots, wheel.currentSlot, (length_updateFirst? h).trans wheel.size,
      wheel.filed.updateFirst? (cancelOne_slot cbId) h⟩)
  | none => (false, wheel)

def timers (wheel : TimerWheel ι) : List (Timer ι) := wheel.slots.flatten

def actives (wheel : TimerWheel ι) : List (Timer ι) := wheel.timers.filter (·.active)

/-! ### What the operations do to the active timers -/

variable {wheel wheel' : TimerWheel ι} {t : Timer ι} {cbId clk : Nat} {fired due : List (Timer ι)}

theorem mem_actives : t ∈ wheel.actives ↔ t ∈ slotAt wheel.slots t.slot ∧ t.active = true := by
  rw [actives, mem_filter]
  refine and_congr_left fun _ => ⟨wheel.filed.of_mem, fun ht => ?_⟩
  cases hi : wheel.slots[t.slot]? with
  | none =>
    rw [slotAt, hi] at ht
    cases ht
  | some slot =>
    rw [slotAt, hi, getD_some] at ht
    exact mem_flatten.mpr ⟨slot, mem_of_getElem? hi, ht⟩

theorem actives_new : (new : TimerWheel ι).actives = [] := by
  simp [actives, timers, new]

theorem actives_addTimer (wheel : TimerWheel ι) (ht : t.active = true) :
    (wheel.addTimer t).actives.Perm (t :: wheel.actives) := by
  have hlt : t.slot < wheel.slots.length := wheel.size ▸ slot_lt t
  have hnew := (flatten_modify_perm hlt (· ++ [t])).filter (·.active)
  have hold := (flatten_perm hlt).filter (·.active)
  simp only [filter_append, filter_singleton, ht, cond_true] at hnew hold
  refine hnew.trans (List.Perm.trans ?_ (hold.symm.cons t))
  rw [append_assoc]
  exact perm_middle

theorem cancel_of_some {slots : List (List (Timer ι))}
    (h : updateFirst? (updateFirst? (cancelOne cbId)) wheel.slots = some slots) :
    (wheel.cancel cbId).1 = true ∧ (wheel.cancel cbId).2.slots = slots ∧
      (wheel.cancel cbId).2.currentSlot = wheel.currentSlot := by
  unfold cancel
  split
  · next slots' h' =>
    rw [h] at h'
    cases h'
    exact ⟨rfl, rfl, rfl⟩
  · next h' =>
    rw [h] at h'
    cases h'

theorem cancel_of_none (h : updateFirst? (updateFirst? (cancelOne cbId)) wheel.slots = none) :
    wheel.cancel cbId = (false, wheel) := by
  unfold cancel
  split
  · next slots' h' =>
    rw [h] at h'
    cases h'
  · rfl

/-- Marking takes one timer from the active ones, the first with the callback. -/
theorem actives_cancel (wheel : TimerWheel ι) (cbId : Nat) :
    (wheel.timers.find? (cancels cbId) = none ∧ wheel.cancel cbId = (false, wheel)) ∨
      ∃ t, wheel.timers.find? (cancels cbId) = some t ∧ (wheel.cancel cbId).1 = true ∧
        wheel.actives.Perm (t :: (wheel.cancel cbId).2.actives) := by
  have hflat := updateFirst?_flatten (cancelOne cbId) wheel.slots
  have hfirst := filter_updateFirst? (p := fun t : Timer ι => t.active) (q := cancels cbId)
    (f := fun t => {t with toTimerEntry := t.toTimerEntry.cancel})
    (fun t ht => (Bool.and_eq_true_iff.mp ht).2) (fun _ _ => rfl) wheel.slots.flatten
  rcases hfirst with ⟨hfind, hnone⟩ | ⟨t, l', hfind, hsome, hperm⟩
  · exact .inl ⟨hfind, cancel_of_none (map_eq_none_iff.mp (hflat.trans hnone))⟩
  · obtain ⟨slots, hslots, hl⟩ := map_eq_some_iff.mp (hflat.trans hsome)
    subst hl
    obtain ⟨htrue, heq, _⟩ := cancel_of_some hslots
    refine .inr ⟨t, hfind, htrue, ?_⟩
    rw [← heq] at hperm
    exact hperm

theorem cancel_currentSlot (wheel : TimerWheel ι) (cbId : Nat) :
    (wheel.cancel cbId).2.currentSlot = wheel.currentSlot := by
  cases h : updateFirst? (updateFirst? (cancelOne cbId)) wheel.slots with
  | some slots => exact (cancel_of_some h).2.2
  | none => rw [cancel_of_none h]

theorem actives_drained (wheel : TimerWheel ι) (clk : Nat) :
    wheel.actives.Perm (wheel.due clk ++ (wheel.drained clk).actives) := by
  have hnew := (flatten_modify_perm wheel.nextSlot_lt
    (·.filter fun t : Timer ι => t.active && !t.expired clk)).filter (·.active)
  have hold := (flatten_perm wheel.nextSlot_lt).filter (·.active)
  simp only [filter_append, List.filter_filter] at hnew hold
  refine hold.trans (List.Perm.trans ?_ (hnew.symm.append_left _))
  rw [← append_assoc]
  refine List.Perm.append_right _ ?_
  have hsplit := (filter_append_perm (fun t => t.expired clk)
    ((slotAt wheel.slots wheel.nextSlot).filter (·.active))).symm
  simp only [List.filter_filter] at hsplit
  refine hsplit.trans (List.Perm.of_eq ?_)
  congr 1
  · refine filter_congr fun t _ => Bool.and_comm ..
  · refine filter_congr fun t _ => ?_
    cases t.active <;> cases t.expired clk <;> rfl

theorem rearm_eq_some (h : rearm clk wheel due = some (fired, wheel')) :
    fired = due.map (Timer.returned clk) ∧ wheel'.currentSlot = wheel.currentSlot ∧
      wheel'.actives.Perm ((due.filter (·.repeats)).map (Timer.successor clk) ++ wheel.actives) := by
  induction due generalizing wheel fired with
  | nil =>
    cases h
    exact ⟨rfl, rfl, .refl _⟩
  | cons t rest ih =>
    unfold rearm at h
    cases ht : t.repeats with
    | true =>
      rw [if_pos ht, bind_eq_some_iff] at h
      obtain ⟨e, he, h⟩ := h
      obtain ⟨r, hr, heq⟩ := map_eq_some_iff.mp h
      cases heq
      rw [TimerEntry.reset, if_pos ht] at he
      obtain ⟨d, hd, heq⟩ := map_eq_some_iff.mp he
      have hd := (add?_eq_some hd).1
      subst hd heq
      obtain ⟨hfired, hcur, hperm⟩ := ih hr
      refine ⟨?_, hcur, ?_⟩
      · rw [map_cons, ← hfired, Timer.returned, if_pos ht]
      · simp only [filter_cons, ht, if_true, map_cons]
        exact hperm.trans (((wheel.actives_addTimer rfl).append_left _).trans perm_middle)
    | false =>
      rw [if_neg (by simp only [ht, Bool.false_eq_true, not_false_eq_true])] at h
      obtain ⟨r, hr, heq⟩ := map_eq_some_iff.mp h
      cases heq
      obtain ⟨hfired, hcur, hperm⟩ := ih hr
      refine ⟨?_, hcur, ?_⟩
      · rw [map_cons, ← hfired, Timer.returned_of_oneShot clk ht]
      · simpa only [filter_cons, ht, Bool.false_eq_true, if_false] using hperm

/-- **An advance returns the timers that are due, and keeps the other ones and the successors.** -/
theorem advance_eq_some (h : wheel.advance clk = some (fired, wheel')) :
    fired = (wheel.due clk).map (Timer.returned clk) ∧ wheel'.currentSlot = wheel.nextSlot ∧
      ∃ kept, wheel.actives.Perm (wheel.due clk ++ kept) ∧
        wheel'.actives.Perm (((wheel.due clk).filter (·.repeats)).map (Timer.successor clk) ++ kept) := by
  obtain ⟨hfired, hcur, hperm⟩ := rearm_eq_some h
  exact ⟨hfired, hcur, _, wheel.actives_drained clk, hperm⟩

theorem mem_due : t ∈ wheel.due clk ↔ t ∈ wheel.actives ∧ t.slot = wheel.nextSlot ∧ t.deadline < clk := by
  rw [due, mem_filter, mem_actives, Bool.and_eq_true, TimerEntry.expired, decide_eq_true_eq]
  constructor
  · intro h
    have hslot := wheel.filed _ t h.1
    exact ⟨⟨hslot ▸ h.1, h.2.1⟩, hslot, h.2.2⟩
  · intro h
    exact ⟨h.2.1 ▸ h.1.1, h.1.2, h.2.2⟩

end TimerWheel
end ChaosKernel.Time
