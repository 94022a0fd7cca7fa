import ChaosKernel.Time.TimerRuns

/-! A wheel that is advanced once after every tick.

At clock `c` the wheel stands at slot `c % timerWheelSize`, so the slot of a timer is
visited when the clock reaches its deadline. An entry has expired only when the clock
is past the deadline: it is left in the slot, and the slot is visited again one rotation
later (`fires_a_rotation_late`). -/
namespace ChaosKernel.Time
open Base List Option

inductive TickOp where
  | addTimer (entry : TimerEntry)
  | cancel (cbId : Nat)
  /-- `dtk(0)`, then `advance`. -/
  | tick
  deriving DecidableEq

def ticks : System World TickOp where
  step w
    | .addTimer entry => wheels.step w (.addTimer entry)
    | .cancel cbId => wheels.step w (.cancel cbId)
    | .tick => (wheels.step w (.clock (w.clk + 1))).bind fun w => wheels.step w .advance

/-- Every timer that was not cancelled and whose remaining time runs out at this tick is returned by
the advance. -/
def OnTime (w : World) : TickOp → Prop
  | .tick => ∀ k a, w.added[k]? = some a → k ∉ w.cancelled → a.remaining w.clk ≠ 0 →
      a.remaining (w.clk + 1) = 0 →
      ∃ fired wheel', w.wheel.advance (w.clk + 1) = some (fired, wheel') ∧ k ∈ fired.map (·.tag)
  | _ => True

/-- All timers with this deadline were cancelled. -/
def NoneDue (w : World) : TickOp → Prop
  | .tick => ∀ k a, w.added[k]? = some a → k ∉ w.cancelled → a.deadline ≠ w.clk + 1
  | _ => True

theorem TimerEntry.runs_out_iff (e : TimerEntry) (clk : Nat) :
    e.remaining clk ≠ 0 ∧ e.remaining (clk + 1) = 0 ↔ e.deadline = clk + 1 := by
  unfold TimerEntry.remaining
  split_ifs <;> omega

variable {w w' : World} {k : Nat} {a : Timer Nat}

theorem tick_eq_some (h : ticks.step w .tick = some w') :
    ∃ fired wheel', w.wheel.advance (w.clk + 1) = some (fired, wheel') ∧
      w' = {w with clk := w.clk + 1, wheel := wheel', fired := w.fired ++ fired.map (Firing.mk (w.clk + 1))} := by
  obtain ⟨u, hu, h⟩ := bind_eq_some_iff.mp h
  cases (ite_none_right_eq_some.mp hu).2
  obtain ⟨r, hr, heq⟩ := map_eq_some_iff.mp h
  exact ⟨r.1, r.2, hr, heq.symm⟩

/-! ### The wheel keeps pace with the clock -/

structure InStep (w : World) : Prop where
  balanced : Balanced w
  pace : w.wheel.currentSlot = w.clk % timerWheelSize
  /-- Nothing has happened yet to a timer whose deadline is ahead. -/
  ahead : ∀ k a, w.added[k]? = some a → w.clk ≤ a.deadline →
    (∀ t ∈ w.wheel.actives, t.tag = k → t = a) ∧ ∀ f ∈ w.fired, f.timer.tag ≠ k

theorem inStep_init : InStep .init where
  balanced := balanced_init
  pace := rfl
  ahead k a ha := by cases ha

namespace InStep
variable {w w' : World}

theorem addTimer (hw : InStep w) {entry : TimerEntry} (h : ticks.step w (.addTimer entry) = some w') : InStep w' := by
  have hbal := step_balanced w (.addTimer entry) w' hw.balanced h
  obtain ⟨hactive, heq⟩ := ite_none_right_eq_some.mp h
  cases heq
  refine ⟨hbal, hw.pace, fun k a ha hclk => ⟨fun t ht htag => ?_, fun f hf => ?_⟩⟩
  · rcases mem_cons.mp ((w.wheel.actives_addTimer (t := w.fresh entry) hactive).mem_iff.mp ht) with heq | ht
    · subst heq htag
      exact some.inj ((getElem?_concat_length).symm.trans ha)
    · obtain ⟨c, hc, _⟩ := hw.balanced.stored t ht
      have hlt := (List.getElem?_eq_some_iff.mp hc).1
      rw [← htag, getElem?_append_left hlt] at ha
      exact (hw.ahead t.tag a ha hclk).1 t ht rfl
  · obtain ⟨c, hc, _⟩ := hw.balanced.fired f hf
    intro htag
    rw [← htag, getElem?_append_left (List.getElem?_eq_some_iff.mp hc).1] at ha
    exact (hw.ahead _ a ha hclk).2 f hf rfl

variable {cbId : Nat} {t : Timer Nat}

theorem cancel (hw : InStep w) (h : ticks.step w (.cancel cbId) = some w') : InStep w' := by
  have hbal := step_balanced w (.cancel cbId) w' hw.balanced h
  cases h
  refine ⟨hbal, (w.wheel.cancel_currentSlot cbId).trans hw.pace, fun k a ha hclk => ?_⟩
  obtain ⟨hstored, hfired⟩ := hw.ahead k a ha hclk
  refine ⟨fun t ht => ?_, hfired⟩
  rcases w.wheel.actives_cancel cbId with ⟨_, hsame⟩ | ⟨u, _, _, hperm⟩
  · exact hstored t (by rwa [hsame] at ht)
  · exact hstored t (hperm.mem_iff.mpr (.tail _ ht))

/-- The advance of a tick does not meet a timer whose deadline the clock has not passed. -/
theorem not_due (hw : InStep w) (ha : w.added[k]? = some a) (hclk : w.clk + 1 ≤ a.deadline)
    (ht : t ∈ w.wheel.due (w.clk + 1)) : t.tag ≠ k := by
  intro htag
  obtain ⟨ht, _, hlt⟩ := TimerWheel.mem_due.mp ht
  rw [(hw.ahead k a ha (Nat.le_of_succ_le hclk)).1 t ht htag] at hlt
  exact absurd hlt (Nat.not_lt.mpr hclk)

theorem tick (hw : InStep w) (h : ticks.step w .tick = some w') : InStep w' := by
  obtain ⟨fired, wheel', hadv, heq⟩ := tick_eq_some h
  subst heq
  have hclock : Balanced {w with clk := w.clk + 1} :=
    ⟨hw.balanced.balance, hw.balanced.stored, hw.balanced.fired⟩
  obtain ⟨hfired, hcur, kept, hperm, hperm'⟩ := TimerWheel.advance_eq_some hadv
  refine ⟨hclock.advance hadv, ?_, fun k a ha hclk => ⟨fun t ht htag => ?_, fun f hf => ?_⟩⟩
  · rw [hcur, TimerWheel.nextSlot, hw.pace, Nat.mod_add_mod]
  · rcases mem_append.mp (hperm'.mem_iff.mp ht) with ht | ht
    · obtain ⟨u, hu, heq⟩ := mem_map.mp ht
      rw [← heq, Timer.successor_tag] at htag
      exact absurd htag (hw.not_due ha hclk (mem_of_mem_filter hu))
    · exact (hw.ahead k a ha (Nat.le_of_succ_le hclk)).1 t (hperm.mem_iff.mpr (mem_append_right _ ht)) htag
  · rcases mem_append.mp hf with hf | hf
    · exact (hw.ahead k a ha (Nat.le_of_succ_le hclk)).2 f hf
    · rw [hfired, List.map_map] at hf
      obtain ⟨u, hu, heq⟩ := mem_map.mp hf
      subst heq
      simpa using hw.not_due ha hclk hu

end InStep

theorem step_inStep (w : World) (op : TickOp) (w' : World) (hw : InStep w) (h : ticks.step w op = some w') :
    InStep w' := by
  cases op with
  | addTimer entry => exact hw.addTimer h
  | cancel cbId => exact hw.cancel h
  | tick => exact hw.tick h

theorem onTime_iff (hw : InStep w) (op : TickOp) : OnTime w op ↔ NoneDue w op := by
  cases op with
  | addTimer entry => exact Iff.rfl
  | cancel cbId => exact Iff.rfl
  | tick =>
    constructor
    · intro h k a ha hk hdeadline
      obtain ⟨hleft, hout⟩ := (a.runs_out_iff w.clk).mpr hdeadline
      obtain ⟨fired, wheel', hadv, hmem⟩ := h k a ha hk hleft hout
      rw [(TimerWheel.advance_eq_some hadv).1, List.map_map] at hmem
      obtain ⟨t, ht, htag⟩ := mem_map.mp hmem
      rw [Function.comp_apply, Timer.returned_tag] at htag
      exact hw.not_due ha hdeadline.ge ht htag
    · intro h k a ha hk hleft hout
      exact absurd ((a.runs_out_iff w.clk).mp ⟨hleft, hout⟩) (h k a ha hk)

/-- **Along a run with one advance a tick, timers fire on time exactly when every timer is cancelled
before the clock reaches its deadline.** -/
theorem on_time_iff (ops : List TickOp) : ticks.Asks OnTime .init ops ↔ ticks.Asks NoneDue .init ops :=
  System.asks_iff step_inStep (fun _ op hw => onTime_iff hw op) inStep_init ops

/-- A timer with deadline 1 is not returned at tick 1. -/
theorem late_at_deadline : ¬ticks.Asks OnTime .init [.addTimer (.new 1 0 7), .tick] := by
  intro h
  have hrun : ((ticks.run .init [.addTimer (.new 1 0 7)]).any fun w =>
      decide (w.clk = 0 ∧ w.added[0]? = some ⟨.new 1 0 7, 0⟩ ∧ 0 ∉ w.cancelled)) = true := by decide +kernel
  obtain ⟨w, hw, hclk, ha, hk⟩ := System.exists_of_run_any hrun
  have hdue := (onTime_iff (System.invariant_run step_inStep inStep_init hw) .tick).mp
    (h [.addTimer (.new 1 0 7)] .tick w (prefix_refl _) hw)
  exact hdue 0 _ ha hk (by rw [hclk]; rfl)

/-! ### One rotation later -/

/-- Until the clock is one rotation past the deadline of `a`, it is stored or was cancelled. -/
structure Waits (k : Nat) (a : Timer Nat) (w : World) : Prop where
  inStep : InStep w
  waits : w.clk < a.deadline + timerWheelSize → k ∉ w.cancelled → a ∈ w.wheel.actives ∧ a.tag = k

theorem InStep.waits (hw : InStep w) (ha : w.added[k]? = some a) (hclk : w.clk < a.deadline) : Waits k a w := by
  refine ⟨hw, fun _ hk => ?_⟩
  obtain ⟨hstored, hfired⟩ := hw.ahead k a ha hclk.le
  have hbal := hw.balanced.balance k
  have hended : tagCount w.ended k = 0 := by
    refine count_eq_zero.mpr fun hmem => ?_
    obtain ⟨t, ht, htk⟩ := mem_map.mp hmem
    obtain ⟨f, hf, heq⟩ := mem_map.mp (mem_of_mem_filter ht)
    subst heq
    exact hfired f hf htk
  rw [if_pos (List.getElem?_eq_some_iff.mp ha).1, hended, count_eq_zero.mpr hk] at hbal
  have hmem : k ∈ w.wheel.actives.map (·.tag) := count_pos_iff.mp (by rw [tagCount] at hbal; omega)
  obtain ⟨t, ht, htk⟩ := mem_map.mp hmem
  rw [← hstored t ht htk]
  exact ⟨ht, htk⟩

theorem step_waits (w : World) (op : TickOp) (w' : World) (hw : Waits k a w) (h : ticks.step w op = some w') :
    Waits k a w' := by
  refine ⟨step_inStep w op w' hw.inStep h, ?_⟩
  cases op with
  | addTimer entry =>
    obtain ⟨hactive, heq⟩ := ite_none_right_eq_some.mp h
    cases heq
    intro hclk hk
    obtain ⟨ha, htag⟩ := hw.waits hclk hk
    exact ⟨(w.wheel.actives_addTimer (t := w.fresh entry) hactive).mem_iff.mpr (.tail _ ha), htag⟩
  | cancel cbId =>
    cases h
    intro hclk hk
    obtain ⟨ha, htag⟩ := hw.waits hclk fun hmem => hk (mem_append_left _ hmem)
    refine ⟨?_, htag⟩
    rcases w.wheel.actives_cancel cbId with ⟨_, hsame⟩ | ⟨t, hfind, _, hperm⟩
    · rwa [hsame]
    · rcases mem_cons.mp (hperm.mem_iff.mp ha) with heq | ha
      · subst heq
        refine absurd (mem_append_right _ ?_) hk
        rw [hfind, map_some, toList_some, htag]
        exact mem_singleton_self k
      · exact ha
  | tick =>
    obtain ⟨fired, wheel', hadv, heq⟩ := tick_eq_some h
    subst heq
    intro hclk hk
    have hclk : w.clk + 1 < a.deadline + timerWheelSize := hclk
    obtain ⟨ha, htag⟩ := hw.waits (Nat.lt_of_succ_lt hclk) hk
    refine ⟨?_, htag⟩
    obtain ⟨_, _, kept, hperm, hperm'⟩ := TimerWheel.advance_eq_some hadv
    rcases mem_append.mp (hperm.mem_iff.mp ha) with hdue | hkept
    · obtain ⟨_, hslot, hlt⟩ := TimerWheel.mem_due.mp hdue
      rw [TimerWheel.nextSlot, hw.inStep.pace, Nat.mod_add_mod, Timer.slot] at hslot
      simp only [timerWheelSize] at hslot hclk
      omega
    · exact hperm'.mem_iff.mpr (mem_append_right _ hkept)

/-- **A timer that is added ahead of its deadline and not cancelled is returned one rotation after the
deadline.** -/
theorem fires_a_rotation_late {before ops : List TickOp} (hbefore : ticks.run .init before = some w)
    (ha : w.added[k]? = some a) (hahead : w.clk < a.deadline) (hrun : ticks.run w ops = some w')
    (hclk : w'.clk + 1 = a.deadline + timerWheelSize) (hk : k ∉ w'.cancelled) {fired : List (Timer Nat)}
    {wheel' : TimerWheel Nat} (hadv : w'.wheel.advance (w'.clk + 1) = some (fired, wheel')) :
    k ∈ fired.map (·.tag) := by
  have hw := (System.invariant_run step_inStep inStep_init hbefore).waits ha hahead
  have hw' := System.invariant_run step_waits hw hrun
  obtain ⟨ha, htag⟩ := hw'.waits (by omega) hk
  have hdue : a ∈ w'.wheel.due (w'.clk + 1) := by
    refine TimerWheel.mem_due.mpr ⟨ha, ?_, ?_⟩
    · rw [TimerWheel.nextSlot, hw'.inStep.pace, Nat.mod_add_mod, hclk, Nat.add_mod_right, Timer.slot]
    · rw [hclk]
      exact Nat.lt_add_of_pos_right (by decide)
  rw [(TimerWheel.advance_eq_some hadv).1, List.map_map]
  exact mem_map.mpr ⟨a, hdue, by rw [Function.comp_apply, Timer.returned_tag, htag]⟩

theorem fires_a_rotation_late_at_one : ∃ w w' fired wheel', ticks.run .init [.addTimer (.new 1 0 7)] = some w ∧
    ticks.run w (replicate 256 .tick) = some w' ∧ w'.wheel.advance 257 = some (fired, wheel') ∧
      0 ∈ fired.map (·.tag) := by
  have hrun : ((ticks.run .init [.addTimer (.new 1 0 7)]).any fun w => decide (w.clk = 0 ∧
      w.added[0]? = some ⟨.new 1 0 7, 0⟩ ∧ ((ticks.run w (replicate 256 .tick)).any fun w' =>
        decide (w'.clk = 256 ∧ 0 ∉ w'.cancelled ∧ (w'.wheel.advance 257).isSome)) = true)) = true := by decide +kernel
  obtain ⟨w, hw, hclk, ha, hrun⟩ := System.exists_of_run_any hrun
  obtain ⟨w', hw', hclk', hk, hadv⟩ := System.exists_of_run_any hrun
  obtain ⟨⟨fired, wheel'⟩, hadv⟩ := isSome_iff_exists.mp hadv
  exact ⟨w, w', fired, wheel', hw, hw', hadv, fires_a_rotation_late hw ha (by rw [hclk]; decide) hw'
    (by rw [hclk']; decide) hk (by rw [hclk']; exact hadv)⟩

end ChaosKernel.Time
