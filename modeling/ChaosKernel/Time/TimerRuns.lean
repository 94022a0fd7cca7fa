import ChaosKernel.Base.Run
import ChaosKernel.Time.TimerWheel

/-! Runs of a timer wheel under a clock that never goes back.

The tag of a timer is its number among the timers that were added. A world keeps,
beside the wheel and the clock, what was added, what `advance` returned and when,
and what was cancelled. `Balanced` is the invariant: of every timer that was added,
exactly one of these holds: it or a successor is stored, it has fired for the last
time, or it was cancelled. -/
namespace ChaosKernel.Time
open Base List

structure Firing where
  clk : Nat
  timer : Timer Nat

structure World where
  wheel : TimerWheel Nat
  clk : Nat
  added : List (Timer Nat)
  fired : List Firing
  cancelled : List Nat

namespace World

def init : World := ⟨.new, 0, [], [], []⟩

/-- The next timer that is added. -/
def fresh (w : World) (entry : TimerEntry) : Timer Nat := ⟨entry, w.added.length⟩

/-- The active timers that `k` stands for. -/
def storedAs (w : World) (k : Nat) : List (Timer Nat) := w.wheel.actives.filter (·.tag == k)

/-- When `k` was returned, and how. -/
def firingsOf (w : World) (k : Nat) : List Firing := w.fired.filter (·.timer.tag == k)

end World

inductive WheelOp where
  | addTimer (entry : TimerEntry)
  | cancel (cbId : Nat)
  | advance
  /-- The clock moves on. -/
  | clock (clk : Nat)
  deriving DecidableEq

/-- The steps of the wheel and of the clock. Only active entries are added. -/
def wheels : System World WheelOp where
  step w
    | .addTimer entry =>
      if entry.active then
        some {w with wheel := w.wheel.addTimer (w.fresh entry), added := w.added ++ [w.fresh entry]}
      else none
    | .cancel cbId =>
      some {w with
        wheel := (w.wheel.cancel cbId).2
        cancelled := w.cancelled ++ ((w.wheel.timers.find? (TimerWheel.cancels cbId)).map (·.tag)).toList}
    | .advance => (w.wheel.advance w.clk).map fun r =>
      {w with wheel := r.2, fired := w.fired ++ r.1.map (Firing.mk w.clk)}
    | .clock clk => if w.clk ≤ clk then some {w with clk := clk} else none

/-! ### The invariant -/

def tagCount (timers : List (Timer Nat)) (k : Nat) : Nat := (timers.map (·.tag)).count k

theorem tagCount_cons (t : Timer Nat) (timers : List (Timer Nat)) (k : Nat) :
    tagCount (t :: timers) k = tagCount timers k + if t.tag = k then 1 else 0 := by
  rw [tagCount, map_cons, count_cons, tagCount]
  simp only [beq_iff_eq]

theorem tagCount_append (l m : List (Timer Nat)) (k : Nat) :
    tagCount (l ++ m) k = tagCount l k + tagCount m k := by
  rw [tagCount, map_append, count_append, tagCount, tagCount]

variable {l m fired : List (Timer Nat)} {w : World}

theorem tagCount_perm (h : l.Perm m) (k : Nat) : tagCount l k = tagCount m k :=
  (h.map _).count_eq k

theorem tagCount_map {f : Timer Nat → Timer Nat} (hf : ∀ t, (f t).tag = t.tag) (l : List (Timer Nat)) (k : Nat) :
    tagCount (l.map f) k = tagCount l k := by
  rw [tagCount, map_map, tagCount]
  congr 2
  funext t
  exact hf t

theorem tagCount_eq_length (l : List (Timer Nat)) (k : Nat) : tagCount l k = (l.filter (·.tag == k)).length := by
  rw [tagCount, count_eq_length_filter, List.filter_map, length_map]
  rfl

/-- The timers that fired and have no successor. -/
def World.ended (w : World) : List (Timer Nat) := (w.fired.map (·.timer)).filter (!·.repeats)

structure Balanced (w : World) : Prop where
  balance : ∀ k, tagCount w.wheel.actives k + tagCount w.ended k + w.cancelled.count k =
    if k < w.added.length then 1 else 0
  stored : ∀ t ∈ w.wheel.actives, ∃ a, w.added[t.tag]? = some a ∧ (a.repeats = false → t = a)
  fired : ∀ f ∈ w.fired, ∃ a, w.added[f.timer.tag]? = some a ∧
    (a.repeats = false → f.timer = a ∧ a.deadline < f.clk)

theorem balanced_init : Balanced .init where
  balance k := by simp [World.init, World.ended, TimerWheel.actives_new, tagCount]
  stored t ht := by
    rw [World.init, TimerWheel.actives_new] at ht
    cases ht
  fired f hf := by cases hf

theorem World.ended_fire (w : World) (wheel : TimerWheel Nat) (clk : Nat) (due : List (Timer Nat)) :
    World.ended {w with wheel := wheel, fired := w.fired ++ (due.map (Timer.returned clk)).map (Firing.mk clk)} =
      w.ended ++ (due.filter (!·.repeats)).map (Timer.returned clk) := by
  simp only [World.ended, map_append, map_map, filter_append, List.filter_map]
  congr 2
  refine filter_congr fun t _ => ?_
  simp only [Function.comp_apply, Timer.returned_repeats]

namespace Balanced
variable {w : World} (hw : Balanced w)
include hw

theorem addTimer {entry : TimerEntry} (hactive : entry.active = true) :
    Balanced {w with wheel := w.wheel.addTimer (w.fresh entry), added := w.added ++ [w.fresh entry]} := by
  have hperm := w.wheel.actives_addTimer (t := w.fresh entry) hactive
  have hold {k : Nat} {P : Timer Nat → Prop} (h : ∃ a, w.added[k]? = some a ∧ P a) :
      ∃ a, (w.added ++ [w.fresh entry])[k]? = some a ∧ P a := by
    obtain ⟨a, ha, hp⟩ := h
    exact ⟨a, by rw [getElem?_append_left (List.getElem?_eq_some_iff.mp ha).1, ha], hp⟩
  refine ⟨fun k => ?_, fun t ht => ?_, fun f hf => hold (hw.fired f hf)⟩
  · have hk := hw.balance k
    rw [tagCount_perm hperm, tagCount_cons]
    show _ + tagCount w.ended k + w.cancelled.count k = if k < (w.added ++ [w.fresh entry]).length then 1 else 0
    rw [length_append, length_singleton]
    have htag : (w.fresh entry).tag = w.added.length := rfl
    rw [htag]
    split_ifs at hk ⊢ <;> omega
  · rcases mem_cons.mp (hperm.mem_iff.mp ht) with heq | ht
    · subst heq
      exact ⟨w.fresh entry, getElem?_concat_length, fun _ => rfl⟩
    · exact hold (hw.stored t ht)

theorem cancel (cbId : Nat) :
    Balanced {w with
      wheel := (w.wheel.cancel cbId).2
      cancelled := w.cancelled ++ ((w.wheel.timers.find? (TimerWheel.cancels cbId)).map (·.tag)).toList} := by
  rcases w.wheel.actives_cancel cbId with ⟨hfind, hsame⟩ | ⟨t, hfind, _, hperm⟩
  · rw [hfind, hsame]
    simpa using hw
  · rw [hfind]
    refine ⟨fun k => ?_, fun u hu => hw.stored u (hperm.mem_iff.mpr (.tail _ hu)), hw.fired⟩
    have hk := hw.balance k
    rw [tagCount_perm hperm, tagCount_cons] at hk
    have hcount : (w.cancelled ++ [t.tag]).count k = w.cancelled.count k + if t.tag = k then 1 else 0 := by
      rw [count_append, count_singleton]
      simp only [beq_iff_eq]
    show tagCount (w.wheel.cancel cbId).2.actives k + tagCount w.ended k + (w.cancelled ++ [t.tag]).count k =
      if k < w.added.length then 1 else 0
    rw [hcount]
    omega

theorem advance {fired : List (Timer Nat)} {wheel' : TimerWheel Nat}
    (h : w.wheel.advance w.clk = some (fired, wheel')) :
    Balanced {w with wheel := wheel', fired := w.fired ++ fired.map (Firing.mk w.clk)} := by
  obtain ⟨hfired, _, kept, hperm, hperm'⟩ := TimerWheel.advance_eq_some h
  have hdue : ∀ t ∈ w.wheel.due w.clk, ∃ a, w.added[t.tag]? = some a ∧ (a.repeats = false → t = a) :=
    fun t ht => hw.stored t (TimerWheel.mem_due.mp ht).1
  refine ⟨fun k => ?_, fun t ht => ?_, fun f hf => ?_⟩
  · have hk := hw.balance k
    -- a timer that is due has a successor or has ended
    have hsplit := tagCount_perm (filter_append_perm (·.repeats) (w.wheel.due w.clk)) k
    rw [hfired, World.ended_fire, tagCount_perm hperm']
    rw [tagCount_perm hperm] at hk
    rw [tagCount_append] at hsplit hk ⊢
    rw [tagCount_append, tagCount_map (Timer.successor_tag w.clk), tagCount_map (Timer.returned_tag w.clk)]
    show _ + w.cancelled.count k = if k < w.added.length then 1 else 0
    omega
  · rcases mem_append.mp (hperm'.mem_iff.mp ht) with ht | ht
    · obtain ⟨u, hu, heq⟩ := mem_map.mp ht
      subst heq
      obtain ⟨hu, hrepeats⟩ := mem_filter.mp hu
      obtain ⟨a, ha, hone⟩ := hdue u hu
      refine ⟨a, ha, fun h => ?_⟩
      rw [hone h, h] at hrepeats
      cases hrepeats
    · exact hw.stored t (hperm.mem_iff.mpr (mem_append_right _ ht))
  · rcases mem_append.mp hf with hf | hf
    · exact hw.fired f hf
    · rw [hfired, map_map] at hf
      obtain ⟨t, ht, heq⟩ := mem_map.mp hf
      subst heq
      obtain ⟨a, ha, hone⟩ := hdue t ht
      refine ⟨a, by simpa using ha, fun h => ?_⟩
      have hta := hone h
      subst hta
      exact ⟨Timer.returned_of_oneShot _ h, (TimerWheel.mem_due.mp ht).2.2⟩

end Balanced

theorem step_balanced (w : World) (op : WheelOp) (w' : World) (hw : Balanced w) (h : wheels.step w op = some w') :
    Balanced w' := by
  cases op with
  | addTimer entry =>
    obtain ⟨hactive, heq⟩ := Option.ite_none_right_eq_some.mp h
    cases heq
    exact hw.addTimer hactive
  | cancel cbId =>
    cases h
    exact hw.cancel cbId
  | advance =>
    obtain ⟨r, hr, heq⟩ := Option.map_eq_some_iff.mp h
    subst heq
    exact hw.advance hr
  | clock clk =>
    obtain ⟨_, heq⟩ := Option.ite_none_right_eq_some.mp h
    cases heq
    exact ⟨hw.balance, hw.stored, hw.fired⟩

/-! ### What holds of every run -/

/-- Timers are neither lost nor duplicated nor early. -/
structure Kept (w : World) : Prop where
  /-- An active timer lies in the slot of its deadline. -/
  placed : ∀ i, ∀ t ∈ slotAt w.wheel.slots i, t.active = true → t.deadline % timerWheelSize = i
  /-- Each is stored at most once. -/
  once : (w.wheel.actives.map (·.tag)).Nodup
  /-- A timer with one shot is stored as it was added, or was returned once, or was cancelled. -/
  oneShot : ∀ k a, w.added[k]? = some a → a.repeats = false →
    (w.storedAs k).length + (w.firingsOf k).length + w.cancelled.count k = 1 ∧
      (∀ t ∈ w.storedAs k, t = a) ∧ ∀ f ∈ w.firingsOf k, f.timer = a ∧ a.deadline < f.clk
  /-- A periodic timer is stored until it is cancelled. -/
  periodic : ∀ k a, w.added[k]? = some a → (∀ f ∈ w.firingsOf k, f.timer.repeats = true) →
    (w.storedAs k).length + w.cancelled.count k = 1
  /-- The next firing of a periodic timer leaves one successor. -/
  successor : ∀ fired wheel', w.wheel.advance w.clk = some (fired, wheel') → ∀ t ∈ fired, t.repeats = true →
    ∃ s, wheel'.actives.filter (·.tag == t.tag) = [s] ∧ s.deadline = w.clk + t.interval ∧
      s.interval = t.interval ∧ s.callbackId = t.callbackId

theorem Balanced.nodup (hw : Balanced w) : (w.wheel.actives.map (·.tag)).Nodup := by
  refine nodup_iff_count_le_one.mpr fun k => ?_
  have hk := hw.balance k
  rw [tagCount] at hk
  split_ifs at hk <;> omega

theorem Balanced.ended_eq (k : Nat) :
    tagCount w.ended k = ((w.firingsOf k).filter (!·.timer.repeats)).length := by
  rw [tagCount_eq_length, World.ended, World.firingsOf, List.filter_filter, List.filter_filter, List.filter_map,
    length_map]
  congr 1
  exact filter_congr fun f _ => Bool.and_comm ..

theorem Balanced.successor (hw : Balanced w) {wheel' : TimerWheel Nat}
    (h : w.wheel.advance w.clk = some (fired, wheel')) {t : Timer Nat} (ht : t ∈ fired)
    (hrepeats : t.repeats = true) :
    ∃ s, wheel'.actives.filter (·.tag == t.tag) = [s] ∧ s.deadline = w.clk + t.interval ∧
      s.interval = t.interval ∧ s.callbackId = t.callbackId := by
  obtain ⟨hfired, _, kept, _, hperm⟩ := TimerWheel.advance_eq_some h
  rw [hfired] at ht
  obtain ⟨u, hu, heq⟩ := mem_map.mp ht
  subst heq
  rw [Timer.returned_repeats] at hrepeats
  have hmem : u.successor w.clk ∈ wheel'.actives := by
    refine hperm.mem_iff.mpr (mem_append_left _ (List.mem_map_of_mem ?_))
    exact mem_filter.mpr ⟨hu, hrepeats⟩
  have hin : u.successor w.clk ∈ wheel'.actives.filter (·.tag == (u.returned w.clk).tag) :=
    mem_filter.mpr ⟨hmem, by simp⟩
  have hone : (wheel'.actives.filter (·.tag == (u.returned w.clk).tag)).length ≤ 1 := by
    rw [← tagCount_eq_length]
    exact nodup_iff_count_le_one.mp (hw.advance h).nodup _
  have hcallback : (u.returned w.clk).callbackId = u.callbackId := by
    unfold Timer.returned
    split <;> rfl
  refine ⟨u.successor w.clk, ?_, by rw [Timer.returned_interval]; rfl, by rw [Timer.returned_interval]; rfl,
    hcallback.symm⟩
  obtain ⟨s, hs⟩ := length_eq_one_iff.mp (Nat.le_antisymm hone (length_pos_of_mem hin))
  rw [hs] at hin ⊢
  rw [mem_singleton.mp hin]

/-- **In every run, each timer is stored once and in its slot until it fires or is cancelled; one with
one shot is returned at most once, not early and not after its cancellation; a periodic one that
fires leaves one successor.** -/
theorem timers_kept (ops : List WheelOp) (w : World) (hrun : wheels.run .init ops = some w) : Kept w := by
  have hw := System.invariant_run step_balanced balanced_init hrun
  have hbalance (k : Nat) (a : Timer Nat) (ha : w.added[k]? = some a) :
      (w.storedAs k).length + ((w.firingsOf k).filter (!·.timer.repeats)).length + w.cancelled.count k = 1 := by
    have hk := hw.balance k
    rwa [if_pos (List.getElem?_eq_some_iff.mp ha).1, Balanced.ended_eq, tagCount_eq_length] at hk
  have hall {k : Nat} {b : Bool} (h : ∀ f ∈ w.firingsOf k, f.timer.repeats = b) :
      (w.firingsOf k).filter (!·.timer.repeats) = (w.firingsOf k).filter fun _ => !b :=
    filter_congr fun f hf => by rw [h f hf]
  refine ⟨fun i t ht _ => w.wheel.filed i t ht, hw.nodup, fun k a ha hone => ?_, fun k a ha hrep => ?_,
    fun fired wheel' h t ht hrepeats => hw.successor h ht hrepeats⟩
  · have hfired : ∀ f ∈ w.firingsOf k, f.timer = a ∧ a.deadline < f.clk := by
      intro f hf
      obtain ⟨hf, htag⟩ := mem_filter.mp hf
      obtain ⟨b, hb, h⟩ := hw.fired f hf
      rw [beq_iff_eq.mp htag, ha] at hb
      cases hb
      exact h hone
    have hk := hbalance k a ha
    rw [hall (b := false) fun f hf => by rw [(hfired f hf).1, hone]] at hk
    refine ⟨by simpa using hk, fun t ht => ?_, hfired⟩
    obtain ⟨ht, htag⟩ := mem_filter.mp ht
    obtain ⟨b, hb, h⟩ := hw.stored t ht
    rw [beq_iff_eq.mp htag, ha] at hb
    cases hb
    exact h hone
  · have hk := hbalance k a ha
    rw [hall hrep] at hk
    simpa using hk

/-- A timer with one shot, a periodic one, and one that is cancelled. -/
def threeTimers : List WheelOp :=
  [.addTimer (.new 1 0 7), .addTimer (.new 1 5 8), .addTimer (.new 1 0 9), .cancel 9, .clock 2, .advance]

/-- The first two have fired, and the periodic one is stored again. -/
theorem timers_kept_fired : ∃ w, wheels.run .init threeTimers = some w ∧
    [0, 1, 2].map (fun k => ((w.firingsOf k).length, (w.storedAs k).length)) = [(1, 0), (1, 1), (0, 0)] ∧
    Kept w := by
  have hrun : ((wheels.run .init threeTimers).any fun w =>
      [0, 1, 2].map (fun k => ((w.firingsOf k).length, (w.storedAs k).length)) = [(1, 0), (1, 1), (0, 0)]) = true := by
    decide +kernel
  obtain ⟨w, hw, hfired⟩ := System.exists_of_run_any hrun
  exact ⟨w, hw, hfired, timers_kept threeTimers w hw⟩

end ChaosKernel.Time
