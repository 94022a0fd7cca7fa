import ChaosKernel.Sync.SyncQueue

/-! Signals are not lost.

A signal that finds the queue empty is counted after the mutex is let go. `OnTime` says
of a step that it is no late count: nobody has joined the queue or read the counter in
between. When no count of a run is late, a thread sleeps on only if no signal is pending
(`no_lost_signal_of_onTime`). -/
namespace ChaosKernel.Sync
open Base

namespace QueuePc
variable {τ δ : Type*}

/-- In a call of `signal`. -/
def signalling : QueuePc τ δ → Bool
  | .signalLock | .signalLoad | .signalPop | .signalAdd | .signalUnpark _ => true
  | _ => false

def isParked : QueuePc τ δ → Bool
  | .parked _ => true
  | _ => false

/-- The counter was read and found zero. -/
def isPush : QueuePc τ δ → Bool
  | .parkPush _ => true
  | _ => false

def isAdd : QueuePc τ δ → Bool
  | .signalAdd => true
  | _ => false

end QueuePc

/-- When all calls of `signal` have returned, a thread sleeps on only if no signal is pending. -/
def NoLostSignal {τ δ : Type*} (w : QueueWorld τ δ) : Prop :=
  (∀ t, (w.locals t).signalling = false) →
    ∀ t, (w.locals t).isParked = true → w.shared.tokens t = false → w.shared.epoch = 0

/-- A signal is counted only while nobody waits or is about to. -/
def OnTime {τ δ : Type*} (w : QueueWorld τ δ) : QueueStep τ δ → Prop
  | .tick t => (w.locals t).isAdd = true → w.shared.q = [] ∧ ∀ u, (w.locals u).isPush = false
  | _ => True

instance {τ δ : Type*} [DecidableEq τ] [Fintype τ] (w : QueueWorld τ δ) (a : QueueStep τ δ) :
    Decidable (OnTime w a) :=
  match a with
  | .tick _ => inferInstanceAs (Decidable (_ → _))
  | .parkOn _ _ | .signal _ | .write _ => .isTrue trivial

/-! ### Two runs

Of a signalling thread `true` and a waiting thread `false`, whose condition never holds. -/

/-- `signal` on an empty queue: the look at the queue, then the count. -/
def signalLooks : List (QueueStep Bool Unit) := .signal true :: List.replicate 3 (.tick true)

/-- `park_on` with `n` accesses. -/
def parkTicks (n : Nat) : List (QueueStep Bool Unit) :=
  .parkOn false (fun _ => false) :: List.replicate n (.tick false)

/-- The first caller returns with the signal, the second one parks. -/
def countedFirst : List (QueueStep Bool Unit) := signalLooks ++ [.tick true] ++ parkTicks 7 ++ parkTicks 4

def countedLate : List (QueueStep Bool Unit) := signalLooks ++ parkTicks 4 ++ [.tick true]

/-! ### Who is in the queue -/

section Queued
variable {τ δ : Type*} [DecidableEq τ] {w w' : QueueWorld τ δ}

/-- A parked thread is in the queue, or somebody is about to wake it, or it is woken. -/
def Queued (w : QueueWorld τ δ) : Prop :=
  ∀ t, (w.locals t).isParked = true →
    w.shared.tokens t = true ∨ t ∈ w.shared.q ∨ ∃ u, w.locals u = .signalUnpark t

variable {t : τ} {s sq : SyncQueue τ δ} {pc : QueuePc τ δ}

/-- A thread that does not unpark anybody moves to where it is not parked. -/
theorem Queued.set (h : Queued w) (hpc : pc.isParked = false) (ht : ∀ u, w.locals t ≠ .signalUnpark u)
    (hkeep : ∀ u, u ≠ t → w.shared.tokens u = true ∨ u ∈ w.shared.q →
      s.tokens u = true ∨ u ∈ s.q ∨ pc = .signalUnpark u) : Queued (w.set t s pc) := by
  intro u hu
  by_cases hut : u = t
  · rw [hut, w.set_self, hpc] at hu
    cases hu
  · rw [w.set_other hut] at hu
    have hold : w.shared.tokens u = true ∨ u ∈ w.shared.q →
        s.tokens u = true ∨ u ∈ s.q ∨ ∃ v, (w.set t s pc).locals v = .signalUnpark u := by
      intro hq
      refine (hkeep u hut hq).imp_right fun hq => hq.imp_right fun heq => ⟨t, ?_⟩
      rw [w.set_self, heq]
    rcases h u hu with htoken | hmem | ⟨v, hv⟩
    · exact hold (.inl htoken)
    · exact hold (.inr hmem)
    · refine .inr (.inr ⟨v, ?_⟩)
      have hvt : v ≠ t := by
        intro heq
        rw [heq] at hv
        exact ht u hv
      rwa [w.set_other hvt]

theorem Queued.tick (h : Queued w) (hacc : w.shared.Accesses t (w.locals t) sq pc) :
    Queued (w.set t sq pc) := by
  generalize hpc : w.locals t = pc₀ at hacc
  have hstay (hpc' : pc.isParked = false) (ht : ∀ u, pc₀ ≠ .signalUnpark u)
      (hkeep : ∀ u, u ≠ t → w.shared.tokens u = true ∨ u ∈ w.shared.q →
        sq.tokens u = true ∨ u ∈ sq.q ∨ pc = .signalUnpark u) : Queued (w.set t sq pc) :=
    h.set hpc' (by rw [hpc]; exact ht) hkeep
  cases hacc with
  | pred | sleepy | again | done | parkLock | signalLock | pending | none | unlock | load | nobody =>
    exact hstay rfl nofun fun _ _ hold => hold.imp_right .inl
  | consume hq _ htokens | add hq _ htokens =>
    refine hstay rfl nofun fun u _ hold => ?_
    rw [hq, htokens]
    exact hold.imp_right .inl
  | push =>
    intro u hu
    simp only [w.set_shared, List.mem_append, List.mem_singleton]
    by_cases hut : u = t
    · exact .inr (.inl (.inr hut))
    · rw [w.set_other hut] at hu
      refine (h u hu).imp_right fun hq => hq.imp .inl fun ⟨v, hv⟩ => ⟨v, ?_⟩
      have hvt : v ≠ t := by
        intro heq
        rw [heq, hpc] at hv
        cases hv
      rwa [w.set_other hvt]
  | woken _ =>
    refine hstay rfl nofun fun u hut hold => ?_
    simp only [Function.update_of_ne hut]
    exact hold.imp_right .inl
  | pop hq =>
    refine hstay rfl nofun fun u _ hold => hold.imp_right fun hmem => ?_
    rw [hq, List.mem_cons] at hmem
    exact hmem.symm.imp_right fun heq => by rw [heq]
  | unpark =>
    intro u hu
    by_cases hut : u = t
    · rw [hut, w.set_self] at hu
      cases hu
    · rw [w.set_other hut] at hu
      simp only [w.set_shared]
      rename_i v
      by_cases huv : u = v
      · rw [huv, Function.update_self]
        exact .inl rfl
      · rw [Function.update_of_ne huv]
        refine (h u hu).imp_right fun hq => hq.imp_right fun ⟨v', hv'⟩ => ⟨v', ?_⟩
        have hvt : v' ≠ t := by
          intro heq
          rw [heq, hpc] at hv'
          cases hv'
          exact huv rfl
        rwa [w.set_other hvt]

theorem Queued.step (h : Queued w) {a : QueueStep τ δ} (hstep : (syncQueues τ δ).step w a = some w') :
    Queued w' := by
  cases a with
  | parkOn t pred | signal t =>
    simp only [syncQueues, QueueWorld.step, QueueWorld.begin, Option.ite_none_right_eq_some,
      Option.some.injEq] at hstep
    obtain ⟨hidle, rfl⟩ := hstep
    refine h.set rfl (fun u heq => ?_) fun _ _ hold => hold.imp_right .inl
    rw [heq] at hidle
    cases hidle
  | write data =>
    cases hstep
    exact h
  | tick t =>
    obtain ⟨⟨sq, pc⟩, hacc, rfl⟩ := Option.map_eq_some_iff.mp hstep
    exact h.tick (SyncQueue.access_cases hacc)

end Queued

/-! ### The mutex -/

section Mutex
variable {τ δ : Type*} [DecidableEq τ] {w w' : QueueWorld τ δ}

/-- A thread waits only while no signal is pending. -/
def Settled (h : Option τ) (sq : SyncQueue τ δ) : Prop :=
  sq.locked = h.isSome ∧ (sq.q ≠ [] → sq.epoch = 0)

/-- What the thread with the mutex knows. -/
def Inside (_ : τ) (sq : SyncQueue τ δ) : QueuePc τ δ → Prop
  | .parkLoad _ | .parkUnlock _ | .signalLoad | .signalPop => True
  | .parkConsume _ => sq.q = []
  | .parkPush _ => sq.epoch = 0
  | _ => False

abbrev Excluded (w : QueueWorld τ δ) (h : Option τ) : Prop :=
  OneHolder Settled (fun _ pc => pc.inside = false) Inside w h

variable {t : τ} {sq sq' : SyncQueue τ δ} {pc : QueuePc τ δ}

omit [DecidableEq τ] in
theorem Inside.inside (h : Inside t sq pc) : pc.inside = true := by
  cases pc with
  | parkLoad _ | parkConsume _ | parkUnlock _ | parkPush _ | signalLoad | signalPop => rfl
  | idle | parkPred _ | parkLock _ | parked _ | parkAgain _ | parkReturn _ | signalLock | signalAdd
  | signalUnpark _ => exact h.elim

omit [DecidableEq τ] in
theorem Inside.keep (h : Inside t sq pc) (hq : sq'.q = sq.q)
    (hepoch : pc.isPush = true → sq'.epoch = sq.epoch) : Inside t sq' pc := by
  cases pc with
  | parkLoad _ | parkUnlock _ | signalLoad | signalPop => trivial
  | parkConsume _ => exact hq.trans h
  | parkPush _ => exact (hepoch rfl).trans h
  | idle | parkPred _ | parkLock _ | parked _ | parkAgain _ | parkReturn _ | signalLock | signalAdd
  | signalUnpark _ => exact h.elim

namespace Excluded
variable {h : Option τ} {t : τ}

omit [DecidableEq τ] in
theorem new (data : δ) : Excluded (QueueWorld.new data : QueueWorld τ δ) none :=
  ⟨⟨rfl, fun hq => absurd rfl hq⟩, fun _ _ => rfl, nofun⟩

omit [DecidableEq τ] in
theorem holder (hw : Excluded w h) (ht : (w.locals t).inside = true) : h = some t := by
  by_contra hne
  rw [hw.waits t hne] at ht
  cases ht

omit [DecidableEq τ] in
theorem waiter (hw : Excluded w h) (ht : (w.locals t).inside = false) : h ≠ some t := by
  intro heq
  rw [(hw.holds t heq).inside] at ht
  cases ht

omit [DecidableEq τ] in
theorem free (hw : Excluded w h) (hfree : w.shared.locked = false) : h = none := by
  rw [hw.shared.1] at hfree
  cases h with
  | none => rfl
  | some t => cases hfree

theorem tick (hw : Excluded w h) {sq : SyncQueue τ δ} {pc : QueuePc τ δ}
    (hacc : w.shared.Accesses t (w.locals t) sq pc) (htime : OnTime w (.tick t)) :
    ∃ h', Excluded (w.set t sq pc) h' := by
  have hholder : (w.locals t).inside = true → h = some t := hw.holder
  have hwaiter : (w.locals t).inside = false → h ≠ some t := hw.waiter
  obtain ⟨hlocked, hsettled⟩ := hw.shared
  generalize hpc : w.locals t = pc₀ at hacc
  cases hacc with
  | pred | sleepy | again | done => exact ⟨h, hw.wait (hwaiter (by rw [hpc]; rfl)) rfl⟩
  | parkLock hfree | signalLock hfree =>
    obtain rfl := hw.free hfree
    exact ⟨some t, hw.acquire ⟨rfl, hsettled⟩ trivial⟩
  | pending hpos =>
    obtain rfl := hholder (by rw [hpc]; rfl)
    refine ⟨some t, hw.work ⟨hlocked, hsettled⟩ ?_⟩
    by_contra hq
    have hzero := hsettled hq
    omega
  | none hzero =>
    obtain rfl := hholder (by rw [hpc]; rfl)
    exact ⟨some t, hw.work ⟨hlocked, hsettled⟩ hzero⟩
  | load =>
    obtain rfl := hholder (by rw [hpc]; rfl)
    exact ⟨some t, hw.work ⟨hlocked, hsettled⟩ trivial⟩
  | consume hq hlock _ =>
    obtain rfl := hholder (by rw [hpc]; rfl)
    have hnil : w.shared.q = [] := by
      have hinside := hw.holds t rfl
      rwa [hpc] at hinside
    refine ⟨some t, hw.work ⟨hlock.trans hlocked, fun hne => absurd (hq.trans hnil) hne⟩ trivial⟩
  | unlock | nobody =>
    obtain rfl := hholder (by rw [hpc]; rfl)
    exact ⟨none, hw.release ⟨rfl, hsettled⟩ rfl⟩
  | push =>
    obtain rfl := hholder (by rw [hpc]; rfl)
    have hzero : w.shared.epoch = 0 := by
      have hinside := hw.holds t rfl
      rwa [hpc] at hinside
    exact ⟨none, hw.release ⟨rfl, fun _ => hzero⟩ rfl⟩
  | pop hq =>
    obtain rfl := hholder (by rw [hpc]; rfl)
    exact ⟨none, hw.release ⟨rfl, fun _ => hsettled (by rw [hq]; exact List.cons_ne_nil _ _)⟩ rfl⟩
  | woken | unpark =>
    exact ⟨h, hw.beside (hwaiter (by rw [hpc]; rfl)) rfl ⟨hlocked, hsettled⟩
      fun u _ hu => hu.keep rfl fun _ => rfl⟩
  | add hq hlock _ =>
    obtain ⟨hnil, hpush⟩ := htime (by rw [hpc]; rfl)
    refine ⟨h, hw.beside (hwaiter (by rw [hpc]; rfl)) rfl
      ⟨hlock.trans hlocked, fun hne => absurd (hq.trans hnil) hne⟩ fun u _ hu => hu.keep hq fun hpushes => ?_⟩
    rw [hpush u] at hpushes
    cases hpushes

theorem step (hw : Excluded w h) {a : QueueStep τ δ} (htime : OnTime w a)
    (hstep : (syncQueues τ δ).step w a = some w') : ∃ h', Excluded w' h' := by
  cases a with
  | parkOn t pred | signal t =>
    simp only [syncQueues, QueueWorld.step, QueueWorld.begin, Option.ite_none_right_eq_some,
      Option.some.injEq] at hstep
    obtain ⟨hidle, rfl⟩ := hstep
    refine ⟨h, hw.wait (hw.waiter ?_) rfl⟩
    cases hpc : w.locals t <;> rw [hpc] at hidle <;> first | rfl | cases hidle
  | write data =>
    cases hstep
    exact ⟨h, hw.shared, hw.waits, fun u hu => (hw.holds u hu).keep rfl fun _ => rfl⟩
  | tick t =>
    obtain ⟨⟨sq, pc⟩, hacc, rfl⟩ := Option.map_eq_some_iff.mp hstep
    exact hw.tick (SyncQueue.access_cases hacc) htime

end Excluded
end Mutex

/-- **No signal is lost when no signal is counted late.** -/
theorem no_lost_signal_of_onTime {τ δ : Type*} [DecidableEq τ] (data : δ) {steps : List (QueueStep τ δ)}
    (htime : (syncQueues τ δ).Guarded OnTime (QueueWorld.new data) steps) :
    (syncQueues τ δ).Always NoLostSignal (QueueWorld.new data) steps := by
  intro done w hpre hrun hquiet t hparked htoken
  obtain ⟨⟨h, hexcluded⟩, hqueued⟩ := System.always_of_guarded
    (I := fun w => (∃ h, Excluded w h) ∧ Queued w)
    (fun _ _ _ hboth htime hstep => ⟨hboth.1.elim fun _ hw => hw.step htime hstep, hboth.2.step hstep⟩)
    ⟨⟨none, .new data⟩, nofun⟩ htime done w hpre hrun
  rcases hqueued t hparked with htrue | hmem | ⟨u, hu⟩
  · rw [htoken] at htrue
    cases htrue
  · exact hexcluded.shared.2 (List.ne_nil_of_mem hmem)
  · have hsignals := hquiet u
    rw [hu] at hsignals
    cases hsignals

/-- A signal before anybody waits is used up, and the next caller sleeps with none pending. -/
theorem no_lost_signal_of_onTime_two : ∃ w : QueueWorld Bool Unit,
    (syncQueues Bool Unit).run (QueueWorld.new ()) countedFirst = some w ∧
      (w.locals false).isParked = true ∧ w.shared.epoch = 0 := by
  have htime : (syncQueues Bool Unit).Guarded OnTime (QueueWorld.new ()) countedFirst := by
    decide +kernel
  have hrun : (((syncQueues Bool Unit).run (QueueWorld.new ()) countedFirst).any fun w =>
      (∀ t, (w.locals t).signalling = false) ∧ (w.locals false).isParked = true ∧
        w.shared.tokens false = false) = true := by
    decide +kernel
  obtain ⟨w, hrun, hquiet, hparked, htoken⟩ := System.exists_of_run_any hrun
  exact ⟨w, hrun, hparked,
    no_lost_signal_of_onTime () htime countedFirst w List.prefix_rfl hrun hquiet false hparked htoken⟩

/-- The waiting thread joins the queue between the signal's look at it and its count. -/
theorem lost_signal : ¬ (syncQueues Bool Unit).Always NoLostSignal (QueueWorld.new ()) countedLate := by
  intro hall
  have hrun : (((syncQueues Bool Unit).run (QueueWorld.new ()) countedLate).any fun w =>
      (∀ t, (w.locals t).signalling = false) ∧ (w.locals false).isParked = true ∧
        w.shared.tokens false = false ∧ w.shared.epoch = 1) = true := by
    decide +kernel
  obtain ⟨w, hrun, hquiet, hparked, htoken, hepoch⟩ := System.exists_of_run_any hrun
  have hzero := hall countedLate w List.prefix_rfl hrun hquiet false hparked htoken
  rw [hzero] at hepoch
  cases hepoch

end ChaosKernel.Sync
