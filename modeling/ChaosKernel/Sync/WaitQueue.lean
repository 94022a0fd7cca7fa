import ChaosKernel.Base.Run
import ChaosKernel.Base.Threads
import ChaosKernel.Base.Rust

/-! The wait queue.

A thread sleeps under a key and is woken by it. A sleep with a timeout comes back for the
queue to take its entry out, and takes out every entry with its key. `timeouts_iff`:
nobody else is hurt, and the call returns what it should, exactly when nobody else
sleeps on the key at that moment and an entry with the key that is found there is the
call's own. -/
namespace ChaosKernel.Sync
open Base List
variable {τ : Type}

structure SleepEntry (τ : Type) where
  key : Nat
  sleeper : Ticket τ
  flags : Nat
  deriving DecidableEq, Repr

structure WaitQueue (τ : Type) where
  inner : List (SleepEntry τ)
  wakeCount : Nat
  deriving DecidableEq, Repr

namespace WaitQueue

def push (q : WaitQueue τ) (key : Nat) (sleeper : Ticket τ) (flags : Nat) : WaitQueue τ :=
  {q with inner := q.inner ++ [⟨key, sleeper, flags⟩]}

/-- The end of `sleep_timeout`: the queue, and what is returned. -/
def cleanup (q : WaitQueue τ) (key : Nat) : WaitQueue τ × Bool :=
  let left := q.inner.filter fun e => e.key ≠ key
  ({q with inner := left}, left.length < q.inner.length)

/-- The queue, whom it unparks, and what is returned. -/
def wakeOne (q : WaitQueue τ) (key : Nat) : WaitQueue τ × List τ × Bool :=
  match q.inner.find? fun e => e.key = key with
  | some e =>
    (⟨q.inner.eraseP fun e => e.key = key, (q.wakeCount + 1) % wordSize⟩, [e.sleeper.thread], true)
  | none => (q, [], false)

def wakeFiltered (q : WaitQueue τ) (pred : Nat → Nat → Bool) : WaitQueue τ × List τ × Nat :=
  let woken := q.inner.filter fun e => pred e.key e.flags
  (⟨q.inner.filter fun e => !pred e.key e.flags, (q.wakeCount + woken.length) % wordSize⟩,
    woken.map fun e => e.sleeper.thread, woken.length)

def wakeAll (q : WaitQueue τ) (key : Nat) : WaitQueue τ × List τ × Nat := q.wakeFiltered fun k _ => k = key

variable (q : WaitQueue τ) {e : SleepEntry τ}

/-- A wake drops nobody: an entry stays or its thread is unparked. -/
theorem wakeOne_keeps (key : Nat) (he : e ∈ q.inner) :
    e ∈ (q.wakeOne key).1.inner ∨ e.sleeper.thread ∈ (q.wakeOne key).2.1 := by
  unfold wakeOne
  split
  · next first hfirst =>
    obtain ⟨hkey, before, after, heq, hbefore⟩ := find?_eq_some_iff_append.mp hfirst
    have herase : q.inner.eraseP (fun e => e.key = key) = before ++ after := by
      rw [heq, eraseP_append_right _ fun x hx => by simpa using hbefore x hx,
        eraseP_cons_of_pos (p := fun e : SleepEntry τ => decide (e.key = key)) hkey]
    rw [heq, mem_append, mem_cons] at he
    rw [herase, mem_append]
    rcases he with he | he | he
    · exact .inl (.inl he)
    · exact .inr (he ▸ mem_singleton.mpr rfl)
    · exact .inl (.inr he)
  · exact .inl he

theorem wakeFiltered_keeps (pred : Nat → Nat → Bool) (he : e ∈ q.inner) :
    e ∈ (q.wakeFiltered pred).1.inner ∨ e.sleeper.thread ∈ (q.wakeFiltered pred).2.1 := by
  cases hpred : pred e.key e.flags with
  | false => exact .inl (mem_filter.mpr ⟨he, by rw [hpred]; rfl⟩)
  | true => exact .inr (List.mem_map_of_mem (mem_filter.mpr ⟨he, hpred⟩))

/-- The end of `sleep_timeout` returns whether there was an entry with the key, whoever it was for. -/
theorem cleanup_result (key : Nat) : (q.cleanup key).2 = true ↔ ∃ e ∈ q.inner, e.key = key := by
  simp only [cleanup, decide_eq_true_eq, length_filter_lt_length_iff_exists, ne_eq, not_not]

end WaitQueue

/-! ### Interleavings -/

/-- A sleeper is at its park, or it has come back from one with a timeout and goes for the queue. -/
inductive SleepPc where
  | idle
  | parked (key call : Nat) (timed : Bool)
  | back (key call : Nat)
  deriving DecidableEq, Repr

/-- `returns` has, for each `sleep_timeout` that has returned, whether its entry was in the queue when it came
back for it, and what it returned. -/
structure SleepShared (τ : Type) where
  queue : WaitQueue τ
  tokens : τ → Bool
  calls : Nat
  returns : List (Bool × Bool)

abbrev SleepWorld (τ : Type) := Threads τ (SleepShared τ) SleepPc

inductive SleepStep (τ : Type) where
  | sleep (t : τ) (key flags : Nat) (timed : Bool)
  | resume (t : τ)
  | expire (t : τ)
  | cleanup (t : τ)
  | wakeOne (key : Nat)
  | wakeAll (key : Nat)

namespace SleepWorld
variable [DecidableEq τ]

/-- The entry of the call is in the queue. -/
def Queued (w : SleepWorld τ) (key : Nat) (sleeper : Ticket τ) : Prop :=
  ∃ e ∈ w.shared.queue.inner, e.key = key ∧ e.sleeper = sleeper

instance (w : SleepWorld τ) (key : Nat) (sleeper : Ticket τ) : Decidable (w.Queued key sleeper) :=
  inferInstanceAs (Decidable (∃ e ∈ w.shared.queue.inner, _))

/-- A section that leaves the queue `queue` and unparks `unparked`. -/
def wake (w : SleepWorld τ) (queue : WaitQueue τ) (unparked : List τ) : SleepWorld τ where
  shared := {w.shared with queue := queue, tokens := fun t => w.shared.tokens t || decide (t ∈ unparked)}
  locals := w.locals

/-- The section in which a sleep joins the queue. -/
def join (w : SleepWorld τ) (t : τ) (key flags : Nat) (timed : Bool) : SleepWorld τ :=
  w.set t
    {w.shared with
      queue := w.shared.queue.push key ⟨t, w.shared.calls⟩ flags
      calls := w.shared.calls + 1}
    (.parked key w.shared.calls timed)

/-- The section in which a sleep with a timeout comes back for the queue. -/
def leave (w : SleepWorld τ) (t : τ) (key call : Nat) : SleepWorld τ :=
  w.set t
    {w.shared with
      queue := (w.shared.queue.cleanup key).1
      returns := w.shared.returns ++ [(decide (w.Queued key ⟨t, call⟩), (w.shared.queue.cleanup key).2)]}
    .idle

def step (w : SleepWorld τ) : SleepStep τ → Option (SleepWorld τ)
  | .sleep t key flags timed => if w.locals t = .idle then some (w.join t key flags timed) else none
  | .resume t =>
    match w.locals t with
    | .parked key call timed =>
      if w.shared.tokens t then
        some (w.set t {w.shared with tokens := Function.update w.shared.tokens t false}
          (if timed then .back key call else .idle))
      else none
    | _ => none
  | .expire t =>
    match w.locals t with
    | .parked key call true => if w.shared.tokens t then none else some (w.set t w.shared (.back key call))
    | _ => none
  | .cleanup t =>
    match w.locals t with
    | .back key call => some (w.leave t key call)
    | _ => none
  | .wakeOne key => some (w.wake (w.shared.queue.wakeOne key).1 (w.shared.queue.wakeOne key).2.1)
  | .wakeAll key => some (w.wake (w.shared.queue.wakeAll key).1 (w.shared.queue.wakeAll key).2.1)

def system : System (SleepWorld τ) (SleepStep τ) := ⟨step⟩

def init : SleepWorld τ := ⟨⟨⟨[], 0⟩, fun _ => false, 0, []⟩, fun _ => .idle⟩

/-- The thread is at its park, in this call, and has not been woken. -/
def Blocked (w : SleepWorld τ) (t : τ) (key call : Nat) : Prop :=
  (∃ timed, w.locals t = .parked key call timed) ∧ w.shared.tokens t = false

/-- Who is blocked has its entry in the queue, and every `sleep_timeout` returned whether it had. -/
structure Kept (w : SleepWorld τ) : Prop where
  entries : ∀ t key call, w.Blocked t key call → w.Queued key ⟨t, call⟩
  returns : ∀ r ∈ w.shared.returns, r.2 = r.1

/-- When a `sleep_timeout` comes back for the queue, nobody is blocked on its key, and there is no entry with
its key but where its own is among them. -/
def Alone (w : SleepWorld τ) : SleepStep τ → Prop
  | .cleanup t => ∀ key call, w.locals t = .back key call →
    (∀ u c, ¬w.Blocked u key c) ∧ (w.Queued key ⟨t, call⟩ ∨ ∀ e ∈ w.shared.queue.inner, e.key ≠ key)
  | _ => True

variable {w w' : SleepWorld τ} {a : SleepStep τ}

/-! ### One step -/

theorem Kept.wake (h : w.Kept) {queue : WaitQueue τ} {unparked : List τ}
    (hkeeps : ∀ e ∈ w.shared.queue.inner, e ∈ queue.inner ∨ e.sleeper.thread ∈ unparked) :
    (w.wake queue unparked).Kept := by
  refine ⟨fun t key call hb => ?_, h.returns⟩
  obtain ⟨hparked, htoken⟩ := hb
  simp only [SleepWorld.wake, Bool.or_eq_false_iff, decide_eq_false_iff_not] at htoken
  obtain ⟨e, he, hkey, hsleeper⟩ := h.entries t key call ⟨hparked, htoken.1⟩
  refine ⟨e, (hkeeps e he).resolve_right fun hun => htoken.2 ?_, hkey, hsleeper⟩
  rwa [hsleeper] at hun

variable {t u : τ} {key call key' flags call' : Nat}

theorem Kept.join (h : w.Kept) {timed : Bool} : (w.join t key flags timed).Kept := by
  refine ⟨fun u key' call hb => ?_, h.returns⟩
  obtain ⟨⟨timed', hparked⟩, htoken⟩ := hb
  by_cases hu : u = t
  · subst hu
    rw [SleepWorld.join, w.set_self] at hparked
    cases hparked
    exact ⟨_, mem_append_right _ mem_cons_self, rfl, rfl⟩
  · rw [SleepWorld.join, w.set_other hu] at hparked
    obtain ⟨e, he, hentry⟩ := h.entries u key' call ⟨⟨timed', hparked⟩, htoken⟩
    exact ⟨e, mem_append_left _ he, hentry⟩

theorem Kept.move (h : w.Kept) {tokens : τ → Bool} {pc : SleepPc}
    (htokens : ∀ u, u ≠ t → tokens u = w.shared.tokens u)
    (hpc : ∀ key call timed, pc ≠ .parked key call timed) :
    Kept (w.set t {w.shared with tokens := tokens} pc) := by
  refine ⟨fun u key call hb => ?_, h.returns⟩
  obtain ⟨⟨timed, hparked⟩, htoken⟩ := hb
  by_cases hu : u = t
  · subst hu
    rw [w.set_self] at hparked
    exact absurd hparked (hpc key call timed)
  · rw [w.set_other hu] at hparked
    exact h.entries u key call ⟨⟨timed, hparked⟩, htokens u hu ▸ htoken⟩

theorem blocked_leave (ht : w.locals t = .back key call) :
    (w.leave t key call).Blocked u key' call' ↔ w.Blocked u key' call' := by
  unfold Blocked leave
  by_cases hu : u = t
  · subst hu
    rw [w.set_self, ht]
    refine iff_of_false (fun hb => ?_) fun hb => ?_
    · obtain ⟨timed, hparked⟩ := hb.1
      cases hparked
    · obtain ⟨timed, hparked⟩ := hb.1
      cases hparked
  · rw [w.set_other hu]
    exact Iff.rfl

theorem queued_leave {sleeper : Ticket τ} :
    (w.leave t key call).Queued key' sleeper ↔ w.Queued key' sleeper ∧ key' ≠ key := by
  constructor
  · intro h
    obtain ⟨e, he, hkey, hsleeper⟩ := h
    obtain ⟨he, hne⟩ := mem_filter.mp he
    exact ⟨⟨e, he, hkey, hsleeper⟩, hkey ▸ of_decide_eq_true hne⟩
  · intro h
    obtain ⟨⟨e, he, hkey, hsleeper⟩, hne⟩ := h
    exact ⟨e, mem_filter.mpr ⟨he, decide_eq_true (hkey ▸ hne)⟩, hkey, hsleeper⟩

theorem Kept.leave_iff (h : w.Kept) (ht : w.locals t = .back key call) :
    (w.leave t key call).Kept ↔
      (∀ u c, ¬w.Blocked u key c) ∧ (w.Queued key ⟨t, call⟩ ∨ ∀ e ∈ w.shared.queue.inner, e.key ≠ key) := by
  have hresult := w.shared.queue.cleanup_result key
  constructor
  · intro h'
    refine ⟨fun u c hb => ?_, or_iff_not_imp_left.mpr fun hown e he hkey => ?_⟩
    · exact (queued_leave.mp (h'.entries u key c ((blocked_leave ht).mpr hb))).2 rfl
    · have hlast := h'.returns _ (mem_append_right _ mem_cons_self)
      rw [decide_eq_false hown, hresult.mpr ⟨e, he, hkey⟩] at hlast
      cases hlast
  · intro hg
    obtain ⟨hnobody, hown⟩ := hg
    refine ⟨fun u key' c hb => ?_, fun r hr => ?_⟩
    · have hb := (blocked_leave ht).mp hb
      exact queued_leave.mpr ⟨h.entries u key' c hb, fun heq => hnobody u c (heq ▸ hb)⟩
    · rcases mem_append.mp hr with hr | hr
      · exact h.returns r hr
      · rw [mem_singleton.mp hr, Bool.eq_iff_iff, hresult, decide_eq_true_eq]
        refine ⟨fun hfound => ?_, fun hq => ?_⟩
        · obtain ⟨e, he, hkey⟩ := hfound
          exact hown.resolve_right fun hnone => hnone e he hkey
        · obtain ⟨e, he, hkey, _⟩ := hq
          exact ⟨e, he, hkey⟩

theorem kept_step (h : w.Kept) (hstep : w.step a = some w') : w'.Kept ↔ w.Alone a := by
  cases a with
  | sleep t key flags timed =>
    simp only [step, Option.ite_none_right_eq_some] at hstep
    cases hstep.2
    exact iff_of_true h.join trivial
  | resume t =>
    simp only [step] at hstep
    split at hstep
    · next key call timed _ =>
      rw [Option.ite_none_right_eq_some] at hstep
      cases hstep.2
      refine iff_of_true (h.move (fun u hu => Function.update_of_ne hu ..) fun _ _ _ => ?_) trivial
      cases timed <;> exact SleepPc.noConfusion
    · cases hstep
  | expire t =>
    simp only [step] at hstep
    split at hstep
    · rw [Option.ite_none_left_eq_some] at hstep
      cases hstep.2
      exact iff_of_true (h.move (fun _ _ => rfl) fun _ _ _ => SleepPc.noConfusion) trivial
    · cases hstep
  | cleanup t =>
    simp only [step] at hstep
    split at hstep
    · next key call ht =>
      cases hstep
      rw [h.leave_iff ht]
      refine ⟨fun hg key' call' ht' => ?_, fun hg => hg key call ht⟩
      rw [ht] at ht'
      cases ht'
      exact hg
    · cases hstep
  | wakeOne key =>
    cases hstep
    exact iff_of_true (h.wake fun e he => w.shared.queue.wakeOne_keeps key he) trivial
  | wakeAll key =>
    cases hstep
    exact iff_of_true (h.wake fun e he => w.shared.queue.wakeFiltered_keeps _ he) trivial

/-! ### Runs -/

theorem Kept.wakeAll_reaches (h : w.Kept) (hb : w.Blocked t key call)
    (hstep : w.step (.wakeAll key) = some w') : w'.shared.tokens t = true := by
  cases hstep
  obtain ⟨e, he, hkey, hsleeper⟩ := h.entries t key call hb
  have hwoken : t ∈ (w.shared.queue.wakeAll key).2.1 :=
    mem_map.mpr ⟨e, mem_filter.mpr ⟨he, decide_eq_true hkey⟩, by rw [hsleeper]⟩
  simp only [SleepWorld.wake, hwoken, decide_true, Bool.or_true]

/-- **Timeouts hurt nobody else and are reported as they happened exactly when every `sleep_timeout` finds the
queue, on its way back, with nobody blocked on its key and no entry with its key but where its own is.** -/
theorem timeouts_iff (steps : List (SleepStep τ)) :
    system.Always Kept (init : SleepWorld τ) steps ↔ system.Guarded Alone (init : SleepWorld τ) steps := by
  refine System.always_iff_guarded (J := fun _ => True) (fun _ _ _ _ _ => trivial) (fun _ _ _ _ h => kept_step h)
    trivial ⟨fun t key call hb => ?_, fun r hr => absurd hr not_mem_nil⟩
  obtain ⟨timed, hparked⟩ := hb.1
  cases hparked

/-- Thread `true` times out and takes the entry of thread `false` with it, which no wake reaches any more. -/
theorem sleeper_forgotten : ∃ w w' : SleepWorld Bool, system.run init
      [.sleep true 7 0 true, .sleep false 7 0 false, .expire true, .cleanup true] = some w ∧ ¬w.Kept ∧
    system.run w [.wakeAll 7] = some w' ∧ w'.Blocked false 7 1 :=
  ⟨_, _, rfl, fun h => absurd (h.entries false 7 1 ⟨⟨false, rfl⟩, rfl⟩) (by decide), rfl, ⟨false, rfl⟩, rfl⟩

end SleepWorld
end ChaosKernel.Sync
