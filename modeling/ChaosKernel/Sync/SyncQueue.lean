import ChaosKernel.Base.Run
import ChaosKernel.Base.Rust
import ChaosKernel.Base.Threads

/-! The synchronization queue.

A queue of waiting threads under a mutex, and a counter, `epoch`, of the signals that
found nobody waiting. `park_on` looks at its condition, then takes the mutex; a pending
signal is used up, otherwise the thread joins the queue and parks. `signal` takes the
mutex and wakes the first of the queue. When the queue is empty it lets go of the mutex
first and counts the signal afterwards: a thread that joins the queue in between, or that
has read the counter already, sleeps beside a signal that is pending.

`SyncQueue.Accesses` lists what one access can do.

`data` is what the callers' own mutex guards. It may change at any time; `pred` is
evaluated on it. `unpark` leaves a token that the next `park` of that thread consumes. -/
namespace ChaosKernel.Sync
open Base

/-- The queue, the tokens of the threads and the data guarded by the callers' mutex. -/
structure SyncQueue (τ δ : Type*) where
  q : List τ
  /-- The mutex of `q` is taken. -/
  locked : Bool
  epoch : Nat
  tokens : τ → Bool
  data : δ

/-- The next access of a thread. -/
inductive QueuePc (τ δ : Type*) where
  | idle
  /-- `park_on`. -/
  | parkPred (pred : δ → Bool)
  | parkLock (pred : δ → Bool)
  | parkLoad (pred : δ → Bool)
  | parkConsume (pred : δ → Bool)
  | parkUnlock (pred : δ → Bool)
  | parkPush (pred : δ → Bool)
  | parked (pred : δ → Bool)
  | parkAgain (pred : δ → Bool)
  | parkReturn (result : Bool)
  /-- `signal`. -/
  | signalLock
  | signalLoad
  | signalPop
  | signalAdd
  | signalUnpark (t : τ)

namespace SyncQueue
variable {τ δ : Type*} [DecidableEq τ]

def new (data : δ) : SyncQueue τ δ := ⟨[], false, 0, fun _ => false, data⟩

/-- One access of the thread `me`. `none` says that it cannot go on now. -/
def access (me : τ) (sq : SyncQueue τ δ) : QueuePc τ δ → Option (SyncQueue τ δ × QueuePc τ δ)
  | .idle => none
  | .parkPred pred => if pred sq.data then some (sq, .parkReturn true) else some (sq, .parkLock pred)
  | .parkLock pred => if sq.locked then none else some ({sq with locked := true}, .parkLoad pred)
  | .parkLoad pred => if 0 < sq.epoch then some (sq, .parkConsume pred) else some (sq, .parkPush pred)
  | .parkConsume pred => some ({sq with epoch := wrappingSub sq.epoch 1}, .parkUnlock pred)
  | .parkUnlock pred => some ({sq with locked := false}, .parkAgain pred)
  | .parkPush pred => some ({sq with q := sq.q ++ [me], locked := false}, .parked pred)
  | .parked pred =>
    if sq.tokens me then some ({sq with tokens := Function.update sq.tokens me false}, .parkAgain pred)
    else none
  | .parkAgain pred => some (sq, .parkReturn (pred sq.data))
  | .parkReturn _ => some (sq, .idle)
  | .signalLock => if sq.locked then none else some ({sq with locked := true}, .signalLoad)
  | .signalLoad => some (sq, .signalPop)
  | .signalPop =>
    match sq.q with
    | [] => some ({sq with locked := false}, .signalAdd)
    | t :: rest => some ({sq with q := rest, locked := false}, .signalUnpark t)
  | .signalAdd => some ({sq with epoch := wrappingAdd sq.epoch 1}, .idle)
  | .signalUnpark t => some ({sq with tokens := Function.update sq.tokens t true}, .idle)

end SyncQueue

inductive QueueStep (τ δ : Type*) where
  | parkOn (t : τ) (pred : δ → Bool)
  | signal (t : τ)
  | tick (t : τ)
  /-- Somebody changes the guarded data. -/
  | write (data : δ)

abbrev QueueWorld (τ δ : Type*) := Threads τ (SyncQueue τ δ) (QueuePc τ δ)

def QueuePc.isIdle {τ δ : Type*} : QueuePc τ δ → Bool
  | .idle => true
  | _ => false

namespace QueueWorld
variable {τ δ : Type*} [DecidableEq τ]

def new (data : δ) : QueueWorld τ δ := ⟨.new data, fun _ => .idle⟩

/-- The thread, if idle, begins an operation. -/
def begin (w : QueueWorld τ δ) (t : τ) (pc : QueuePc τ δ) : Option (QueueWorld τ δ) :=
  if (w.locals t).isIdle then some (w.set t w.shared pc) else none

def step (w : QueueWorld τ δ) : QueueStep τ δ → Option (QueueWorld τ δ)
  | .parkOn t pred => w.begin t (.parkPred pred)
  | .signal t => w.begin t .signalLock
  | .tick t => (w.shared.access t (w.locals t)).map fun res => w.set t res.1 res.2
  | .write data => some ⟨{w.shared with data := data}, w.locals⟩

end QueueWorld

def syncQueues (τ δ : Type*) [DecidableEq τ] : System (QueueWorld τ δ) (QueueStep τ δ) :=
  ⟨QueueWorld.step⟩

/-! ### What an access does -/

/-- With the mutex of the queue. -/
def QueuePc.inside {τ δ : Type*} : QueuePc τ δ → Bool
  | .parkLoad _ | .parkConsume _ | .parkUnlock _ | .parkPush _ | .signalLoad | .signalPop => true
  | _ => false

namespace SyncQueue
variable {τ δ : Type*} [DecidableEq τ]

inductive Accesses (me : τ) (sq : SyncQueue τ δ) : QueuePc τ δ → SyncQueue τ δ → QueuePc τ δ → Prop where
  | pred {pred result} : Accesses me sq (.parkPred pred) sq (.parkReturn result)
  | sleepy {pred} : Accesses me sq (.parkPred pred) sq (.parkLock pred)
  | again {pred result} : Accesses me sq (.parkAgain pred) sq (.parkReturn result)
  | done {result} : Accesses me sq (.parkReturn result) sq .idle
  | parkLock {pred} (free : sq.locked = false) :
    Accesses me sq (.parkLock pred) {sq with locked := true} (.parkLoad pred)
  | signalLock (free : sq.locked = false) : Accesses me sq .signalLock {sq with locked := true} .signalLoad
  | pending {pred} (epoch : 0 < sq.epoch) : Accesses me sq (.parkLoad pred) sq (.parkConsume pred)
  | none {pred} (epoch : sq.epoch = 0) : Accesses me sq (.parkLoad pred) sq (.parkPush pred)
  | consume {pred sq'} (q : sq'.q = sq.q) (locked : sq'.locked = sq.locked) (tokens : sq'.tokens = sq.tokens) :
    Accesses me sq (.parkConsume pred) sq' (.parkUnlock pred)
  | unlock {pred} : Accesses me sq (.parkUnlock pred) {sq with locked := false} (.parkAgain pred)
  | push {pred} : Accesses me sq (.parkPush pred) {sq with q := sq.q ++ [me], locked := false} (.parked pred)
  | woken {pred} (token : sq.tokens me = true) :
    Accesses me sq (.parked pred) {sq with tokens := Function.update sq.tokens me false} (.parkAgain pred)
  | load : Accesses me sq .signalLoad sq .signalPop
  | nobody (q : sq.q = []) : Accesses me sq .signalPop {sq with locked := false} .signalAdd
  | pop {t rest} (q : sq.q = t :: rest) :
    Accesses me sq .signalPop {sq with q := rest, locked := false} (.signalUnpark t)
  | add {sq'} (q : sq'.q = sq.q) (locked : sq'.locked = sq.locked) (tokens : sq'.tokens = sq.tokens) :
    Accesses me sq .signalAdd sq' .idle
  | unpark {t} : Accesses me sq (.signalUnpark t) {sq with tokens := Function.update sq.tokens t true} .idle

theorem access_cases {me : τ} {sq sq' : SyncQueue τ δ} {pc pc' : QueuePc τ δ}
    (h : sq.access me pc = some (sq', pc')) : Accesses me sq pc sq' pc' := by
  cases pc with
  | idle => cases h
  | parkPred pred =>
    simp only [access] at h
    split at h
    · cases h
      exact .pred
    · cases h
      exact .sleepy
  | parkLock pred =>
    simp only [access, Option.ite_none_left_eq_some, Bool.not_eq_true] at h
    cases h.2
    exact .parkLock h.1
  | signalLock =>
    simp only [access, Option.ite_none_left_eq_some, Bool.not_eq_true] at h
    cases h.2
    exact .signalLock h.1
  | parkLoad pred =>
    simp only [access] at h
    split at h
    · next hpos =>
      cases h
      exact .pending hpos
    · next hzero =>
      cases h
      exact .none (Nat.eq_zero_of_not_pos hzero)
  | parkConsume pred =>
    simp only [access, Option.some.injEq, Prod.mk.injEq] at h
    obtain ⟨hsq, rfl⟩ := h
    exact .consume (by rw [← hsq]) (by rw [← hsq]) (by rw [← hsq])
  | parkUnlock pred =>
    cases h
    exact .unlock
  | parkPush pred =>
    cases h
    exact .push
  | parked pred =>
    simp only [access, Option.ite_none_right_eq_some] at h
    cases h.2
    exact .woken h.1
  | parkAgain pred =>
    cases h
    exact .again
  | parkReturn result =>
    cases h
    exact .done
  | signalLoad =>
    cases h
    exact .load
  | signalPop =>
    simp only [access] at h
    split at h
    · next hq =>
      cases h
      exact .nobody hq
    · next hq =>
      cases h
      exact .pop hq
  | signalAdd =>
    simp only [access, Option.some.injEq, Prod.mk.injEq] at h
    obtain ⟨hsq, rfl⟩ := h
    exact .add (by rw [← hsq]) (by rw [← hsq]) (by rw [← hsq])
  | signalUnpark t =>
    cases h
    exact .unpark

end SyncQueue

end ChaosKernel.Sync
