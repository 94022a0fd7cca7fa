import ChaosKernel.Base.Run
import ChaosKernel.Sync.Futex

/-! A wait and its wake.

A waiter reads the word and joins the queue afterwards, in a step of its own. The waker
stores another value and wakes. Where the store and the wake both fall between the two
steps of the waiter, the queue is still empty when it is looked at, and the waiter sleeps
with nobody left to wake it. `waits_iff`: that is the only way for it to sleep on. -/
namespace ChaosKernel.Sync
open Base Option List
variable {ε τ : Type}

/-- What a waiter and a waker see of a futex. `result` is what a wait returns after its park, from the flag of
its entry, and `wakes` says that the only entry at an address is woken. -/
structure Futex (ε τ : Type) where
  entry : Nat → τ → ε
  addrOf : ε → Nat
  wake : List ε → Nat → Nat → Option (Woke ε τ)
  result : Bool → Bool
  wakes : ∀ others addr t n, (∀ e ∈ others, addrOf e ≠ addr) → 0 < n →
    ∃ w, wake (others ++ [entry addr t]) addr n = some w ∧ t ∈ w.unparked

/-! ### The two futexes -/

theorem FutexBucket.wakeLoop_append {addr count woken : Nat} {others q : List (FutexWaiter τ)}
    (h : ∀ e ∈ others, e.addr ≠ addr) :
    (wakeLoop addr count woken (others ++ q)).unparked = (wakeLoop addr count woken q).unparked := by
  induction others with
  | nil => rfl
  | cons e rest ih =>
    rw [cons_append, wakeLoop, if_neg fun he => h e mem_cons_self he.1]
    exact ih fun e he => h e (mem_cons_of_mem _ he)

def bucketFutex : Futex (FutexWaiter τ) τ where
  entry addr t := ⟨addr, t, false⟩
  addrOf := FutexWaiter.addr
  wake q addr n := some (FutexBucket.wake q addr n)
  result flag := flag
  wakes others addr t n hothers hn := by
    refine ⟨_, rfl, ?_⟩
    rw [FutexBucket.wake, FutexBucket.wakeLoop_append hothers, FutexBucket.wakeLoop, if_pos ⟨rfl, hn⟩]
    exact mem_cons_self

theorem fates_append {src wakeN moveN wk mv : Nat} {others q : List (Nat × τ)} (h : ∀ e ∈ others, e.1 ≠ src) :
    fates src wakeN moveN wk mv (others ++ q) =
      (others.map fun e => (e, .kept)) ++ fates src wakeN moveN wk mv q := by
  induction others with
  | nil => rfl
  | cons e rest ih =>
    rw [cons_append, fates, if_neg (h e mem_cons_self), ih fun e he => h e (mem_cons_of_mem _ he)]
    rfl

def tableFutex : Futex (Nat × τ) τ where
  entry addr t := (addr, t)
  addrOf := Prod.fst
  wake := FutexTable.ftxWake
  result _ := true
  wakes others addr t n hothers hn := by
    refine ⟨_, FutexTable.ftxWakeLoop_eq addr n 0 [] (others ++ [(addr, t)]) [] (Nat.lt_succ_self _), ?_⟩
    rw [fates_append hothers, fates, if_pos rfl, if_pos hn]
    refine mem_filterMap.mpr ⟨((addr, t), .woken), mem_append_right _ mem_cons_self, rfl⟩

/-! ### The interleavings -/

/-- A wait of thread `me` on a word that holds `val`, and a waker that stores another value than the expected one
and wakes at least one; `others` wait elsewhere, and `token` may be left from before. -/
structure FutexCalls (f : Futex ε τ) where
  me : τ
  addr : Nat
  expected : Nat
  val : Nat
  stored : Nat
  count : Nat
  others : List ε
  token : Bool
  changes : stored ≠ expected
  positive : 0 < count
  elsewhere : ∀ e ∈ others, f.addrOf e ≠ addr

inductive WaiterPc where
  | start
  | checked
  | parked
  | awake
  | returned (ok : Bool)
  deriving DecidableEq, Repr

/-- The waiter has not joined the queue yet. -/
def WaiterPc.early : WaiterPc → Bool
  | .start | .checked => true
  | _ => false

inductive WakerPc where
  | start
  | stored
  | finished
  deriving DecidableEq, Repr

/-- `flag` is the flag of the waiter's entry. -/
structure FutexWorld (ε : Type) where
  val : Nat
  waiters : List ε
  token : Bool
  flag : Bool
  waiter : WaiterPc
  waker : WakerPc

inductive FutexStep where
  | load
  | enqueue
  | park
  | finish
  | store
  | wake
  deriving DecidableEq, Repr

namespace FutexCalls
variable {f : Futex ε τ} [DecidableEq τ]

def step (c : FutexCalls f) (w : FutexWorld ε) : FutexStep → Option (FutexWorld ε)
  | .load =>
    if w.waiter = .start then
      if w.val ≠ c.expected then some {w with waiter := .returned false} else some {w with waiter := .checked}
    else none
  | .enqueue =>
    if w.waiter = .checked then
      some {w with waiters := w.waiters ++ [f.entry c.addr c.me], waiter := .parked}
    else none
  | .park =>
    if w.waiter = .parked ∧ w.token = true then some {w with token := false, waiter := .awake} else none
  | .finish => if w.waiter = .awake then some {w with waiter := .returned (f.result w.flag)} else none
  | .store => if w.waker = .start then some {w with val := c.stored, waker := .stored} else none
  | .wake =>
    if w.waker = .stored then
      (f.wake w.waiters c.addr c.count).map fun r =>
        {w with
          waiters := r.left
          token := w.token || decide (c.me ∈ r.unparked)
          flag := w.flag || decide (c.me ∈ r.unparked)
          waker := .finished}
    else none

def system (c : FutexCalls f) : System (FutexWorld ε) FutexStep := ⟨c.step⟩

def init (c : FutexCalls f) : FutexWorld ε := ⟨c.val, c.others, c.token, false, .start, .start⟩

end FutexCalls

/-- The waker is done and the waiter sleeps. -/
def FutexWorld.Stuck (w : FutexWorld ε) : Prop := w.waker = .finished ∧ w.waiter = .parked ∧ w.token = false

instance (w : FutexWorld ε) : Decidable w.Stuck := inferInstanceAs (Decidable (_ ∧ _))

/-- The waiter joins the queue before the waker looks at it, or has a token already. -/
def FutexWorld.InTime (w : FutexWorld ε) : FutexStep → Prop
  | .enqueue => w.waker ≠ .finished ∨ w.token = true
  | _ => True

namespace FutexCalls
variable {f : Futex ε τ} [DecidableEq τ] {c : FutexCalls f} {w w' : FutexWorld ε} {a : FutexStep}

/-- Until the waker has looked at it, the queue is the others and, once it has joined, the waiter. -/
structure Inv (c : FutexCalls f) (w : FutexWorld ε) : Prop where
  before : w.waker ≠ .finished → w.waiter.early = true → w.waiters = c.others
  joined : w.waker ≠ .finished → w.waiter = .parked → w.waiters = c.others ++ [f.entry c.addr c.me]

omit [DecidableEq τ] in
theorem inv_init : c.Inv c.init := ⟨fun _ _ => rfl, fun _ h => WaiterPc.noConfusion h⟩

omit [DecidableEq τ] in
theorem inv_through (hearly : w.waiter.early = false) (hparked : w.waiter ≠ .parked) : c.Inv w :=
  ⟨fun _ h => absurd (hearly.symm.trans h) Bool.false_ne_true, fun _ h => absurd h hparked⟩

theorem inv_step (h : c.Inv w) (hstep : c.step w a = some w') : c.Inv w' := by
  cases a with
  | load =>
    simp only [step] at hstep
    split at hstep
    · next hpc =>
      split at hstep
      · cases hstep
        exact inv_through rfl WaiterPc.noConfusion
      · cases hstep
        exact ⟨fun hw _ => h.before hw (by rw [hpc]; rfl), fun _ hpc => WaiterPc.noConfusion hpc⟩
    · cases hstep
  | enqueue =>
    simp only [step, ite_none_right_eq_some] at hstep
    obtain ⟨hpc, heq⟩ := hstep
    cases heq
    refine ⟨fun _ hearly => absurd hearly Bool.false_ne_true, fun hw _ => ?_⟩
    rw [h.before hw (by rw [hpc]; rfl)]
  | park | finish =>
    simp only [step, ite_none_right_eq_some] at hstep
    obtain ⟨_, heq⟩ := hstep
    cases heq
    exact inv_through rfl WaiterPc.noConfusion
  | store =>
    simp only [step, ite_none_right_eq_some] at hstep
    obtain ⟨hpc, heq⟩ := hstep
    cases heq
    have hw : w.waker ≠ .finished := by
      rw [hpc]
      exact WakerPc.noConfusion
    exact ⟨fun _ => h.before hw, fun _ => h.joined hw⟩
  | wake =>
    simp only [step, ite_none_right_eq_some, map_eq_some_iff] at hstep
    obtain ⟨_, r, _, heq⟩ := hstep
    cases heq
    exact ⟨fun hw => absurd rfl hw, fun hw => absurd rfl hw⟩

/-- One step leaves the waiter stuck exactly when the waiter joins the queue too late. -/
theorem stuck_step (h : c.Inv w) (hstep : c.step w a = some w') : ¬w'.Stuck ↔ w.InTime a := by
  cases a with
  | load =>
    refine iff_of_true (fun hstuck => ?_) trivial
    simp only [step] at hstep
    split at hstep
    · split at hstep <;> cases hstep <;> exact WaiterPc.noConfusion hstuck.2.1
    · cases hstep
  | enqueue =>
    simp only [step, ite_none_right_eq_some] at hstep
    obtain ⟨_, heq⟩ := hstep
    cases heq
    simp only [FutexWorld.Stuck, FutexWorld.InTime, true_and, not_and_or, Bool.not_eq_false, ne_eq]
  | park | finish =>
    refine iff_of_true (fun hstuck => ?_) trivial
    simp only [step, ite_none_right_eq_some] at hstep
    obtain ⟨_, heq⟩ := hstep
    cases heq
    exact WaiterPc.noConfusion hstuck.2.1
  | store =>
    refine iff_of_true (fun hstuck => ?_) trivial
    simp only [step, ite_none_right_eq_some] at hstep
    obtain ⟨_, heq⟩ := hstep
    cases heq
    exact WakerPc.noConfusion hstuck.1
  | wake =>
    refine iff_of_true (fun hstuck => ?_) trivial
    simp only [step, ite_none_right_eq_some, map_eq_some_iff] at hstep
    obtain ⟨hpc, r, hr, heq⟩ := hstep
    cases heq
    obtain ⟨_, hparked, htoken⟩ := hstuck
    have hw : w.waker ≠ .finished := by
      rw [hpc]
      exact WakerPc.noConfusion
    obtain ⟨r', hr', hme⟩ := f.wakes c.others c.addr c.me c.count c.elsewhere c.positive
    rw [← h.joined hw hparked, hr] at hr'
    cases hr'
    simp only [hme, decide_true, Bool.or_true, Bool.true_eq_false] at htoken

theorem always_iff (c : FutexCalls f) (steps : List FutexStep) :
    c.system.Always (fun w => ¬w.Stuck) c.init steps ↔ c.system.Guarded FutexWorld.InTime c.init steps :=
  System.always_iff_guarded (J := c.Inv) (fun _ _ _ h => inv_step h) (fun _ _ _ h _ => stuck_step h) inv_init
    fun h => WakerPc.noConfusion h.1

end FutexCalls

/-- **A waiter sleeps on after the wake exactly when it joins the queue after the waker has looked at it, in
either futex.** -/
theorem waits_iff [DecidableEq τ] (steps : List FutexStep) :
    (∀ c : FutexCalls (bucketFutex : Futex (FutexWaiter τ) τ), c.system.Always (fun w => ¬w.Stuck) c.init steps ↔
      c.system.Guarded FutexWorld.InTime c.init steps) ∧
    ∀ c : FutexCalls (tableFutex : Futex (Nat × τ) τ), c.system.Always (fun w => ¬w.Stuck) c.init steps ↔
      c.system.Guarded FutexWorld.InTime c.init steps :=
  ⟨fun c => c.always_iff steps, fun c => c.always_iff steps⟩

/-- A wait for `0` on a word that holds it, and a waker that stores `1`. -/
def FutexCalls.zeroToOne (f : Futex ε Unit) : FutexCalls f where
  me := ()
  addr := 64
  expected := 0
  val := 0
  stored := 1
  count := 1
  others := []
  token := false
  changes := by decide
  positive := by decide
  elsewhere := fun _ h => absurd h not_mem_nil

/-- The store and the wake fall between the two steps of the waiter. -/
theorem wake_missed :
    (∃ w, (FutexCalls.zeroToOne bucketFutex).system.run (FutexCalls.zeroToOne bucketFutex).init
      [.load, .store, .wake, .enqueue] = some w ∧ w.Stuck) ∧
    ∃ w, (FutexCalls.zeroToOne tableFutex).system.run (FutexCalls.zeroToOne tableFutex).init
      [.load, .store, .wake, .enqueue] = some w ∧ w.Stuck :=
  ⟨⟨_, rfl, rfl, rfl, rfl⟩, _, rfl, rfl, rfl, rfl⟩

end ChaosKernel.Sync
