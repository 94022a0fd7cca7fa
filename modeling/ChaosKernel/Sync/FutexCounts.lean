import ChaosKernel.Base.Run
import ChaosKernel.Base.Threads
import ChaosKernel.Sync.Futex

/-! Waits with timeouts.

A wait that is woken is taken off the queue by the waker. A wait whose timeout runs out
returns and leaves its entry behind, and a later wake is spent on it. `sleepers` is what
the queue is to be: the waits that sleep, in the order in which they came, each with the
address it waits at. `counts_iff`: the queue is that, and a wake counts real waiters, as
long as no timeout runs out. -/
namespace ChaosKernel.Sync
open Base List
variable {τ : Type}

/-- Where a thread is in `wait`: before its call, after it has read the word, at its park and after it. -/
inductive WaitPc where
  | idle
  | checked (addr : Nat) (timed : Bool)
  | parked (call : Nat) (timed flag : Bool)
  | awake (flag : Bool)
  deriving DecidableEq, Repr

structure FutexShared (τ : Type) where
  waiters : List (FutexWaiter (Ticket τ))
  tokens : τ → Bool
  calls : Nat
  sleepers : List (Nat × Ticket τ)

abbrev BucketWorld (τ : Type) := Threads τ (FutexShared τ) WaitPc

/-- `equal` is whether the word that is read has the expected value. -/
inductive BucketStep (τ : Type) where
  | load (t : τ) (addr : Nat) (equal timed : Bool)
  | enqueue (t : τ)
  | resume (t : τ)
  | expire (t : τ)
  | finish (t : τ)
  | wake (addr count : Nat)
  | requeue (src dst wakeN moveN : Nat)
  deriving DecidableEq, Repr

def WaitPc.isParked : WaitPc → Bool
  | .parked .. => true
  | _ => false

/-- The wait after a section that unparked `unparked`. -/
def WaitPc.woken [DecidableEq τ] (unparked : List (Ticket τ)) (t : τ) : WaitPc → WaitPc
  | .parked call timed flag => .parked call timed (flag || decide (⟨t, call⟩ ∈ unparked))
  | pc => pc

namespace BucketWorld
variable [DecidableEq τ]

/-- A section under the mutex that leaves the queue as `r` says, and the sleepers as they should be. -/
def serve (w : BucketWorld τ) (r : Woke (FutexWaiter (Ticket τ)) (Ticket τ)) (left : List (Nat × Ticket τ)) :
    BucketWorld τ where
  shared :=
    {w.shared with
      waiters := r.left
      tokens := fun t => w.shared.tokens t || decide (t ∈ r.unparked.map Ticket.thread)
      sleepers := left}
  locals t := (w.locals t).woken r.unparked t

/-- The section in which a wait joins the queue. -/
def join (w : BucketWorld τ) (t : τ) (addr : Nat) (timed : Bool) : BucketWorld τ :=
  w.set t
    {w.shared with
      waiters := w.shared.waiters ++ [⟨addr, ⟨t, w.shared.calls⟩, false⟩]
      calls := w.shared.calls + 1
      sleepers := w.shared.sleepers ++ [(addr, ⟨t, w.shared.calls⟩)]}
    (.parked w.shared.calls timed false)

/-- A park returns with a token, which it takes. -/
def unpark (w : BucketWorld τ) (t : τ) (flag : Bool) : BucketWorld τ :=
  w.set t {w.shared with tokens := Function.update w.shared.tokens t false} (.awake flag)

/-- A park returns because its time is over. -/
def timeout (w : BucketWorld τ) (t : τ) (call : Nat) (flag : Bool) : BucketWorld τ :=
  w.set t {w.shared with sleepers := w.shared.sleepers.filter fun e => e.2 ≠ ⟨t, call⟩} (.awake flag)

def step (w : BucketWorld τ) : BucketStep τ → Option (BucketWorld τ)
  | .load t addr equal timed =>
    match w.locals t with
    | .idle => if equal then some (w.set t w.shared (.checked addr timed)) else some w
    | _ => none
  | .enqueue t =>
    match w.locals t with
    | .checked addr timed => some (w.join t addr timed)
    | _ => none
  | .resume t =>
    match w.locals t with
    | .parked _ _ flag => if w.shared.tokens t then some (w.unpark t flag) else none
    | _ => none
  | .expire t =>
    match w.locals t with
    | .parked call true flag => if w.shared.tokens t then none else some (w.timeout t call flag)
    | _ => none
  | .finish t =>
    match w.locals t with
    | .awake _ => some (w.set t w.shared .idle)
    | _ => none
  | .wake addr count =>
    some (w.serve (FutexBucket.wake w.shared.waiters addr count)
      (Woke.of addr 0 (fates addr count 0 0 0 w.shared.sleepers)).left)
  | .requeue src dst wakeN moveN =>
    some (w.serve (FutexBucket.requeue w.shared.waiters src dst wakeN moveN)
      (Woke.of dst 0 (fates src wakeN moveN 0 0 w.shared.sleepers)).left)

def system : System (BucketWorld τ) (BucketStep τ) := ⟨step⟩

def init : BucketWorld τ := ⟨⟨[], fun _ => false, 0, []⟩, fun _ => .idle⟩

/-- The thread sleeps: it is at its park and has no token. -/
def Blocked (w : BucketWorld τ) (t : τ) : Prop := (w.locals t).isParked = true ∧ w.shared.tokens t = false

/-- The queue holds the threads that sleep, each once and at its address, and a wake takes as many of them as it
is asked to and as there are, the first ones first. -/
structure Exact (w : BucketWorld τ) : Prop where
  queue : w.shared.waiters = unflagged w.shared.sleepers
  once : (w.shared.sleepers.map fun e => e.2.thread).Nodup
  blocked : ∀ t, t ∈ (w.shared.sleepers.map fun e => e.2.thread) ↔ w.Blocked t
  wakes : ∀ addr n, (FutexBucket.wake w.shared.waiters addr n).count =
      min n (w.shared.sleepers.filter fun e => e.1 = addr).length ∧
    (FutexBucket.wake w.shared.waiters addr n).unparked =
      ((w.shared.sleepers.filter fun e => e.1 = addr).take n).map Prod.snd
  pending : ∀ addr, FutexBucket.pendingAt w.shared.waiters addr =
    (w.shared.sleepers.filter fun e => e.1 = addr).length

end BucketWorld

def BucketStep.NoExpiry : BucketStep τ → Prop
  | .expire _ => False
  | _ => True

/-! ### What a section does to the sleepers -/

/-- A wake takes the first `n` at the address. -/
theorem wake_fates (addr n wk : Nat) (q : List (Nat × τ)) :
    (Woke.of addr wk (fates addr n 0 wk 0 q)).count = wk + min (n - wk) (q.filter fun e => e.1 = addr).length ∧
    (Woke.of addr wk (fates addr n 0 wk 0 q)).unparked =
      ((q.filter fun e => e.1 = addr).take (n - wk)).map Prod.snd := by
  induction q generalizing wk with
  | nil => exact ⟨by simp [Woke.of, fates], by simp [Woke.of, fates]⟩
  | cons e rest ih =>
    rw [fates]
    by_cases he : e.1 = addr
    · rw [if_pos he, filter_cons_of_pos (by simpa using he)]
      by_cases hwk : wk < n
      · obtain ⟨hcount, hunparked⟩ := ih (wk + 1)
        obtain ⟨k, hk⟩ : ∃ k, n - wk = k + 1 := ⟨n - wk - 1, by omega⟩
        have hk' : n - (wk + 1) = k := by omega
        rw [if_pos hwk, Woke.of_woken, hk, take_succ_cons, map_cons, length_cons]
        rw [hk'] at hcount hunparked
        refine ⟨?_, congrArg (e.2 :: ·) hunparked⟩
        show (Woke.of addr (wk + 1) _).count = _
        rw [hcount]
        omega
      · obtain ⟨hcount, hunparked⟩ := ih wk
        have hzero : n - wk = 0 := by omega
        rw [hzero] at hcount hunparked ⊢
        rw [if_neg hwk, if_neg (Nat.lt_irrefl 0), Woke.of_kept]
        refine ⟨?_, hunparked⟩
        show (Woke.of addr wk _).count = _
        rw [hcount, Nat.zero_min, Nat.zero_min]
    · rw [if_neg he, filter_cons_of_neg (by simpa using he), Woke.of_kept]
      exact ih wk

theorem unflagged_injective : Function.Injective (unflagged : List (Nat × τ) → List (FutexWaiter τ)) := by
  refine map_injective_iff.mpr fun e e' h => ?_
  injection h with haddr hthread
  exact Prod.ext haddr hthread

theorem of_perm (dst wk : Nat) (fated : List ((Nat × τ) × Fate)) :
    ((Woke.of dst wk fated).left.map Prod.snd ++ (Woke.of dst wk fated).unparked).Perm
      ((fated.map Prod.fst).map Prod.snd) := by
  induction fated generalizing wk with
  | nil => exact List.Perm.refl _
  | cons p rest ih =>
    obtain ⟨e, fate⟩ := p
    cases fate with
    | kept => exact (ih wk).cons e.2
    | moved => exact (ih wk).cons e.2
    | woken =>
      rw [Woke.of_woken]
      exact perm_middle.trans ((ih (wk + 1)).cons e.2)

namespace BucketWorld
variable [DecidableEq τ] {w w' : BucketWorld τ} {a : BucketStep τ}

/-- A token is for a thread at its park, and who is at its park without one is in the queue. -/
structure Sound (w : BucketWorld τ) : Prop where
  queue : w.shared.waiters = unflagged w.shared.sleepers
  once : (w.shared.sleepers.map fun e => e.2.thread).Nodup
  blocked : ∀ t, t ∈ (w.shared.sleepers.map fun e => e.2.thread) ↔ w.Blocked t
  tokens : ∀ t, w.shared.tokens t = true → (w.locals t).isParked = true

omit [DecidableEq τ] in
theorem Sound.exact (h : w.Sound) : w.Exact := by
  refine ⟨h.queue, h.once, h.blocked, fun addr n => ?_, fun addr => ?_⟩
  · have hwake := FutexBucket.wakeLoop_eq addr n 0 w.shared.sleepers
    have hspec := wake_fates addr n 0 w.shared.sleepers
    rw [Nat.zero_add, Nat.sub_zero] at hspec
    rw [h.queue, FutexBucket.wake, hwake]
    exact hspec
  · rw [h.queue, FutexBucket.pendingAt, unflagged, List.filter_map, length_map]
    rfl

theorem isParked_woken (unparked : List (Ticket τ)) (t : τ) (pc : WaitPc) :
    (pc.woken unparked t).isParked = pc.isParked := by
  cases pc <;> rfl

theorem Sound.serve (h : w.Sound) {dst wk : Nat} {fated : List ((Nat × Ticket τ) × Fate)}
    (hfated : fated.map Prod.fst = w.shared.sleepers) :
    (w.serve (Woke.of dst wk fated).unflagged (Woke.of dst wk fated).left).Sound := by
  have hperm := (of_perm dst wk fated).map Ticket.thread
  rw [hfated, map_append, map_map, map_map] at hperm
  have hnodup := hperm.nodup_iff.mpr h.once
  have hmem : ∀ t, t ∈ (Woke.of dst wk fated).left.map (fun e => e.2.thread) ↔
      w.Blocked t ∧ t ∉ (Woke.of dst wk fated).unparked.map Ticket.thread := by
    intro t
    rw [← h.blocked t]
    have := hperm.mem_iff (a := t)
    rw [mem_append] at this
    have hdisj := (nodup_append.mp hnodup).2.2
    exact ⟨fun hl => ⟨this.mp (.inl hl), fun hu => hdisj t hl t hu rfl⟩,
      fun ht => (this.mpr ht.1).resolve_right ht.2⟩
  refine ⟨rfl, (nodup_append.mp hnodup).1, fun t => (hmem t).trans ?_, fun t ht => ?_⟩
  · simp only [Blocked, BucketWorld.serve, isParked_woken, Bool.or_eq_false_iff, decide_eq_false_iff_not, and_assoc]
    exact Iff.rfl
  · simp only [BucketWorld.serve, isParked_woken, Bool.or_eq_true, decide_eq_true_eq] at ht ⊢
    rcases ht with ht | ht
    · exact h.tokens t ht
    · exact ((h.blocked t).mp (hperm.mem_iff.mp (mem_append_right _ ht))).1

variable {t : τ} {timed flag : Bool}

theorem Sound.move (h : w.Sound) {pc : WaitPc} (hpc : (w.locals t).isParked = false)
    (hpc' : pc.isParked = false) : Sound (w.set t w.shared pc) := by
  have hlocal : ∀ u, ((w.set t w.shared pc).locals u).isParked = (w.locals u).isParked :=
    w.forall_set (P := fun u l => l.isParked = (w.locals u).isParked) (by rw [hpc, hpc']) fun _ _ => rfl
  refine ⟨h.queue, h.once, fun u => ?_, fun u hu => ?_⟩
  · rw [Blocked, hlocal]
    exact h.blocked u
  · rw [hlocal]
    exact h.tokens u hu

theorem Sound.join (h : w.Sound) {addr : Nat} (hpc : (w.locals t).isParked = false) :
    (w.join t addr timed).Sound := by
  have htoken : w.shared.tokens t = false := by
    rw [← Bool.not_eq_true]
    intro ht
    rw [h.tokens t ht] at hpc
    cases hpc
  have hnot : t ∉ w.shared.sleepers.map fun e => e.2.thread := by
    rw [h.blocked]
    intro ht
    rw [ht.1] at hpc
    cases hpc
  refine ⟨?_, ?_, fun u => ?_, fun u hu => ?_⟩
  · simp only [BucketWorld.join, Threads.set_shared, unflagged, map_append, map_singleton]
    rw [h.queue]
    rfl
  · simp only [BucketWorld.join, Threads.set_shared, map_append, map_singleton]
    exact nodup_append.mpr ⟨h.once, nodup_singleton _, fun u hu v hv heq =>
      hnot (mem_singleton.mp hv ▸ heq ▸ hu)⟩
  · simp only [Blocked, BucketWorld.join, Threads.set_shared, map_append, map_singleton, mem_append,
      mem_singleton]
    by_cases hu : u = t
    · subst hu
      rw [w.set_self]
      exact iff_of_true (.inr rfl) ⟨rfl, htoken⟩
    · rw [w.set_other hu, or_iff_left hu]
      exact h.blocked u
  · by_cases hut : u = t
    · subst hut
      rw [BucketWorld.join, w.set_self]
      rfl
    · rw [BucketWorld.join, w.set_other hut]
      exact h.tokens u hu

theorem Sound.unpark (h : w.Sound) (htoken : w.shared.tokens t = true) : (w.unpark t flag).Sound := by
  refine ⟨h.queue, h.once, fun u => (h.blocked u).trans ?_, fun u hu => ?_⟩
  · by_cases hu : u = t
    · subst hu
      refine iff_of_false (fun hb => ?_) fun hb => ?_
      · rw [hb.2] at htoken
        cases htoken
      · rw [Blocked, BucketWorld.unpark, w.set_self] at hb
        cases hb.1
    · simp only [Blocked, BucketWorld.unpark, Threads.set_shared, w.set_other hu, Function.update_of_ne hu]
  · by_cases hut : u = t
    · subst hut
      simp only [BucketWorld.unpark, Threads.set_shared, Function.update_self, Bool.false_eq_true] at hu
    · simp only [BucketWorld.unpark, Threads.set_shared, Function.update_of_ne hut] at hu
      rw [BucketWorld.unpark, w.set_other hut]
      exact h.tokens u hu

theorem sound_step (h : w.Sound) (hno : a.NoExpiry) (hstep : w.step a = some w') : w'.Sound := by
  cases a with
  | load t addr equal timed =>
    simp only [step] at hstep
    split at hstep
    · next hpc =>
      split at hstep
      · cases hstep
        exact h.move (by rw [hpc]; rfl) rfl
      · cases hstep
        exact h
    · cases hstep
  | enqueue t =>
    simp only [step] at hstep
    split at hstep
    · next addr timed hpc =>
      cases hstep
      exact h.join (by rw [hpc]; rfl)
    · cases hstep
  | resume t =>
    simp only [step] at hstep
    split at hstep
    · rw [Option.ite_none_right_eq_some] at hstep
      obtain ⟨htoken, heq⟩ := hstep
      cases heq
      exact h.unpark htoken
    · cases hstep
  | expire t => exact hno.elim
  | finish t =>
    simp only [step] at hstep
    split at hstep
    · next hpc =>
      cases hstep
      exact h.move (by rw [hpc]; rfl) rfl
    · cases hstep
  | wake addr count =>
    cases hstep
    have hwake := FutexBucket.wakeLoop_eq addr count 0 w.shared.sleepers
    rw [← h.queue] at hwake
    rw [FutexBucket.wake, hwake]
    exact h.serve (fates_spec 0 0 w.shared.sleepers).entries
  | requeue src dst wakeN moveN =>
    cases hstep
    have hrequeue := FutexBucket.requeueLoop_eq src dst wakeN moveN 0 0 w.shared.sleepers
    rw [← h.queue] at hrequeue
    rw [FutexBucket.requeue, hrequeue]
    exact h.serve (fates_spec 0 0 w.shared.sleepers).entries

/-- The entry of a wait that times out stays in the queue. -/
theorem not_exact_of_expire (h : w.Exact) (hstep : w.step (.expire t) = some w') : ¬w'.Exact := by
  intro h'
  simp only [step] at hstep
  split at hstep
  · next call flag hpc =>
    rw [Option.ite_none_left_eq_some] at hstep
    obtain ⟨htoken, heq⟩ := hstep
    cases heq
    have hin : t ∈ w.shared.sleepers.map fun e => e.2.thread :=
      (h.blocked t).mpr ⟨by rw [hpc]; rfl, Bool.eq_false_iff.mpr htoken⟩
    have hsame : w.shared.sleepers = (w.timeout t call flag).shared.sleepers :=
      unflagged_injective (h.queue.symm.trans h'.queue)
    rw [hsame, h'.blocked, Blocked, timeout, w.set_self] at hin
    cases hin.1
  · cases hstep

/-- **The queue holds the threads that sleep in a wait, and a wake counts them, exactly as long as no timeout
runs out.** -/
theorem counts_iff (steps : List (BucketStep τ)) :
    system.Always Exact (init : BucketWorld τ) steps ↔
      system.Guarded (fun _ a => a.NoExpiry) (init : BucketWorld τ) steps := by
  refine System.always_iff_guarded_of_keeps (J := fun _ => True) (I := Sound) (fun _ _ _ _ _ => trivial)
    (fun _ _ _ h hno => sound_step h hno) (fun _ h => h.exact) (fun w a w' _ h hstep h' => ?_) trivial ?_
  · cases a with
    | expire t => exact not_exact_of_expire h hstep h'
    | load | enqueue | resume | finish | wake | requeue => trivial
  · exact ⟨rfl, nodup_nil, fun t => iff_of_false not_mem_nil fun h => Bool.false_ne_true h.1,
      fun t ht => absurd ht Bool.false_ne_true⟩

/-- Thread `true` times out, and the wake that is meant for thread `false` is spent on the entry left behind. -/
theorem wake_spent : ∃ w w' : BucketWorld Bool, system.run init
      [.load true 64 true true, .enqueue true, .expire true, .load false 64 true false, .enqueue false] = some w ∧
    ¬w.Exact ∧ system.run w [.wake 64 1] = some w' ∧ w'.Blocked false :=
  ⟨_, _, rfl, fun h => absurd (congrArg List.length h.queue) (by decide), rfl, rfl, rfl⟩

end BucketWorld
end ChaosKernel.Sync
