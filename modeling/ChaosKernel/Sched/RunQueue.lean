import ChaosKernel.Base.Bubble
import ChaosKernel.Base.Run
import ChaosKernel.Base.Scan
import ChaosKernel.Base.Words

/-! The run queue.

Three scores order the tasks. `enqueue` sorts by one that counts the nice value and
the weight, `dequeue` takes the least by one that counts the weight only, and
`pick_next` shows the least by one that counts neither and counts the priority a
tenth as much. `choice_iff` says on which queues the choices agree: the first task
with the least of the second score and the first with the least of the third have one
id, and both have the least of the first score. -/
namespace ChaosKernel.Sched
open Base

structure SchedulePolicy where
  policy : Nat
  prio : Int
  nice : Int
  timeSlice : Nat
  vruntime : Nat
  deriving DecidableEq, Repr

namespace SchedulePolicy

def weight (p : SchedulePolicy) : Nat :=
  if p.nice < -10 then 88761
  else if p.nice < 0 then 29154
  else if p.nice = 0 then 1024
  else if p.nice < 10 then 335
  else 110

/-- What `enqueue` sorts by. -/
def sortScore (p : SchedulePolicy) : Int := (p.prio * 1000 - p.nice * 50) + asIsize p.vruntime - p.weight

/-- What `dequeue` goes by. -/
def dequeueScore (p : SchedulePolicy) : Int := p.prio * 1000 + asIsize p.vruntime - p.weight

/-- What `pick_next` goes by. -/
def pickScore (p : SchedulePolicy) : Int := p.prio * 100 + asIsize p.vruntime

/-- The virtual runtime grows by `delta`, scaled by the weight. -/
def run (p : SchedulePolicy) (delta : Nat) : Option SchedulePolicy :=
  (mul? delta 1024).map fun scaled => {p with vruntime := (p.vruntime + scaled / p.weight) % wordSize}

/-- The priority is an `i32`. -/
def boost (p : SchedulePolicy) (amount : Int) : Option SchedulePolicy :=
  if -2 ^ 31 ≤ p.prio - amount ∧ p.prio - amount < 2 ^ 31 then some {p with prio := max (p.prio - amount) (-20)}
  else none

end SchedulePolicy

abbrev SchedTask := Nat × SchedulePolicy

/-- The first task with this id is changed. -/
def modifyFirst (id : Nat) (f : SchedulePolicy → Option SchedulePolicy) : List SchedTask → Option (List SchedTask)
  | [] => some []
  | e :: rest =>
    if e.1 = id then (f e.2).map fun p => (e.1, p) :: rest else (modifyFirst id f rest).map fun l => e :: l

def i64Max : Int := 2 ^ 63 - 1

structure RunQueue where
  queue : List SchedTask
  deriving DecidableEq, Repr

namespace RunQueue

def new : RunQueue := ⟨[]⟩

def enqueue (q : RunQueue) (id : Nat) (policy : SchedulePolicy) : RunQueue :=
  ⟨bubbleSort (fun e : SchedTask => e.2.sortScore) (q.queue ++ [(id, policy)])⟩

/-- The task that is taken, and the queue it leaves. -/
def dequeue (q : RunQueue) : Option (SchedTask × RunQueue) :=
  if q.queue = [] then none
  else
    let bestIdx := (scanIdx (· < ·) (fun e : SchedTask => some e.2.dequeueScore) i64Max q.queue).getD 0
    q.queue[bestIdx]?.map fun e => (e, ⟨q.queue.eraseIdx bestIdx⟩)

/-- The task `pick_next` ends its loop with; the first one beats none at all. -/
def pickTask (q : RunQueue) : Option SchedTask :=
  (scan (· < ·) (fun e : SchedTask => some (e.2.pickScore : WithTop Int)) ⊤ q.queue).1

def pickNext (q : RunQueue) : Option Nat := q.pickTask.map Prod.fst

def rebalance (q : RunQueue) (tick : Nat) : Option RunQueue :=
  (q.queue.mapM fun e : SchedTask => (e.2.run tick).map fun p => (e.1, p)).map fun l =>
    ⟨exchangeSort (fun e : SchedTask => e.2.vruntime) l⟩

/-- The queue, and whether a task was removed. -/
def remove (q : RunQueue) (id : Nat) : RunQueue × Bool :=
  let left := q.queue.filter fun e => e.1 ≠ id
  (⟨left⟩, left.length < q.queue.length)

def updateVruntime (q : RunQueue) (id delta : Nat) : Option RunQueue :=
  (modifyFirst id (fun p => p.run delta) q.queue).map RunQueue.mk

def boostPriority (q : RunQueue) (id : Nat) (amount : Int) : Option RunQueue :=
  (modifyFirst id (fun p => p.boost amount) q.queue).map RunQueue.mk

end RunQueue

/-! ### Histories -/

inductive RunQueueOp where
  | enqueue (id : Nat) (policy : SchedulePolicy)
  | dequeue
  | remove (id : Nat)
  | updateVruntime (id delta : Nat)
  | boostPriority (id : Nat) (amount : Int)
  | rebalance (tick : Nat)
  deriving DecidableEq, Repr

namespace RunQueue

def step (q : RunQueue) : RunQueueOp → Option RunQueue
  | .enqueue id policy => some (q.enqueue id policy)
  | .dequeue => some ((q.dequeue.map Prod.snd).getD q)
  | .remove id => some (q.remove id).1
  | .updateVruntime id delta => q.updateVruntime id delta
  | .boostPriority id amount => q.boostPriority id amount
  | .rebalance tick => q.rebalance tick

def system : System RunQueue RunQueueOp := ⟨step⟩

/-- The fields are what their types hold, and the virtual runtimes far from the end of an `i64`. -/
def InRange (q : RunQueue) : Prop :=
  ∀ e ∈ q.queue, (-2 ^ 31 ≤ e.2.prio ∧ e.2.prio < 2 ^ 31) ∧ (-2 ^ 31 ≤ e.2.nice ∧ e.2.nice < 2 ^ 31) ∧
    e.2.vruntime < 2 ^ 62

instance (q : RunQueue) : Decidable q.InRange := inferInstanceAs (Decidable (∀ e ∈ q.queue, _))

/-- No task comes before `e` in the order of `enqueue`. -/
def Least (q : RunQueue) (e : SchedTask) : Prop := ∀ f ∈ q.queue, e.2.sortScore ≤ f.2.sortScore

/-- What `pick_next` shows is what `dequeue` takes, and both choose a task that is least in the order of
`enqueue`. -/
def Consistent (q : RunQueue) : Prop :=
  ∀ id, q.pickNext = some id →
    (∃ e, q.pickTask = some e ∧ q.Least e) ∧ ∃ e q', q.dequeue = some (e, q') ∧ e.1 = id ∧ q.Least e

/-- `e` is the first of the tasks with the least `score`. -/
def First (q : RunQueue) (score : SchedulePolicy → Int) (e : SchedTask) : Prop :=
  FirstLeast (fun f : SchedTask => score f.2) q.queue e

/-- The first task with the least pick score and the first with the least dequeue score have one id, and both
have the least sort score. -/
def Agreeing (q : RunQueue) : Prop :=
  q.queue = [] ∨ ∃ e f, q.First SchedulePolicy.pickScore e ∧ q.First SchedulePolicy.dequeueScore f ∧ e.1 = f.1 ∧
    q.Least e ∧ q.Least f

/-! ### The choices -/

variable {q : RunQueue} {e : SchedTask}

theorem pickTask_iff : q.pickTask = some e ↔ q.First SchedulePolicy.pickScore e := by
  rw [pickTask, scan_eq_some_iff, and_iff_right (WithTop.coe_lt_top _)]
  simp only [First, FirstLeast, WithTop.coe_lt_coe, WithTop.coe_le_coe]

/-- Every score in range is one that the loop of `dequeue` takes. -/
theorem dequeueScore_lt (h : q.InRange) (he : e ∈ q.queue) : e.2.dequeueScore < i64Max := by
  obtain ⟨⟨_, hprio⟩, _, hvruntime⟩ := h e he
  have hcast : asIsize e.2.vruntime = e.2.vruntime := by
    rw [asIsize_eq, if_pos] <;> omega
  unfold SchedulePolicy.dequeueScore i64Max
  rw [hcast]
  omega

theorem dequeue_task (h : q.InRange) : q.dequeue.map Prod.fst =
    (scan (· < ·) (fun e : SchedTask => some e.2.dequeueScore) i64Max q.queue).1 := by
  unfold dequeue
  split
  · next hnil =>
    rw [hnil]
    rfl
  · next hne =>
    cases hidx : scanIdx (· < ·) (fun e : SchedTask => some e.2.dequeueScore) i64Max q.queue with
    | none =>
      obtain ⟨e, he⟩ := List.exists_mem_of_ne_nil _ hne
      exact absurd (dequeueScore_lt h he) (scan_eq_none.mp (scanIdx_none hidx) e he _ rfl)
    | some idx =>
      obtain ⟨e, hget, hscan⟩ := scanIdx_some hidx
      simp only [Option.getD_some, hget, hscan, Option.map_some]

theorem dequeue_iff (h : q.InRange) :
    (∃ q', q.dequeue = some (e, q')) ↔ q.First SchedulePolicy.dequeueScore e := by
  have htask : (∃ q', q.dequeue = some (e, q')) ↔ q.dequeue.map Prod.fst = some e := by
    rw [Option.map_eq_some_iff]
    exact ⟨fun ⟨q', hq'⟩ => ⟨(e, q'), hq', rfl⟩, fun ⟨⟨e', q'⟩, hq', heq⟩ => ⟨q', heq ▸ hq'⟩⟩
  rw [htask, dequeue_task h, scan_eq_some_iff]
  exact and_iff_right_of_imp fun hfirst => dequeueScore_lt h hfirst.mem

theorem pickTask_ne_nil (h : q.queue ≠ []) : ∃ e, q.pickTask = some e := by
  obtain ⟨e, he⟩ := List.exists_mem_of_ne_nil _ h
  refine Option.ne_none_iff_exists'.mp fun hnone => ?_
  exact scan_eq_none.mp hnone e he _ rfl (WithTop.coe_lt_top _)

/-- **On a queue that a history leads to, `pick_next` and `dequeue` choose the same task, and one that is least in
the order of `enqueue`, exactly when the three scores agree on it.** -/
theorem choice_iff (ops : List RunQueueOp) (hrange : system.Always InRange new ops) (q : RunQueue)
    (hrun : system.run new ops = some q) : q.Consistent ↔ q.Agreeing := by
  have h : q.InRange := hrange ops q (List.prefix_refl _) hrun
  constructor
  · intro hc
    by_cases hne : q.queue = []
    · exact .inl hne
    · obtain ⟨e, he⟩ := pickTask_ne_nil hne
      obtain ⟨⟨e', he', hleast⟩, f, q', hf, hid, hleast'⟩ := hc e.1 (by rw [pickNext, he]; rfl)
      cases he.symm.trans he'
      exact .inr ⟨e, f, pickTask_iff.mp he, (dequeue_iff h).mp ⟨q', hf⟩, hid.symm, hleast, hleast'⟩
  · intro hagree id hid
    obtain ⟨e, he, rfl⟩ := Option.map_eq_some_iff.mp hid
    rcases hagree with hnil | ⟨e', f, he', hf, hsame, hleast, hleast'⟩
    · rw [pickTask, hnil] at he
      cases he
    · cases he.symm.trans (pickTask_iff.mpr he')
      obtain ⟨q', hq'⟩ := (dequeue_iff h).mpr hf
      exact ⟨⟨e, he, hleast⟩, f, q', hq', hsame.symm, hleast'⟩

/-- A task of normal weight that has not run yet, and a heavier one that has. -/
def twoTasks : List RunQueueOp := [.enqueue 1 ⟨0, 0, 0, 10, 0⟩, .enqueue 2 ⟨0, 0, -5, 10, 100⟩]

theorem twoTasks_inRange : system.Always InRange new twoTasks := by
  have hall : ∀ done ∈ twoTasks.inits, (system.run new done).all (fun q => q.InRange) = true := by decide +kernel
  intro done q hpre hrun
  have hdone := hall done ((List.mem_inits done twoTasks).mpr hpre)
  rw [hrun] at hdone
  exact of_decide_eq_true hdone

theorem choice_iff_twoTasks : ∃ q, system.run new twoTasks = some q ∧ system.Always InRange new twoTasks ∧
    (q.Consistent ↔ q.Agreeing) := by
  obtain ⟨q, hq⟩ := Option.isSome_iff_exists.mp (show (system.run new twoTasks).isSome = true by decide +kernel)
  exact ⟨q, hq, twoTasks_inRange, choice_iff twoTasks twoTasks_inRange q hq⟩

/-- `pick_next` shows task 1, and `dequeue` takes task 2. -/
theorem choices_differ : system.Always InRange new twoTasks ∧
    ∃ q, system.run new twoTasks = some q ∧ ¬q.Consistent := by
  refine ⟨twoTasks_inRange, ?_⟩
  have hrun : (system.run new twoTasks).any (fun q => q.pickNext = some 1 ∧
      q.dequeue.map (fun d => d.1.1) = some 2) = true := by decide +kernel
  obtain ⟨q, hq, hpick, hdequeue⟩ := System.exists_of_run_any hrun
  refine ⟨q, hq, fun hc => ?_⟩
  obtain ⟨_, e, q', he, hid, _⟩ := hc 1 hpick
  rw [he, Option.map_some, hid] at hdequeue
  cases hdequeue

/-! ### Tasks of one kind -/

/-- **Where all tasks have one priority and one nice value, the virtual runtime decides for all three scores:
`pick_next` shows the task that `dequeue` takes, and no task comes before it in the order of `enqueue`.** -/
theorem chosen_of_uniform (hrange : q.InRange) (hne : q.queue ≠ [])
    (h : ∀ e ∈ q.queue, ∀ f ∈ q.queue, e.2.prio = f.2.prio ∧ e.2.nice = f.2.nice) :
    ∃ e q', q.pickTask = some e ∧ q.dequeue = some (e, q') ∧ q.Least e := by
  obtain ⟨e, he⟩ := pickTask_ne_nil hne
  have hfirst := pickTask_iff.mp he
  have hdiff : ∀ f ∈ q.queue, e.2.dequeueScore - f.2.dequeueScore = e.2.pickScore - f.2.pickScore ∧
      e.2.sortScore - f.2.sortScore = e.2.pickScore - f.2.pickScore := by
    intro f hf
    obtain ⟨hprio, hnice⟩ := h e hfirst.mem f hf
    have hweight : e.2.weight = f.2.weight := by
      unfold SchedulePolicy.weight
      rw [hnice]
    simp only [SchedulePolicy.dequeueScore, SchedulePolicy.sortScore, SchedulePolicy.pickScore, hprio, hnice,
      hweight]
    exact ⟨by ring, by ring⟩
  have hdequeue : q.First SchedulePolicy.dequeueScore e := by
    refine hfirst.congr (fun f hf => ?_) (fun f hf => ?_)
    · have := (hdiff f hf).1
      show f.2.dequeueScore ≤ e.2.dequeueScore ↔ f.2.pickScore ≤ e.2.pickScore
      omega
    · have := (hdiff f hf).1
      show e.2.dequeueScore ≤ f.2.dequeueScore ↔ e.2.pickScore ≤ f.2.pickScore
      omega
  obtain ⟨q', hq'⟩ := (dequeue_iff hrange).mpr hdequeue
  refine ⟨e, q', he, hq', fun f hf => ?_⟩
  have hpick : e.2.pickScore ≤ f.2.pickScore := hfirst.le hf
  have := (hdiff f hf).2
  omega

theorem chosen_of_uniform_three :
    ∃ e q', (RunQueue.mk [(1, ⟨0, 0, 0, 10, 5⟩), (2, ⟨0, 0, 0, 10, 3⟩), (3, ⟨0, 0, 0, 10, 3⟩)]).pickTask = some e ∧
      (RunQueue.mk [(1, ⟨0, 0, 0, 10, 5⟩), (2, ⟨0, 0, 0, 10, 3⟩), (3, ⟨0, 0, 0, 10, 3⟩)]).dequeue = some (e, q') ∧
      Least ⟨[(1, ⟨0, 0, 0, 10, 5⟩), (2, ⟨0, 0, 0, 10, 3⟩), (3, ⟨0, 0, 0, 10, 3⟩)]⟩ e :=
  chosen_of_uniform (by decide) (by decide) (by decide)

/-! ### The order that `enqueue` leaves -/

/-- What is computed on the way to the score fits in an `i64`, and the cast keeps the virtual runtime. -/
def ScoreFits (p : SchedulePolicy) : Prop :=
  asIsize p.vruntime = p.vruntime ∧
    ∀ n ∈ [p.prio * 1000, p.nice * 50, p.prio * 1000 - p.nice * 50,
      p.prio * 1000 - p.nice * 50 + asIsize p.vruntime, p.sortScore], -2 ^ 63 ≤ n ∧ n < 2 ^ 63

/-- **The queue is sorted by the score, whatever order it was in, and tasks with equal scores keep their places.** -/
theorem enqueue_stable (q : RunQueue) (id : Nat) (p : SchedulePolicy) (h : InRange ⟨q.queue ++ [(id, p)]⟩) :
    StablySorted (fun e : SchedTask => e.2.sortScore) (q.queue ++ [(id, p)]) (q.enqueue id p).queue ∧
      ∀ e ∈ q.queue ++ [(id, p)], ScoreFits e.2 := by
  refine ⟨bubbleSort_stable _, fun e he => ?_⟩
  obtain ⟨hprio, hnice, hvruntime⟩ := h e he
  have hcast : asIsize e.2.vruntime = e.2.vruntime := by
    rw [asIsize_eq, if_pos] <;> omega
  have hweight : e.2.weight ≤ 88761 := by
    unfold SchedulePolicy.weight
    split_ifs <;> decide
  refine ⟨hcast, ?_⟩
  simp only [List.forall_mem_cons, SchedulePolicy.sortScore, hcast]
  refine ⟨?_, ?_, ?_, ?_, ?_, fun n hn => absurd hn List.not_mem_nil⟩ <;> omega

theorem enqueue_stable_unsorted :
    ((RunQueue.mk [(1, ⟨0, 5, 0, 0, 0⟩), (2, ⟨0, 0, 0, 0, 5000⟩), (3, ⟨0, 1, 0, 0, 0⟩)]).enqueue 4
      ⟨0, 0, 0, 0, 0⟩).queue.map Prod.fst = [4, 3, 1, 2] ∧
    StablySorted (fun e : SchedTask => e.2.sortScore) [(2, ⟨0, 0, 0, 0, 5000⟩), (3, ⟨0, 1, 0, 0, 0⟩)]
      ((RunQueue.mk [(2, ⟨0, 0, 0, 0, 5000⟩)]).enqueue 3 ⟨0, 1, 0, 0, 0⟩).queue :=
  ⟨by decide +kernel, (enqueue_stable ⟨[(2, ⟨0, 0, 0, 0, 5000⟩)]⟩ 3 ⟨0, 1, 0, 0, 0⟩ (by decide)).1⟩

end RunQueue
end ChaosKernel.Sched
