import ChaosKernel.Sched.RunQueue

/-! The task that runs, and how it comes back.

A task leaves the queue with its policy and becomes the current one by its id alone.
When it yields, it goes back to the end of the queue with the policy of a new task:
what it had used up of its share is forgotten. A task that is current when another
one is made current is in neither place any more.

`YieldWorld` keeps beside the queue which tasks were added, with what policy the
current one was taken out, and what each yield has put back. `scheduling_iff` says in
which runs every task and its policy are kept. -/
namespace ChaosKernel.Sched
open Base List Option

def schedNormal : Nat := 0
def prioDefault : Int := 0

def SchedulePolicy.new : SchedulePolicy := ⟨schedNormal, prioDefault, 0, 10, 0⟩

/-- The queue and the task that runs. -/
structure CpuQueue where
  ready : RunQueue
  current : Option Nat
  deriving DecidableEq, Repr

namespace CpuQueue

def new : CpuQueue := ⟨RunQueue.new, none⟩

def setCurrent (cpu : CpuQueue) (id : Nat) : CpuQueue := {cpu with current := some id}

/-- The task that yields is put behind the others; the queue is not sorted. -/
def yieldCurrent (cpu : CpuQueue) : Bool × CpuQueue :=
  match cpu.current with
  | some id => (true, ⟨⟨cpu.ready.queue ++ [(id, SchedulePolicy.new)]⟩, none⟩)
  | none => (false, cpu)

/-- The policy with which a task waits. -/
def waiting (cpu : CpuQueue) (id : Nat) : Option SchedulePolicy :=
  (cpu.ready.queue.find? fun e => e.1 = id).map Prod.snd

/-- The tasks that wait or run. -/
def tasks (cpu : CpuQueue) : List Nat := cpu.ready.queue.map Prod.fst ++ cpu.current.toList

end CpuQueue

/-- A yield: the policy with which the task was taken out, and the one with which it waits after it. -/
structure YieldRecord where
  id : Nat
  before : SchedulePolicy
  after : Option SchedulePolicy

/-- The task waits again, with its own policy and not less virtual runtime. -/
def YieldRecord.Fair (y : YieldRecord) : Prop :=
  ∃ p, y.after = some p ∧ p.policy = y.before.policy ∧ p.prio = y.before.prio ∧ p.nice = y.before.nice ∧
    y.before.vruntime ≤ p.vruntime

/-- After a fair yield the task is not ahead of where it was, by any of the three scores. -/
theorem YieldRecord.Fair.scores {y : YieldRecord} (h : y.Fair) {p : SchedulePolicy} (hp : y.after = some p)
    (hrange : p.vruntime < 2 ^ 63) : y.before.sortScore ≤ p.sortScore ∧ y.before.dequeueScore ≤ p.dequeueScore ∧
      y.before.pickScore ≤ p.pickScore := by
  obtain ⟨p', hp', _, hprio, hnice, hle⟩ := h
  obtain rfl := some.inj (hp.symm.trans hp')
  have hcast (v : Nat) (hv : v < 2 ^ 63) : asIsize v = v := by
    rw [asIsize_eq, if_pos] <;> omega
  have hweight : p.weight = y.before.weight := by
    unfold SchedulePolicy.weight
    rw [hnice]
  have hbefore := hcast y.before.vruntime (by omega)
  have hafter := hcast p.vruntime hrange
  simp only [SchedulePolicy.sortScore, SchedulePolicy.dequeueScore, SchedulePolicy.pickScore, hprio, hnice, hweight,
    hbefore, hafter]
  have hle' : (y.before.vruntime : Int) ≤ p.vruntime := Int.ofNat_le.mpr hle
  exact ⟨Int.sub_le_sub_right (Int.add_le_add_left hle' _) _, Int.sub_le_sub_right (Int.add_le_add_left hle' _) _,
    Int.add_le_add_left hle' _⟩

structure YieldWorld where
  cpu : CpuQueue
  added : List Nat
  taken : Option SchedulePolicy
  yields : List YieldRecord

inductive YieldOp where
  | enqueue (id : Nat) (policy : SchedulePolicy)
  | dispatch
  | yieldCurrent
  | rebalance (tick : Nat)
  | updateVruntime (id delta : Nat)
  deriving DecidableEq, Repr

namespace YieldWorld

def start : YieldWorld := ⟨CpuQueue.new, [], none, []⟩

/-- Ids are not used twice. `dispatch` is `dequeue` followed by `set_current` with the task that came out. -/
def step (w : YieldWorld) : YieldOp → Option YieldWorld
  | .enqueue id policy =>
    if id ∈ w.added then none
    else some {w with cpu := {w.cpu with ready := w.cpu.ready.enqueue id policy}, added := w.added ++ [id]}
  | .dispatch =>
    match w.cpu.ready.dequeue with
    | none => some w
    | some (e, ready) => some {w with cpu := {w.cpu with ready := ready}.setCurrent e.1, taken := some e.2}
  | .yieldCurrent =>
    let cpu := w.cpu.yieldCurrent.2
    match w.cpu.current, w.taken with
    | some id, some before =>
      some {w with cpu := cpu, taken := none, yields := w.yields ++ [⟨id, before, cpu.waiting id⟩]}
    | _, _ => some {w with cpu := cpu}
  | .rebalance tick => (w.cpu.ready.rebalance tick).map fun ready => {w with cpu := {w.cpu with ready := ready}}
  | .updateVruntime id delta =>
    (w.cpu.ready.updateVruntime id delta).map fun ready => {w with cpu := {w.cpu with ready := ready}}

def system : System YieldWorld YieldOp := ⟨step⟩

/-- Every task that was added waits or runs, and every yield was fair. -/
structure Kept (w : YieldWorld) : Prop where
  tasks : w.cpu.tasks.Perm w.added
  fair : ∀ y ∈ w.yields, y.Fair

/-- The policy, apart from its time slice, is the one of a new task. -/
def Fresh (p : SchedulePolicy) : Prop := p.policy = schedNormal ∧ p.prio = prioDefault ∧ p.nice = 0 ∧ p.vruntime = 0

instance (p : SchedulePolicy) : Decidable (Fresh p) := inferInstanceAs (Decidable (_ ∧ _))

/-- No task is made current in another one's place, and a task that yields has the policy of a new one. -/
def Careful (w : YieldWorld) : YieldOp → Prop
  | .dispatch => w.cpu.ready.queue = [] ∨ w.cpu.current = none
  | .yieldCurrent => ∀ p, w.taken = some p → Fresh p
  | _ => True

end YieldWorld

/-! ### The ids in the queue -/

namespace RunQueue
variable {q q' : RunQueue}

theorem enqueue_ids (q : RunQueue) (id : Nat) (policy : SchedulePolicy) :
    ((q.enqueue id policy).queue.map Prod.fst).Perm (q.queue.map Prod.fst ++ [id]) := by
  have h := (bubbleSort_perm (fun e : SchedTask => e.2.sortScore) (q.queue ++ [(id, policy)])).map Prod.fst
  rwa [map_append, map_singleton] at h

theorem dequeue_some {e : SchedTask} (h : q.dequeue = some (e, q')) : (e :: q'.queue).Perm q.queue := by
  rw [dequeue, ite_none_left_eq_some] at h
  obtain ⟨_, h⟩ := h
  obtain ⟨e', hget, heq⟩ := map_eq_some_iff.mp h
  obtain ⟨rfl, rfl⟩ := Prod.mk.inj heq
  obtain ⟨hlt, hget⟩ := List.getElem?_eq_some_iff.mp hget
  rw [← hget]
  exact getElem_cons_eraseIdx_perm hlt

theorem dequeue_none (h : q.dequeue = none) : q.queue = [] := by
  by_contra hne
  rw [dequeue, if_neg hne, map_eq_none_iff] at h
  cases hidx : scanIdx (· < ·) (fun e : SchedTask => some e.2.dequeueScore) i64Max q.queue with
  | none =>
    rw [hidx, getD_none] at h
    exact hne (length_eq_zero_iff.mp (Nat.le_zero.mp (List.getElem?_eq_none_iff.mp h)))
  | some idx =>
    obtain ⟨e, hget, _⟩ := scanIdx_some hidx
    rw [hidx, getD_some, hget] at h
    cases h

variable {tick id delta : Nat} {l l' : List SchedTask}

theorem mapM_run_ids (h : (l.mapM fun e : SchedTask => (e.2.run tick).map fun p => (e.1, p)) = some l') :
    l'.map Prod.fst = l.map Prod.fst := by
  induction l generalizing l' with
  | nil =>
    cases h
    rfl
  | cons e rest ih =>
    rw [mapM_cons] at h
    simp only [bind_eq_bind, bind_eq_some_iff, map_eq_some_iff, Option.pure_def,
      some.injEq] at h
    obtain ⟨e', ⟨p, _, rfl⟩, rest', hrest, rfl⟩ := h
    rw [map_cons, map_cons, ih hrest]

theorem rebalance_ids (h : q.rebalance tick = some q') :
    (q'.queue.map Prod.fst).Perm (q.queue.map Prod.fst) := by
  obtain ⟨l, hl, rfl⟩ := map_eq_some_iff.mp h
  rw [← mapM_run_ids hl]
  exact (exchangeSort_perm _ l).map Prod.fst

theorem modifyFirst_ids {f : SchedulePolicy → Option SchedulePolicy} (h : modifyFirst id f l = some l') :
    l'.map Prod.fst = l.map Prod.fst := by
  induction l generalizing l' with
  | nil =>
    cases h
    rfl
  | cons e rest ih =>
    rw [modifyFirst] at h
    split at h
    · obtain ⟨p, _, rfl⟩ := map_eq_some_iff.mp h
      rfl
    · obtain ⟨rest', hrest, rfl⟩ := map_eq_some_iff.mp h
      rw [map_cons, map_cons, ih hrest]

theorem updateVruntime_ids (h : q.updateVruntime id delta = some q') :
    q'.queue.map Prod.fst = q.queue.map Prod.fst := by
  obtain ⟨l, hl, rfl⟩ := map_eq_some_iff.mp h
  exact modifyFirst_ids hl

end RunQueue

namespace YieldWorld
variable {w w' : YieldWorld}

/-! ### What every run keeps -/

/-- Each task waits or runs once at most, and the policy of the one that runs is known. -/
structure Distinct (w : YieldWorld) : Prop where
  nodup : w.cpu.tasks.Nodup
  added : ∀ id ∈ w.cpu.tasks, id ∈ w.added
  taken : w.cpu.current.isSome = w.taken.isSome

/-- What a step does to the tasks, and whether it is a careful one. -/
inductive Change (w : YieldWorld) (op : YieldOp) (w' : YieldWorld) : Prop
  /-- The same tasks wait or run. -/
  | same (hcareful : w.Careful op) (htasks : w'.cpu.tasks.Perm w.cpu.tasks) (hadded : w'.added = w.added)
      (hyields : w'.yields = w.yields)
  | added (id : Nat) (hcareful : w.Careful op) (hnew : id ∉ w.added)
      (htasks : w'.cpu.tasks.Perm (w.cpu.tasks ++ [id])) (hadded : w'.added = w.added ++ [id])
      (hyields : w'.yields = w.yields)
  /-- The task that ran is gone. -/
  | lost (id : Nat) (hcareless : ¬w.Careful op) (htasks : (id :: w'.cpu.tasks).Perm w.cpu.tasks)
      (hadded : w'.added = w.added)
  /-- The task that ran waits with the policy of a new one. -/
  | yielded (id : Nat) (before : SchedulePolicy) (hcareful : w.Careful op ↔ Fresh before)
      (htasks : w'.cpu.tasks.Perm w.cpu.tasks) (hadded : w'.added = w.added)
      (hyields : w'.yields = w.yields ++ [⟨id, before, some SchedulePolicy.new⟩])

variable {op : YieldOp} {ready : RunQueue} {id : Nat}

theorem Change.of_ids (hcareful : w.Careful op)
    (hids : (ready.queue.map Prod.fst).Perm (w.cpu.ready.queue.map Prod.fst)) :
    Change w op {w with cpu := {w.cpu with ready := ready}} :=
  .same hcareful (hids.append_right _) rfl rfl

/-- The task that yields is found where it was put, since it does not wait already. -/
theorem waiting_yielded {queue : List SchedTask} (h : id ∉ queue.map Prod.fst) :
    CpuQueue.waiting ⟨⟨queue ++ [(id, SchedulePolicy.new)]⟩, none⟩ id = some SchedulePolicy.new := by
  have hnone : (queue.find? fun e => e.1 = id) = none := by
    rw [find?_eq_none]
    intro e he heq
    exact h (mem_map.mpr ⟨e, he, of_decide_eq_true heq⟩)
  rw [CpuQueue.waiting, find?_append, hnone]
  simp

theorem change_dispatch {e : SchedTask} (hdequeue : w.cpu.ready.dequeue = some (e, ready)) :
    Change w .dispatch {w with cpu := {w.cpu with ready := ready}.setCurrent e.1, taken := some e.2} := by
  have hids : (ready.queue.map Prod.fst ++ [e.1]).Perm (w.cpu.ready.queue.map Prod.fst) :=
    (perm_append_singleton e.1 _).trans ((RunQueue.dequeue_some hdequeue).map Prod.fst)
  cases hcurrent : w.cpu.current with
  | none =>
    refine .same (.inr hcurrent) ?_ rfl rfl
    rw [CpuQueue.tasks, CpuQueue.tasks, hcurrent]
    exact hids.trans (List.Perm.of_eq (append_nil _).symm)
  | some id =>
    refine .lost id (fun hcareful => ?_) ?_ rfl
    · rcases hcareful with hnil | hnone
      · rw [RunQueue.dequeue, if_pos hnil] at hdequeue
        cases hdequeue
      · rw [hcurrent] at hnone
        cases hnone
    · rw [CpuQueue.tasks, CpuQueue.tasks, hcurrent]
      exact (hids.cons id).trans (perm_append_singleton id _).symm

theorem Distinct.not_waiting (h : w.Distinct) (hcurrent : w.cpu.current = some id) :
    id ∉ w.cpu.ready.queue.map Prod.fst := by
  have hnodup := h.nodup
  rw [CpuQueue.tasks, hcurrent] at hnodup
  exact fun hin => (nodup_append.mp hnodup).2.2 id hin id (mem_singleton_self _) rfl

theorem Distinct.change_yieldCurrent (h : w.Distinct) (hstep : system.step w .yieldCurrent = some w') :
    w'.cpu.current.isSome = w'.taken.isSome ∧ Change w .yieldCurrent w' := by
  have htaken := h.taken
  cases hcurrent : w.cpu.current with
  | none =>
    rw [hcurrent, isSome_none, eq_comm, isSome_eq_false_iff, isNone_iff_eq_none] at htaken
    simp only [system, step, CpuQueue.yieldCurrent, hcurrent, htaken, some.injEq] at hstep
    subst hstep
    refine ⟨by rw [hcurrent]; rfl, .same (fun p hp => ?_) (.refl _) rfl rfl⟩
    rw [htaken] at hp
    cases hp
  | some id =>
    rw [hcurrent, isSome_some, eq_comm, isSome_iff_exists] at htaken
    obtain ⟨before, htaken⟩ := htaken
    simp only [system, step, CpuQueue.yieldCurrent, hcurrent, htaken, some.injEq] at hstep
    subst hstep
    refine ⟨rfl, .yielded id before ?_ ?_ rfl ?_⟩
    · show (∀ p, w.taken = some p → Fresh p) ↔ Fresh before
      rw [htaken]
      exact ⟨fun hall => hall before rfl, fun hfresh p hp => some.inj hp ▸ hfresh⟩
    · simp only [CpuQueue.tasks, hcurrent, map_append, map_singleton, toList_none,
        toList_some, append_nil]
      exact .refl _
    · rw [waiting_yielded (h.not_waiting hcurrent)]

theorem Distinct.change (h : w.Distinct) (hstep : system.step w op = some w') :
    w'.cpu.current.isSome = w'.taken.isSome ∧ Change w op w' := by
  cases op with
  | enqueue id policy =>
    simp only [system, step, ite_none_left_eq_some, some.injEq] at hstep
    obtain ⟨hnew, rfl⟩ := hstep
    refine ⟨h.taken, .added id trivial hnew ?_ rfl rfl⟩
    refine ((w.cpu.ready.enqueue_ids id policy).append_right _).trans ?_
    simp only [CpuQueue.tasks, append_assoc]
    exact perm_append_comm.append_left _
  | dispatch =>
    cases hdequeue : w.cpu.ready.dequeue with
    | none =>
      simp only [system, step, hdequeue, some.injEq] at hstep
      subst hstep
      exact ⟨h.taken, .same (.inl (RunQueue.dequeue_none hdequeue)) (.refl _) rfl rfl⟩
    | some out =>
      simp only [system, step, hdequeue, some.injEq] at hstep
      subst hstep
      exact ⟨rfl, change_dispatch hdequeue⟩
  | yieldCurrent => exact h.change_yieldCurrent hstep
  | rebalance tick =>
    obtain ⟨ready, hready, rfl⟩ := map_eq_some_iff.mp hstep
    exact ⟨h.taken, .of_ids trivial (RunQueue.rebalance_ids hready)⟩
  | updateVruntime id delta =>
    obtain ⟨ready, hready, rfl⟩ := map_eq_some_iff.mp hstep
    exact ⟨h.taken, .of_ids trivial (List.Perm.of_eq (RunQueue.updateVruntime_ids hready))⟩

theorem Distinct.step (h : w.Distinct) (hstep : system.step w op = some w') : w'.Distinct := by
  obtain ⟨htaken, hchange⟩ := h.change hstep
  cases hchange with
  | same _ htasks hadded _ =>
    refine ⟨htasks.nodup_iff.mpr h.nodup, fun id hid => ?_, htaken⟩
    rw [hadded]
    exact h.added id (htasks.mem_iff.mp hid)
  | added id _ hnew htasks hadded _ =>
    refine ⟨?_, fun id' hid' => ?_, htaken⟩
    · rw [htasks.nodup_iff, nodup_append]
      refine ⟨h.nodup, nodup_singleton id, fun a ha b hb hab => hnew ?_⟩
      rw [← mem_singleton.mp hb, ← hab]
      exact h.added a ha
    · rw [hadded, mem_append]
      exact (mem_append.mp (htasks.mem_iff.mp hid')).imp_left (h.added id')
  | lost id _ htasks hadded =>
    refine ⟨(nodup_cons.mp (htasks.nodup_iff.mpr h.nodup)).2, fun id' hid' => ?_, htaken⟩
    rw [hadded]
    exact h.added id' (htasks.mem_iff.mp (mem_cons_of_mem id hid'))
  | yielded id before _ htasks hadded _ =>
    refine ⟨htasks.nodup_iff.mpr h.nodup, fun id' hid' => ?_, htaken⟩
    rw [hadded]
    exact h.added id' (htasks.mem_iff.mp hid')

/-! ### Runs -/

theorem fair_iff {before : SchedulePolicy} :
    YieldRecord.Fair ⟨id, before, some SchedulePolicy.new⟩ ↔ Fresh before := by
  constructor
  · intro ⟨p, hp, hpolicy, hprio, hnice, hle⟩
    cases hp
    exact ⟨hpolicy.symm, hprio.symm, hnice.symm, Nat.le_zero.mp hle⟩
  · intro ⟨hpolicy, hprio, hnice, hvruntime⟩
    exact ⟨_, rfl, hpolicy.symm, hprio.symm, hnice.symm, hvruntime.le⟩

theorem step_kept_iff (h : w.Distinct) (hkept : w.Kept) (hstep : system.step w op = some w') :
    w'.Kept ↔ w.Careful op := by
  obtain ⟨_, hchange⟩ := h.change hstep
  cases hchange with
  | same hcareful htasks hadded hyields =>
    exact iff_of_true ⟨by rw [hadded]; exact htasks.trans hkept.tasks, by rw [hyields]; exact hkept.fair⟩ hcareful
  | added id hcareful _ htasks hadded hyields =>
    refine iff_of_true ⟨?_, by rw [hyields]; exact hkept.fair⟩ hcareful
    rw [hadded]
    exact htasks.trans (hkept.tasks.append_right [id])
  | lost id hcareless htasks hadded =>
    refine iff_of_false (fun hafter => ?_) hcareless
    have hlength := htasks.length_eq
    rw [length_cons, hafter.tasks.length_eq, hkept.tasks.length_eq, hadded] at hlength
    omega
  | yielded id before hcareful htasks hadded hyields =>
    rw [hcareful, ← fair_iff]
    constructor
    · intro hafter
      exact hafter.fair _ (by rw [hyields]; exact mem_append_right _ (mem_singleton_self _))
    · intro hfair
      refine ⟨by rw [hadded]; exact htasks.trans hkept.tasks, ?_⟩
      rw [hyields]
      exact forall_mem_append.mpr ⟨hkept.fair, forall_mem_singleton.mpr hfair⟩

/-- **A run keeps every task and its policy if and only if it makes a task current only when none is, or finds
the queue empty, and a task that yields was taken out with the policy of a new one.** -/
theorem scheduling_iff (ops : List YieldOp) :
    system.Always Kept start ops ↔ system.Guarded Careful start ops := by
  refine System.always_iff_guarded (J := Distinct) (fun _ _ _ h hstep => h.step hstep)
    (fun _ _ _ h hkept hstep => step_kept_iff h hkept hstep) ⟨nodup_nil, nofun, rfl⟩ ⟨.refl _, nofun⟩

/-- A task that has run for 1000 comes back as if it had not run. -/
theorem runtime_forgotten : ∃ w, system.run start
    [.enqueue 1 ⟨0, 0, 5, 10, 1000⟩, .dispatch, .yieldCurrent] = some w ∧
      w.cpu.waiting 1 = some SchedulePolicy.new ∧ ¬w.Kept := by
  have hrun : ((system.run start [.enqueue 1 ⟨0, 0, 5, 10, 1000⟩, .dispatch, .yieldCurrent]).any fun w =>
      w.cpu.waiting 1 = some SchedulePolicy.new ∧ w.yields.map YieldRecord.before = [⟨0, 0, 5, 10, 1000⟩] ∧
        w.yields.map YieldRecord.after = [some SchedulePolicy.new]) = true := by
    decide +kernel
  obtain ⟨w, hw, hwaiting, hbefore, hafter⟩ := System.exists_of_run_any hrun
  refine ⟨w, hw, hwaiting, fun hkept => ?_⟩
  cases hyields : w.yields with
  | nil =>
    rw [hyields] at hbefore
    cases hbefore
  | cons y rest =>
    rw [hyields, map_cons] at hbefore hafter
    obtain ⟨p, hp, _, _, hnice, _⟩ := hkept.fair y (by rw [hyields]; exact mem_cons_self)
    rw [(List.cons.inj hafter).1, some.injEq] at hp
    rw [(List.cons.inj hbefore).1, ← hp] at hnice
    exact absurd hnice (by decide)

end YieldWorld
end ChaosKernel.Sched
