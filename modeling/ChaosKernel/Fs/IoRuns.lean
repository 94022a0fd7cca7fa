import ChaosKernel.Base.Run
import ChaosKernel.Fs.IoQueue

/-! What becomes of the disk requests.

A run keeps what was submitted and what was dispatched. The difference between what was
submitted and what is dispatched or still waits never shrinks (`step_count`), so that a
request that was merged away is missing in the end. `dispatched_iff`: what is dispatched in
the end is what was submitted exactly when no merge finds a pair, no batch makes the queue
too long, and no arithmetic overflows. -/
namespace ChaosKernel.Fs
open Base List Option

inductive IoOp where
  | submit (req : IoRequest)
  | submitBatch (reqs : List IoRequest)
  | mergeAdjacent
  | dispatch
  deriving DecidableEq, Repr

/-- A queue, all that was submitted to it and all that it has dispatched. -/
structure IoRun where
  queue : IoQueue
  submitted : List (Nat × Bool)
  returned : List (Nat × Bool)
  deriving DecidableEq, Repr

def IoOp.requests : IoOp → List IoRequest
  | .submit req => [req]
  | .submitBatch reqs => reqs
  | _ => []

namespace IoRun

def step (r : IoRun) : IoOp → Option IoRun
  | .submit req => some {r with queue := r.queue.submit req, submitted := r.submitted ++ [req.pair]}
  | .submitBatch reqs =>
    (r.queue.submitBatch reqs).map fun d =>
      {r with queue := d.1, submitted := r.submitted ++ reqs.map IoRequest.pair}
  | .mergeAdjacent => r.queue.mergeAdjacent.map fun d => {r with queue := d.1}
  | .dispatch => r.queue.dispatch.map fun d => {r with queue := d.1, returned := r.returned ++ d.2.toList}

def system : System IoRun IoOp := ⟨step⟩

def init : IoRun := ⟨.new, [], []⟩

end IoRun

/-- The calls, and then as many dispatches as there can be requests. -/
def drained (ops : List IoOp) : List IoOp :=
  ops ++ List.replicate (ops.flatMap IoOp.requests).length .dispatch

/-- Everything comes back, the queue runs empty, and what was dispatched is what was submitted. -/
def Lossless (ops : List IoOp) : Prop :=
  ∃ r, IoRun.system.run IoRun.init (drained ops) = some r ∧ r.queue.pending = [] ∧ r.returned.Perm r.submitted

/-- What a call must find. -/
def IoRun.Safe (r : IoRun) : IoOp → Prop
  | .submit _ => True
  | .submitBatch reqs => asI32 (r.queue.pending.length + reqs.length) ≤ ioQueueDepth
  | .mergeAdjacent => Unmergeable r.queue.pending
  | .dispatch => ∀ req ∈ r.queue.pending,
    (IoQueue.dist? r.queue.headPos r.queue.directionUp req.block).isSome = true

/-! ### The balance -/

namespace IoRun
variable {r r' : IoRun} {op : IoOp}

/-- What has been dispatched and what still waits. -/
def held (r : IoRun) : List (Nat × Bool) := r.returned ++ r.queue.pending.map IoRequest.pair

theorem step_of_safe (h : r.Safe op) : ∃ r', r.step op = some r' ∧
    (r.held.Perm r.submitted → r'.held.Perm r'.submitted) := by
  cases op with
  | submit req =>
    refine ⟨_, rfl, fun hbal => ?_⟩
    simp only [held, IoQueue.submit, map_append, map_singleton]
    rw [← append_assoc]
    exact hbal.append_right _
  | submitBatch reqs =>
    have hdepth : ¬asI32 ioQueueDepth < asI32 (r.queue.pending ++ reqs).length := by
      rw [length_append, Nat.cast_add]
      exact not_lt.mpr h
    refine ⟨_, by rw [step, IoQueue.submitBatch, if_neg hdepth]; rfl, fun hbal => ?_⟩
    simp only [held, map_append]
    rw [← append_assoc]
    exact hbal.append_right _
  | mergeAdjacent =>
    obtain ⟨q', hq', hpending⟩ := IoQueue.mergeAdjacent_of_unmergeable h
    refine ⟨_, by rw [step, hq']; rfl, fun hbal => ?_⟩
    simp only [held, hpending]
    exact hbal
  | dispatch =>
    by_cases hne : r.queue.pending = []
    · refine ⟨_, by rw [step, IoQueue.dispatch_none hne]; rfl, fun hbal => ?_⟩
      simp only [held, toList_none, append_nil]
      exact hbal
    · obtain ⟨q', req, hq', hperm⟩ := IoQueue.dispatch_spec hne h
      refine ⟨_, by rw [step, hq']; rfl, fun hbal => ?_⟩
      simp only [held, toList_some, append_assoc, singleton_append]
      exact ((hperm.map IoRequest.pair).append_left r.returned).symm.trans hbal

/-- The difference between what was submitted and what is held does not shrink, and a call that leaves it as it is
found what it must. -/
theorem step_count (h : r.step op = some r') :
    r.submitted.length + r'.held.length ≤ r'.submitted.length + r.held.length ∧
      (r.submitted.length + r'.held.length = r'.submitted.length + r.held.length → r.Safe op) := by
  have hsafe : r.Safe op → r'.held.length + r.submitted.length = r'.submitted.length + r.held.length →
      r.submitted.length + r'.held.length ≤ r'.submitted.length + r.held.length ∧
        (r.submitted.length + r'.held.length = r'.submitted.length + r.held.length → r.Safe op) :=
    fun hs heq => ⟨by omega, fun _ => hs⟩
  cases op with
  | submit req =>
    cases h
    refine hsafe trivial ?_
    simp only [held, IoQueue.submit, length_append, length_map, length_singleton]
    omega
  | submitBatch reqs =>
    simp only [step, IoQueue.submitBatch, map_eq_some_iff, ite_none_left_eq_some] at h
    obtain ⟨q', ⟨hdepth, hq'⟩, heq⟩ := h
    cases hq'
    cases heq
    rw [length_append, Nat.cast_add] at hdepth
    refine hsafe (not_lt.mp hdepth) ?_
    simp only [held, length_append, length_map]
    omega
  | mergeAdjacent =>
    obtain ⟨⟨q', merged⟩, hq', heq⟩ := map_eq_some_iff.mp h
    cases heq
    obtain ⟨hlen, hnone⟩ := IoQueue.mergeAdjacent_spec hq'
    simp only [held, length_append, length_map]
    exact ⟨by omega, fun heq => hnone (by omega)⟩
  | dispatch =>
    obtain ⟨⟨q', pair⟩, hd, heq⟩ := map_eq_some_iff.mp h
    cases heq
    refine hsafe (IoQueue.safe_of_dispatch hd) ?_
    rcases IoQueue.dispatch_took hd with ⟨_, hsame, hnone⟩ | ⟨req, hpair, hperm⟩
    · simp only [held, hsame, hnone, toList_none, append_nil]
      omega
    · have hlen := hperm.length_eq
      rw [length_cons] at hlen
      simp only [held, hpair, toList_some, length_append, length_map, length_singleton, hlen]
      omega

theorem run_count {ops : List IoOp} (h : system.run r ops = some r') :
    r.submitted.length + r'.held.length ≤ r'.submitted.length + r.held.length := by
  have hstep : ∀ s op t, r.submitted.length + s.held.length ≤ s.submitted.length + r.held.length →
      system.step s op = some t → r.submitted.length + t.held.length ≤ t.submitted.length + r.held.length := by
    intro s op t hs hstep
    have := (step_count hstep).1
    omega
  exact System.invariant_run (I := fun s => r.submitted.length + s.held.length ≤ s.submitted.length + r.held.length)
    hstep (Nat.le_refl _) h

/-! ### Draining -/

theorem submitted_run {ops : List IoOp} (h : system.run init ops = some r) :
    r.submitted = (ops.flatMap IoOp.requests).map IoRequest.pair := by
  refine System.history_run (I := fun ops r => r.submitted = (ops.flatMap IoOp.requests).map IoRequest.pair)
    (fun ops r op r' hr hstep => ?_) rfl h
  rw [flatMap_append, map_append, ← hr, flatMap_singleton]
  cases op with
  | submit req =>
    cases hstep
    rfl
  | submitBatch reqs =>
    simp only [system, step, map_eq_some_iff] at hstep
    obtain ⟨_, _, heq⟩ := hstep
    cases heq
    rfl
  | mergeAdjacent | dispatch =>
    obtain ⟨_, _, heq⟩ := map_eq_some_iff.mp hstep
    cases heq
    exact (append_nil _).symm

theorem dispatches_empty {n : Nat} (hn : r.queue.pending.length ≤ n)
    (h : system.run r (List.replicate n .dispatch) = some r') : r'.queue.pending = [] := by
  induction n generalizing r with
  | zero =>
    cases h
    exact eq_nil_of_length_eq_zero (Nat.le_zero.mp hn)
  | succ n ih =>
    rw [replicate_succ, System.run_cons, bind_eq_some_iff] at h
    obtain ⟨s, hs, h⟩ := h
    refine ih ?_ h
    obtain ⟨⟨q', pair⟩, hd, heq⟩ := map_eq_some_iff.mp hs
    cases heq
    show q'.pending.length ≤ n
    rcases IoQueue.dispatch_took hd with ⟨hnil, hsame, _⟩ | ⟨req, _, hperm⟩
    · rw [hsame, hnil]
      exact Nat.zero_le _
    · have hlen := hperm.length_eq
      rw [length_cons] at hlen
      omega

end IoRun

/-- **What was submitted is dispatched, each request once, exactly when no call on the way finds what it should
not: a pair to merge, a batch that is too long, or an overflow.** -/
theorem dispatched_iff (ops : List IoOp) :
    Lossless ops ↔ IoRun.system.Asks IoRun.Safe IoRun.init (drained ops) := by
  constructor
  · intro h done op s hpre hdone
    obtain ⟨r, hrun, hempty, hperm⟩ := h
    obtain ⟨rest, hrest⟩ := hpre
    rw [← hrest, System.run_append, System.run_concat, hdone, bind_some, bind_eq_some_iff] at hrun
    obtain ⟨s', hs', hrun⟩ := hrun
    have hbefore := IoRun.run_count hdone
    obtain ⟨hle, hsafe⟩ := IoRun.step_count hs'
    have hafter := IoRun.run_count hrun
    have hend : r.held.length = r.submitted.length := by
      rw [IoRun.held, hempty, map_nil, append_nil, hperm.length_eq]
    have hinit : IoRun.init.held.length = IoRun.init.submitted.length := rfl
    exact hsafe (by omega)
  · intro h
    obtain ⟨r, hrun⟩ := System.run_of_asks
      (fun s op hs => (IoRun.step_of_safe hs).imp fun _ hstep => hstep.1) h
    have hbalance : r.held.Perm r.submitted := by
      refine System.always_of_guarded (I := fun r => r.held.Perm r.submitted) (fun s op t hs hsafe hstep => ?_)
        (List.Perm.refl _) (fun done a t u hpre hdone _ => h done a t hpre hdone) _ r (prefix_refl _) hrun
      obtain ⟨t', ht', hkeep⟩ := IoRun.step_of_safe hsafe
      have : t' = t := some.inj (ht'.symm.trans hstep)
      exact this ▸ hkeep hs
    have hempty : r.queue.pending = [] := by
      have hsplit := hrun
      rw [drained, System.run_append, bind_eq_some_iff] at hsplit
      obtain ⟨s, hs, hdispatches⟩ := hsplit
      refine IoRun.dispatches_empty ?_ hdispatches
      have hcount := IoRun.run_count hs
      have hsubmitted := congrArg List.length (IoRun.submitted_run hs)
      rw [length_map] at hsubmitted
      have hinit : IoRun.init.held.length = IoRun.init.submitted.length := rfl
      have hheld : s.held.length = s.returned.length + s.queue.pending.length := by
        rw [IoRun.held, length_append, length_map]
      omega
    refine ⟨r, hrun, hempty, ?_⟩
    rwa [IoRun.held, hempty, map_nil, append_nil] at hbalance

/-- The read of block 6 is merged into the read of block 5 and never dispatched. -/
theorem merged_request_lost :
    ¬Lossless [.submit ⟨5, false, 0, 0⟩, .submit ⟨6, false, 0, 0⟩, .mergeAdjacent] := by
  intro h
  obtain ⟨r, hrun, _, hperm⟩ := h
  have hlost : (IoRun.system.run IoRun.init
      (drained [.submit ⟨5, false, 0, 0⟩, .submit ⟨6, false, 0, 0⟩, .mergeAdjacent])).all
      (fun r => r.returned.length < r.submitted.length) = true := by decide +kernel
  rw [hrun] at hlost
  exact absurd hperm.length_eq (Nat.ne_of_lt (of_decide_eq_true hlost))

end ChaosKernel.Fs
