import ChaosKernel.Base.Mutex
import ChaosKernel.Consts
import ChaosKernel.Fs.IoQueue

/-! The lock of the queue.

`pending` is behind a mutex. `submit_batch` holds it when it finds the queue too long and
calls `merge_adjacent`, which takes it: the call never returns. What `IoQueue.submitBatch`
says of the batch is what comes of the two functions with their locks
(`submitBatch_eq`). -/
namespace ChaosKernel.Fs
open Base

namespace LockedQueue

/-- `q.push_back(req)`, under the lock. -/
def pushBack (req : IoRequest) : Call (Mutex IoQueue) Errno Unit := fun m =>
  (.ok (), {m with value := m.value.submit req})

/-- The loop of `submit_batch`, with the number of requests so far. -/
def pushLoop (count : Nat) : List IoRequest → Call (Mutex IoQueue) Errno Nat
  | [] => pure count
  | req :: rest => do
    pushBack req
    pushLoop (count + 1) rest

def mergeAdjacent : Call (Mutex IoQueue) Errno Nat :=
  Mutex.locked (Call.callee fun m => m.value.mergeAdjacent.map fun d => (d.2, {m with value := d.1}))

/-- What `submit_batch` does under the lock. -/
def batchBody (requests : List IoRequest) : Call (Mutex IoQueue) Errno Nat := do
  let count ← pushLoop 0 requests
  let m ← Call.get
  if asI32 ioQueueDepth < asI32 m.value.pending.length then
    let _ ← mergeAdjacent
    pure count
  else pure count

def submitBatch (requests : List IoRequest) : Call (Mutex IoQueue) Errno Nat := Mutex.locked (batchBody requests)

/-! ### The calls -/

variable {q : IoQueue} {requests : List IoRequest}

theorem pushLoop_eq (count : Nat) (requests : List IoRequest) (m : Mutex IoQueue) :
    pushLoop count requests m = (.ok (count + requests.length),
      {m with value := {m.value with pending := m.value.pending ++ requests}}) := by
  induction requests generalizing count m with
  | nil =>
    rw [List.append_nil]
    rfl
  | cons req rest ih =>
    have hpush : pushBack req m = (.ok (), {m with value := m.value.submit req}) := rfl
    rw [pushLoop, Call.bind_ok hpush, ih, List.length_cons, Nat.add_right_comm, IoQueue.submit, List.append_assoc]
    rfl

/-- What a batch comes to: the call waits for its own lock when it finds the queue too long. -/
theorem submitBatch_eq (q : IoQueue) (requests : List IoRequest) :
    submitBatch requests ⟨q, false⟩ = (q.submitBatch requests).elim
      (.error .hang, ⟨{q with pending := q.pending ++ requests}, true⟩)
      fun d => (.ok d.2, ⟨d.1, false⟩) := by
  have hbody : batchBody requests ⟨q, true⟩ =
      if asI32 ioQueueDepth < asI32 (q.pending ++ requests).length
      then (.error .hang, ⟨{q with pending := q.pending ++ requests}, true⟩)
      else (.ok requests.length, ⟨{q with pending := q.pending ++ requests}, true⟩) := by
    rw [batchBody, Call.bind_ok (pushLoop_eq 0 requests ⟨q, true⟩), Call.get_bind, Nat.zero_add]
    dsimp only
    split
    · exact Call.bind_error (Mutex.locked_again _)
    · rfl
  unfold IoQueue.submitBatch
  by_cases hlong : asI32 ioQueueDepth < asI32 (q.pending ++ requests).length
  · simp only [if_pos hlong, Option.elim_none] at hbody ⊢
    exact Mutex.locked_error hbody
  · simp only [if_neg hlong, Option.elim_some] at hbody ⊢
    exact Mutex.locked_ok hbody

/-! ### Batches -/

/-- The call returns the number of its requests and gives the lock back. They are at the end of the queue, and the
queue is merged if that makes it too long. -/
def Submits (q : IoQueue) (requests : List IoRequest) : Prop :=
  ∃ q', submitBatch requests ⟨q, false⟩ = (.ok requests.length, ⟨q', false⟩) ∧
    if ioQueueDepth < q.pending.length + requests.length then
      ∃ merged m, {q with pending := q.pending ++ requests}.mergeAdjacent = some (merged, m) ∧
        q'.pending = merged.pending
    else q'.pending = q.pending ++ requests

end LockedQueue

/-- **A batch does not wait for itself** and is submitted exactly when its queue is not found too long, and is not, or
has nothing to merge. -/
theorem submitBatch_submits_iff (q : IoQueue) (requests : List IoRequest) :
    LockedQueue.Submits q requests ↔ asI32 (q.pending.length + requests.length) ≤ ioQueueDepth ∧
      (q.pending.length + requests.length ≤ ioQueueDepth ∨ Unmergeable (q.pending ++ requests)) := by
  have hlength : ((q.pending ++ requests).length : Int) = q.pending.length + requests.length := by
    rw [List.length_append, Nat.cast_add]
  have hdepth : asI32 ioQueueDepth = ioQueueDepth := by decide
  by_cases hlong : asI32 ioQueueDepth < asI32 (q.pending ++ requests).length
  · have hwaits : q.submitBatch requests = none := by rw [IoQueue.submitBatch, if_pos hlong]
    refine iff_of_false (fun hsubmits => ?_) fun hshort => ?_
    · obtain ⟨q', hreturns, _⟩ := hsubmits
      rw [LockedQueue.submitBatch_eq, hwaits] at hreturns
      cases hreturns
    · rw [hlength, hdepth] at hlong
      exact absurd hshort.1 (not_le.mpr hlong)
  · have hreturns : q.submitBatch requests = some ({q with pending := q.pending ++ requests}, requests.length) := by
      rw [IoQueue.submitBatch, if_neg hlong]
    rw [hlength, hdepth] at hlong
    rw [and_iff_right (not_lt.mp hlong)]
    have hcall : LockedQueue.submitBatch requests ⟨q, false⟩ =
        (.ok requests.length, ⟨{q with pending := q.pending ++ requests}, false⟩) := by
      rw [LockedQueue.submitBatch_eq, hreturns, Option.elim_some]
    constructor
    · intro hsubmits
      obtain ⟨q', hreturned, hqueue⟩ := hsubmits
      rw [hcall] at hreturned
      cases hreturned
      split at hqueue
      · obtain ⟨merged, m, hmerge, hsame⟩ := hqueue
        obtain ⟨hlen, hnone⟩ := IoQueue.mergeAdjacent_spec hmerge
        rw [← hsame] at hlen
        exact .inr (hnone (Nat.add_eq_left.mp hlen))
      · next hle => exact .inl (Nat.not_lt.mp hle)
    · intro hfits
      refine ⟨_, hcall, ?_⟩
      split
      · next hlt =>
        have hchain := hfits.resolve_left (Nat.not_le_of_lt hlt)
        obtain ⟨merged, hmerge, hsame⟩ :=
          IoQueue.mergeAdjacent_of_unmergeable (q := {q with pending := q.pending ++ requests}) hchain
        exact ⟨merged, 0, hmerge, hsame.symm⟩
      · rfl

/-- One request more than the queue is deep. -/
theorem submitBatch_waits : LockedQueue.submitBatch (List.replicate 129 ⟨0, false, 0, 0⟩) ⟨.new, false⟩ =
      (.error .hang, ⟨{IoQueue.new with pending := List.replicate 129 ⟨0, false, 0, 0⟩}, true⟩) ∧
    ¬LockedQueue.Submits .new (List.replicate 129 ⟨0, false, 0, 0⟩) := by
  have hwaits : LockedQueue.submitBatch (List.replicate 129 ⟨0, false, 0, 0⟩) ⟨.new, false⟩ =
      (.error .hang, ⟨{IoQueue.new with pending := List.replicate 129 ⟨0, false, 0, 0⟩}, true⟩) := by
    rw [LockedQueue.submitBatch_eq]
    decide +kernel
  refine ⟨hwaits, fun hsubmits => ?_⟩
  obtain ⟨q', hreturns, _⟩ := hsubmits
  rw [hwaits] at hreturns
  cases hreturns

end ChaosKernel.Fs
