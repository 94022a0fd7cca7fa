import ChaosKernel.Base.Scan
import ChaosKernel.Base.Words

/-! The queue of disk requests.

`dispatch` takes the request nearest to the head in the direction of the scan.
`merge_adjacent` takes a request for the next block out of the queue, and nothing of it
is left in the request before it; `submit_batch` calls it while it holds the lock that it
needs. -/
namespace ChaosKernel.Fs
open Base Option List

def ioQueueDepth : Nat := 128

structure IoRequest where
  block : Nat
  write : Bool
  priority : Nat
  submittedTick : Nat
  deriving DecidableEq, Repr

structure IoQueue where
  pending : List IoRequest
  headPos : Nat
  directionUp : Bool
  dispatched : Nat
  merged : Nat
  deriving DecidableEq, Repr

/-- What `dispatch` tells of a request. -/
def IoRequest.pair (r : IoRequest) : Nat × Bool := (r.block, r.write)

namespace IoQueue

def new : IoQueue := ⟨[], 0, true, 0, 0⟩

def submit (q : IoQueue) (req : IoRequest) : IoQueue := {q with pending := q.pending ++ [req]}

/-- The loop of `merge_adjacent` at a request and the requests after it, with the number of those it removes;
`none` is the overflow of `block + 1`. -/
def mergeLoop (req : IoRequest) : List IoRequest → Option (List IoRequest × Nat)
  | [] => some ([req], 0)
  | next :: rest => do
    let succ ← add? req.block 1
    if succ = next.block ∧ req.write = next.write then
      let (left, merged) ← mergeLoop req rest
      pure (left, merged + 1)
    else
      let (left, merged) ← mergeLoop next rest
      pure (req :: left, merged)

/-- The queue, and how many requests were merged. -/
def mergeAdjacent (q : IoQueue) : Option (IoQueue × Nat) :=
  match q.pending with
  | [] => some (q, 0)
  | req :: rest => do
    let (left, merged) ← mergeLoop req rest
    pure ({q with pending := left, merged := (q.merged + merged) % wordSize}, merged)

/-- The queue, and how many requests were submitted. The batch is in the queue when its length is looked at; a
merge then waits for the lock that is held. -/
def submitBatch (q : IoQueue) (reqs : List IoRequest) : Option (IoQueue × Nat) :=
  let pending := q.pending ++ reqs
  if asI32 ioQueueDepth < asI32 pending.length then none else some ({q with pending := pending}, reqs.length)

/-- How far a block is on the way of the head. -/
def dist? (head : Nat) (goingUp : Bool) (block : Nat) : Option Nat :=
  if goingUp then
    if head ≤ block then some (block - head) else add? (usizeMax / 2) block
  else
    if block ≤ head then some (head - block) else add? (usizeMax / 2) head

/-- The index of the first of the least distances. -/
def bestIdx (dists : List Nat) : Nat := (scanIdx (· < ·) some usizeMax dists).getD 0

/-- The direction after `req` was taken and `left` was left. -/
def turn (head : Nat) (goingUp : Bool) (req : IoRequest) (left : List IoRequest) : Bool :=
  if goingUp ∧ head ≤ req.block then
    if left.all fun r => r.block < req.block then false else goingUp
  else if ¬goingUp ∧ req.block ≤ head then
    if left.all fun r => req.block < r.block then true else goingUp
  else goingUp

/-- The queue after the request `req` at `idx` was taken. -/
def take (q : IoQueue) (idx : Nat) (req : IoRequest) : IoQueue :=
  {q with
    pending := q.pending.eraseIdx idx
    headPos := req.block
    directionUp := turn q.headPos q.directionUp req (q.pending.eraseIdx idx)
    dispatched := (q.dispatched + 1) % wordSize}

def dispatch (q : IoQueue) : Option (IoQueue × Option (Nat × Bool)) :=
  if q.pending = [] then some (q, none)
  else do
    let dists ← q.pending.mapM fun r => dist? q.headPos q.directionUp r.block
    match q.pending[bestIdx dists]? with
    | none => pure (q, none)
    | some req => pure (q.take (bestIdx dists) req, some req.pair)

end IoQueue

/-- No two neighbours are consecutive blocks of one kind, and there is a block after each but the last. -/
def Unmergeable (pending : List IoRequest) : Prop :=
  pending.IsChain fun r s => r.block + 1 < wordSize ∧ ¬(r.block + 1 = s.block ∧ r.write = s.write)

/-! ### The calls -/

namespace IoQueue

variable {req : IoRequest} {rest left : List IoRequest} {merged : Nat} {q q' : IoQueue}

theorem mergeLoop_of_unmergeable (h : Unmergeable (req :: rest)) :
    mergeLoop req rest = some (req :: rest, 0) := by
  induction rest generalizing req with
  | nil => rfl
  | cons next rest ih =>
    obtain ⟨⟨hlt, hne⟩, hrest⟩ := isChain_cons_cons.mp h
    have hadd : add? req.block 1 = some (req.block + 1) := if_pos hlt
    simp only [mergeLoop, hadd, bind_eq_bind, bind_some, if_neg hne, ih hrest]
    rfl

/-- A merge leaves what it does not remove, and where it removes nothing there is nothing to merge. -/
theorem mergeLoop_spec (h : mergeLoop req rest = some (left, merged)) :
    left.Sublist (req :: rest) ∧
      left.length + merged = rest.length + 1 ∧ (merged = 0 → Unmergeable (req :: rest)) := by
  induction rest generalizing req left merged with
  | nil =>
    cases h
    exact ⟨List.Sublist.refl _, rfl, fun _ => isChain_singleton _⟩
  | cons next rest ih =>
    simp only [mergeLoop, bind_eq_bind, bind_eq_some_iff] at h
    obtain ⟨succ, hsucc, h⟩ := h
    obtain ⟨hlt, rfl⟩ : req.block + 1 < wordSize ∧ succ = req.block + 1 := by
      unfold add? at hsucc
      rw [ite_none_right_eq_some] at hsucc
      exact ⟨hsucc.1, (some.inj hsucc.2).symm⟩
    split at h
    · obtain ⟨⟨left', merged'⟩, hloop, h⟩ := bind_eq_some_iff.mp h
      cases h
      obtain ⟨hsub, hlen, _⟩ := ih hloop
      refine ⟨hsub.trans ((sublist_cons_self next rest).cons_cons req), ?_,
        fun hzero => absurd hzero (Nat.succ_ne_zero _)⟩
      show left'.length + (merged' + 1) = _
      rw [← Nat.add_assoc, hlen, length_cons]
    · next hne =>
      obtain ⟨⟨left', merged'⟩, hloop, h⟩ := bind_eq_some_iff.mp h
      cases h
      obtain ⟨hsub, hlen, hrest⟩ := ih hloop
      refine ⟨hsub.cons_cons req, ?_, fun hzero => isChain_cons_cons.mpr ⟨⟨hlt, hne⟩, hrest hzero⟩⟩
      show (req :: left').length + merged' = _
      rw [length_cons, Nat.add_right_comm, hlen, length_cons]

theorem mergeAdjacent_of_unmergeable (h : Unmergeable q.pending) :
    ∃ q', q.mergeAdjacent = some (q', 0) ∧ q'.pending = q.pending := by
  unfold mergeAdjacent
  cases hp : q.pending with
  | nil => exact ⟨q, rfl, hp⟩
  | cons req rest =>
    rw [hp] at h
    simp only [mergeLoop_of_unmergeable h]
    exact ⟨_, rfl, rfl⟩

theorem mergeAdjacent_spec (h : q.mergeAdjacent = some (q', merged)) :
    q'.pending.length + merged = q.pending.length ∧ (merged = 0 → Unmergeable q.pending) := by
  unfold mergeAdjacent at h
  cases hp : q.pending with
  | nil =>
    rw [hp] at h
    cases h
    exact ⟨by rw [hp]; rfl, fun _ => isChain_nil⟩
  | cons req rest =>
    rw [hp] at h
    obtain ⟨⟨left, merged'⟩, hloop, h⟩ := bind_eq_some_iff.mp h
    cases h
    exact (mergeLoop_spec hloop).2

theorem mergeAdjacent_keeps (h : q.mergeAdjacent = some (q', merged)) :
    q'.headPos = q.headPos ∧ q'.pending.Sublist q.pending := by
  unfold mergeAdjacent at h
  cases hp : q.pending with
  | nil =>
    rw [hp] at h
    cases h
    exact ⟨rfl, hp ▸ List.Sublist.refl _⟩
  | cons req rest =>
    rw [hp] at h
    obtain ⟨⟨left, merged'⟩, hloop, h⟩ := bind_eq_some_iff.mp h
    cases h
    exact ⟨rfl, (mergeLoop_spec hloop).1⟩

theorem bestIdx_lt {dists : List Nat} (h : dists ≠ []) : bestIdx dists < dists.length := by
  unfold bestIdx
  cases hscan : scanIdx (· < ·) some usizeMax dists with
  | none => exact length_pos_of_ne_nil h
  | some idx =>
    obtain ⟨_, hget, _⟩ := scanIdx_some hscan
    exact (List.getElem?_eq_some_iff.mp hget).1

theorem dispatch_spec (hne : q.pending ≠ [])
    (h : ∀ req ∈ q.pending, (dist? q.headPos q.directionUp req.block).isSome = true) :
    ∃ q' req, q.dispatch = some (q', some req.pair) ∧ q.pending.Perm (req :: q'.pending) := by
  obtain ⟨dists, hdists⟩ := isSome_iff_exists.mp (mapM_isSome.mpr h)
  have hlen := length_mapM hdists
  have hlt : bestIdx dists < q.pending.length := by
    rw [← hlen]
    exact bestIdx_lt fun hnil => hne (eq_nil_of_length_eq_zero (by rw [← hlen, hnil]; rfl))
  have hget : q.pending[bestIdx dists]? = some q.pending[bestIdx dists] := getElem?_eq_getElem hlt
  refine ⟨q.take (bestIdx dists) q.pending[bestIdx dists], q.pending[bestIdx dists], ?_,
    (getElem_cons_eraseIdx_perm hlt).symm⟩
  simp only [dispatch, if_neg hne, hdists, bind_eq_bind, bind_some, hget]
  rfl

theorem dispatch_none (h : q.pending = []) : q.dispatch = some (q, none) := if_pos h

theorem safe_of_dispatch {d : IoQueue × Option (Nat × Bool)} (h : q.dispatch = some d) :
    ∀ req ∈ q.pending, (dist? q.headPos q.directionUp req.block).isSome = true := by
  unfold dispatch at h
  split at h
  · next hnil =>
    rw [hnil]
    exact fun req hreq => absurd hreq not_mem_nil
  · obtain ⟨dists, hdists, _⟩ := bind_eq_some_iff.mp h
    exact mapM_isSome.mp (by rw [hdists]; rfl)

theorem dispatch_took {pair : Option (Nat × Bool)} (h : q.dispatch = some (q', pair)) :
    (q.pending = [] ∧ q' = q ∧ pair = none) ∨ ∃ req, pair = some req.pair ∧ q.pending.Perm (req :: q'.pending) := by
  by_cases hne : q.pending = []
  · rw [dispatch_none hne] at h
    cases h
    exact .inl ⟨hne, rfl, rfl⟩
  · obtain ⟨q'', req, hq'', hperm⟩ := dispatch_spec hne (safe_of_dispatch h)
    rw [h] at hq''
    cases hq''
    exact .inr ⟨req, rfl, hperm⟩

end IoQueue

end ChaosKernel.Fs
