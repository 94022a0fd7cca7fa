import ChaosKernel.Fs.IoRuns

/-! The sweep of the head.

A queue scans if a dispatch takes a request nearest to the head of those on its way, and
turns if there is none. The code looks for the least distance, where a request that is
not on the way is given one of about half the words; it turns only after it has taken
a request that was on the way. So it scans exactly when there is one and none of the
others seems nearer (`dispatch_scans_iff`), and the blocks of a sweep then follow each
other. -/
namespace ChaosKernel.Fs
open Base List Option

/-- `b` is not behind `a`. -/
def Onward (up : Bool) (a b : Nat) : Prop := if up then a ≤ b else b ≤ a

instance (up : Bool) (a b : Nat) : Decidable (Onward up a b) := inferInstanceAs (Decidable (if up then a ≤ b else b ≤ a))

/-- The blocks between two. -/
def gap (a b : Nat) : Nat := (b - a) + (a - b)

namespace IoQueue
variable {q q' : IoQueue}

def OnWay (q : IoQueue) (req : IoRequest) : Prop := Onward q.directionUp q.headPos req.block

instance (q : IoQueue) (req : IoRequest) : Decidable (q.OnWay req) :=
  inferInstanceAs (Decidable (Onward q.directionUp q.headPos req.block))

/-- The distance of a request that is not on the way, as the code has it. -/
def fallback (q : IoQueue) (req : IoRequest) : Nat :=
  usizeMax / 2 + if q.directionUp then req.block else q.headPos

/-- A dispatch takes a request nearest to the head: of those on the way, or of those on the way back if there
are none, and then it turns. -/
def Scans (q : IoQueue) : Prop := ∃ q' req, q.dispatch = some (q', some req.pair) ∧
  q.pending.Perm (req :: q'.pending) ∧
  ((∃ s ∈ q.pending, q.OnWay s) → q.OnWay req ∧
    ∀ s ∈ q.pending, q.OnWay s → gap q.headPos req.block ≤ gap q.headPos s.block) ∧
  ((∀ s ∈ q.pending, ¬q.OnWay s) → q'.directionUp = !q.directionUp ∧
    Onward (!q.directionUp) q.headPos req.block ∧
    ∀ s ∈ q.pending, Onward (!q.directionUp) q.headPos s.block → gap q.headPos req.block ≤ gap q.headPos s.block)

/-- There is a request on the way, and no other seems nearer than it, or as near and was before it; and no
distance overflows. -/
structure Ahead (q : IoQueue) : Prop where
  words : ∀ s ∈ q.pending, ¬q.OnWay s → q.fallback s < wordSize
  nearer : ∃ before req after, q.pending = before ++ req :: after ∧ q.OnWay req ∧
    (∀ s ∈ before, ¬q.OnWay s → gap q.headPos req.block < q.fallback s) ∧
    ∀ s ∈ after, ¬q.OnWay s → gap q.headPos req.block ≤ q.fallback s

/-! ### What a dispatch takes -/

/-- The distance the code gives a request, where it does not overflow. -/
def distance (q : IoQueue) (req : IoRequest) : Nat :=
  if q.OnWay req then gap q.headPos req.block else q.fallback req

variable {req : IoRequest} {idx : Nat}

theorem dist?_onWay (h : q.OnWay req) :
    dist? q.headPos q.directionUp req.block = some (gap q.headPos req.block) := by
  unfold OnWay Onward at h
  unfold dist? gap
  split at h
  · next hup => rw [if_pos hup, if_pos h, Nat.sub_eq_zero_of_le h, Nat.add_zero]
  · next hup => rw [if_neg hup, if_pos h, Nat.sub_eq_zero_of_le h, Nat.zero_add]

theorem dist?_back (h : ¬q.OnWay req) :
    dist? q.headPos q.directionUp req.block = if q.fallback req < wordSize then some (q.fallback req) else none := by
  unfold OnWay Onward at h
  unfold dist? fallback
  split at h
  · next hup =>
    rw [if_pos hup, if_neg h, if_pos hup]
    rfl
  · next hup =>
    rw [if_neg hup, if_neg h, if_neg hup]
    rfl

theorem dist?_eq (h : ¬q.OnWay req → q.fallback req < wordSize) :
    dist? q.headPos q.directionUp req.block = some (q.distance req) := by
  unfold distance
  by_cases hway : q.OnWay req
  · rw [dist?_onWay hway, if_pos hway]
  · rw [dist?_back hway, if_pos (h hway), if_neg hway]

/-- Blocks and the head are words. -/
structure Words (q : IoQueue) : Prop where
  head : q.headPos < wordSize
  blocks : ∀ req ∈ q.pending, req.block < wordSize

theorem Words.distance_le (h : q.Words) (hfall : ∀ s ∈ q.pending, ¬q.OnWay s → q.fallback s < wordSize)
    (hreq : req ∈ q.pending) : q.distance req ≤ usizeMax := by
  have hhead := h.head
  have hblock := h.blocks req hreq
  unfold distance
  split
  · unfold gap usizeMax
    omega
  · next hway =>
    have := hfall req hreq hway
    unfold usizeMax
    omega

theorem Words.dispatch_first (h : q.Words) (hne : q.pending ≠ [])
    (hfall : ∀ s ∈ q.pending, ¬q.OnWay s → q.fallback s < wordSize) :
    ∃ idx req, q.pending[idx]? = some req ∧ q.dispatch = some (q.take idx req, some req.pair) ∧
      FirstLeast q.distance q.pending req := by
  have hdists : (q.pending.mapM fun r => dist? q.headPos q.directionUp r.block) = some (q.pending.map q.distance) :=
    mapM_eq_map fun s hs => dist?_eq (hfall s hs)
  have hbest : ∃ req, q.pending[bestIdx (q.pending.map q.distance)]? = some req ∧
      FirstLeast q.distance q.pending req := by
    rw [bestIdx, scanIdx_map]
    cases hidx : scanIdx (· < ·) (fun s => some (q.distance s)) usizeMax q.pending with
    | some idx =>
      obtain ⟨req, hreq, hscan⟩ := scanIdx_some hidx
      exact ⟨req, hreq, (scan_eq_some_iff.mp hscan).2⟩
    | none =>
      have hscan := scanIdx_none hidx
      have hle (s : IoRequest) (hs : s ∈ q.pending) : q.distance s ≤ usizeMax := h.distance_le hfall hs
      cases hp : q.pending with
      | nil => exact absurd hp hne
      | cons req rest =>
        rw [hp] at hscan hle
        exact ⟨req, rfl, firstLeast_of_scan_none hle hscan⟩
  obtain ⟨req, hreq, hfirst⟩ := hbest
  refine ⟨_, req, hreq, ?_, hfirst⟩
  simp only [dispatch, if_neg hne, hdists, bind_eq_bind, bind_some, hreq]
  rfl

theorem take_pending (hreq : q.pending[idx]? = some req) :
    q.pending.Perm (req :: (q.take idx req).pending) := by
  obtain ⟨hlt, rfl⟩ := List.getElem?_eq_some_iff.mp hreq
  exact (getElem_cons_eraseIdx_perm hlt).symm

theorem take_back (hback : ¬q.OnWay req) : (q.take idx req).directionUp = q.directionUp := by
  unfold OnWay Onward at hback
  show turn _ _ _ _ = _
  unfold turn
  split at hback
  · next hup => rw [if_neg fun h => hback h.2, if_neg fun h => h.1 hup]
  · next hup => rw [if_neg fun h => hup h.1, if_neg fun h => hback h.2]

theorem fallback_of_dispatch {d : IoQueue × Option (Nat × Bool)} (h : q.dispatch = some d) :
    ∀ s ∈ q.pending, ¬q.OnWay s → q.fallback s < wordSize := by
  intro s hs hback
  have hsome := safe_of_dispatch h s hs
  rw [dist?_back hback] at hsome
  by_contra hlarge
  rw [if_neg hlarge] at hsome
  cases hsome

theorem Ahead.onWay (h : q.Ahead) (hfirst : FirstLeast q.distance q.pending req) : q.OnWay req := by
  by_contra hback
  obtain ⟨before, near, after, hnear, hway, hbefore, hafter⟩ := h.nearer
  have hdist : q.distance near = gap q.headPos near.block := if_pos hway
  have hdist' : q.distance req = q.fallback req := if_neg hback
  have hmem : near ∈ q.pending := hnear ▸ mem_append_right _ mem_cons_self
  have hle := hfirst.le hmem
  obtain ⟨before', after', hreq, hstrict, _⟩ := hfirst
  have hne : req ≠ near := fun heq => hback (heq ▸ hway)
  rcases before_or_after (hreq.symm.trans hnear) hne with ⟨hmem, _⟩ | ⟨hmem, hmem'⟩
  · have := hbefore req hmem hback
    omega
  · have := hafter req hmem hback
    have := hstrict near hmem'
    omega

theorem scans_iff_ahead (h : q.Words) (hne : q.pending ≠ []) : q.Scans ↔ q.Ahead := by
  constructor
  · intro hscans
    obtain ⟨q', req, hdispatch, hperm, hway, hback⟩ := hscans
    have hfall := fallback_of_dispatch hdispatch
    obtain ⟨idx, found, hfound, hdispatch', hfirst⟩ := h.dispatch_first hne hfall
    rw [hdispatch'] at hdispatch
    injection hdispatch with hdispatch
    injection hdispatch with hq' hpair
    have hblock : found.block = req.block := congrArg Prod.fst (some.inj hpair)
    by_cases hany : ∃ s ∈ q.pending, q.OnWay s
    · have hfoundWay : q.OnWay found := by
        unfold OnWay
        rw [hblock]
        exact (hway hany).1
      have hdist : q.distance found = gap q.headPos found.block := if_pos hfoundWay
      obtain ⟨before, after, hpending, hbefore, hafter⟩ := hfirst
      refine ⟨hfall, before, found, after, hpending, hfoundWay, fun s hs hsback => ?_, fun s hs hsback => ?_⟩
      · have hlt := hbefore s hs
        rwa [hdist, distance, if_neg hsback] at hlt
      · have hle := hafter s hs
        rwa [hdist, distance, if_neg hsback] at hle
    · have hnone (s : IoRequest) (hs : s ∈ q.pending) (hsway : q.OnWay s) : False := hany ⟨s, hs, hsway⟩
      have hturn := (hback hnone).1
      rw [← hq', take_back (hnone found hfirst.mem)] at hturn
      exact absurd hturn (Bool.eq_not_self _).mp
  · intro hahead
    obtain ⟨idx, req, hreq, hdispatch, hfirst⟩ := h.dispatch_first hne hahead.words
    have hway := hahead.onWay hfirst
    have hdist : q.distance req = gap q.headPos req.block := if_pos hway
    refine ⟨_, req, hdispatch, take_pending hreq, fun _ => ⟨hway, fun s hs hsway => ?_⟩,
      fun hnone => absurd hway (hnone req hfirst.mem)⟩
    have hle := hfirst.le hs
    rwa [hdist, distance, if_pos hsway] at hle

theorem dispatch_take {pair : Option (Nat × Bool)} (h : q.dispatch = some (q', pair)) :
    (q.pending = [] ∧ q' = q ∧ pair = none) ∨ ∃ idx req, q.pending[idx]? = some req ∧ q' = q.take idx req ∧
      pair = some req.pair := by
  by_cases hne : q.pending = []
  · rw [dispatch_none hne] at h
    cases h
    exact .inl ⟨hne, rfl, rfl⟩
  · rw [dispatch, if_neg hne] at h
    obtain ⟨dists, hdists, h⟩ := bind_eq_some_iff.mp h
    have hlen := length_mapM hdists
    have hdne : dists ≠ [] := fun hnil => hne (eq_nil_of_length_eq_zero (by rw [← hlen, hnil]; rfl))
    have hlt : bestIdx dists < q.pending.length := hlen ▸ bestIdx_lt hdne
    have hget : q.pending[bestIdx dists]? = some q.pending[bestIdx dists] := getElem?_eq_getElem hlt
    rw [hget] at h
    cases h
    exact .inr ⟨_, _, hget, rfl, rfl⟩

theorem Words.take (h : q.Words) (hreq : q.pending[idx]? = some req) : (q.take idx req).Words := by
  refine ⟨h.blocks req (mem_of_getElem? hreq), fun s hs => h.blocks s ?_⟩
  exact (take_pending hreq).mem_iff.mpr (mem_cons_of_mem req hs)

end IoQueue

/-! ### Sweeps -/

namespace IoRun
variable {r r' : IoRun} {op : IoOp}

theorem words_step (h : r.queue.Words) (hop : ∀ req ∈ op.requests, req.block < wordSize)
    (hstep : r.step op = some r') : r'.queue.Words := by
  cases op with
  | submit req =>
    cases hstep
    refine ⟨h.head, fun s hs => ?_⟩
    rcases mem_append.mp hs with hs | hs
    · exact h.blocks s hs
    · exact hop s hs
  | submitBatch reqs =>
    simp only [step, IoQueue.submitBatch, map_eq_some_iff, ite_none_left_eq_some] at hstep
    obtain ⟨d, ⟨_, hd⟩, heq⟩ := hstep
    cases hd
    cases heq
    refine ⟨h.head, fun s hs => ?_⟩
    rcases mem_append.mp hs with hs | hs
    · exact h.blocks s hs
    · exact hop s hs
  | mergeAdjacent =>
    obtain ⟨⟨q', merged⟩, hq', heq⟩ := map_eq_some_iff.mp hstep
    cases heq
    obtain ⟨hhead, hsub⟩ := IoQueue.mergeAdjacent_keeps hq'
    exact ⟨hhead ▸ h.head, fun s hs => h.blocks s (hsub.subset hs)⟩
  | dispatch =>
    obtain ⟨⟨q', pair⟩, hd, heq⟩ := map_eq_some_iff.mp hstep
    cases heq
    rcases IoQueue.dispatch_take hd with ⟨_, rfl, _⟩ | ⟨idx, req, hreq, rfl, _⟩
    · exact h
    · exact h.take hreq

variable {ops sweep : List IoOp} {up : Bool}

theorem words_run (h : r.queue.Words) (hops : ∀ op ∈ ops, ∀ req ∈ op.requests, req.block < wordSize)
    (hrun : system.run r ops = some r') : r'.queue.Words := by
  refine System.history_run
    (I := fun ops s => (∀ op ∈ ops, ∀ req ∈ op.requests, req.block < wordSize) → s.queue.Words)
    (fun done s op t hs hstep hops => ?_) (fun _ => h) hrun hops
  have hdone := hs fun a ha => hops a (mem_append_left _ ha)
  exact words_step hdone (hops op (mem_append_right _ (mem_singleton_self op))) hstep

/-- The direction is `up`, and what is dispatched is ahead. -/
def InSweep (up : Bool) (r : IoRun) (op : IoOp) : Prop :=
  r.queue.directionUp = up ∧ (op = .dispatch → r.queue.pending ≠ [] → r.queue.Ahead)

/-- One call of a sweep: it leaves the head where it is and dispatches nothing, or goes on to what it
dispatches. -/
theorem sweep_step (h : r.queue.Words) (hsweep : InSweep up r op) (hstep : r.step op = some r') :
    (r'.queue.headPos = r.queue.headPos ∧ r'.returned = r.returned) ∨
      ∃ req : IoRequest, r'.queue.headPos = req.block ∧ r'.returned = r.returned ++ [req.pair] ∧
        Onward up r.queue.headPos req.block := by
  cases op with
  | submit req =>
    cases hstep
    exact .inl ⟨rfl, rfl⟩
  | submitBatch reqs =>
    simp only [step, IoQueue.submitBatch, map_eq_some_iff, ite_none_left_eq_some] at hstep
    obtain ⟨d, ⟨_, hd⟩, heq⟩ := hstep
    cases hd
    cases heq
    exact .inl ⟨rfl, rfl⟩
  | mergeAdjacent =>
    obtain ⟨⟨q', merged⟩, hq', heq⟩ := map_eq_some_iff.mp hstep
    cases heq
    exact .inl ⟨(IoQueue.mergeAdjacent_keeps hq').1, rfl⟩
  | dispatch =>
    obtain ⟨⟨q', pair⟩, hd, heq⟩ := map_eq_some_iff.mp hstep
    cases heq
    by_cases hne : r.queue.pending = []
    · rw [IoQueue.dispatch_none hne] at hd
      cases hd
      exact .inl ⟨rfl, append_nil _⟩
    · have hahead := hsweep.2 rfl hne
      obtain ⟨idx, req, hreq, hdispatch, hfirst⟩ := h.dispatch_first hne hahead.words
      rw [hdispatch] at hd
      cases hd
      exact .inr ⟨req, rfl, rfl, hsweep.1 ▸ hahead.onWay hfirst⟩

theorem sweep_run (h : r.queue.Words) (hops : ∀ op ∈ sweep, ∀ req ∈ op.requests, req.block < wordSize)
    (hsweep : system.Asks (InSweep up) r sweep) (hrun : system.run r sweep = some r') :
    ∃ dispatched, r'.returned = r.returned ++ dispatched ∧
      (r.queue.headPos :: dispatched.map Prod.fst).IsChain (Onward up) := by
  induction sweep generalizing r with
  | nil =>
    cases hrun
    exact ⟨[], (append_nil _).symm, isChain_singleton _⟩
  | cons op rest ih =>
    rw [System.run_cons, bind_eq_some_iff] at hrun
    obtain ⟨s, hs, hrun⟩ := hrun
    have hwords := words_step h (hops op mem_cons_self) hs
    obtain ⟨dispatched, hreturned, hchain⟩ :=
      ih hwords (fun b hb => hops b (mem_cons_of_mem op hb)) (hsweep.tail hs) hrun
    rcases sweep_step h hsweep.head hs with ⟨hhead, hsame⟩ | ⟨req, hhead, hone, honward⟩
    · exact ⟨dispatched, hsame ▸ hreturned, hhead ▸ hchain⟩
    · refine ⟨req.pair :: dispatched, ?_, ?_⟩
      · rw [hreturned, hone, append_assoc, singleton_append]
      · rw [hhead] at hchain
        exact isChain_cons_cons.mpr ⟨honward, hchain⟩

end IoRun

/-- **The head scans** exactly when there is a request on its way that none of the others seems nearer than, and
no distance overflows. As long as it does and does not turn, the blocks that are dispatched follow each other
in its direction. -/
theorem dispatch_scans_iff {ops sweep : List IoOp} {r : IoRun}
    (hwords : ∀ op ∈ ops ++ sweep, ∀ req ∈ op.requests, req.block < wordSize)
    (hrun : IoRun.system.run IoRun.init ops = some r) :
    (r.queue.pending ≠ [] → (r.queue.Scans ↔ r.queue.Ahead)) ∧
      ∀ r', IoRun.system.run r sweep = some r' →
        IoRun.system.Asks (IoRun.InSweep r.queue.directionUp) r sweep →
        ∃ dispatched, r'.returned = r.returned ++ dispatched ∧
          (r.queue.headPos :: dispatched.map Prod.fst).IsChain (Onward r.queue.directionUp) := by
  have hinit : IoRun.init.queue.Words := ⟨by decide, fun req hreq => absurd hreq not_mem_nil⟩
  have hr := IoRun.words_run hinit (fun op hop => hwords op (mem_append_left _ hop)) hrun
  refine ⟨IoQueue.scans_iff_ahead hr, fun r' hrun' hsweep => ?_⟩
  exact IoRun.sweep_run hr (fun op hop => hwords op (mem_append_right _ hop)) hsweep hrun'

/-- Up from block 0, with two requests ahead. -/
theorem dispatch_scans_two : ∃ r, IoRun.system.run IoRun.init
    [.submit ⟨10, false, 0, 0⟩, .submit ⟨5, false, 0, 0⟩] = some r ∧ r.queue.Scans := by
  refine ⟨⟨⟨[⟨10, false, 0, 0⟩, ⟨5, false, 0, 0⟩], 0, true, 0, 0⟩, [(10, false), (5, false)], []⟩, rfl, ?_⟩
  have hwords : ∀ op ∈ [IoOp.submit ⟨10, false, 0, 0⟩, .submit ⟨5, false, 0, 0⟩] ++ [],
      ∀ req ∈ op.requests, req.block < wordSize := by decide
  refine ((dispatch_scans_iff hwords rfl).1 (cons_ne_nil _ _)).mpr ⟨by decide, [], _, _, rfl, ?_, ?_, ?_⟩
  · exact Nat.zero_le 10
  · decide
  · decide

/-- The head has turned at block 10, and two requests come in above it: the farther one is dispatched, and the
head does not turn. -/
theorem dispatch_does_not_turn : ∃ r, IoRun.system.run IoRun.init
    [.submit ⟨10, false, 0, 0⟩, .dispatch, .submit ⟨30, false, 0, 0⟩, .submit ⟨20, false, 0, 0⟩] = some r ∧
      r.queue.pending ≠ [] ∧ ¬r.queue.Scans := by
  refine ⟨⟨⟨[⟨30, false, 0, 0⟩, ⟨20, false, 0, 0⟩], 10, false, 1, 0⟩, [(10, false), (30, false), (20, false)],
    [(10, false)]⟩, by decide +kernel, cons_ne_nil _ _, fun hscans => ?_⟩
  obtain ⟨q', req, hdispatch, _, _, hturn⟩ := hscans
  have hdown : (IoQueue.dispatch ⟨[⟨30, false, 0, 0⟩, ⟨20, false, 0, 0⟩], 10, false, 1, 0⟩).all
      (fun d => !d.1.directionUp) = true := by decide +kernel
  rw [hdispatch] at hdown
  have hup := (hturn (by decide)).1
  simp only [all_some, hup, Bool.not_false, Bool.not_true] at hdown
  cases hdown

end ChaosKernel.Fs
