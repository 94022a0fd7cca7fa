import ChaosKernel.Base.Run
import ChaosKernel.Base.Threads
import ChaosKernel.Memory.CircBuf

/-! The byte channel.

A ring under a mutex, a spin lock that only receivers take, a queue of waiting
receivers under a mutex of its own, and a flag. An operation is a sequence of
sections, each under one of the mutexes or a single atomic access, and `access`
performs the next one. `send` publishes the byte and wakes a receiver in two
separate sections. The operations copy the code of the ring's `push` and `pop` by
hand; the model calls them. `unpark` leaves a token that the next `park` of that
thread consumes, and `park` waits for one.

The state also records what was accepted and what was taken out, in the order of
the sections that did it. The channel delivers in order: what was taken out is a
prefix of what was accepted, and the rest is in the ring (`channel_delivers`). -/
namespace ChaosKernel.Ipc
open Base Memory List Option

structure Channel (τ : Type*) where
  buf : CircBuf
  guard : Bool
  wq : List τ
  shut : Bool
  tokens : τ → Bool
  accepted : Bytes
  taken : Bytes

/-- The next section of a thread. -/
inductive Pc where
  | idle
  /-- `recv`. -/
  | recvGuard
  | recvTake
  | recvShut
  | recvCheck
  | recvEnqueue
  | recvUnguard
  | recvPark
  | recvReguard
  | recvRetake
  | recvRelease (result : Option UInt8)
  /-- `send` and `send_batch`. -/
  | sendPut (v : UInt8)
  | batchPut (data : Bytes)
  | sendWake
  /-- `close`. -/
  | closeShut
  | closeWake
  /-- `try_recv`. -/
  | tryGuard
  | tryTake
  | tryRelease (result : Option UInt8)
  /-- `drain_all`. -/
  | drain
  deriving DecidableEq

namespace Channel
variable {τ : Type*} [DecidableEq τ]

/-- The capacity is kept between `1` and `2^20`. -/
def effectiveCap (cap : Nat) : Nat := if cap = 0 then 1 else if 2 ^ 20 < cap then 2 ^ 20 else cap

def new (cap : Nat) : Channel τ := ⟨CircBuf.new (effectiveCap cap), false, [], false, fun _ => false, [], []⟩

def depth (ch : Channel τ) : Nat := ch.buf.n

/-- A byte out of the ring. -/
def take (ch : Channel τ) : Option UInt8 × Channel τ :=
  let (res, buf) := ch.buf.pop
  (res, {ch with buf := buf, taken := ch.taken ++ res.toList})

def put (ch : Channel τ) (v : UInt8) : Bool × Channel τ :=
  let (ok, buf) := ch.buf.push v
  (ok, {ch with buf := buf, accepted := ch.accepted ++ if ok then [v] else []})

def putBatch (ch : Channel τ) (data : Bytes) : Nat × Channel τ :=
  let (written, buf) := ch.buf.pushAll data
  (written, {ch with buf := buf, accepted := ch.accepted ++ data.take written})

/-- The loop of `drain_all` takes at most the bytes that are there. -/
def drainAll (ch : Channel τ) : Bytes × Channel τ :=
  let (res, buf) := ch.buf.popAll ch.buf.n
  (res, {ch with buf := buf, taken := ch.taken ++ res})

/-- `if let Some(t) = wq.pop_front() { t.unpark(); }` -/
def wakeOne (ch : Channel τ) : Channel τ :=
  match ch.wq with
  | [] => ch
  | t :: rest => {ch with wq := rest, tokens := Function.update ch.tokens t true}

/-- `while let Some(t) = wq.pop_front() { t.unpark(); }` -/
def wakeAll (ch : Channel τ) : Channel τ :=
  {ch with wq := [], tokens := fun t => ch.tokens t || decide (t ∈ ch.wq)}

/-- One section of the thread `me`. `none` says that the thread cannot go on now. -/
def access (me : τ) (ch : Channel τ) : Pc → Option (Channel τ × Pc)
  | .idle => none
  | .recvGuard =>
    if ch.guard then some (ch, .recvGuard) else some ({ch with guard := true}, .recvTake)
  | .recvTake =>
    let (res, ch) := ch.take
    if res.isSome then some (ch, .recvRelease res) else some (ch, .recvShut)
  | .recvShut => if ch.shut then some (ch, .recvRelease none) else some (ch, .recvCheck)
  | .recvCheck => if 0 < ch.buf.n then some (ch, .recvRetake) else some (ch, .recvEnqueue)
  | .recvEnqueue => some ({ch with wq := ch.wq ++ [me]}, .recvUnguard)
  | .recvUnguard => some ({ch with guard := false}, .recvPark)
  | .recvPark =>
    if ch.tokens me then some ({ch with tokens := Function.update ch.tokens me false}, .recvReguard)
    else none
  | .recvReguard =>
    if ch.guard then some (ch, .recvReguard) else some ({ch with guard := true}, .recvRetake)
  | .recvRetake =>
    let (res, ch) := ch.take
    some (ch, .recvRelease res)
  | .recvRelease _ => some ({ch with guard := false}, .idle)
  | .sendPut v =>
    let (ok, ch) := ch.put v
    if ok then some (ch, .sendWake) else some (ch, .idle)
  | .batchPut data =>
    let (written, ch) := ch.putBatch data
    if 0 < written then some (ch, .sendWake) else some (ch, .idle)
  | .sendWake => some (ch.wakeOne, .idle)
  | .closeShut => some ({ch with shut := true}, .closeWake)
  | .closeWake => some (ch.wakeAll, .idle)
  | .tryGuard => if ch.guard then some (ch, .idle) else some ({ch with guard := true}, .tryTake)
  | .tryTake =>
    let (res, ch) := ch.take
    some (ch, .tryRelease res)
  | .tryRelease _ => some ({ch with guard := false}, .idle)
  | .drain => some (ch.drainAll.2, .idle)

end Channel

/-- A call of an operation. -/
inductive Op where
  | send (v : UInt8)
  | sendBatch (data : Bytes)
  | recv
  | tryRecv
  | drainAll
  | close
  deriving DecidableEq

def Op.start : Op → Pc
  | .send v => .sendPut v
  | .sendBatch data => .batchPut data
  | .recv => .recvGuard
  | .tryRecv => .tryGuard
  | .drainAll => .drain
  | .close => .closeShut

inductive ChannelStep (τ : Type*) where
  | call (t : τ) (op : Op)
  | tick (t : τ)

abbrev ChannelWorld (τ : Type*) := Threads τ (Channel τ) Pc

namespace ChannelWorld
variable {τ : Type*} [DecidableEq τ]

def new (cap : Nat) : ChannelWorld τ := ⟨Channel.new cap, fun _ => .idle⟩

/-- An idle thread makes any call that `may` allows; one that is not idle takes its next section. -/
def step (may : ChannelWorld τ → τ → Op → Bool) (w : ChannelWorld τ) :
    ChannelStep τ → Option (ChannelWorld τ)
  | .call t op => if w.locals t = .idle ∧ may w t op then some (w.set t w.shared op.start) else none
  | .tick t => (w.shared.access t (w.locals t)).map fun res => w.set t res.1 res.2

end ChannelWorld

/-- Any threads, each making any calls. -/
def channels (τ : Type*) [DecidableEq τ] : System (ChannelWorld τ) (ChannelStep τ) :=
  ⟨ChannelWorld.step fun _ _ _ => true⟩

/-! ### What a section does to the ring -/

namespace Channel
variable {τ : Type*} {ch ch' : Channel τ}

/-- What a section does to the ring: nothing, one byte out or in, a batch in, everything out. -/
inductive Moves (ch ch' : Channel τ) : Prop where
  | keep (buf : ch'.buf = ch.buf) (accepted : ch'.accepted = ch.accepted) (taken : ch'.taken = ch.taken)
  | take (buf : ch'.buf = ch.take.2.buf) (accepted : ch'.accepted = ch.accepted)
    (taken : ch'.taken = ch.take.2.taken)
  | put (v : UInt8) (buf : ch'.buf = (ch.put v).2.buf) (accepted : ch'.accepted = (ch.put v).2.accepted)
    (taken : ch'.taken = ch.taken)
  | batch (data : Bytes) (buf : ch'.buf = (ch.putBatch data).2.buf)
    (accepted : ch'.accepted = (ch.putBatch data).2.accepted) (taken : ch'.taken = ch.taken)
  | drain (buf : ch'.buf = ch.drainAll.2.buf) (accepted : ch'.accepted = ch.accepted)
    (taken : ch'.taken = ch.drainAll.2.taken)

theorem Moves.refl (ch : Channel τ) : Moves ch ch := .keep rfl rfl rfl

theorem wakeOne_moves [DecidableEq τ] (ch : Channel τ) : Moves ch ch.wakeOne := by
  unfold wakeOne
  split <;> exact .keep rfl rfl rfl

theorem access_moves [DecidableEq τ] {me : τ} {pc pc' : Pc} (h : ch.access me pc = some (ch', pc')) :
    Moves ch ch' := by
  cases pc with
  | idle => cases h
  | recvGuard | recvShut | recvCheck | recvReguard | tryGuard =>
    simp only [access] at h
    split at h <;> cases h <;> exact .keep rfl rfl rfl
  | recvTake =>
    simp only [access] at h
    split at h <;> cases h <;> exact .take rfl rfl rfl
  | recvPark =>
    simp only [access, ite_none_right_eq_some] at h
    cases h.2
    exact .keep rfl rfl rfl
  | recvEnqueue | recvUnguard | recvRelease | tryRelease | closeShut | closeWake =>
    cases h
    exact .keep rfl rfl rfl
  | recvRetake | tryTake =>
    cases h
    exact .take rfl rfl rfl
  | sendPut v =>
    simp only [access] at h
    split at h <;> cases h <;> exact .put v rfl rfl rfl
  | batchPut data =>
    simp only [access] at h
    split at h <;> cases h <;> exact .batch data rfl rfl rfl
  | sendWake =>
    cases h
    exact wakeOne_moves ch
  | drain =>
    cases h
    exact .drain rfl rfl rfl

/-! ### How many bytes -/

/-- The ring holds as many bytes as were accepted and not taken out. -/
structure Counts (ch : Channel τ) : Prop where
  sized : ch.buf.Sized
  count : ch.accepted.length = ch.taken.length + ch.buf.n

theorem effectiveCap_pos (cap : Nat) : 0 < effectiveCap cap := by
  unfold effectiveCap
  split
  · decide
  · split <;> omega

theorem Counts.new (cap : Nat) : Counts (new cap : Channel τ) :=
  ⟨⟨effectiveCap_pos cap, length_replicate, Nat.zero_le _⟩, rfl⟩

theorem Counts.take_cases (h : Counts ch) :
    (ch.take = (none, ch) ∧ ch.buf.n = 0) ∨ ∃ v ring, ring.n + 1 = ch.buf.n ∧
      ch.take = (some v, {ch with buf := ring, taken := ch.taken ++ [v]}) := by
  simp only [Channel.take]
  rcases h.sized.pop_cases with ⟨hpop, hn⟩ | ⟨v, ring, hpop, _, _, hn⟩
  · rw [hpop]
    exact .inl ⟨by simp only [toList_none, append_nil], hn⟩
  · rw [hpop]
    exact .inr ⟨v, ring, hn, rfl⟩

theorem Counts.put_cases (h : Counts ch) (v : UInt8) :
    ch.put v = (false, ch) ∨ ∃ ring, ring.n = ch.buf.n + 1 ∧
      ch.put v = (true, {ch with buf := ring, accepted := ch.accepted ++ [v]}) := by
  simp only [Channel.put]
  rcases h.sized.push_cases v with ⟨hpush, _⟩ | ⟨ring, hpush, _, _, hn⟩
  · rw [hpush]
    exact .inl (by simp only [Bool.false_eq_true, if_false, append_nil])
  · rw [hpush]
    exact .inr ⟨ring, hn, rfl⟩

theorem Counts.step (h : Counts ch) (hmoves : Moves ch ch') : Counts ch' := by
  obtain ⟨hsized, hcount⟩ := h
  cases hmoves with
  | keep hbuf haccepted htaken =>
    exact ⟨by rw [hbuf]; exact hsized, by rw [haccepted, htaken, hbuf]; exact hcount⟩
  | take hbuf haccepted htaken =>
    simp only [Channel.take] at hbuf htaken
    rcases hsized.pop_cases with ⟨hpop, hn⟩ | ⟨v, ring, hpop, hsized', _, hn⟩
    · rw [hpop] at hbuf htaken
      exact ⟨by rw [hbuf]; exact hsized, by simp [haccepted, htaken, hbuf, hcount]⟩
    · rw [hpop] at hbuf htaken
      refine ⟨by rw [hbuf]; exact hsized', ?_⟩
      simp only [haccepted, htaken, hbuf, hcount, toList_some, length_append,
        length_singleton]
      omega
  | put v hbuf haccepted htaken =>
    simp only [Channel.put] at hbuf haccepted
    rcases hsized.push_cases v with ⟨hpush, hn⟩ | ⟨ring, hpush, hsized', _, hn⟩
    · rw [hpush] at hbuf haccepted
      exact ⟨by rw [hbuf]; exact hsized, by simp [haccepted, htaken, hbuf, hcount]⟩
    · rw [hpush] at hbuf haccepted
      refine ⟨by rw [hbuf]; exact hsized', ?_⟩
      simp only [haccepted, htaken, hbuf, hcount, hn, if_true, length_append, length_singleton]
      omega
  | batch data hbuf haccepted htaken =>
    obtain ⟨hsized', hn⟩ := hsized.pushAll data
    have hle := CircBuf.pushAll_le data ch.buf
    simp only [Channel.putBatch] at hbuf haccepted
    refine ⟨by rw [hbuf]; exact hsized', ?_⟩
    rw [haccepted, length_append, length_take, min_eq_left hle, htaken, hbuf, hcount, hn]
    omega
  | drain hbuf haccepted htaken =>
    obtain ⟨hsized', hn⟩ := hsized.popAll ch.buf.n
    simp only [Channel.drainAll] at hbuf htaken
    refine ⟨by rw [hbuf]; exact hsized', ?_⟩
    rw [haccepted, htaken, hbuf, length_append, hcount]
    omega

/-! ### Delivery -/

/-- What was accepted is what was taken out and then what the ring holds. -/
structure Delivers (cap : Nat) (ch : Channel τ) : Prop where
  cap : ch.buf.cap = cap
  queue : ∃ q, ch.accepted = ch.taken ++ q ∧ ch.buf.Queue ch.taken q

theorem Delivers.new (cap : Nat) : Delivers (effectiveCap cap) (new cap : Channel τ) :=
  ⟨rfl, [], rfl, .new (effectiveCap_pos cap)⟩

theorem Moves.length_le (h : Moves ch ch') : ch.accepted.length ≤ ch'.accepted.length := by
  cases h with
  | keep _ hacc _ | take _ hacc _ | drain _ hacc _ => rw [hacc]
  | put v _ hacc _ | batch data _ hacc _ =>
    rw [hacc]
    exact (prefix_append _ _).length_le

theorem Delivers.same {cap : Nat} (h : Delivers cap ch) (hbuf : ch'.buf = ch.buf)
    (haccepted : ch'.accepted = ch.accepted) (htaken : ch'.taken = ch.taken) : Delivers cap ch' := by
  obtain ⟨hcap, q, hacc, hqueue⟩ := h
  exact ⟨by rw [hbuf, hcap], q, by rw [haccepted, htaken, hacc], by rw [hbuf, htaken]; exact hqueue⟩

theorem Delivers.step {cap : Nat} (h : Delivers cap ch) (hmoves : Moves ch ch')
    (hword : ch'.accepted.length < wordSize) : Delivers cap ch' := by
  obtain ⟨hcap, q, hacc, hqueue⟩ := id h
  have hlen : ch.accepted.length = ch.taken.length + q.length := by rw [hacc, length_append]
  cases hmoves with
  | keep hbuf haccepted htaken => exact h.same hbuf haccepted htaken
  | take hbuf haccepted htaken =>
    cases q with
    | nil =>
      simp only [Channel.take, hqueue.pop_nil, toList_none, append_nil] at hbuf htaken
      exact h.same hbuf haccepted htaken
    | cons v q =>
      rw [haccepted, hlen, length_cons] at hword
      obtain ⟨buf, hpop, hcap', hqueue'⟩ := hqueue.pop_cons (by omega)
      simp only [Channel.take, hpop, toList_some] at hbuf htaken
      refine ⟨by rw [hbuf, hcap', hcap], q, ?_, by rw [hbuf, htaken]; exact hqueue'⟩
      rw [haccepted, htaken, hacc, append_assoc, singleton_append]
  | put v hbuf haccepted htaken =>
    rcases hqueue.sized.push_cases v with ⟨hpush, _⟩ | ⟨buf, hpush, _⟩
    · simp only [Channel.put, hpush, Bool.false_eq_true, if_false, append_nil] at hbuf haccepted
      exact h.same hbuf haccepted htaken
    · have hroom : q.length < ch.buf.cap := by
        by_contra hfull
        rw [hqueue.push_full (by omega)] at hpush
        cases hpush
      simp only [Channel.put, hpush, if_true] at hbuf haccepted
      rw [haccepted, length_append, length_singleton, hlen] at hword
      obtain ⟨buf', hpush', hcap', hqueue'⟩ := hqueue.push_room hroom hword v
      have heq : buf' = buf := by
        rw [hpush'] at hpush
        exact congrArg Prod.snd hpush
      subst heq
      refine ⟨by rw [hbuf, hcap', hcap], q ++ [v], ?_, by rw [hbuf, htaken]; exact hqueue'⟩
      rw [haccepted, htaken, hacc, append_assoc]
  | batch data hbuf haccepted htaken =>
    simp only [Channel.putBatch] at hbuf haccepted
    have hle := CircBuf.pushAll_le data ch.buf
    rw [haccepted, length_append, length_take, min_eq_left hle, hlen] at hword
    obtain ⟨hcap', hqueue'⟩ := hqueue.pushAll data hword
    refine ⟨by rw [hbuf, hcap', hcap], _, ?_, by rw [hbuf, htaken]; exact hqueue'⟩
    rw [haccepted, htaken, hacc, append_assoc]
  | drain hbuf haccepted htaken =>
    rw [haccepted, hlen] at hword
    obtain ⟨buf, hpop, hcap', hqueue'⟩ := hqueue.popAll hqueue.n.ge hword
    simp only [Channel.drainAll, hpop] at hbuf htaken
    refine ⟨by rw [hbuf, hcap', hcap], [], ?_, by rw [hbuf, htaken]; exact hqueue'⟩
    rw [haccepted, htaken, hacc, append_nil]

end Channel

/-! ### Runs -/

namespace ChannelWorld
variable {τ : Type*} [DecidableEq τ] {w w' : ChannelWorld τ}

theorem step_moves (may : ChannelWorld τ → τ → Op → Bool) {a : ChannelStep τ} (h : w.step may a = some w') :
    Channel.Moves w.shared w'.shared := by
  cases a with
  | call t op =>
    simp only [step, ite_none_right_eq_some, some.injEq] at h
    obtain ⟨_, rfl⟩ := h
    exact .refl _
  | tick t =>
    obtain ⟨⟨ch, pc⟩, hacc, rfl⟩ := map_eq_some_iff.mp h
    exact Channel.access_moves hacc

/-- Whatever calls the threads may make. -/
theorem delivers_run (may : ChannelWorld τ → τ → Op → Bool) (cap : Nat) {steps : List (ChannelStep τ)}
    (hrun : (System.mk (step may)).run (new cap) steps = some w)
    (hword : w.shared.accepted.length < wordSize) : w.shared.Delivers (Channel.effectiveCap cap) := by
  have hinv := System.invariant_run (M := ⟨step may⟩)
    (I := fun w => w.shared.accepted.length < wordSize → w.shared.Delivers (Channel.effectiveCap cap))
    (fun _ _ _ h hstep hlt => by
      have hmoves := step_moves may hstep
      exact (h (hmoves.length_le.trans_lt hlt)).step hmoves hlt)
    (fun _ => Channel.Delivers.new cap) hrun
  exact hinv hword

end ChannelWorld

/-- **The channel delivers.** In any run of any threads in which fewer than `2^64` bytes were accepted,
the bytes taken out are a prefix of the bytes accepted, the rest is in the ring, and that is at most
the capacity. -/
theorem channel_delivers {τ : Type*} [DecidableEq τ] (cap : Nat) {steps : List (ChannelStep τ)}
    {w : ChannelWorld τ} (hrun : (channels τ).run (ChannelWorld.new cap) steps = some w)
    (hword : w.shared.accepted.length < 2 ^ 64) :
    w.shared.taken <+: w.shared.accepted ∧
      w.shared.accepted.length - w.shared.taken.length = w.shared.depth ∧
      w.shared.depth ≤ Channel.effectiveCap cap := by
  obtain ⟨hcap, q, hacc, hqueue⟩ := ChannelWorld.delivers_run _ cap hrun hword
  refine ⟨⟨q, hacc.symm⟩, ?_, ?_⟩
  · rw [hacc, length_append, Nat.add_sub_cancel_left]
    exact hqueue.n.symm
  · rw [← hcap]
    exact hqueue.sized.le

/-- Two threads and a ring of two bytes: a batch that fits in part, a byte out, a byte in at the
other end, a drain. -/
theorem channel_delivers_two : ∃ w : ChannelWorld Bool,
    (channels Bool).run (ChannelWorld.new 2)
      [.call true (.sendBatch [1, 2, 3]), .call false .recv, .tick true, .tick false, .tick false, .tick true,
        .tick false, .call true (.send 4), .tick true, .call false .drainAll, .tick false] = some w ∧
    w.shared.taken = [1, 2, 4] ∧ w.shared.taken <+: w.shared.accepted ∧ w.shared.depth = 0 := by
  have hrun : (((channels Bool).run (ChannelWorld.new 2)
      [.call true (.sendBatch [1, 2, 3]), .call false .recv, .tick true, .tick false, .tick false, .tick true,
        .tick false, .call true (.send 4), .tick true, .call false .drainAll, .tick false]).any
      fun w => w.shared.taken = [1, 2, 4] ∧ w.shared.accepted.length = 3) = true := by
    decide +kernel
  obtain ⟨w, hrun, htaken, haccepted⟩ := System.exists_of_run_any hrun
  obtain ⟨hpre, hdepth, _⟩ := channel_delivers 2 hrun (by omega)
  rw [haccepted, htaken] at hdepth
  exact ⟨w, hrun, htaken, hpre, hdepth.symm⟩

end ChaosKernel.Ipc
