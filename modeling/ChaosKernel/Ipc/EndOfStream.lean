import ChaosKernel.Ipc.Channel

/-! The end of the stream.

One thread sends and then closes, the other receives in a loop and takes `None`
for the end. Two windows make `None` come early. `send` publishes its byte and
wakes a receiver in two sections: a receiver that took the byte in between and
waits for the next one is woken with nothing to take, and its second attempt is
its last. And `recv` looks at the ring first and at the flag afterwards: bytes that
come between the two, before the flag is set, are left behind.

`Timely` says of a step that it falls in neither window. When all steps of a run are
timely, every `None` is the end (`none_ends_of_timely`). -/
namespace ChaosKernel.Ipc
open Base Memory

inductive Role where
  | sender
  | receiver
  deriving DecidableEq

/-- The sender calls `send` until it calls `close`; the receiver calls `recv`. -/
def Role.may (w : ChannelWorld Role) : Role → Op → Bool
  | .sender, .send _ | .sender, .close => !w.shared.shut
  | .receiver, .recv => true
  | _, _ => false

def stream : System (ChannelWorld Role) (ChannelStep Role) := ⟨ChannelWorld.step Role.may⟩

/-- `recv` returns `None`. -/
def ReturnsNone (w : ChannelWorld Role) (a : ChannelStep Role) : Prop :=
  a = .tick .receiver ∧ w.locals .receiver = .recvRelease none

/-- The channel is closed and every accepted byte was received. -/
def Channel.Ended {τ : Type*} (ch : Channel τ) : Prop :=
  ch.shut = true ∧ ch.taken.length = ch.accepted.length ∧
    (ch.accepted.length < 2 ^ 64 → ch.taken = ch.accepted)

/-- A wake-up of `send` reaches a waiting receiver only while there is a byte; `recv` finds the
channel closed only while the ring is still empty. -/
def Timely (w : ChannelWorld Role) : ChannelStep Role → Prop
  | .tick .sender => w.locals .sender = .sendWake → w.shared.wq ≠ [] → 0 < w.shared.buf.n
  | .tick .receiver => w.locals .receiver = .recvShut → w.shared.shut = true → w.shared.buf.n = 0
  | .call _ _ => True

theorem Channel.wakeAll_nil {τ : Type*} [DecidableEq τ] {ch : Channel τ} (h : ch.wq = []) :
    ch.wakeAll = ch := by
  obtain ⟨_, _, _, _, _, _, _⟩ := ch
  cases h
  simp [wakeAll]

instance (w : ChannelWorld Role) (a : ChannelStep Role) : Decidable (Timely w a) :=
  match a with
  | .tick .sender => inferInstanceAs (Decidable (_ → _ → _))
  | .tick .receiver => inferInstanceAs (Decidable (_ → _ → _))
  | .call _ _ => .isTrue trivial

/-! ### Three runs -/

def ticks (t : Role) (n : Nat) : List (ChannelStep Role) := List.replicate n (.tick t)

/-- `recv` up to the park of a thread that finds nothing. -/
def recvWaits : List (ChannelStep Role) := .call .receiver .recv :: ticks .receiver 6

def oneByte : List (ChannelStep Role) :=
  recvWaits ++ .call .sender (.send 7) :: ticks .sender 2 ++ ticks .receiver 4 ++
    .call .sender .close :: ticks .sender 2 ++ .call .receiver .recv :: ticks .receiver 3

def lateWake : List (ChannelStep Role) :=
  .call .sender (.send 7) :: ticks .sender 1 ++ .call .receiver .recv :: ticks .receiver 3 ++
    recvWaits ++ ticks .sender 1 ++ ticks .receiver 3

def closedBehind : List (ChannelStep Role) :=
  .call .receiver .recv :: ticks .receiver 2 ++ .call .sender (.send 7) :: ticks .sender 2 ++
    .call .sender .close :: ticks .sender 1 ++ ticks .receiver 1

/-! ### What the two threads know -/

def SenderAt (shut : Bool) : Pc → Prop
  | .idle => True
  | .sendPut _ | .sendWake | .closeShut => shut = false
  | .closeWake => shut = true
  | _ => False

/-- The receiver is in the queue, or it was woken for a reason that lasts until it looks. -/
def ReceiverAt (ch : Channel Role) : Pc → Prop
  | .recvUnguard | .recvPark =>
    (ch.wq = [.receiver] ∧ ch.tokens .receiver = false) ∨
      (ch.wq = [] ∧ ch.tokens .receiver = true ∧ (0 < ch.buf.n ∨ ch.shut = true))
  | .recvReguard | .recvRetake =>
    (ch.wq = [] ∧ ch.tokens .receiver = false) ∧ (0 < ch.buf.n ∨ ch.shut = true)
  | .recvRelease none => (ch.wq = [] ∧ ch.tokens .receiver = false) ∧ ch.shut = true ∧ ch.buf.n = 0
  | .idle | .recvGuard | .recvTake | .recvShut | .recvCheck | .recvEnqueue | .recvRelease (some _) =>
    ch.wq = [] ∧ ch.tokens .receiver = false
  | _ => False

namespace ReceiverAt
variable {ch ch' : Channel Role} {r : Pc}

theorem more (h : ReceiverAt ch r) (hopen : ch.shut = false)
    (hwq : ch'.wq = ch.wq) (htokens : ch'.tokens = ch.tokens) (hn : ch.buf.n ≤ ch'.buf.n) :
    ReceiverAt ch' r := by
  have hwhy (hold : 0 < ch.buf.n ∨ ch.shut = true) : 0 < ch'.buf.n := by
    rw [hopen] at hold
    rcases hold with hpos | hshut
    · omega
    · cases hshut
  cases r with
  | recvUnguard | recvPark =>
    simp only [ReceiverAt] at h ⊢
    rw [hwq, htokens]
    exact h.imp_right fun hwoken => ⟨hwoken.1, hwoken.2.1, .inl (hwhy hwoken.2.2)⟩
  | recvReguard | recvRetake =>
    simp only [ReceiverAt] at h ⊢
    rw [hwq, htokens]
    exact ⟨h.1, .inl (hwhy h.2)⟩
  | recvRelease result =>
    cases result with
    | none =>
      have hshut := h.2.1
      rw [hopen] at hshut
      cases hshut
    | some v =>
      simp only [ReceiverAt] at h ⊢
      rwa [hwq, htokens]
  | idle | recvGuard | recvTake | recvShut | recvCheck | recvEnqueue =>
    simp only [ReceiverAt] at h ⊢
    rwa [hwq, htokens]
  | sendPut _ | batchPut _ | sendWake | closeShut | closeWake | tryGuard | tryTake | tryRelease _ | drain =>
    exact h.elim

theorem woken (h : ReceiverAt ch r) (hwq : ch.wq = [.receiver])
    (hwq' : ch'.wq = []) (htoken : ch'.tokens .receiver = true) (hwhy : 0 < ch'.buf.n ∨ ch'.shut = true) :
    ReceiverAt ch' r := by
  have hno : ¬ (ch.wq = [] ∧ ch.tokens .receiver = false) := fun hquiet => by
    rw [hwq] at hquiet
    cases hquiet.1
  cases r with
  | recvUnguard | recvPark => exact .inr ⟨hwq', htoken, hwhy⟩
  | recvReguard | recvRetake => exact absurd h.1 hno
  | recvRelease result =>
    cases result with
    | none => exact absurd h.1 hno
    | some v => exact absurd h hno
  | idle | recvGuard | recvTake | recvShut | recvCheck | recvEnqueue => exact absurd h hno
  | sendPut _ | batchPut _ | sendWake | closeShut | closeWake | tryGuard | tryTake | tryRelease _ | drain =>
    exact h.elim

theorem wq_cases (h : ReceiverAt ch r) :
    ch.wq = [] ∨ ch.wq = [.receiver] := by
  cases r with
  | recvUnguard | recvPark =>
    rcases h with hwaits | hwoken
    · exact .inr hwaits.1
    · exact .inl hwoken.1
  | recvReguard | recvRetake => exact .inl h.1.1
  | recvRelease result =>
    cases result with
    | none => exact .inl h.1.1
    | some v => exact .inl h.1
  | idle | recvGuard | recvTake | recvShut | recvCheck | recvEnqueue => exact .inl h.1
  | sendPut _ | batchPut _ | sendWake | closeShut | closeWake | tryGuard | tryTake | tryRelease _ | drain =>
    exact h.elim

end ReceiverAt

structure Streaming (ch : Channel Role) (s r : Pc) : Prop where
  counts : ch.Counts
  sender : SenderAt ch.shut s
  receiver : ReceiverAt ch r

namespace Streaming
variable {ch ch' : Channel Role} {s s' r r' : Pc}

theorem new (cap : Nat) : Streaming (Channel.new cap) .idle .idle :=
  ⟨.new cap, trivial, rfl, rfl⟩

theorem receiver_section (h : Streaming ch s r) (hacc : ch.access .receiver r = some (ch', r'))
    (htimely : r = .recvShut → ch.shut = true → ch.buf.n = 0) : Streaming ch' s r' := by
  have hcounts := h.counts.step (Channel.access_moves hacc)
  obtain ⟨hcount, hs, hr⟩ := h
  cases r with
  | recvGuard | recvReguard =>
    simp only [Channel.access] at hacc
    split at hacc <;> cases hacc <;> exact ⟨hcounts, hs, hr⟩
  | recvTake =>
    rcases hcount.take_cases with ⟨htake, _⟩ | ⟨v, ring, _, htake⟩
    · simp only [Channel.access, htake] at hacc
      cases hacc
      exact ⟨hcounts, hs, hr⟩
    · simp only [Channel.access, htake] at hacc
      cases hacc
      exact ⟨hcounts, hs, hr⟩
  | recvShut =>
    simp only [Channel.access] at hacc
    split at hacc
    · next hshut =>
      cases hacc
      exact ⟨hcounts, hs, hr, hshut, htimely rfl hshut⟩
    · cases hacc
      exact ⟨hcounts, hs, hr⟩
  | recvCheck =>
    simp only [Channel.access] at hacc
    split at hacc
    · next hn =>
      cases hacc
      exact ⟨hcounts, hs, hr, .inl hn⟩
    · cases hacc
      exact ⟨hcounts, hs, hr⟩
  | recvEnqueue =>
    cases hacc
    exact ⟨hcounts, hs, .inl ⟨by rw [hr.1]; rfl, hr.2⟩⟩
  | recvUnguard =>
    cases hacc
    exact ⟨hcounts, hs, hr⟩
  | recvPark =>
    simp only [Channel.access, Option.ite_none_right_eq_some] at hacc
    obtain ⟨htoken, hacc⟩ := hacc
    cases hacc
    rcases hr with ⟨_, hnone⟩ | ⟨hwq, _, hwhy⟩
    · rw [htoken] at hnone
      cases hnone
    · exact ⟨hcounts, hs, ⟨hwq, by simp only [Function.update_self]⟩, hwhy⟩
  | recvRetake =>
    obtain ⟨hquiet, hwhy⟩ := hr
    rcases hcount.take_cases with ⟨htake, hn⟩ | ⟨v, ring, _, htake⟩
    · simp only [Channel.access, htake] at hacc
      cases hacc
      exact ⟨hcounts, hs, hquiet, hwhy.resolve_left (by omega), hn⟩
    · simp only [Channel.access, htake] at hacc
      cases hacc
      exact ⟨hcounts, hs, hquiet⟩
  | recvRelease result =>
    cases hacc
    cases result with
    | none => exact ⟨hcounts, hs, hr.1⟩
    | some v => exact ⟨hcounts, hs, hr⟩
  | idle => cases hacc
  | sendPut _ | batchPut _ | sendWake | closeShut | closeWake | tryGuard | tryTake | tryRelease _ | drain =>
    exact hr.elim

theorem sender_section (h : Streaming ch s r) (hacc : ch.access .sender s = some (ch', s'))
    (htimely : s = .sendWake → ch.wq ≠ [] → 0 < ch.buf.n) : Streaming ch' s' r := by
  have hcounts := h.counts.step (Channel.access_moves hacc)
  obtain ⟨hcount, hs, hr⟩ := h
  cases s with
  | idle => cases hacc
  | sendPut v =>
    rcases hcount.put_cases v with hput | ⟨ring, hn, hput⟩
    · simp only [Channel.access, hput] at hacc
      cases hacc
      exact ⟨hcounts, trivial, hr⟩
    · simp only [Channel.access, hput] at hacc
      cases hacc
      exact ⟨hcounts, hs, hr.more hs rfl rfl (by simp only [hn]; omega)⟩
  | sendWake =>
    cases hacc
    refine ⟨hcounts, trivial, ?_⟩
    rcases hr.wq_cases with hwq | hwq
    · simp only [Channel.wakeOne, hwq]
      exact hr
    · refine hr.woken hwq ?_ ?_ ?_
      · simp only [Channel.wakeOne, hwq]
      · simp only [Channel.wakeOne, hwq, Function.update_self]
      · simp only [Channel.wakeOne, hwq]
        exact .inl (htimely rfl (by rw [hwq]; exact List.cons_ne_nil _ _))
  | closeShut =>
    cases hacc
    exact ⟨hcounts, rfl, hr.more hs rfl rfl le_rfl⟩
  | closeWake =>
    cases hacc
    refine ⟨hcounts, trivial, ?_⟩
    rcases hr.wq_cases with hwq | hwq
    · rw [Channel.wakeAll_nil hwq]
      exact hr
    · exact hr.woken hwq rfl (by simp [Channel.wakeAll, hwq]) (.inr hs)
  | recvGuard | recvTake | recvShut | recvCheck | recvEnqueue | recvUnguard | recvPark | recvReguard
  | recvRetake | recvRelease _ | batchPut _ | tryGuard | tryTake | tryRelease _ | drain => exact hs.elim

end Streaming

/-! ### Runs -/

variable {w w' : ChannelWorld Role}

theorem Streaming.call {t : Role} {op : Op} (h : Streaming w.shared (w.locals .sender) (w.locals .receiver))
    (hidle : w.locals t = .idle) (hmay : Role.may w t op = true) :
    Streaming w.shared ((w.set t w.shared op.start).locals .sender)
      ((w.set t w.shared op.start).locals .receiver) := by
  obtain ⟨hcount, hs, hr⟩ := h
  cases t with
  | sender =>
    rw [w.set_self, w.set_other Role.noConfusion]
    refine ⟨hcount, ?_, hr⟩
    cases op with
    | send v | close =>
      have hopen : (!w.shared.shut) = true := hmay
      show w.shared.shut = false
      exact Bool.not_eq_eq_eq_not.mp hopen
    | sendBatch _ | recv | tryRecv | drainAll => cases hmay
  | receiver =>
    rw [w.set_self, w.set_other Role.noConfusion]
    refine ⟨hcount, hs, ?_⟩
    rw [hidle] at hr
    cases op with
    | recv => exact hr
    | send _ | sendBatch _ | close | tryRecv | drainAll => cases hmay

theorem Streaming.tick {a : ChannelStep Role}
    (h : Streaming w.shared (w.locals .sender) (w.locals .receiver)) (htimely : Timely w a)
    (hstep : stream.step w a = some w') :
    Streaming w'.shared (w'.locals .sender) (w'.locals .receiver) := by
  cases a with
  | call t op =>
    simp only [stream, ChannelWorld.step, Option.ite_none_right_eq_some, Option.some.injEq] at hstep
    obtain ⟨⟨hidle, hmay⟩, rfl⟩ := hstep
    exact h.call hidle hmay
  | tick t =>
    obtain ⟨⟨ch, pc⟩, hacc, rfl⟩ := Option.map_eq_some_iff.mp hstep
    cases t with
    | sender =>
      rw [w.set_self, w.set_other Role.noConfusion]
      exact h.sender_section hacc htimely
    | receiver =>
      rw [w.set_self, w.set_other Role.noConfusion]
      exact h.receiver_section hacc htimely

theorem Streaming.ended {ch : Channel Role} {s : Pc} {cap : Nat} (h : Streaming ch s (.recvRelease none))
    (hdelivers : ch.accepted.length < wordSize → ch.Delivers cap) : ch.Ended := by
  obtain ⟨⟨_, hcount⟩, _, _, hshut, hn⟩ := h
  refine ⟨hshut, by omega, fun hword => ?_⟩
  obtain ⟨_, q, hacc, hqueue⟩ := hdelivers hword
  have hq : q = [] := List.length_eq_zero_iff.mp (by rw [← hqueue.n, hn])
  rw [hacc, hq, List.append_nil]

theorem ReturnsNone.step (hpc : w.locals .receiver = .recvRelease none) :
    ∃ w', stream.step w (.tick .receiver) = some w' := by
  simp only [stream, ChannelWorld.step, hpc, Channel.access, Option.map_some]
  exact ⟨_, rfl⟩

/-- **`None` is the end of the stream when every step is timely.** -/
theorem none_ends_of_timely (cap : Nat) {steps : List (ChannelStep Role)}
    (htimely : stream.Guarded Timely (ChannelWorld.new cap) steps) :
    stream.Guarded (fun w a => ReturnsNone w a → w.shared.Ended) (ChannelWorld.new cap) steps := by
  intro done a w w' hpre hrun hstep hnone
  have hdone : done <+: steps := (List.prefix_append done [a]).trans hpre
  have hstreaming : Streaming w.shared (w.locals .sender) (w.locals .receiver) := System.always_of_guarded
    (I := fun w => Streaming w.shared (w.locals .sender) (w.locals .receiver))
    (fun _ _ _ h htimely hstep => h.tick htimely hstep) (.new cap) htimely done w hdone hrun
  have hdelivers := ChannelWorld.delivers_run Role.may cap hrun
  rw [hnone.2] at hstreaming
  exact hstreaming.ended hdelivers

/-- A receiver that waits is woken in time, and then finds the channel closed. -/
theorem none_ends_of_timely_one : ∃ w : ChannelWorld Role,
    stream.run (ChannelWorld.new 4) oneByte = some w ∧ ReturnsNone w (.tick .receiver) ∧
      w.shared.taken = [7] ∧ w.shared.Ended := by
  have htimely : stream.Guarded Timely (ChannelWorld.new 4) (oneByte ++ [.tick .receiver]) := by
    decide +kernel
  have hrun : ((stream.run (ChannelWorld.new 4) oneByte).any fun w =>
      w.locals .receiver = .recvRelease none ∧ w.shared.taken = [7]) = true := by
    decide +kernel
  obtain ⟨w, hrun, hpc, htaken⟩ := System.exists_of_run_any hrun
  obtain ⟨w', hstep⟩ := ReturnsNone.step hpc
  exact ⟨w, hrun, ⟨rfl, hpc⟩, htaken,
    none_ends_of_timely 4 htimely oneByte (.tick .receiver) w w' List.prefix_rfl hrun hstep ⟨rfl, hpc⟩⟩

/-- The byte is taken between the two sections of `send`; the receiver is in the queue for the next
one when the wake-up comes, and returns `None` from an open channel. -/
theorem none_before_end : ¬ stream.Guarded (fun w a => ReturnsNone w a → w.shared.Ended)
    (ChannelWorld.new 4) (lateWake ++ [.tick .receiver]) := by
  intro hall
  have hrun : ((stream.run (ChannelWorld.new 4) lateWake).any fun w =>
      w.locals .receiver = .recvRelease none ∧ w.shared.shut = false) = true := by
    decide +kernel
  obtain ⟨w, hrun, hpc, hopen⟩ := System.exists_of_run_any hrun
  obtain ⟨w', hstep⟩ := ReturnsNone.step hpc
  obtain ⟨hshut, _⟩ := hall lateWake (.tick .receiver) w w' List.prefix_rfl hrun hstep ⟨rfl, hpc⟩
  rw [hopen] at hshut
  cases hshut

/-- The other window: the ring is found empty, then a byte comes and the channel is closed, and the
flag is read. -/
example : ((stream.run (ChannelWorld.new 4) closedBehind).any fun w =>
    w.locals .receiver = .recvRelease none ∧ w.shared.depth = 1) = true := by
  decide +kernel

end ChaosKernel.Ipc
