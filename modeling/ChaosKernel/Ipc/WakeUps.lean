import ChaosKernel.Ipc.Channel

/-! Lost wake-ups of the channel.

A receiver looks at the ring and at the flag before it joins the queue. A byte that
comes in between finds the queue empty and wakes nobody; neither does `close`. And a
batch, like a single byte, wakes one receiver only.

The queue is watched as long as there is nothing to wake for or some thread is between
its change of the channel and its wake-up (`Watched`). `Prompt` says of a step that it
leaves the queue watched: a receiver joins it while it is, and the last wake-up on the
way does not leave others behind. When all steps of a run are prompt, no receiver sleeps
on (`no_lost_wakeUp_of_prompt`). -/
namespace ChaosKernel.Ipc
open Base Memory List

/-- In a call of `send`, `send_batch` or `close`. -/
def Pc.sending : Pc → Bool
  | .sendPut _ | .batchPut _ | .sendWake | .closeShut | .closeWake => true
  | _ => false

/-- Between the change of the channel and the wake-up. -/
def Pc.waking : Pc → Bool
  | .sendWake | .closeWake => true
  | _ => false

/-- In the queue, or woken and not yet gone on. -/
def Pc.waiting : Pc → Bool
  | .recvUnguard | .recvPark => true
  | _ => false

/-- There is nothing to wake a receiver for. -/
def Channel.Dry {τ : Type*} (ch : Channel τ) : Prop := ch.buf.n = 0 ∧ ch.shut = false

instance {τ : Type*} (ch : Channel τ) : Decidable ch.Dry := inferInstanceAs (Decidable (_ ∧ _))

section Properties
variable {τ : Type*}

/-- When all calls of `send` and `close` have finished, a receiver that sleeps on has no reason not to. -/
def NoLostWakeUp (w : ChannelWorld τ) : Prop :=
  (∀ t, (w.locals t).sending = false) →
    ∀ t, w.locals t = .recvPark → w.shared.tokens t = false → w.shared.Dry

def Prompt (w : ChannelWorld τ) : ChannelStep τ → Prop
  | .tick t =>
    (w.locals t = .recvEnqueue → w.shared.Dry ∨ ∃ u, (w.locals u).waking = true) ∧
      (w.locals t = .sendWake →
        w.shared.wq.length ≤ 1 ∨ w.shared.Dry ∨ ∃ u, u ≠ t ∧ (w.locals u).waking = true)
  | .call _ _ => True

instance [DecidableEq τ] [Fintype τ] (w : ChannelWorld τ) (a : ChannelStep τ) : Decidable (Prompt w a) :=
  match a with
  | .tick _ => inferInstanceAs (Decidable (_ ∧ _))
  | .call _ _ => .isTrue trivial

end Properties

/-! ### Two runs

Of a sender `true` and a receiver `false`. -/

/-- `recv` up to the park of a thread that finds nothing. -/
def recvSleeps : List (ChannelStep Bool) := .call false .recv :: List.replicate 6 (.tick false)

def sendSeven : List (ChannelStep Bool) := [.call true (.send 7), .tick true, .tick true]

def promptWake : List (ChannelStep Bool) :=
  recvSleeps ++ sendSeven ++ List.replicate 4 (.tick false) ++ recvSleeps

def earlyWake : List (ChannelStep Bool) := recvSleeps.take 5 ++ sendSeven ++ recvSleeps.drop 5

/-! ### What a section does to the queue -/

namespace Channel
variable {τ : Type*} [DecidableEq τ] {ch ch' : Channel τ} {me : τ} {pc pc' : Pc}

inductive Queues (me : τ) (ch : Channel τ) (pc : Pc) (ch' : Channel τ) (pc' : Pc) : Prop where
  | keep (wq : ch'.wq = ch.wq) (tokens : ch'.tokens = ch.tokens)
    (waits : pc'.waiting = true → pc.waiting = true) (wakes : pc.waking = false)
    (dry : ch.Dry → ch'.Dry ∨ pc'.waking = true)
  | enqueue (pc : pc = .recvEnqueue) (shared : ch' = {ch with wq := ch.wq ++ [me]})
  | unpark (pc : pc = .recvPark)
    (shared : ch' = {ch with tokens := Function.update ch.tokens me false}) (pc' : pc' = .recvReguard)
  | wakeOne (pc : pc = .sendWake) (shared : ch' = ch.wakeOne) (pc' : pc' = .idle)
  | wakeAll (pc : pc = .closeWake) (shared : ch' = ch.wakeAll) (pc' : pc' = .idle)

theorem Queues.awake (wq : ch'.wq = ch.wq) (tokens : ch'.tokens = ch.tokens) (waits : pc'.waiting = false)
    (wakes : pc.waking = false) (dry : ch.Dry → ch'.Dry ∨ pc'.waking = true) : Queues me ch pc ch' pc' :=
  .keep wq tokens (fun hwaits => absurd hwaits (Bool.eq_false_iff.mp waits)) wakes dry

omit [DecidableEq τ] in
theorem Counts.take_dry (h : Counts ch) (hdry : ch.Dry) : ch.take.2.Dry := by
  rcases h.take_cases with ⟨htake, _⟩ | ⟨v, ring, hn, _⟩
  · rw [htake]
    exact hdry
  · rw [hdry.1] at hn
    cases hn

theorem access_queues (hcount : ch.Counts) (h : ch.access me pc = some (ch', pc')) :
    Queues me ch pc ch' pc' := by
  cases pc with
  | idle => cases h
  | recvGuard | recvReguard | recvShut | recvCheck | tryGuard =>
    simp only [access] at h
    split at h <;> cases h <;> exact .awake rfl rfl rfl rfl .inl
  | recvTake =>
    simp only [access] at h
    split at h <;> cases h <;> exact .awake rfl rfl rfl rfl fun hdry => .inl (hcount.take_dry hdry)
  | recvRetake | tryTake =>
    cases h
    exact .awake rfl rfl rfl rfl fun hdry => .inl (hcount.take_dry hdry)
  | recvEnqueue =>
    cases h
    exact .enqueue rfl rfl
  | recvUnguard =>
    cases h
    exact .keep rfl rfl (fun _ => rfl) rfl .inl
  | recvPark =>
    simp only [access, Option.ite_none_right_eq_some] at h
    cases h.2
    exact .unpark rfl rfl rfl
  | recvRelease result | tryRelease result =>
    cases h
    exact .awake rfl rfl rfl rfl .inl
  | sendPut v =>
    rcases hcount.put_cases v with hput | ⟨ring, _, hput⟩
    · simp only [access, hput] at h
      cases h
      exact .awake rfl rfl rfl rfl .inl
    · simp only [access, hput] at h
      cases h
      exact .awake rfl rfl rfl rfl fun _ => .inr rfl
  | batchPut data =>
    obtain ⟨_, hn⟩ := hcount.sized.pushAll data
    simp only [access] at h
    split at h
    · cases h
      exact .awake rfl rfl rfl rfl fun _ => .inr rfl
    · next hnone =>
      cases h
      refine .awake rfl rfl rfl rfl fun hdry => .inl ⟨?_, hdry.2⟩
      have hzero : (ch.buf.pushAll data).1 = 0 := Nat.eq_zero_of_not_pos hnone
      show (ch.buf.pushAll data).2.n = 0
      rw [hn, hzero, hdry.1]
  | sendWake =>
    cases h
    exact .wakeOne rfl rfl rfl
  | closeShut =>
    cases h
    exact .awake rfl rfl rfl rfl fun _ => .inr rfl
  | closeWake =>
    cases h
    exact .wakeAll rfl rfl rfl
  | drain =>
    obtain ⟨_, hn⟩ := hcount.sized.popAll ch.buf.n
    cases h
    refine .awake rfl rfl rfl rfl fun hdry => .inl ⟨?_, hdry.2⟩
    have hzero := hdry.1
    show (ch.buf.popAll ch.buf.n).2.n = 0
    omega

end Channel

/-! ### Watched queues -/

structure Watched {τ : Type*} (w : ChannelWorld τ) : Prop where
  counts : w.shared.Counts
  queued : ∀ t, (w.locals t).waiting = true → w.shared.tokens t = true ∨ t ∈ w.shared.wq
  watched : w.shared.wq ≠ [] → w.shared.Dry ∨ ∃ u, (w.locals u).waking = true

namespace Watched
variable {τ : Type*} [DecidableEq τ] {w w' : ChannelWorld τ} {t : τ} {ch : Channel τ} {pc : Pc}

omit [DecidableEq τ] in
theorem new (cap : Nat) : Watched (ChannelWorld.new cap : ChannelWorld τ) :=
  ⟨.new cap, nofun, fun h => absurd rfl h⟩

theorem waking_set (ht : (w.locals t).waking = false) (h : ∃ u, (w.locals u).waking = true) :
    ∃ u, ((w.set t ch pc).locals u).waking = true := by
  obtain ⟨u, hu⟩ := h
  refine ⟨u, ?_⟩
  rw [w.set_other (fun heq => ?_)]
  · exact hu
  · rw [heq, ht] at hu
    cases hu

theorem queued_set (h : Watched w) (hpc : pc.waiting = false)
    (hkeep : ∀ u, u ≠ t → w.shared.tokens u = true ∨ u ∈ w.shared.wq → ch.tokens u = true ∨ u ∈ ch.wq) :
    ∀ u, ((w.set t ch pc).locals u).waiting = true → ch.tokens u = true ∨ u ∈ ch.wq := by
  apply w.forall_set (P := fun u pc => pc.waiting = true → ch.tokens u = true ∨ u ∈ ch.wq)
  · intro ht
    exact absurd (hpc.symm.trans ht) Bool.false_ne_true
  · intro u hut hu
    exact hkeep u hut (h.queued u hu)

theorem call (h : Watched w) (hidle : w.locals t = .idle) (op : Op) :
    Watched (w.set t w.shared op.start) := by
  refine ⟨h.counts, h.queued_set ?_ fun _ _ hold => hold, fun hwq => ?_⟩
  · cases op <;> rfl
  · refine (h.watched hwq).imp_right fun hwakes => waking_set ?_ hwakes
    rw [hidle]
    rfl

theorem wakeOne_queued (ch : Channel τ) {u : τ} (h : ch.tokens u = true ∨ u ∈ ch.wq) :
    ch.wakeOne.tokens u = true ∨ u ∈ ch.wakeOne.wq := by
  cases hwq : ch.wq with
  | nil =>
    simp only [Channel.wakeOne, hwq]
    rwa [hwq] at h
  | cons v rest =>
    simp only [Channel.wakeOne, hwq]
    by_cases huv : u = v
    · rw [huv, Function.update_self]
      exact .inl rfl
    · rw [Function.update_of_ne huv]
      rw [hwq, mem_cons] at h
      exact h.imp_right fun hmem => hmem.resolve_left huv

theorem wakeOne_dry (ch : Channel τ) (h : ch.Dry) : ch.wakeOne.Dry := by
  unfold Channel.wakeOne
  split <;> exact h

theorem tick (h : Watched w) (hprompt : Prompt w (.tick t))
    (hacc : w.shared.access t (w.locals t) = some (ch, pc)) : Watched (w.set t ch pc) := by
  have hcounts := h.counts.step (Channel.access_moves hacc)
  cases Channel.access_queues h.counts hacc with
  | keep hwq htokens hwaits hwakes hdry =>
    refine ⟨hcounts, fun u hu => ?_, fun hne => ?_⟩
    · show ch.tokens u = true ∨ u ∈ ch.wq
      rw [htokens, hwq]
      refine h.queued u ?_
      by_cases hut : u = t
      · rw [hut, w.set_self] at hu
        rw [hut]
        exact hwaits hu
      · rwa [w.set_other hut] at hu
    · rw [w.set_shared, hwq] at hne
      rcases h.watched hne with hold | hwaking
      · refine (hdry hold).imp_right fun hpc => ⟨t, ?_⟩
        rwa [w.set_self]
      · exact .inr (waking_set hwakes hwaking)
  | enqueue hpc hch =>
    subst hch
    refine ⟨hcounts, fun u hu => ?_, fun _ => ?_⟩
    · simp only [w.set_shared, mem_append, mem_singleton]
      by_cases hut : u = t
      · exact .inr (.inr hut)
      · rw [w.set_other hut] at hu
        exact (h.queued u hu).imp_right .inl
    · exact (hprompt.1 hpc).imp_right (waking_set (by rw [hpc]; rfl))
  | unpark hpc hch hpc' =>
    subst hch hpc'
    refine ⟨hcounts, h.queued_set rfl fun u hut hold => ?_, fun hne => ?_⟩
    · simp only [Function.update_of_ne hut]
      exact hold
    · exact (h.watched hne).imp_right (waking_set (by rw [hpc]; rfl))
  | wakeOne hpc hch hpc' =>
    subst hch hpc'
    refine ⟨hcounts, h.queued_set rfl fun u _ hold => wakeOne_queued _ hold, fun hne => ?_⟩
    rcases hprompt.2 hpc with hlast | hdry | ⟨u, hut, hu⟩
    · refine absurd ?_ hne
      show w.shared.wakeOne.wq = []
      cases hwq : w.shared.wq with
      | nil => rw [Channel.wakeOne, hwq, hwq]
      | cons v rest =>
        rw [hwq, length_cons] at hlast
        simp only [Channel.wakeOne, hwq]
        exact length_eq_zero_iff.mp (by omega)
    · exact .inl (wakeOne_dry _ hdry)
    · refine .inr ⟨u, ?_⟩
      rwa [w.set_other hut]
  | wakeAll hpc hch hpc' =>
    subst hch hpc'
    refine ⟨hcounts, h.queued_set rfl fun u _ hold => .inl ?_, fun hne => absurd rfl hne⟩
    simp only [Channel.wakeAll, Bool.or_eq_true, decide_eq_true_eq]
    exact hold

theorem step (h : Watched w) {a : ChannelStep τ} (hprompt : Prompt w a)
    (hstep : (channels τ).step w a = some w') : Watched w' := by
  cases a with
  | call t op =>
    simp only [channels, ChannelWorld.step, Option.ite_none_right_eq_some, Option.some.injEq] at hstep
    obtain ⟨⟨hidle, _⟩, rfl⟩ := hstep
    exact h.call hidle op
  | tick t =>
    obtain ⟨⟨ch, pc⟩, hacc, rfl⟩ := Option.map_eq_some_iff.mp hstep
    exact h.tick hprompt hacc

omit [DecidableEq τ] in
theorem noLostWakeUp (h : Watched w) : NoLostWakeUp w := by
  intro hdone t hpc htoken
  have hmem : t ∈ w.shared.wq := by
    refine (h.queued t (by rw [hpc]; rfl)).resolve_left fun htrue => ?_
    rw [htoken] at htrue
    cases htrue
  refine (h.watched (ne_nil_of_mem hmem)).resolve_right fun ⟨u, hu⟩ => ?_
  have hsends := hdone u
  cases hpcu : w.locals u <;> rw [hpcu] at hu hsends <;> cases hu <;> cases hsends

end Watched

/-- **No wake-up is lost when every step is prompt.** -/
theorem no_lost_wakeUp_of_prompt {τ : Type*} [DecidableEq τ] (cap : Nat) {steps : List (ChannelStep τ)}
    (hprompt : (channels τ).Guarded Prompt (ChannelWorld.new cap) steps) :
    (channels τ).Always NoLostWakeUp (ChannelWorld.new cap) steps := by
  intro done w hpre hrun
  have hwatched : Watched w := System.always_of_guarded (fun _ _ _ h hg hstep => h.step hg hstep)
    (.new cap) hprompt done w hpre hrun
  exact hwatched.noLostWakeUp

/-- A byte for a receiver that waits, which then waits for the next one; nothing is left. -/
theorem no_lost_wakeUp_of_prompt_one : ∃ w : ChannelWorld Bool,
    (channels Bool).run (ChannelWorld.new 4) promptWake = some w ∧ w.locals false = .recvPark ∧
      w.shared.accepted = [7] ∧ w.shared.Dry := by
  have hprompt : (channels Bool).Guarded Prompt (ChannelWorld.new 4) promptWake := by
    decide +kernel
  have hrun : (((channels Bool).run (ChannelWorld.new 4) promptWake).any fun w =>
      (∀ t, (w.locals t).sending = false) ∧ w.locals false = .recvPark ∧ w.shared.tokens false = false ∧
        w.shared.accepted = [7]) = true := by
    decide +kernel
  obtain ⟨w, hrun, hdone, hpc, htoken, haccepted⟩ := System.exists_of_run_any hrun
  exact ⟨w, hrun, hpc, haccepted,
    no_lost_wakeUp_of_prompt 4 hprompt promptWake w prefix_rfl hrun hdone false hpc htoken⟩

/-- The byte comes between the receiver's look at the ring and its place in the queue. -/
theorem lost_wakeUp : ¬ (channels Bool).Always NoLostWakeUp (ChannelWorld.new 4) earlyWake := by
  intro hall
  have hrun : (((channels Bool).run (ChannelWorld.new 4) earlyWake).any fun w =>
      (∀ t, (w.locals t).sending = false) ∧ w.locals false = .recvPark ∧ w.shared.tokens false = false ∧
        w.shared.depth = 1) = true := by
    decide +kernel
  obtain ⟨w, hrun, hdone, hpc, htoken, hdepth⟩ := System.exists_of_run_any hrun
  obtain ⟨hn, _⟩ := hall earlyWake w prefix_rfl hrun hdone false hpc htoken
  rw [Channel.depth, hn] at hdepth
  cases hdepth

end ChaosKernel.Ipc
