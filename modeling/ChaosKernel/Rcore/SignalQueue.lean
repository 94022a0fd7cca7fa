import ChaosKernel.Base.BitSets
import ChaosKernel.Base.Run

/-! The signals that wait in a process.

A process has a queue of signals and a set of those that are in it. In every run they
agree on the standard signals, and each target gets its signals in order. A real-time
signal can be in the queue several times, and taking one of them takes it out of the set
(`pending_misses_queued`); signal 64 has no bit. Where a real-time signal is only sent
while it does not wait, the two agree on all signals (`pending_matches_queue`). -/
namespace ChaosKernel.Rcore
open Base List

structure Siginfo where
  signo : Nat
  errno : Int
  code : Int
  deriving DecidableEq, Repr

/-- `SignalAction`: what decides how the loop goes on. -/
structure SignalAction where
  handler : Nat
  mask : BitVec 64

def sigDfl : Nat := 0
def sigIgn : Nat := 1
def sigErr : Nat := 2 ^ 64 - 2

def rtMin : Nat := 32

/-- `sig_queue` and `pending_sigset` of a process, with what was queued and what was taken so far. -/
structure SigProc where
  sigQueue : List (Siginfo × Int)
  pendingSigset : BitVec 64
  sent : List (Siginfo × Int)
  taken : List (Siginfo × Int)
  deriving DecidableEq

namespace SigProc

def new : SigProc := ⟨[], 0#64, [], []⟩

/-- `send_signal`. The bit of a signal that is too large panics. -/
def sendSignal (proc : SigProc) (info : Siginfo) (tid : Int) : Option SigProc :=
  if info.signo < rtMin ∧ hasBit proc.pendingSigset info.signo then some proc
  else if info.signo < 64 then
    some {proc with
      sigQueue := proc.sigQueue ++ [(info, tid)]
      pendingSigset := proc.pendingSigset ||| bit info.signo
      sent := proc.sent ++ [(info, tid)]}
  else none

/-- The entry is for the thread, and its signal is not masked. -/
def eligible (tid : Nat) (mask : BitVec 64) (entry : Siginfo × Int) : Bool :=
  (entry.2 = -1 || entry.2 = tid) && !hasBit mask entry.1.signo

/-- The first entry that is eligible leaves the queue. -/
def takeEntry (proc : SigProc) (tid : Nat) (mask : BitVec 64) (entry : Siginfo × Int) : SigProc :=
  {proc with
    sigQueue := proc.sigQueue.eraseP (eligible tid mask)
    pendingSigset := proc.pendingSigset ^^^ (proc.pendingSigset &&& bit entry.1.signo)
    taken := proc.taken ++ [entry]}

/-- The loop of `handle_signal`, in which each round takes an entry; it returns whether the thread exits. -/
def handleLoop (dispositions : Nat → SignalAction) (tid : Nat) : Nat → BitVec 64 → SigProc → Option (Bool × SigProc)
  | 0, _, proc => some (false, proc)
  | rounds + 1, mask, proc =>
    match proc.sigQueue.find? (eligible tid mask) with
    | none => some (false, proc)
    | some entry =>
      let proc := proc.takeEntry tid mask entry
      let action := dispositions entry.1.signo
      if action.handler = sigDfl then
        -- SIGHUP, SIGINT and SIGALRM
        if entry.1.signo ∈ [1, 2, 14] then some (true, proc) else handleLoop dispositions tid rounds mask proc
      else if action.handler = sigIgn then handleLoop dispositions tid rounds mask proc
      else if action.handler = sigErr then none
      else handleLoop dispositions tid rounds (mask ||| bit entry.1.signo ||| action.mask) proc

/-- `handle_signal`, by a thread with the number `tid` and the mask. -/
def handleSignal (proc : SigProc) (dispositions : Nat → SignalAction) (tid : Nat) (mask : BitVec 64) :
    Option (Bool × SigProc) := handleLoop dispositions tid proc.sigQueue.length mask proc

end SigProc

inductive SigCall where
  | send (info : Siginfo) (tid : Int)
  | handle (dispositions : Nat → SignalAction) (tid : Nat) (mask : BitVec 64)

def sigStep (proc : SigProc) : SigCall → Option SigProc
  | .send info tid => proc.sendSignal info tid
  | .handle dispositions tid mask => (proc.handleSignal dispositions tid mask).map Prod.snd

def signals : System SigProc SigCall := ⟨sigStep⟩

/-! ### The set and the queue -/

namespace SigProc

/-- The entries of one signal for one target. -/
def ofKey (signo : Nat) (tid : Int) (entries : List (Siginfo × Int)) : List (Siginfo × Int) :=
  entries.filter fun entry => entry.1.signo = signo && entry.2 = tid

def signos (entries : List (Siginfo × Int)) : List Nat := entries.map fun entry => entry.1.signo

/-- Of the signals in `p`, the set has those that are in the queue, each of which is there once. -/
structure MatchedOn (p : Nat → Prop) (proc : SigProc) : Prop where
  pending : ∀ signo, p signo → (hasBit proc.pendingSigset signo = true ↔ signo ∈ signos proc.sigQueue)
  once : ∀ signo, p signo → (signos proc.sigQueue).count signo ≤ 1

/-- What was sent to a target is what it took so far and then what is queued. -/
def InOrder (proc : SigProc) : Prop :=
  ∀ signo tid, ofKey signo tid proc.sent = ofKey signo tid proc.taken ++ ofKey signo tid proc.sigQueue

/-- A real-time signal is not sent while it waits, nor signal 64. -/
def Fits (proc : SigProc) : SigCall → Prop
  | .send info _ => info.signo < 64 ∧ (rtMin ≤ info.signo → hasBit proc.pendingSigset info.signo = false)
  | .handle .. => True

instance (proc : SigProc) : (call : SigCall) → Decidable (proc.Fits call)
  | .send .. => inferInstanceAs (Decidable (_ ∧ _))
  | .handle .. => isTrue trivial

variable {proc next : SigProc}
variable {w mask : BitVec 64} {n i tid rounds : Nat}

theorem hasBit_clear :
    hasBit (w ^^^ (w &&& bit n)) i = true ↔ hasBit w i = true ∧ hasBit (bit n) i = false := by
  simp only [hasBit_iff, Bool.eq_false_iff, ne_eq, BitVec.getLsbD_xor, BitVec.getLsbD_and]
  cases w.getLsbD i <;> cases (bit n).getLsbD i <;> decide

/-- An entry that is taken was the first that is eligible. -/
theorem find?_splits {entry : Siginfo × Int} (hfind : proc.sigQueue.find? (eligible tid mask) = some entry) :
    ∃ before after, proc.sigQueue = before ++ entry :: after ∧
      proc.sigQueue.eraseP (eligible tid mask) = before ++ after ∧ ∀ e ∈ before, eligible tid mask e = false := by
  obtain ⟨heligible, before, after, hqueue, hbefore⟩ := find?_eq_some_iff_append.mp hfind
  refine ⟨before, after, hqueue, ?_, fun e he => by simpa using hbefore e he⟩
  rw [hqueue, eraseP_append_right _ fun e he => by simpa using hbefore e he, eraseP_cons_of_pos heligible]

theorem MatchedOn.send {p : Nat → Prop} (h : proc.MatchedOn p) {info : Siginfo} {tid : Int}
    (hfits : p info.signo → rtMin ≤ info.signo → hasBit proc.pendingSigset info.signo = false)
    (hstep : proc.sendSignal info tid = some next) : next.MatchedOn p := by
  unfold sendSignal at hstep
  split at hstep
  · cases hstep
    exact h
  · next hnew =>
    obtain ⟨hlt, hnext⟩ := Option.ite_none_right_eq_some.mp hstep
    cases hnext
    have habsent (hp : p info.signo) : info.signo ∉ signos proc.sigQueue := by
      rw [← h.pending _ hp]
      by_cases hrt : rtMin ≤ info.signo
      · rw [hfits hp hrt]
        exact Bool.false_ne_true
      · exact fun hbit => hnew ⟨Nat.not_le.mp hrt, hbit⟩
    refine ⟨fun signo hp => ?_, fun signo hp => ?_⟩
    · rw [hasBit_iff, getLsbD_insert hlt, ← hasBit_iff, h.pending signo hp]
      simp [signos, eq_comm]
    · rw [signos, map_append, count_append]
      by_cases hsame : info.signo = signo
      · subst hsame
        rw [show count info.signo (proc.sigQueue.map _) = 0 from count_eq_zero.mpr (habsent hp)]
        simp
      · have honce := h.once signo hp
        simpa [hsame, signos] using honce

theorem MatchedOn.takeEntry {p : Nat → Prop} (h : proc.MatchedOn p) {entry : Siginfo × Int}
    (hfind : proc.sigQueue.find? (eligible tid mask) = some entry) : (proc.takeEntry tid mask entry).MatchedOn p := by
  obtain ⟨before, after, hqueue, herase, _⟩ := find?_splits hfind
  have hcount (signo : Nat) : (signos proc.sigQueue).count signo =
      (signos (before ++ after)).count signo + if entry.1.signo = signo then 1 else 0 := by
    rw [hqueue]
    simp only [signos, map_append, map_cons, count_append, count_cons, beq_iff_eq]
    omega
  rw [SigProc.takeEntry, herase]
  refine ⟨fun signo hp => ?_, fun signo hp => ?_⟩
  · have honce := h.once signo hp
    rw [hasBit_clear, h.pending signo hp, ← count_pos_iff, ← count_pos_iff, hcount]
    rw [hcount] at honce
    by_cases hsame : entry.1.signo = signo
    · -- it was there once, and its bit is cleared
      have hbit := (h.pending signo hp).mpr (hsame ▸ List.mem_map_of_mem (mem_of_find?_eq_some hfind))
      have hlt := BitVec.lt_of_getLsbD (hasBit_iff.mp hbit)
      have hcleared : hasBit (bit entry.1.signo) signo = true := by
        rw [hasBit_iff, getLsbD_bit]
        exact ⟨hsame.symm, hsame ▸ hlt⟩
      rw [if_pos hsame] at honce
      rw [hcleared]
      refine iff_of_false (fun hno => by cases hno.2) ?_
      dsimp only
      omega
    · have hkept : hasBit (bit entry.1.signo) signo = false := by
        rw [Bool.eq_false_iff, ne_eq, hasBit_iff, getLsbD_bit]
        exact fun heq => hsame heq.1.symm
      rw [if_neg hsame, Nat.add_zero, and_iff_left hkept]
  · have honce := h.once signo hp
    rw [hcount] at honce
    dsimp only
    omega

theorem InOrder.send (h : proc.InOrder) {info : Siginfo} {tid : Int} (hstep : proc.sendSignal info tid = some next) :
    next.InOrder := by
  unfold sendSignal at hstep
  split at hstep
  · cases hstep
    exact h
  · obtain ⟨_, hnext⟩ := Option.ite_none_right_eq_some.mp hstep
    cases hnext
    intro signo t
    have hold := h signo t
    simp only [ofKey, filter_append] at hold ⊢
    rw [hold, append_assoc]

theorem InOrder.takeEntry (h : proc.InOrder) {entry : Siginfo × Int}
    (hfind : proc.sigQueue.find? (eligible tid mask) = some entry) : (proc.takeEntry tid mask entry).InOrder := by
  obtain ⟨before, after, hqueue, herase, hbefore⟩ := find?_splits hfind
  have heligible : eligible tid mask entry = true := find?_some hfind
  rw [SigProc.takeEntry, herase]
  intro signo t
  have hold := h signo t
  rw [hqueue] at hold
  simp only [ofKey, filter_append, filter_cons, filter_nil] at hold ⊢
  split at hold
  · next hkey =>
    -- what is before the entry is not of its signal and target, or it would have been taken
    have hnone : before.filter (fun e => e.1.signo = signo && e.2 = t) = [] := by
      refine filter_eq_nil_iff.mpr fun e he hsame => ?_
      have hnot := hbefore e he
      simp only [Bool.and_eq_true, decide_eq_true_eq] at hkey hsame
      rw [eligible, hsame.1, hsame.2, ← hkey.1, ← hkey.2, ← eligible, heligible] at hnot
      cases hnot
    rw [hold, hnone, if_pos hkey]
    simp
  · next hkey => rw [hold, if_neg hkey, append_nil]

/-- What taking an entry keeps, the whole loop keeps. -/
theorem handleLoop_keeps {P : SigProc → Prop} (hP : ∀ (proc : SigProc) (mask : BitVec 64) (entry : Siginfo × Int),
      P proc → proc.sigQueue.find? (eligible tid mask) = some entry → P (proc.takeEntry tid mask entry))
    {dispositions : Nat → SignalAction} {exits : Bool} (h : P proc)
    (hloop : handleLoop dispositions tid rounds mask proc = some (exits, next)) : P next := by
  induction rounds generalizing mask proc with
  | zero =>
    cases hloop
    exact h
  | succ rounds ih =>
    unfold SigProc.handleLoop at hloop
    split at hloop
    · cases hloop
      exact h
    · next entry hfind =>
      have htaken := hP _ _ _ h hfind
      dsimp only at hloop
      split_ifs at hloop
      · cases hloop
        exact htaken
      all_goals exact ih htaken hloop

theorem handle_keeps {P : SigProc → Prop} (hP : ∀ (proc : SigProc) (mask : BitVec 64) (entry : Siginfo × Int),
      P proc → proc.sigQueue.find? (eligible tid mask) = some entry → P (proc.takeEntry tid mask entry))
    {dispositions : Nat → SignalAction} (h : P proc)
    (hstep : sigStep proc (.handle dispositions tid mask) = some next) : P next := by
  obtain ⟨⟨exits, last⟩, hloop, hnext⟩ := Option.map_eq_some_iff.mp hstep
  cases hnext
  exact handleLoop_keeps hP h hloop

theorem MatchedOn.step {p : Nat → Prop} (h : proc.MatchedOn p) {call : SigCall}
    (hfits : (∀ signo, p signo → signo < rtMin) ∨ proc.Fits call) (hstep : sigStep proc call = some next) :
    next.MatchedOn p := by
  cases call with
  | send info tid =>
    refine h.send (fun hp hrt => ?_) hstep
    rcases hfits with hstandard | hfits
    · exact absurd (hstandard _ hp) (Nat.not_lt.mpr hrt)
    · exact hfits.2 hrt
  | handle dispositions tid mask => exact handle_keeps (fun _ _ _ h hfind => h.takeEntry hfind) h hstep

theorem InOrder.step (h : proc.InOrder) {call : SigCall} (hstep : sigStep proc call = some next) : next.InOrder := by
  cases call with
  | send info tid => exact h.send hstep
  | handle dispositions tid mask => exact handle_keeps (fun _ _ _ h hfind => h.takeEntry hfind) h hstep

theorem new_matchedOn (p : Nat → Prop) : SigProc.new.MatchedOn p := by
  refine ⟨fun signo _ => ?_, fun signo _ => ?_⟩ <;> simp [SigProc.new, SigProc.signos]

end SigProc

/-- **The set of the signals that wait is that of the queue.** In every run this holds of the standard signals, each
of which is in the queue at most once, and what was sent to a target is what it took so far and then what is queued,
in this order. It holds of all signals in every run in which no real-time signal is sent while it waits, and
signal 64 is not. -/
theorem pending_matches_queue (calls : List SigCall) :
    signals.Always (fun proc => proc.MatchedOn (· < rtMin) ∧ proc.InOrder) .new calls ∧
      (signals.Guarded SigProc.Fits .new calls → signals.Always (SigProc.MatchedOn fun _ => True) .new calls) := by
  constructor
  · intro done proc _ hrun
    refine System.invariant_run (I := fun proc => proc.MatchedOn (· < rtMin) ∧ proc.InOrder)
      (fun _ _ _ h hstep => ?_) ⟨SigProc.new_matchedOn _, fun _ _ => rfl⟩ hrun
    exact ⟨h.1.step (.inl fun _ hp => hp) hstep, h.2.step hstep⟩
  · exact System.always_of_guarded (fun _ _ _ h hfits hstep => h.step (.inr hfits) hstep) (SigProc.new_matchedOn _)

theorem pending_matches_two : signals.Always (SigProc.MatchedOn fun _ => True) .new
    [.send ⟨40, 0, 0⟩ (-1), .handle (fun _ => ⟨1, 0#64⟩) 3 0#64, .send ⟨40, 0, 0⟩ (-1)] := by
  refine (pending_matches_queue _).2 ?_
  decide

/-- Two entries of signal 40, of which one is taken: the other is in the queue and not in the set. Signal 64 panics. -/
theorem pending_misses_queued :
    ((signals.run .new [.send ⟨40, 0, 0⟩ 3, .send ⟨40, 0, 0⟩ 4, .handle (fun _ => ⟨1, 0#64⟩) 3 0#64]).any fun proc =>
      SigProc.signos proc.sigQueue = [40] ∧ hasBit proc.pendingSigset 40 = false) = true ∧
    signals.run .new [.send ⟨64, 0, 0⟩ 3] = none := by
  decide

end ChaosKernel.Rcore
