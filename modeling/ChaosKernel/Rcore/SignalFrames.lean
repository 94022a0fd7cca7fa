import ChaosKernel.Base.Words
import ChaosKernel.Rcore.SignalQueue

/-! Entering a signal handler and returning from it.

`handle_signal` blocks the signal and the mask of its action and saves the old mask in
the frame, from which `sys_rt_sigreturn` restores the context and the alternate stack,
and not the mask. So the mask has what it should while the handler runs, and every
delivery leaves it larger than it was (`bracketed_iff`). -/
namespace ChaosKernel.Rcore
open Base

structure SignalStack where
  sp : Nat
  flags : BitVec 32
  size : Nat
  deriving DecidableEq, Repr

namespace SignalStack

def onStack : BitVec 32 := 1#32
def disable : BitVec 32 := 2#32
def autoDisarm : BitVec 32 := 1#32 <<< 31

end SignalStack

/-- The registers: the stack pointer, and the others as one value. -/
structure UserContext where
  sp : Nat
  others : Nat
  deriving DecidableEq, Repr

/-- The part of `SignalFrame` that is saved. -/
structure SignalFrame where
  stack : SignalStack
  context : UserContext
  sigMask : BitVec 64
  deriving DecidableEq, Repr

/-- A thread, with the frames in user memory. -/
structure SigThread where
  sigMask : BitVec 64
  signalAlternateStack : SignalStack
  context : UserContext
  frames : Nat → Option SignalFrame

/-- A signal with the action of a user handler. -/
structure Delivery where
  signal : Nat
  handler : UserContext
  mask : BitVec 64
  /-- `SA_ONSTACK`. -/
  onStack : Bool

/-- Deliveries in a row, each with those that come while its handler runs. -/
inductive Nest where
  | done
  | handled (d : Delivery) (inner rest : Nest)

section Frames
variable (frameSize : Nat) (writable : Nat → Bool)

namespace SigThread

/-- The alternate stack is used. -/
def usesAlternate (t : SigThread) (d : Delivery) : Bool :=
  d.onStack && t.signalAlternateStack.flags &&& SignalStack.disable == 0#32

/-- The address of the frame. -/
def frameAt (t : SigThread) (d : Delivery) : Option Nat :=
  sub? (if t.usesAlternate d then t.signalAlternateStack.sp + t.signalAlternateStack.size else t.context.sp) frameSize

/-- The flags while a handler is on the alternate stack. -/
def busy (stack : SignalStack) : SignalStack :=
  {stack with flags := stack.flags ||| SignalStack.onStack |||
    if stack.flags &&& SignalStack.autoDisarm == 0#32 then 0#32 else SignalStack.disable}

/-- The thread in the handler, with its frame at `sigSp`. -/
def enter (t : SigThread) (d : Delivery) (sigSp : Nat) : SigThread where
  sigMask := t.sigMask ||| bit d.signal ||| d.mask
  signalAlternateStack := if t.usesAlternate d then busy t.signalAlternateStack else t.signalAlternateStack
  context := {d.handler with sp := sigSp}
  frames := Function.update t.frames sigSp (some ⟨t.signalAlternateStack, t.context, t.sigMask⟩)

/-- A round of `handle_signal` that enters a user handler, for a signal that is not masked. -/
def deliver (t : SigThread) (d : Delivery) : Option (Nat × SigThread) :=
  if hasBit t.sigMask d.signal ∨ 64 ≤ d.signal then none
  else ((t.frameAt frameSize d).filter writable).map fun sigSp => (sigSp, t.enter d sigSp)

/-- `sys_rt_sigreturn`, on the frame at `sigSp`: the return address was popped. -/
def sigreturn (t : SigThread) (sigSp : Nat) : Option SigThread := do
  let frame ← t.frames (sigSp + 8 - 8)
  return {t with signalAlternateStack := frame.stack, context := frame.context}

/-- The deliveries, each with its return. -/
def run (t : SigThread) : Nest → Option SigThread
  | .done => some t
  | .handled d inner rest => do
    let (sigSp, entered) ← t.deliver frameSize writable d
    let left ← run entered inner
    let returned ← left.sigreturn sigSp
    run returned rest

/-- After each return the mask and the alternate stack are as before the delivery. -/
def Bracketed (t : SigThread) : Nest → Prop
  | .done => True
  | .handled d inner rest => ∀ sigSp entered left returned, t.deliver frameSize writable d = some (sigSp, entered) →
    run frameSize writable entered inner = some left → left.sigreturn sigSp = some returned →
    (returned.sigMask = t.sigMask ∧ returned.signalAlternateStack = t.signalAlternateStack) ∧
      Bracketed entered inner ∧ Bracketed returned rest

/-- While a handler runs, the mask has the old one, the signal and the mask of the action. -/
def Blocked (t : SigThread) : Nest → Prop
  | .done => True
  | .handled d inner rest => ∀ sigSp entered left returned, t.deliver frameSize writable d = some (sigSp, entered) →
    run frameSize writable entered inner = some left → left.sigreturn sigSp = some returned →
    (∀ mask ∈ [entered.sigMask, left.sigMask], Within t.sigMask mask ∧ hasBit mask d.signal ∧ Within d.mask mask) ∧
      Blocked entered inner ∧ Blocked returned rest

variable {frameSize writable} {t next : SigThread} {d : Delivery} {sigSp : Nat}

theorem deliver_some (h : t.deliver frameSize writable d = some (sigSp, next)) :
    hasBit t.sigMask d.signal = false ∧ d.signal < 64 ∧ next.sigMask = t.sigMask ||| bit d.signal ||| d.mask := by
  obtain ⟨hfree, hsome⟩ := Option.ite_none_left_eq_some.mp h
  obtain ⟨sp, _, heq⟩ := Option.map_eq_some_iff.mp hsome
  cases heq
  rw [not_or, Bool.not_eq_true, Nat.not_le] at hfree
  exact ⟨hfree.1, hfree.2, rfl⟩

theorem sigreturn_mask (h : t.sigreturn sigSp = some next) : next.sigMask = t.sigMask := by
  obtain ⟨frame, _, hnext⟩ := Option.bind_eq_some_iff.mp h
  cases hnext
  rfl

theorem run_handled {inner rest : Nest} : run frameSize writable t (.handled d inner rest) = some next ↔
    ∃ sigSp entered left returned, t.deliver frameSize writable d = some (sigSp, entered) ∧
      run frameSize writable entered inner = some left ∧ left.sigreturn sigSp = some returned ∧
      run frameSize writable returned rest = some next := by
  simp only [run, Option.bind_eq_bind, Option.bind_eq_some_iff, Prod.exists, exists_and_left]

theorem within_trans {u v w : BitVec 64} (h : Within u v) (h' : Within v w) : Within u w :=
  within_iff.mpr fun i hi => within_iff.mp h' i (within_iff.mp h i hi)

theorem run_grows {nest : Nest} (h : run frameSize writable t nest = some next) : Within t.sigMask next.sigMask := by
  induction nest generalizing t next with
  | done =>
    cases h
    exact within_self _
  | handled d inner rest ihInner ihRest =>
    obtain ⟨sigSp, entered, left, returned, hdeliver, hinner, hreturn, hrest⟩ := run_handled.mp h
    have hentered : Within t.sigMask entered.sigMask := by
      rw [(deliver_some hdeliver).2.2]
      exact within_iff.mpr fun i hi => by simp [hi]
    have hreturned := ihRest hrest
    rw [sigreturn_mask hreturn] at hreturned
    exact within_trans (within_trans hentered (ihInner hinner)) hreturned

theorem run_blocks {nest : Nest} : Blocked frameSize writable t nest := by
  induction nest generalizing t with
  | done => trivial
  | handled d inner rest ihInner ihRest =>
    intro sigSp entered left returned hdeliver hinner _
    refine ⟨fun mask hmask => ?_, ihInner, ihRest⟩
    have hgrown : Within entered.sigMask mask := by
      rcases List.mem_cons.mp hmask with rfl | hmask
      · exact within_self _
      · rw [List.mem_singleton.mp hmask]
        exact run_grows hinner
    obtain ⟨_, hlt, heq⟩ := deliver_some hdeliver
    have hin := within_iff.mp (heq ▸ hgrown)
    refine ⟨within_iff.mpr fun i hi => hin i (by simp [hi]), ?_, within_iff.mpr fun i hi => hin i (by simp [hi])⟩
    exact hasBit_iff.mpr (hin _ (by simp [getLsbD_bit.mpr ⟨rfl, hlt⟩]))

end SigThread

/-- **When handlers are bracketed.** While a handler runs the mask always has what it should; the mask and the
alternate stack are as before after every return only if nothing is delivered. -/
theorem bracketed_iff {t last : SigThread} {nest : Nest} (hrun : t.run frameSize writable nest = some last) :
    t.Blocked frameSize writable nest ∧ (t.Bracketed frameSize writable nest ↔ nest = .done) := by
  refine ⟨SigThread.run_blocks, fun h => ?_, fun h => by rw [h]; trivial⟩
  cases nest with
  | done => rfl
  | handled d inner rest =>
    obtain ⟨sigSp, entered, left, returned, hdeliver, hinner, hreturn, _⟩ := SigThread.run_handled.mp hrun
    have hsame := (h sigSp entered left returned hdeliver hinner hreturn).1.1
    have hall : t.Blocked frameSize writable (.handled d inner rest) := SigThread.run_blocks
    have hblocked := (hall sigSp entered left returned hdeliver hinner hreturn).1 left.sigMask (by simp)
    -- the signal was not in the mask, or it would not have been delivered
    rw [← SigThread.sigreturn_mask hreturn, hsame, (SigThread.deliver_some hdeliver).1] at hblocked
    exact absurd hblocked.2.1 Bool.false_ne_true

end Frames

/-- A thread that nothing was delivered to. -/
def quietThread : SigThread := ⟨0#64, ⟨0, SignalStack.disable, 0⟩, ⟨0x8000, 0⟩, fun _ => none⟩

/-- One signal 10, whose handler returns. -/
def usr1Handled : Nest := .handled ⟨10, ⟨0, 1⟩, 0#64, false⟩ .done .done

theorem bracketed_iff_usr1 : ∃ last, quietThread.run 0x200 (fun _ => true) usr1Handled = some last ∧
    quietThread.Blocked 0x200 (fun _ => true) usr1Handled :=
  ⟨_, rfl, (bracketed_iff 0x200 (fun _ => true) rfl).1⟩

/-- The mask was empty, and after the return it has the signal. -/
theorem mask_not_restored : quietThread.sigMask = 0#64 ∧
    (quietThread.run 0x200 (fun _ => true) usr1Handled).map SigThread.sigMask = some (bit 10) := by
  exact ⟨rfl, rfl⟩

end ChaosKernel.Rcore
