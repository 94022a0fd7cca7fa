import ChaosKernel.Base.Calls

/-! A lock that its holder cannot take again.

A call under the lock takes it, runs and gives it back. Under the lock another call
under it waits for what only the one that waits could give back. -/
namespace ChaosKernel.Base

/-- What the lock protects, and whether the running thread holds it. -/
structure Mutex (σ : Type) where
  value : σ
  held : Bool
  deriving DecidableEq, Repr

namespace Mutex
variable {σ ε α : Type} {m : Mutex σ} {body : Call (Mutex σ) ε α}

/-- `let guard = m.lock()`, and the body up to where the guard is dropped. -/
def locked (body : Call (Mutex σ) ε α) : Call (Mutex σ) ε α := fun m =>
  if m.held then (.error .hang, m)
  else
    match body {m with held := true} with
    | (.ok a, m) => (.ok a, {m with held := false})
    | (.error e, m) => (.error e, m)

theorem locked_ok {value : σ} {a : α} (hbody : body ⟨value, true⟩ = (.ok a, m)) :
    locked body ⟨value, false⟩ = (.ok a, {m with held := false}) := by
  rw [locked, if_neg Bool.false_ne_true, hbody]

theorem locked_error {value : σ} {e : CallStop ε} (hbody : body ⟨value, true⟩ = (.error e, m)) :
    locked body ⟨value, false⟩ = (.error e, m) := by
  rw [locked, if_neg Bool.false_ne_true, hbody]

/-- The holder takes the lock again. -/
theorem locked_again (value : σ) : locked body ⟨value, true⟩ = (.error .hang, ⟨value, true⟩) := if_pos rfl

end Mutex
end ChaosKernel.Base
