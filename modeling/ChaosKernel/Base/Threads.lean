import Mathlib

/-! Threads over shared state, at most one of which holds it.

A world is a shared state and one local state per thread. A step of a thread
changes the shared state and its own local state. `OneHolder I waiter holder w h`
is the form of an invariant of a lock: `h` is the thread that holds, what a waiting
thread knows is about itself only, what the holder knows is about the shared state
too, and `I h` is what the shared state shows of `h`. Four moves keep it: a waiter
moves without touching what the holder relies on, the holder works, a thread becomes the
holder when there is none, and the holder lets go. -/
namespace ChaosKernel.Base

/-- One call of a thread, which has had others before. -/
structure Ticket (τ : Type) where
  thread : τ
  call : Nat
  deriving DecidableEq, Repr

structure Threads (τ σ ℓ : Type*) where
  shared : σ
  locals : τ → ℓ

namespace Threads
variable {τ σ ℓ : Type*} [DecidableEq τ]

/-- The world after a step of `t`. -/
def set (w : Threads τ σ ℓ) (t : τ) (s : σ) (l : ℓ) : Threads τ σ ℓ :=
  ⟨s, Function.update w.locals t l⟩

variable (w : Threads τ σ ℓ)

@[simp] theorem set_shared (t : τ) (s : σ) (l : ℓ) : (w.set t s l).shared = s := rfl

@[simp] theorem set_self (t : τ) (s : σ) (l : ℓ) : (w.set t s l).locals t = l :=
  Function.update_self ..

theorem set_other {t u : τ} (h : u ≠ t) (s : σ) (l : ℓ) : (w.set t s l).locals u = w.locals u :=
  Function.update_of_ne h ..

/-- What holds of the thread that stepped and of all others holds of every thread. -/
theorem forall_set {t : τ} {s : σ} {l : ℓ} {P : τ → ℓ → Prop} (ht : P t l)
    (hothers : ∀ u, u ≠ t → P u (w.locals u)) (u : τ) : P u ((w.set t s l).locals u) := by
  by_cases hu : u = t
  · subst hu
    rwa [w.set_self]
  · rw [w.set_other hu]
    exact hothers u hu

end Threads

section OneHolder
variable {τ σ ℓ : Type*} (I : Option τ → σ → Prop) (waiter : τ → ℓ → Prop) (holder : τ → σ → ℓ → Prop)

structure OneHolder (w : Threads τ σ ℓ) (h : Option τ) : Prop where
  shared : I h w.shared
  waits : ∀ t, h ≠ some t → waiter t (w.locals t)
  holds : ∀ t, h = some t → holder t w.shared (w.locals t)

variable {I waiter holder} [DecidableEq τ] {w : Threads τ σ ℓ} {h : Option τ} {t : τ} {s : σ} {l : ℓ}

namespace OneHolder

/-- A waiter moves and changes what the holder's knowledge does not rest on. -/
theorem beside (hw : OneHolder I waiter holder w h) (ht : h ≠ some t) (hl : waiter t l) (hs : I h s)
    (hkeep : ∀ u, u ≠ t → holder u w.shared (w.locals u) → holder u s (w.locals u)) :
    OneHolder I waiter holder (w.set t s l) h := by
  refine ⟨hs, w.forall_set (P := fun u l => h ≠ some u → waiter u l) (fun _ => hl) fun u _ => hw.waits u,
    fun u hu => ?_⟩
  · have hut : u ≠ t := fun heq => ht (heq ▸ hu)
    rw [w.set_other hut]
    exact hkeep u hut (hw.holds u hu)

theorem wait (hw : OneHolder I waiter holder w h) (ht : h ≠ some t) (hl : waiter t l) :
    OneHolder I waiter holder (w.set t w.shared l) h :=
  hw.beside ht hl hw.shared fun _ _ hu => hu

/-- The thread that steps is the holder afterwards, and nobody else was before. -/
theorem hold (hw : OneHolder I waiter holder w h) (ht : ∀ u, u ≠ t → h ≠ some u) (hs : I (some t) s)
    (hl : holder t s l) : OneHolder I waiter holder (w.set t s l) (some t) := by
  refine ⟨hs, fun u hu => ?_, fun u hu => ?_⟩
  · have hut : u ≠ t := fun heq => hu (heq ▸ rfl)
    rw [w.set_other hut]
    exact hw.waits u (ht u hut)
  · cases hu
    rwa [w.set_self]

theorem work (hw : OneHolder I waiter holder w (some t)) (hs : I (some t) s) (hl : holder t s l) :
    OneHolder I waiter holder (w.set t s l) (some t) :=
  hw.hold (fun _ hu heq => hu (Option.some.inj heq).symm) hs hl

theorem acquire (hw : OneHolder I waiter holder w none) (hs : I (some t) s) (hl : holder t s l) :
    OneHolder I waiter holder (w.set t s l) (some t) :=
  hw.hold (fun _ _ heq => nomatch heq) hs hl

theorem release (hw : OneHolder I waiter holder w (some t)) (hs : I none s) (hl : waiter t l) :
    OneHolder I waiter holder (w.set t s l) none := by
  refine ⟨hs, fun u _ => w.forall_set (P := waiter) hl (fun u hut => ?_) u, fun u hu => nomatch hu⟩
  exact hw.waits u fun heq => hut (Option.some.inj heq).symm

end OneHolder
end OneHolder
end ChaosKernel.Base
