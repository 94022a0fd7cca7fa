import ChaosKernel.Base.Words

/-! Calls that change a state and may stop.

A call runs on a state and ends with a value or with a `CallStop`; the state it
leaves is there in both cases. A stop that is no error says who is to blame:
`trap` is an arithmetic fault or an index out of bounds in the call's own text,
`panic` one inside a function it calls.

`Traps` is what the text of a call can do wrong. A call is taken apart at its
binds: it traps where its first part does, or where the first part returns and
the rest traps (`traps_bind`), and a part that never traps is passed over
(`Quiet.traps_bind`). -/
namespace ChaosKernel.Base

inductive CallStop (ε : Type) where
  | err (e : ε)
  | trap
  | panic
  | hang
  deriving DecidableEq, Repr

/-- How a function that is called stops, seen from its caller. -/
def Stop.seen {ε : Type} : Stop ε → CallStop ε
  | .err e => .err e
  | .panic => .panic
  | .hang => .hang

def Call (σ ε α : Type) := σ → Except (CallStop ε) α × σ

namespace Call
variable {σ ε α β : Type}

instance : Monad (Call σ ε) where
  pure a := fun s => (.ok a, s)
  bind x f := fun s =>
    match x s with
    | (.ok a, s) => f a s
    | (.error e, s) => (.error e, s)

def fail (e : ε) : Call σ ε α := fun s => (.error (.err e), s)

/-- `if p { return Err(e) }`. -/
def failIf (p : Prop) [Decidable p] (e : ε) : Call σ ε Unit := if p then fail e else pure ()

def get : Call σ ε σ := fun s => (.ok s, s)

/-- `x.ok_or(e)?` of a value that is read off the state. -/
def okOr (f : σ → Option α) (e : ε) : Call σ ε α := fun s =>
  match f s with
  | some a => (.ok a, s)
  | none => (.error (.err e), s)

/-- A value the call computes itself. -/
def own (o : Option α) : Call σ ε α := fun s =>
  match o with
  | some a => (.ok a, s)
  | none => (.error .trap, s)

/-- A function that changes the state, or panics. -/
def callee (f : σ → Option (α × σ)) : Call σ ε α := fun s =>
  match f s with
  | some (a, s) => (.ok a, s)
  | none => (.error .panic, s)

/-- A function that may stop, and that changes the state. -/
def lift (f : σ → Except (Stop ε) α × σ) : Call σ ε α := fun s =>
  match f s with
  | (.ok a, s) => (.ok a, s)
  | (.error e, s) => (.error e.seen, s)

theorem pure_apply (a : α) (s : σ) : (pure a : Call σ ε α) s = (.ok a, s) := rfl

variable {x y : Call σ ε α} {f : α → Call σ ε β} {s t s' : σ} {a : α} {b : β} {e : ε} {o : σ → Option α}

theorem bind_ok (h : x s = (.ok a, s')) : (x >>= f) s = f a s' := by
  show (match x s with | (.ok a, s) => f a s | (.error e, s) => (.error e, s)) = _
  rw [h]

theorem bind_error {e : CallStop ε} (h : x s = (.error e, s')) : (x >>= f) s = (.error e, s') := by
  show (match x s with | (.ok a, s) => f a s | (.error e, s) => (.error e, s)) = _
  rw [h]

/-- A bind that returns is two calls that return. -/
theorem bind_eq_ok : (x >>= f) s = (.ok b, t) ↔ ∃ a s', x s = (.ok a, s') ∧ f a s' = (.ok b, t) := by
  constructor
  · intro h
    rcases hx : x s with ⟨_ | a, s'⟩
    · rw [bind_error hx] at h
      cases h
    · rw [bind_ok hx] at h
      exact ⟨a, s', rfl, h⟩
  · intro h
    obtain ⟨a, s', hx, hf⟩ := h
    rw [bind_ok hx]
    exact hf

theorem pure_eq_ok {b : α} : (pure a : Call σ ε α) s = (.ok b, t) ↔ a = b ∧ t = s := by
  rw [pure_apply]
  simp [eq_comm]

theorem get_bind (f : σ → Call σ ε β) (s : σ) : (get >>= f) s = f s s := rfl

theorem failIf_bind (p : Prop) [Decidable p] (e : ε) (f : Unit → Call σ ε β) (s : σ) :
    (failIf p e >>= f) s = if p then (.error (.err e), s) else f () s := by
  unfold failIf
  by_cases hp : p
  · rw [if_pos hp, if_pos hp]
    rfl
  · rw [if_neg hp, if_neg hp]
    rfl

variable {p P c : Prop}

theorem failIf_bind_eq_ok [Decidable p] {f : Unit → Call σ ε β} :
    (failIf p e >>= f) s = (.ok b, t) ↔ ¬p ∧ f () s = (.ok b, t) := by
  unfold failIf
  by_cases hp : p
  · rw [if_pos hp]
    exact iff_of_false (fun h => by cases h) fun h => h.1 hp
  · rw [if_neg hp]
    exact (and_iff_right hp).symm

theorem okOr_bind (h : o s = some a) : (okOr o e >>= f) s = f a s := by
  apply bind_ok
  rw [okOr, h]

theorem okOr_bind_none (h : o s = none) : (okOr o e >>= f) s = (.error (.err e), s) := by
  apply bind_error
  rw [okOr, h]

theorem own_none_bind (f : α → Call σ ε β) (s : σ) : (own none >>= f) s = (.error .trap, s) := rfl

theorem own_some_bind (a : α) (f : α → Call σ ε β) : own (some a) >>= f = f a := rfl

theorem lift_eq_ok {f : σ → Except (Stop ε) α × σ} : lift f s = (.ok a, t) ↔ f s = (.ok a, t) := by
  unfold lift
  rcases f s with ⟨_ | _, _⟩ <;> simp

theorem callee_eq_ok {f : σ → Option (α × σ)} :
    (callee f : Call σ ε α) s = (.ok a, t) ↔ f s = some (a, t) := by
  unfold callee
  rcases f s with _ | ⟨_, _⟩ <;> simp

/-- The call returns a value. -/
def Returns (x : Call σ ε α) (s : σ) : Prop := ∃ a s', x s = (.ok a, s')

theorem returns_bind : (x >>= f).Returns s ↔ ∃ a s', x s = (.ok a, s') ∧ (f a).Returns s' := by
  simp only [Returns, bind_eq_ok]
  constructor
  · intro h
    obtain ⟨b, t, a, s', hx, hf⟩ := h
    exact ⟨a, s', hx, b, t, hf⟩
  · intro h
    obtain ⟨a, s', hx, b, t, hf⟩ := h
    exact ⟨b, t, a, s', hx, hf⟩

/-! ### Traps -/

def Traps (x : Call σ ε α) (s : σ) : Prop := (x s).1 = .error .trap

/-- A call whose own text is safe in every state. -/
def Quiet (x : Call σ ε α) : Prop := ∀ s, ¬x.Traps s

theorem traps_bind : (x >>= f).Traps s ↔ x.Traps s ∨ ∃ a s', x s = (.ok a, s') ∧ (f a).Traps s' := by
  rcases hx : x s with ⟨e | a, s'⟩
  · simp [Traps, bind_error hx, hx]
  · simp [Traps, bind_ok hx, hx]

theorem Quiet.traps_bind (hx : x.Quiet) :
    (x >>= f).Traps s ↔ ∃ a s', x s = (.ok a, s') ∧ (f a).Traps s' := by
  rw [Call.traps_bind, or_iff_right (hx s)]

/-- Where the rest traps or not whatever the first part returned. -/
theorem Quiet.traps_bind_const (hx : x.Quiet) (hf : ∀ a s', x s = (.ok a, s') → ((f a).Traps s' ↔ P)) :
    (x >>= f).Traps s ↔ x.Returns s ∧ P := by
  rw [hx.traps_bind]
  constructor
  · intro h
    obtain ⟨a, s', hok, htraps⟩ := h
    exact ⟨⟨a, s', hok⟩, (hf a s' hok).mp htraps⟩
  · intro h
    obtain ⟨⟨a, s', hok⟩, hp⟩ := h
    exact ⟨a, s', hok, (hf a s' hok).mpr hp⟩

@[simp] theorem traps_pure (a : α) (s : σ) : ¬(pure a : Call σ ε α).Traps s := fun h => by cases h

@[simp] theorem traps_fail (e : ε) (s : σ) : ¬(fail e : Call σ ε α).Traps s := fun h => by cases h

@[simp] theorem traps_get_bind {f : σ → Call σ ε β} : (get >>= f).Traps s ↔ (f s).Traps s := Iff.rfl

@[simp] theorem Quiet.bind (hx : x.Quiet) (hf : ∀ a, (f a).Quiet) : (x >>= f).Quiet := by
  intro s h
  obtain ⟨a, s', _, ha⟩ := hx.traps_bind.mp h
  exact hf a s' ha

theorem not_traps_bind (hx : ¬x.Traps s) (hf : ∀ a, (f a).Quiet) : ¬(x >>= f).Traps s := by
  intro h
  rcases Call.traps_bind.mp h with hx' | ⟨a, s', _, ha⟩
  · exact hx hx'
  · exact hf a s' ha

@[simp] theorem Quiet.ite [Decidable c] (hx : x.Quiet) (hy : y.Quiet) : (if c then x else y).Quiet := by
  split
  · exact hx
  · exact hy

@[simp] theorem quiet_pure (a : α) : (pure a : Call σ ε α).Quiet := traps_pure a

@[simp] theorem quiet_fail (e : ε) : (fail e : Call σ ε α).Quiet := traps_fail e

@[simp] theorem quiet_failIf (p : Prop) [Decidable p] (e : ε) : (failIf p e : Call σ ε Unit).Quiet :=
  (quiet_fail e).ite (quiet_pure ())

@[simp] theorem quiet_get : (get : Call σ ε σ).Quiet := fun _ h => by cases h

@[simp] theorem quiet_okOr (o : σ → Option α) (e : ε) : (okOr o e).Quiet := by
  intro s h
  unfold Traps okOr at h
  split at h <;> cases h

theorem traps_okOr_bind : (okOr o e >>= f).Traps s ↔ ∃ a, o s = some a ∧ (f a).Traps s := by
  cases h : o s with
  | none => simp [Traps, okOr_bind_none h]
  | some a => simp [Traps, okOr_bind h]

@[simp] theorem quiet_callee (f : σ → Option (α × σ)) : (callee f : Call σ ε α).Quiet := by
  intro s h
  unfold Traps callee at h
  split at h <;> cases h

@[simp] theorem quiet_lift (f : σ → Except (Stop ε) α × σ) : (lift f).Quiet := by
  intro s h
  unfold Traps lift at h
  split at h
  · cases h
  · next e _ _ => cases e <;> cases h

@[simp] theorem quiet_own_some (a : α) : (own (some a) : Call σ ε α).Quiet := fun _ h => by cases h

/-- Every word of an own computation traps where it has no value. -/
@[simp] theorem traps_own_bind {o : Option α} :
    (own o >>= f).Traps s ↔ o = none ∨ ∃ a, o = some a ∧ (f a).Traps s := by
  cases o with
  | none => exact iff_of_true rfl (.inl rfl)
  | some a =>
    show (f a).Traps s ↔ _
    simp

@[simp] theorem traps_own {o : Option α} : (own o : Call σ ε α).Traps s ↔ o = none := by
  cases o with
  | none => exact iff_of_true rfl rfl
  | some a => exact iff_of_false (fun h => by cases h) (Option.some_ne_none a)

@[simp] theorem traps_failIf_bind [Decidable p] {f : Unit → Call σ ε β} :
    (failIf p e >>= f).Traps s ↔ ¬p ∧ (f ()).Traps s := by
  unfold failIf
  by_cases hp : p
  · rw [if_pos hp]
    exact iff_of_false (fun h => by cases h) fun h => h.1 hp
  · rw [if_neg hp]
    exact (and_iff_right hp).symm

end Call
end ChaosKernel.Base
