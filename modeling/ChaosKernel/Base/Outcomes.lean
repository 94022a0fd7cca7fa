import ChaosKernel.Base.Calls

/-! What calls leave behind.

`x.Meets s Q E` says how `x` ends in `s`: a value it returns and the state with it
meet `Q`, and the state it leaves with an error meets `E`; a call that does not come
back leaves nothing to speak about. There is one rule for each way to build a call,
and a call is read from its first part to its last (`meets_bind`). `x.Keeps f` is
the frame: whatever `x` does, it leaves `f` of the state as it is. -/
namespace ChaosKernel.Base.Call
variable {σ ε α β γ : Type}

def Meets (x : Call σ ε α) (s : σ) (Q : α → σ → Prop) (E : σ → Prop) : Prop :=
  match x s with
  | (.ok a, t) => Q a t
  | (.error (.err _), t) => E t
  | (.error _, _) => True

section Rules
variable {s : σ} {Q Q' : α → σ → Prop} {R : β → σ → Prop} {E E' : σ → Prop}
variable {x : Call σ ε α} {f : α → Call σ ε β} {t : σ} {e : ε}

theorem meets_bind : (x >>= f).Meets s R E ↔ x.Meets s (fun a t => (f a).Meets t R E) E := by
  rcases hx : x s with ⟨e | a, t⟩
  · simp only [Meets, bind_error hx, hx]
    cases e <;> exact Iff.rfl
  · simp only [Meets, bind_ok hx, hx]

theorem meets_bind_ok {a : α} (h : x s = (.ok a, t)) : (x >>= f).Meets s R E ↔ (f a).Meets t R E := by
  simp only [Meets, bind_ok h]

variable {p : Prop}

theorem meets_failIf [Decidable p] {Q : Unit → σ → Prop} :
    (failIf p e : Call σ ε Unit).Meets s Q E ↔ (p → E s) ∧ (¬p → Q () s) := by
  unfold failIf
  by_cases hp : p
  · rw [if_pos hp]
    exact ⟨fun h => ⟨fun _ => h, fun h' => absurd hp h'⟩, fun h => h.1 hp⟩
  · rw [if_neg hp]
    exact ⟨fun h => ⟨fun h' => absurd h' hp, fun _ => h⟩, fun h => h.2 hp⟩

theorem meets_failIf_bind [Decidable p] {f : Unit → Call σ ε β} :
    (failIf p e >>= f).Meets s R E ↔ (p → E s) ∧ (¬p → (f ()).Meets s R E) := by
  rw [meets_bind, meets_failIf]

theorem meets_get_bind {f : σ → Call σ ε β} : (get >>= f).Meets s R E ↔ (f s).Meets s R E := Iff.rfl

theorem meets_okOr_bind {o : σ → Option α} :
    (okOr o e >>= f).Meets s R E ↔ (∀ a, o s = some a → (f a).Meets s R E) ∧ (o s = none → E s) := by
  cases h : o s with
  | none => simp [Meets, okOr_bind_none h]
  | some a => simp [Meets, okOr_bind h]

theorem meets_own_bind {o : Option α} :
    (own o >>= f).Meets s R E ↔ ∀ a, o = some a → (f a).Meets s R E := by
  cases o with
  | none => exact iff_of_true trivial fun a h => by cases h
  | some a =>
    show (f a).Meets s R E ↔ _
    simp

theorem meets_callee {f : σ → Option (α × σ)} :
    (callee f : Call σ ε α).Meets s Q E ↔ ∀ a t, f s = some (a, t) → Q a t := by
  unfold Meets callee
  rcases f s with _ | ⟨a, t⟩ <;> simp

theorem Meets.ok (h : x.Meets s Q E) {a : α} (hx : x s = (.ok a, t)) : Q a t := by
  simpa only [Meets, hx] using h

theorem Meets.err (h : x.Meets s Q E) (hx : x s = (.error (.err e), t)) : E t := by
  simpa only [Meets, hx] using h

theorem Meets.mono (h : x.Meets s Q E) (hq : ∀ a t, Q a t → Q' a t) (he : ∀ t, E t → E' t) :
    x.Meets s Q' E' := by
  unfold Meets at h ⊢
  split
  · next heq =>
    rw [heq] at h
    exact hq _ _ h
  · next heq =>
    rw [heq] at h
    exact he _ h
  · trivial

end Rules

/-- A call that came back, and what is made of its end. -/
def settle (r : Except (CallStop ε) α × σ) (ok : α → σ → β) (err : σ → β) : Option β :=
  match r with
  | (.ok a, t) => some (ok a t)
  | (.error (.err _), t) => some (err t)
  | (.error _, _) => none

variable {ok : α → σ → β} {err : σ → β}
variable {b : β}

theorem settle_eq_some {r : Except (CallStop ε) α × σ} (h : settle r ok err = some b) :
    (∃ a, r.1 = .ok a ∧ b = ok a r.2) ∨ b = err r.2 := by
  unfold settle at h
  split at h <;> cases h
  · exact .inl ⟨_, rfl, rfl⟩
  · exact .inr rfl

theorem Meets.settle {x : Call σ ε α} {s : σ} {Q : α → σ → Prop} {E : σ → Prop} (hx : x.Meets s Q E)
    (h : settle (x s) ok err = some b) :
    (∃ a t, x s = (.ok a, t) ∧ Q a t ∧ b = ok a t) ∨ ∃ t, E t ∧ b = err t := by
  unfold Meets at hx
  unfold Call.settle at h
  split at h
  · next a t heq =>
    rw [heq] at hx
    cases h
    exact .inl ⟨a, t, heq, hx, rfl⟩
  · next e t heq =>
    rw [heq] at hx
    cases h
    exact .inr ⟨t, hx, rfl⟩
  · cases h

/-! ### Frames -/

def Keeps (f : σ → γ) (x : Call σ ε α) : Prop := ∀ s, f (x s).2 = f s

section Frames
variable {f : σ → γ}
variable {x y : Call σ ε α} {g : α → Call σ ε β}

theorem Keeps.bind (hx : x.Keeps f) (hg : ∀ a, (g a).Keeps f) : (x >>= g).Keeps f := by
  intro s
  have hstart := hx s
  rcases hs : x s with ⟨e | a, t⟩
  · rw [bind_error hs]
    rw [hs] at hstart
    exact hstart
  · rw [bind_ok hs]
    rw [hs] at hstart
    exact (hg a t).trans hstart

theorem Keeps.ite {c : Prop} [Decidable c] (hx : x.Keeps f) (hy : y.Keeps f) :
    (if c then x else y).Keeps f := by
  split
  · exact hx
  · exact hy

theorem keeps_pure (a : α) : (pure a : Call σ ε α).Keeps f := fun _ => rfl

theorem keeps_fail (e : ε) : (fail e : Call σ ε α).Keeps f := fun _ => rfl

theorem keeps_failIf (p : Prop) [Decidable p] (e : ε) : (failIf p e : Call σ ε Unit).Keeps f :=
  (keeps_fail e).ite (keeps_pure ())

theorem keeps_lift {g : σ → Except (Stop ε) α × σ} (h : ∀ s, f (g s).2 = f s) : (lift g).Keeps f := by
  intro s
  have hs := h s
  unfold lift
  split <;> next heq =>
    rw [heq] at hs
    exact hs

theorem keeps_callee {g : σ → Option (α × σ)} (h : ∀ s a t, g s = some (a, t) → f t = f s) :
    (callee g : Call σ ε α).Keeps f := by
  intro s
  unfold callee
  split
  · next a t heq => exact h s a t heq
  · rfl

/-- A part that keeps `f` is passed over; `f` is still what it was at the start. -/
theorem Keeps.meets_bind (hx : x.Keeps f) {s : σ} {c : γ} (hc : f s = c) {R : β → σ → Prop} {E : σ → Prop}
    (hrest : ∀ a t, f t = c → (g a).Meets t R E) (herr : ∀ t, f t = c → E t) : (x >>= g).Meets s R E := by
  rw [Call.meets_bind]
  have hstart := (hx s).trans hc
  unfold Meets
  rcases hs : x s with ⟨e | a, t⟩
  · rw [hs] at hstart
    cases e with
    | err e => exact herr t hstart
    | _ => trivial
  · rw [hs] at hstart
    exact hrest a t hstart

end Frames
end ChaosKernel.Base.Call
