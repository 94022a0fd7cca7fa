import Mathlib

/-! Runs of a system that may refuse a step.

A `System` is a partial step function: `step s a = none` says that `a` cannot be
taken in `s`, either because the code never returns there or because the caller
is not allowed to ask. A run is a list of steps none of which is refused.

`invariant_run` and `history_run` are the two inductions every safety result
uses. `Always` and `Guarded` speak about the states and the steps along one run,
and `always_iff_guarded` turns "one step keeps the property exactly when its
guard holds" into the same statement about whole runs. -/
namespace ChaosKernel.Base
open List Option

/-- A system with states `σ` and steps `α`. -/
structure System (σ α : Type*) where
  step : σ → α → Option σ

namespace System
variable {σ α : Type*} (M : System σ α)

def run (s : σ) : List α → Option σ
  | [] => some s
  | a :: rest => (M.step s a).bind fun t => run t rest

@[simp] theorem run_nil (s : σ) : M.run s [] = some s := rfl

theorem run_cons (s : σ) (a : α) (rest : List α) :
    M.run s (a :: rest) = (M.step s a).bind fun t => M.run t rest := rfl

variable {s t : σ} {as rest done : List α} {I P J p : σ → Prop} {a : α} {G H : σ → α → Prop}
variable {M} in
/-- A run that was evaluated, with what was found at its end. -/
theorem exists_of_run_any [DecidablePred p] (h : ((M.run s as).any fun t => p t) = true) :
    ∃ t, M.run s as = some t ∧ p t := by
  obtain ⟨t, hrun, ht⟩ := (Option.any_eq_true _ _).mp h
  exact ⟨t, hrun, of_decide_eq_true ht⟩

theorem run_append (s : σ) (as bs : List α) :
    M.run s (as ++ bs) = (M.run s as).bind fun t => M.run t bs := by
  induction as generalizing s with
  | nil => rfl
  | cons a rest ih =>
    simp only [cons_append, run_cons, bind_assoc]
    congr 1
    funext t
    exact ih t

theorem run_concat (s : σ) (as : List α) (a : α) :
    M.run s (as ++ [a]) = (M.run s as).bind fun t => M.step t a := by
  rw [run_append]
  congr 1
  funext t
  rw [run_cons]
  cases M.step t a <;> rfl

variable {M}

/-- What every step keeps, every run keeps. -/
theorem invariant_run (hstep : ∀ s a t, I s → M.step s a = some t → I t) (hs : I s)
    (hrun : M.run s as = some t) : I t := by
  induction as generalizing s with
  | nil =>
    cases hrun
    exact hs
  | cons a rest ih =>
    rw [run_cons, bind_eq_some_iff] at hrun
    obtain ⟨u, hu, hrest⟩ := hrun
    exact ih (hstep s a u hs hu) hrest

/-- The same for a property of the state and of the steps that led to it. -/
theorem history_run {I : List α → σ → Prop}
    (hstep : ∀ as s a t, I as s → M.step s a = some t → I (as ++ [a]) t) (hs : I [] s)
    (hrun : M.run s as = some t) : I as t := by
  induction as using List.reverseRecOn generalizing t with
  | nil =>
    cases hrun
    exact hs
  | append_singleton rest a ih =>
    rw [run_concat, bind_eq_some_iff] at hrun
    obtain ⟨u, hu, ha⟩ := hrun
    exact hstep rest u a t (ih hu) ha

variable (M)

/-- `P` holds in every state of the run `as` from `s`, the first and the last included. -/
def Always (P : σ → Prop) (s : σ) (as : List α) : Prop :=
  ∀ done t, done <+: as → M.run s done = some t → P t

/-- Every step of the run `as` from `s` is taken in a state in which `G` allows it. -/
def Guarded (G : σ → α → Prop) (s : σ) (as : List α) : Prop :=
  ∀ done a t u, done ++ [a] <+: as → M.run s done = some t → M.step t a = some u → G t a

/-- `G` holds of every step that the run `as` from `s` comes to, also of one that is refused. -/
def Asks (G : σ → α → Prop) (s : σ) (as : List α) : Prop :=
  ∀ done a t, done ++ [a] <+: as → M.run s done = some t → G t a

variable {M}

theorem Always.head (h : M.Always P s as) : P s :=
  h [] s nil_prefix rfl

theorem Always.tail (h : M.Always P s (a :: rest)) (ha : M.step s a = some t) : M.Always P t rest := by
  intro done u hpre hrun
  refine h (a :: done) u (cons_prefix_cons.mpr ⟨rfl, hpre⟩) ?_
  rw [run_cons, ha]
  exact hrun

theorem Always.after (h : M.Always P s (done ++ as)) (hdone : M.run s done = some t) : M.Always P t as := by
  intro more u hpre hrun
  refine h (done ++ more) u ((prefix_append_right_inj done).mpr hpre) ?_
  rw [run_append, hdone]
  exact hrun

theorem Asks.head (h : M.Asks G s (a :: rest)) : G s a :=
  h [] a s ⟨rest, rfl⟩ rfl

theorem Asks.tail (h : M.Asks G s (a :: rest)) (hstep : M.step s a = some t) : M.Asks G t rest := by
  intro done b u hpre hdone
  refine h (a :: done) b u ?_ ?_
  · exact cons_prefix_cons.mpr ⟨rfl, hpre⟩
  · rw [run_cons, hstep]
    exact hdone

theorem asks_nil : M.Asks G s [] := by
  intro done a t hpre
  exact absurd (prefix_nil.mp hpre) (append_ne_nil_of_right_ne_nil done (cons_ne_nil a []))

/-- One more step, which only has to be asked for where the run comes to. -/
theorem Asks.concat (h : M.Asks G s as) (ha : ∀ t, M.run s as = some t → G t a) : M.Asks G s (as ++ [a]) := by
  intro done b t hpre hrun
  rcases prefix_concat_iff.mp hpre with heq | hpre
  · obtain ⟨hdone, hlast⟩ := append_inj' heq rfl
    rw [hdone] at hrun
    rw [singleton_inj.mp hlast]
    exact ha t hrun
  · exact h done b t hpre hrun

/-- What agrees in all reachable states agrees along the runs. -/
theorem asks_iff (hJ : ∀ s a t, J s → M.step s a = some t → J t) (h : ∀ s a, J s → (G s a ↔ H s a))
    (hj : J s) (as : List α) : M.Asks G s as ↔ M.Asks H s as := by
  constructor
  · intro hg done a t hpre hrun
    exact (h t a (invariant_run hJ hj hrun)).mp (hg done a t hpre hrun)
  · intro hh done a t hpre hrun
    exact (h t a (invariant_run hJ hj hrun)).mpr (hh done a t hpre hrun)

/-- A run whose steps can all be taken is not refused. -/
theorem run_of_asks (hstep : ∀ s a, G s a → ∃ t, M.step s a = some t) (h : M.Asks G s as) :
    ∃ t, M.run s as = some t := by
  induction as using List.reverseRecOn with
  | nil => exact ⟨s, rfl⟩
  | append_singleton rest a ih =>
    obtain ⟨t, ht⟩ := ih fun done b u hpre => h done b u (hpre.trans (prefix_append rest [a]))
    obtain ⟨u, hu⟩ := hstep t a (h rest a t (prefix_refl _) ht)
    exact ⟨u, by rw [run_concat, ht, bind_some, hu]⟩

theorem guarded_nil : M.Guarded G s [] := by
  intro done a t u hpre
  exact absurd (prefix_nil.mp hpre) (append_ne_nil_of_right_ne_nil done (cons_ne_nil a []))

/-- A run whose steps are allowed in every state. -/
theorem guarded_of_forall {p : α → Prop} (h : ∀ a ∈ as, p a) : M.Guarded (fun _ a => p a) s as :=
  fun _ a _ _ hpre _ _ => h a (hpre.subset (mem_append_right _ (mem_singleton_self a)))

theorem Guarded.concat (h : M.Guarded G s as) (ha : ∀ t, M.run s as = some t → G t a) :
    M.Guarded G s (as ++ [a]) := by
  intro done b t u hpre hrun hb
  rcases prefix_concat_iff.mp hpre with heq | hpre
  · obtain ⟨hdone, hlast⟩ := append_inj' heq rfl
    rw [hdone] at hrun
    rw [singleton_inj.mp hlast]
    exact ha t hrun
  · exact h done b t u hpre hrun hb

theorem guarded_cons :
    M.Guarded G s (a :: rest) ↔ ∀ t, M.step s a = some t → G s a ∧ M.Guarded G t rest := by
  constructor
  · intro h t ha
    refine ⟨h [] a s t (prefix_append [a] rest) rfl ha, fun done b u v hpre hrun hb => ?_⟩
    refine h (a :: done) b u v (cons_prefix_cons.mpr ⟨rfl, hpre⟩) ?_ hb
    rw [run_cons, ha]
    exact hrun
  · intro h done b u v hpre hrun hb
    cases done with
    | nil =>
      obtain ⟨heq, _⟩ := cons_prefix_cons.mp hpre
      subst heq
      cases hrun
      exact (h v hb).1
    | cons c done =>
      obtain ⟨heq, hrest⟩ := cons_prefix_cons.mp hpre
      subst heq
      rw [run_cons, bind_eq_some_iff] at hrun
      obtain ⟨t, ht, hdone⟩ := hrun
      exact (h t ht).2 done b u v hrest hdone hb

/-- A run can be checked for its guard. -/
instance decidableGuarded {G : σ → α → Prop} [∀ s a, Decidable (G s a)] (s : σ) (as : List α) :
    Decidable (M.Guarded G s as) :=
  match as with
  | [] => isTrue guarded_nil
  | a :: rest =>
    match h : M.step s a with
    | none => isTrue (guarded_cons.mpr fun t ht => by rw [h] at ht; cases ht)
    | some t =>
      have := decidableGuarded (G := G) t rest
      decidable_of_iff (G s a ∧ M.Guarded G t rest)
        ⟨fun hg => guarded_cons.mpr fun u hu => by rw [h] at hu; cases hu; exact hg,
          fun hg => guarded_cons.mp hg t h⟩

/-- A property kept by guarded steps holds along every run whose steps are all guarded. -/
theorem always_of_guarded (hstep : ∀ s a t, I s → G s a → M.step s a = some t → I t) (hs : I s)
    (hg : M.Guarded G s as) : M.Always I s as := by
  intro done t hpre hrun
  induction done using List.reverseRecOn generalizing t with
  | nil =>
    cases hrun
    exact hs
  | append_singleton rest a ih =>
    rw [run_concat, bind_eq_some_iff] at hrun
    obtain ⟨u, hu, ha⟩ := hrun
    have hrest : rest <+: as := (prefix_append rest [a]).trans hpre
    exact hstep u a t (ih u hrest hu) (hg rest a u t hpre hu ha) ha

/-- Where guarded steps keep `I`, which is stronger than `P`, and a step between two states with `P`
is guarded, a run keeps `P` in all its states exactly when all its steps are guarded. -/
theorem always_iff_guarded_of_keeps (hJ : ∀ s a t, J s → M.step s a = some t → J t)
    (hkeep : ∀ s a t, I s → G s a → M.step s a = some t → I t) (hweak : ∀ s, I s → P s)
    (hneed : ∀ s a t, J s → P s → M.step s a = some t → P t → G s a) (hj : J s) (hi : I s) :
    M.Always P s as ↔ M.Guarded G s as := by
  constructor
  · intro hall done a t u hpre hrun ha
    have hdone : done <+: as := (prefix_append done [a]).trans hpre
    have hu : M.run s (done ++ [a]) = some u := by
      rw [run_concat, hrun]
      exact ha
    exact hneed t a u (invariant_run hJ hj hrun) (hall done t hdone hrun) ha (hall (done ++ [a]) u hpre hu)
  · intro hg done t hpre hrun
    exact hweak t (always_of_guarded hkeep hi hg done t hpre hrun)

/-- Where `J` always holds and, under `J`, a step keeps `P` exactly when `G` allows
it, a run keeps `P` in all its states exactly when all its steps are allowed. -/
theorem always_iff_guarded (hJ : ∀ s a t, J s → M.step s a = some t → J t)
    (hstep : ∀ s a t, J s → P s → M.step s a = some t → (P t ↔ G s a)) (hj : J s) (hp : P s) :
    M.Always P s as ↔ M.Guarded G s as :=
  always_iff_guarded_of_keeps (I := fun t => J t ∧ P t) hJ
    (fun t a u h hga ha => ⟨hJ t a u h.1 ha, (hstep t a u h.1 h.2 ha).mpr hga⟩) (fun _ h => h.2)
    (fun t a u hjt hpt ha hpu => (hstep t a u hjt hpt ha).mp hpu) hj ⟨hj, hp⟩

end System
end ChaosKernel.Base
