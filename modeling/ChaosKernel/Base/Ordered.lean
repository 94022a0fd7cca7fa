import Mathlib

/-! The ends of an ordered list. -/
namespace ChaosKernel.Base
open List
variable {α : Type*} [LinearOrder α]
variable {l : List α} {c : α}

theorem head?_eq_some_iff_le (h : l.Pairwise (· < ·)) : l.head? = some c ↔ c ∈ l ∧ ∀ i ∈ l, c ≤ i := by
  cases l with
  | nil => simp
  | cons a rest =>
    have hlt := (pairwise_cons.mp h).1
    simp only [head?_cons, Option.some.injEq, mem_cons, forall_eq_or_imp]
    constructor
    · intro hc
      subst hc
      exact ⟨.inl rfl, le_rfl, fun i hi => (hlt i hi).le⟩
    · intro hc
      obtain ⟨hc | hc, hle, _⟩ := hc
      · exact hc.symm
      · exact absurd (hlt c hc) (not_lt.mpr hle)

theorem getLast?_eq_some_iff_le (h : l.Pairwise (· < ·)) :
    l.getLast? = some c ↔ c ∈ l ∧ ∀ i ∈ l, i ≤ c := by
  induction l using List.reverseRecOn with
  | nil => simp
  | append_singleton rest a _ =>
    have hlt : ∀ i ∈ rest, i < a := fun i hi => (pairwise_append.mp h).2.2 i hi a (mem_singleton_self a)
    simp only [getLast?_append, getLast?_singleton, Option.some_or, Option.some.injEq, mem_append,
      mem_singleton]
    constructor
    · intro hc
      subst hc
      refine ⟨.inr rfl, fun i hi => ?_⟩
      rcases hi with hi | rfl
      · exact (hlt i hi).le
      · exact le_rfl
    · intro hc
      obtain ⟨hc | hc, hle⟩ := hc
      · exact absurd (hlt c hc) (not_lt.mpr (hle a (.inr rfl)))
      · exact hc.symm

end ChaosKernel.Base
