import Mathlib

/-! What came last in a history.

`Since a b events` says that `a` happened and `b` did not happen since. `uses` is
what was used, one after the other: `age uses a` is how many uses ago `a` was used
last, and a list is `ByRecency` when the ages go down along it. -/
namespace ChaosKernel.Base
open List
variable {α : Type*}

/-- `a` is among the events, and `b` is not after it. -/
def Since (a b : α) (events : List α) : Prop := ∃ before after, events = before ++ a :: after ∧ b ∉ after

theorem since_nil (a b : α) : ¬Since a b [] := by
  intro h
  obtain ⟨before, after, h, _⟩ := h
  exact append_ne_nil_of_right_ne_nil before (cons_ne_nil a after) h.symm

theorem since_concat {a b e : α} {events : List α} :
    Since a b (events ++ [e]) ↔ e = a ∨ (Since a b events ∧ e ≠ b) := by
  constructor
  · intro h
    obtain ⟨before, after, h, hafter⟩ := h
    rcases eq_nil_or_concat after with hnil | ⟨rest, last, hlast⟩
    · subst hnil
      exact .inl (singleton_inj.mp (append_inj' h rfl).2)
    · rw [hlast, concat_eq_append] at h hafter
      rw [← cons_append, ← append_assoc] at h
      obtain ⟨hevents, he⟩ := append_inj' h rfl
      rw [mem_append, not_or] at hafter
      exact .inr ⟨⟨before, rest, hevents, hafter.1⟩, fun hb => hafter.2 (he ▸ hb ▸ mem_singleton.mpr rfl)⟩
  · intro h
    rcases h with h | ⟨⟨before, after, hevents, hafter⟩, hne⟩
    · exact ⟨events, [], by rw [h], not_mem_nil⟩
    · refine ⟨before, after ++ [e], by rw [hevents, append_assoc, cons_append], ?_⟩
      rw [mem_append, mem_singleton]
      exact fun h => h.elim hafter fun h => hne h.symm

variable [DecidableEq α]

def age (uses : List α) (a : α) : Nat := uses.reverse.idxOf a

theorem age_concat (uses : List α) (a b : α) :
    age (uses ++ [b]) a = if a = b then 0 else age uses a + 1 := by
  rw [age, reverse_append, reverse_singleton, singleton_append, idxOf_cons, age]
  by_cases h : a = b
  · rw [if_pos h, h, beq_self_eq_true, cond_true]
  · rw [if_neg h, beq_false_of_ne (Ne.symm h), cond_false]

/-- The one that was used last comes last. -/
def ByRecency (uses l : List α) : Prop := l.Pairwise fun a b => age uses b < age uses a

namespace ByRecency
variable {uses l : List α}

theorem nodup (h : ByRecency uses l) : l.Nodup :=
  h.imp fun hlt heq => absurd (heq ▸ hlt) (lt_irrefl _)

theorem filter (h : ByRecency uses l) (p : α → Bool) : ByRecency uses (l.filter p) :=
  h.sublist filter_sublist

variable {a b : α}

/-- Using what is not in the list leaves its order. -/
theorem used (h : ByRecency uses l) (ha : a ∉ l) : ByRecency (uses ++ [a]) l := by
  have hne : ∀ b ∈ l, b ≠ a := fun b hb heq => ha (heq ▸ hb)
  refine List.Pairwise.imp_of_mem (fun {b c} hb hc hlt => ?_) h
  rw [age_concat, age_concat, if_neg (hne b hb), if_neg (hne c hc)]
  exact Nat.succ_lt_succ hlt

/-- What is used goes to the end. -/
theorem push (h : ByRecency uses l) (ha : a ∉ l) : ByRecency (uses ++ [a]) (l ++ [a]) := by
  refine pairwise_append.mpr ⟨h.used ha, pairwise_singleton .., fun b hb c hc => ?_⟩
  have hne : b ≠ a := fun heq => ha (heq ▸ hb)
  rw [mem_singleton.mp hc, age_concat, age_concat, if_pos rfl, if_neg hne]
  exact Nat.succ_pos _

/-- The first that is accepted was used longest ago. -/
theorem find?_oldest (h : ByRecency uses l) {p : α → Bool} (ha : l.find? p = some a) (hb : b ∈ l)
    (hp : p b = true) (hne : b ≠ a) : age uses b < age uses a := by
  obtain ⟨_, before, rest, heq, hbefore⟩ := find?_eq_some_iff_append.mp ha
  rw [heq] at h hb
  rcases mem_append.mp hb with hb | hb
  · have hnot := hbefore b hb
    rw [hp] at hnot
    cases hnot
  · rcases mem_cons.mp hb with hb | hb
    · exact absurd hb hne
    · exact (pairwise_cons.mp (pairwise_append.mp h).2.1).1 b hb

end ByRecency
end ChaosKernel.Base
