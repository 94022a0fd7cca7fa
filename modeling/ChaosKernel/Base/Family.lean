import Mathlib

/-! Parents and lists of children, kept side by side.

A `Family` says which members are there, and for each member its parent and its list
of children. The two agree (`Family.Tree`) when every member but the root has a parent
that is there, is in the list of that parent once and in no other list, and when the
lists name only members that are there.

A birth keeps the agreement. An adoption that leaves the children where they were
loses it, and so does a burial that leaves the buried in a list. -/
namespace ChaosKernel.Base
open List Function

structure Family (α : Type*) where
  alive : α → Prop
  children : α → List α
  parent : α → Option α

namespace Family
variable {α : Type*} [DecidableEq α]

structure Tree (F : Family α) (root : α) : Prop where
  parent : ∀ i, F.alive i → i ≠ root → ∃ p, F.parent i = some p ∧ F.alive p ∧
    (F.children p).count i = 1 ∧ ∀ q, F.alive q → q ≠ p → i ∉ F.children q
  closed : ∀ q, F.alive q → ∀ c ∈ F.children q, F.alive c

/-- The new member is the last child of `src`. -/
def birth (F : Family α) (src new : α) : Family α where
  alive i := F.alive i ∨ i = new
  children := Function.update (Function.update F.children new []) src (F.children src ++ [new])
  parent := Function.update F.parent new (some src)

/-- `r` becomes the parent of the members `cs`. -/
def adopt (F : Family α) (r : α) (cs : List α) : Family α where
  alive := F.alive
  children := Function.update F.children r (F.children r ++ cs)
  parent i := if i ∈ cs then some r else F.parent i

/-- The member loses its children and is there no longer. -/
def bury (F : Family α) (i : α) : Family α where
  alive j := F.alive j ∧ j ≠ i
  children := Function.update F.children i []
  parent := F.parent

variable {F : Family α} {root src new t c i : α}

theorem adopt_nil (F : Family α) (r : α) : F.adopt r [] = F := by
  simp only [adopt, append_nil, update_eq_self, not_mem_nil, if_false]

/-- One after the other. -/
theorem adopt_adopt (F : Family α) (r c : α) (cs : List α) :
    (F.adopt r [c]).adopt r cs = F.adopt r (c :: cs) := by
  simp only [adopt, update_self, update_idem, append_assoc, singleton_append,
    mem_cons, not_mem_nil, or_false]
  congr 1
  funext i
  by_cases hi : i ∈ cs
  · rw [if_pos hi, if_pos (.inr hi)]
  · rw [if_neg hi]
    simp only [hi, or_false]

theorem Tree.birth (h : F.Tree root) (hsrc : F.alive src) (hnew : ¬F.alive new) :
    (F.birth src new).Tree root := by
  have hne : src ≠ new := fun heq => hnew (heq ▸ hsrc)
  have hchildren (q : α) (hq : F.alive q) (hqs : q ≠ src) : (F.birth src new).children q = F.children q := by
    have hqn : q ≠ new := fun heq => hnew (heq ▸ hq)
    simp only [Family.birth, update_of_ne hqs, update_of_ne hqn]
  have hsrcs : (F.birth src new).children src = F.children src ++ [new] := update_self ..
  have hnews : (F.birth src new).children new = [] := by
    simp only [Family.birth, update_of_ne hne.symm, update_self]
  have hfresh (q : α) (hq : F.alive q) : new ∉ F.children q := fun hmem => hnew (h.closed q hq new hmem)
  refine ⟨fun i hi hir => ?_, fun q hq c hc => ?_⟩
  · rcases hi with hi | rfl
    · obtain ⟨p, hp, hpalive, hcount, honly⟩ := h.parent i hi hir
      have hin : i ≠ new := fun heq => hnew (heq ▸ hi)
      refine ⟨p, ?_, .inl hpalive, ?_, fun q hq hqp => ?_⟩
      · simp only [Family.birth, update_of_ne hin, hp]
      · by_cases hps : p = src
        · rw [hps, hsrcs, count_append, ← hps, hcount, count_singleton]
          simp only [beq_iff_eq, hin.symm, if_false]
        · rw [hchildren p hpalive hps, hcount]
      · rcases hq with hq | rfl
        · by_cases hqs : q = src
          · rw [hqs, hsrcs, mem_append, mem_singleton]
            have hold := honly q hq hqp
            rw [hqs] at hold
            exact fun hmem => hmem.elim hold hin
          · rw [hchildren q hq hqs]
            exact honly q hq hqp
        · rw [hnews]
          exact not_mem_nil
    · refine ⟨src, update_self .., .inl hsrc, ?_, fun q hq hqs => ?_⟩
      · rw [hsrcs, count_append, count_eq_zero.mpr (hfresh src hsrc), count_singleton_self]
      · rcases hq with hq | rfl
        · rw [hchildren q hq hqs]
          exact hfresh q hq
        · rw [hnews]
          exact not_mem_nil
  · rcases hq with hq | rfl
    · by_cases hqs : q = src
      · rw [hqs, hsrcs, mem_append, mem_singleton] at hc
        exact hc.imp_left fun hmem => h.closed src hsrc c hmem
      · rw [hchildren q hq hqs] at hc
        exact .inl (h.closed q hq c hc)
    · rw [hnews] at hc
      cases hc

/-- A child adopted by the root is in the list of its old parent too, or twice in the root's. -/
theorem Tree.not_of_adopt (ht : F.alive t) (hc : c ∈ F.children t) (hroot : c ≠ root) (hclosed : F.alive c) :
    ¬(F.adopt root (F.children t)).Tree root := by
  intro h
  obtain ⟨p, hp, _, hcount, honly⟩ := h.parent c hclosed hroot
  have hparent : (F.adopt root (F.children t)).parent c = some root := if_pos hc
  rw [hparent] at hp
  cases hp
  by_cases htr : t = root
  · have hlist : (F.adopt root (F.children t)).children root = F.children t ++ F.children t := by
      simp only [adopt, update_self, htr]
    rw [hlist, count_append] at hcount
    have hpos := count_pos_iff.mpr hc
    omega
  · refine honly t ht htr ?_
    simp only [adopt, update_of_ne htr]
    exact hc

/-- The buried member stays in the list of its parent. -/
theorem Tree.not_of_bury (h : F.Tree root) (hi : F.alive i) (hir : i ≠ root) (hroot : F.alive root) :
    ¬((F.adopt root (F.children i)).bury i).Tree root := by
  intro hafter
  obtain ⟨p, hp, hpalive, hcount, honly⟩ := h.parent i hi hir
  have hmem : i ∈ F.children p := count_pos_iff.mp (by omega)
  have hstale (q : α) (hq : F.alive q) (hqi : q ≠ i)
      (hlist : i ∈ (F.adopt root (F.children i)).children q) : False := by
    refine (hafter.closed q ⟨hq, hqi⟩ i ?_).2 rfl
    simp only [bury, update_of_ne hqi]
    exact hlist
  by_cases hpi : p = i
  · refine hstale root hroot hir.symm ?_
    simp only [adopt, update_self, mem_append]
    rw [hpi] at hmem
    exact .inr hmem
  · refine hstale p hpalive hpi ?_
    by_cases hpr : p = root
    · rw [hpr] at hmem ⊢
      simp only [adopt, update_self, mem_append]
      exact .inl hmem
    · simp only [adopt, update_of_ne hpr]
      exact hmem

end Family
end ChaosKernel.Base
