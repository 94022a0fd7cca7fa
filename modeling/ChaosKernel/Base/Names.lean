import Mathlib

/-! Things named by other things.

In a `Names` every thing that is present may name others, each under a name of its own
choice. The names form a tree when they name only what is present, when everything but
the root has exactly one name, and when everything is reached from the root.

A new thing under a free name keeps the tree, and so does the removal of a thing that
names nothing. A name that is given again loses the thing it named, and the removal of
a thing that names others loses those.

Whatever is lost, no thing gets a second name and no name is left for a thing that is
gone (`Forest`). So a thing without a name is led to by at most one list of names from
there (`Forest.walk_inj`). -/
namespace ChaosKernel.Base
open Option

@[ext] structure Names (α κ : Type*) where
  present : α → Prop
  entry : α → κ → Option α
  present_of_entry : ∀ {i k j}, entry i k = some j → present i

namespace Names
variable {α κ : Type*}

def Child (N : Names α κ) (i j : α) : Prop := ∃ k, N.entry i k = some j

structure Tree (N : Names α κ) (root : α) : Prop where
  rooted : N.present root
  named : ∀ i k j, N.entry i k = some j → N.present j
  unique : ∀ j, N.present j → j ≠ root → ∃! place : α × κ, N.entry place.1 place.2 = some j
  reach : ∀ j, N.present j → Relation.ReflTransGen N.Child root j

structure Forest (N : Names α κ) : Prop where
  named : ∀ i k j, N.entry i k = some j → N.present j
  once : ∀ i k i' k' j, N.entry i k = some j → N.entry i' k' = some j → i = i' ∧ k = k'

/-- Where a list of names leads. -/
def walk (N : Names α κ) (i : α) : List κ → Option α
  | [] => some i
  | k :: rest => (N.entry i k).bind fun j => N.walk j rest

theorem walk_concat (N : Names α κ) (i : α) (ks : List κ) (k : κ) :
    N.walk i (ks ++ [k]) = (N.walk i ks).bind fun j => N.entry j k := by
  induction ks generalizing i with
  | nil =>
    show (N.entry i k).bind some = N.entry i k
    exact bind_fun_some _
  | cons first rest ih =>
    show ((N.entry i first).bind fun j => N.walk j (rest ++ [k])) = _
    rw [walk, bind_assoc]
    exact congrArg _ (funext fun j => ih j)

variable {N : Names α κ} {i : α} {ks before walked p q rest : List κ} {k : κ}

theorem Forest.walk_present (h : N.Forest) {d : α} (hi : N.present i) (hd : N.walk i ks = some d) :
    N.present d := by
  induction ks generalizing i with
  | nil =>
    cases hd
    exact hi
  | cons k rest ih =>
    obtain ⟨j, hj, hd⟩ := bind_eq_some_iff.mp hd
    exact ih (h.named i k j hj) hd

/-- The names are read off from the end: each thing on the way has one place. -/
theorem Forest.walk_inj {root : α} (h : N.Forest) (hroot : ∀ i k, N.entry i k ≠ some root) {d : α}
    (hp : N.walk root p = some d) (hq : N.walk root q = some d) : p = q := by
  induction p using List.reverseRecOn generalizing q d with
  | nil =>
    cases hp
    induction q using List.reverseRecOn with
    | nil => rfl
    | append_singleton q k _ =>
      rw [walk_concat] at hq
      obtain ⟨j, _, hk⟩ := bind_eq_some_iff.mp hq
      exact absurd hk (hroot j k)
  | append_singleton p k ih =>
    rw [walk_concat] at hp
    obtain ⟨i, hi, hk⟩ := bind_eq_some_iff.mp hp
    induction q using List.reverseRecOn with
    | nil =>
      cases hq
      exact absurd hk (hroot i k)
    | append_singleton q k' _ =>
      rw [walk_concat] at hq
      obtain ⟨i', hi', hk'⟩ := bind_eq_some_iff.mp hq
      obtain ⟨rfl, rfl⟩ := h.once i k i' k' d hk hk'
      rw [ih hi hi']

variable [DecidableEq α] [DecidableEq κ]

/-- A new thing under a name of `dir`. -/
def create (N : Names α κ) (dir : α) (name : κ) (new : α) (hdir : N.present dir) : Names α κ where
  present i := N.present i ∨ i = new
  entry i k := if i = dir ∧ k = name then some new else N.entry i k
  present_of_entry := by
    intro i k j hentry
    split at hentry
    · next hplace => exact .inl (hplace.1 ▸ hdir)
    · exact .inl (N.present_of_entry hentry)

/-- The name goes, and the thing it named with all the names it gave. -/
def unlink (N : Names α κ) (dir : α) (name : κ) (target : α) : Names α κ where
  present i := N.present i ∧ i ≠ target
  entry i k := if i = target ∨ (i = dir ∧ k = name) then none else N.entry i k
  present_of_entry := by
    intro i k j hentry
    split at hentry
    · cases hentry
    · next hplace => exact ⟨N.present_of_entry hentry, fun heq => hplace (.inl heq)⟩

variable {N : Names α κ} {root dir new target old j c : α} {name : κ}

/-! ### Creation -/

theorem Tree.create (h : N.Tree root) (hdir : N.present dir) (hfree : N.entry dir name = none)
    (hnew : ¬N.present new) : (N.create dir name new hdir).Tree root := by
  have hold (i : α) (k : κ) (j : α) (hj : N.entry i k = some j) : (N.create dir name new hdir).entry i k = some j := by
    have hplace : ¬(i = dir ∧ k = name) := fun hplace => by
      rw [hplace.1, hplace.2, hfree] at hj
      cases hj
    exact (if_neg hplace).trans hj
  have hchild : N.Child ≤ (N.create dir name new hdir).Child := fun i j hchild => by
    obtain ⟨k, hk⟩ := hchild
    exact ⟨k, hold i k j hk⟩
  have hreach (j : α) (hj : N.present j) : Relation.ReflTransGen (N.create dir name new hdir).Child root j :=
    Relation.ReflTransGen.mono hchild root j (h.reach j hj)
  have hself : (N.create dir name new hdir).entry dir name = some new := if_pos ⟨rfl, rfl⟩
  refine ⟨.inl h.rooted, fun i k j hentry => ?_, fun j hj hroot => ?_, fun j hj => ?_⟩
  · simp only [Names.create] at hentry
    split at hentry
    · cases hentry
      exact .inr rfl
    · exact .inl (h.named i k j hentry)
  · rcases hj with hj | rfl
    · obtain ⟨⟨i, k⟩, hplace, honly⟩ := h.unique j hj hroot
      refine ⟨(i, k), hold i k j hplace, fun other hother => honly other ?_⟩
      simp only [Names.create] at hother
      split at hother
      · cases hother
        exact absurd hj hnew
      · exact hother
    · refine ⟨(dir, name), hself, fun other hother => ?_⟩
      simp only [Names.create] at hother
      split at hother
      · next hplace => exact Prod.ext hplace.1 hplace.2
      · exact absurd (h.named _ _ _ hother) hnew
  · rcases hj with hj | rfl
    · exact hreach j hj
    · exact (hreach dir hdir).tail ⟨name, hself⟩

/-- What had the name has none any more. -/
theorem Tree.not_create (h : N.Tree root) (hdir : N.present dir) (hold : N.entry dir name = some old)
    (hroot : old ≠ root) (hnew : ¬N.present new) : ¬(N.create dir name new hdir).Tree root := by
  intro hafter
  have hpresent := h.named dir name old hold
  obtain ⟨place, _, honly⟩ := h.unique old hpresent hroot
  obtain ⟨other, hother, _⟩ := hafter.unique old (.inl hpresent) hroot
  simp only [Names.create] at hother
  split at hother
  · cases hother
    exact hnew hpresent
  · next hplace =>
    have heq := (honly other hother).trans (honly (dir, name) hold).symm
    exact hplace ⟨congrArg Prod.fst heq, congrArg Prod.snd heq⟩

theorem Forest.create (h : N.Forest) (hdir : N.present dir) (hnew : ¬N.present new) :
    (N.create dir name new hdir).Forest := by
  have hplaces (i : α) (k : κ) (j : α) (hj : (N.create dir name new hdir).entry i k = some j) :
      (j = new ∧ i = dir ∧ k = name) ∨ (j ≠ new ∧ N.entry i k = some j) := by
    simp only [Names.create] at hj
    split at hj
    · next hplace =>
      cases hj
      exact .inl ⟨rfl, hplace⟩
    · exact .inr ⟨fun heq => hnew (heq ▸ h.named i k j hj), hj⟩
  refine ⟨fun i k j hj => ?_, fun i k i' k' j hj hj' => ?_⟩
  · rcases hplaces i k j hj with ⟨heq, _⟩ | ⟨_, hj⟩
    · exact .inr heq
    · exact .inl (h.named i k j hj)
  · rcases hplaces i k j hj with ⟨heq, hi, hk⟩ | ⟨hne, hj⟩
    · rcases hplaces i' k' j hj' with ⟨_, hi', hk'⟩ | ⟨hne, _⟩
      · exact ⟨hi.trans hi'.symm, hk.trans hk'.symm⟩
      · exact absurd heq hne
    · rcases hplaces i' k' j hj' with ⟨heq, _⟩ | ⟨_, hj'⟩
      · exact absurd heq hne
      · exact h.once i k i' k' j hj hj'

/-- One list of names leads to `dir`. -/
theorem Forest.entry_create (h : N.Forest) (hroot : ∀ i k, N.entry i k ≠ some root) (hdir : N.present dir)
    (hbefore : N.walk root before = some dir) (hwalked : N.walk root walked = some i)
    (hpast : ¬before ++ [name] <+: walked ++ k :: rest) :
    (N.create dir name new hdir).entry i k = N.entry i k := by
  refine if_neg fun hplace => hpast ?_
  obtain ⟨rfl, rfl⟩ := hplace
  rw [h.walk_inj hroot hbefore hwalked]
  exact ⟨rest, (List.append_cons walked k rest).symm⟩

/-- A walk that does not pass the new thing goes as before. -/
theorem Forest.walk_create (h : N.Forest) (hroot : ∀ i k, N.entry i k ≠ some root) (hdir : N.present dir)
    (hbefore : N.walk root before = some dir) (hwalked : N.walk root walked = some i)
    (hpast : ¬before ++ [name] <+: walked ++ ks) :
    (N.create dir name new hdir).walk i ks = N.walk i ks := by
  induction ks generalizing walked i with
  | nil => rfl
  | cons k rest ih =>
    have hentry : (N.create dir name new hdir).entry i k = N.entry i k :=
      h.entry_create hroot hdir hbefore hwalked hpast
    rw [walk, walk, hentry]
    refine Option.bind_congr fun j hj => ih ?_ (List.append_cons walked k rest ▸ hpast)
    rw [walk_concat, hwalked, bind_some, hj]

/-! ### Removal -/

theorem unlink_entry (hj : (N.unlink dir name target).entry i k = some j) :
    N.entry i k = some j ∧ ¬(i = dir ∧ k = name) := by
  simp only [Names.unlink] at hj
  split at hj
  · cases hj
  · next hplace => exact ⟨hj, fun heq => hplace (.inr heq)⟩

theorem Tree.unlink (h : N.Tree root) (htarget : N.entry dir name = some target) (hroot : target ≠ root)
    (hempty : ∀ k, N.entry target k = none) : (N.unlink dir name target).Tree root := by
  have hkeep (i : α) (k : κ) (j : α) (hj : N.entry i k = some j) (hne : j ≠ target) :
      (N.unlink dir name target).entry i k = some j := by
    refine (if_neg fun hplace => ?_).trans hj
    rcases hplace with rfl | ⟨rfl, rfl⟩
    · rw [hempty] at hj
      cases hj
    · rw [htarget] at hj
      cases hj
      exact hne rfl
  have hpresent := h.named dir name target htarget
  refine ⟨⟨h.rooted, hroot.symm⟩, fun i k j hj => ?_, fun j hj hjroot => ?_, fun j hj => ?_⟩
  · obtain ⟨hj, hplace⟩ := unlink_entry hj
    refine ⟨h.named i k j hj, fun heq => hplace ?_⟩
    obtain ⟨place, _, honly⟩ := h.unique target hpresent hroot
    have hsame := (honly (i, k) (heq ▸ hj)).trans (honly (dir, name) htarget).symm
    exact ⟨congrArg Prod.fst hsame, congrArg Prod.snd hsame⟩
  · obtain ⟨⟨i, k⟩, hplace, honly⟩ := h.unique j hj.1 hjroot
    exact ⟨(i, k), hkeep i k j hplace hj.2, fun other hother => honly other (unlink_entry hother).1⟩
  · -- no path to `j` goes through the target, which names nothing
    obtain ⟨hj, hne⟩ := hj
    have hpath := h.reach j hj
    clear hj
    induction hpath with
    | refl => exact .refl
    | tail hpath hchild ih =>
      obtain ⟨k, hk⟩ := hchild
      refine (ih fun heq => ?_).tail ⟨k, hkeep _ k _ hk hne⟩
      rw [heq, hempty] at hk
      cases hk

/-- What the removed thing named has no name any more. -/
theorem Tree.not_unlink (h : N.Tree root) (hc : N.entry target k = some c) (hroot : c ≠ root)
    (hct : c ≠ target) : ¬(N.unlink dir name target).Tree root := by
  intro hafter
  have hpresent := h.named target k c hc
  obtain ⟨place, _, honly⟩ := h.unique c hpresent hroot
  obtain ⟨other, hother, _⟩ := hafter.unique c ⟨hpresent, hct⟩ hroot
  simp only [Names.unlink] at hother
  split at hother
  · cases hother
  · next hplace =>
    have heq := (honly other hother).trans (honly (target, k) hc).symm
    exact hplace (.inl (congrArg Prod.fst heq))

theorem Forest.unlink (h : N.Forest) (htarget : N.entry dir name = some target) :
    (N.unlink dir name target).Forest := by
  refine ⟨fun i k j hj => ?_, fun i k i' k' j hj hj' => ?_⟩
  · obtain ⟨hj, hplace⟩ := unlink_entry hj
    exact ⟨h.named i k j hj, fun heq => hplace (h.once i k dir name target (heq ▸ hj) htarget)⟩
  · exact h.once i k i' k' j (unlink_entry hj).1 (unlink_entry hj').1

end Names
end ChaosKernel.Base
