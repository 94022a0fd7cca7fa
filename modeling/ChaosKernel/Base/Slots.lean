import Mathlib

/-! Lists of slots.

`slotAt` reads a slot and `List.modify` changes one. All that is stored is the
flattened list, and a change of one slot is a change of one part of it, up to
order. `Filed key` says that every element lies in the slot of its key.
`updateFirst?` replaces the first element that a partial function accepts; over
slots, it is used at both levels, and the flattened list sees one update. -/
namespace ChaosKernel.Base
open List
variable {α : Type*}

def slotAt (slots : List (List α)) (i : Nat) : List α := slots[i]?.getD []

variable {slots slots' : List (List α)} {i : Nat} {key : α → Nat} {a b : α} {g : α → Option α} {l l' : List α}

theorem slotAt_modify (h : i < slots.length) (f : List α → List α) (j : Nat) :
    slotAt (slots.modify i f) j = if i = j then f (slotAt slots i) else slotAt slots j := by
  by_cases hij : i = j
  · subst hij
    simp only [slotAt, getElem?_modify, getElem?_eq_getElem h, Option.map_eq_map, Option.map_some,
      if_true, Option.getD_some]
  · simp only [slotAt, getElem?_modify, if_neg hij, Option.map_eq_map, Option.map_id_fun', id]

theorem flatten_perm (h : i < slots.length) :
    slots.flatten.Perm (slotAt slots i ++ (slots.eraseIdx i).flatten) := by
  have hslot : slotAt slots i = slots[i] := by
    simp only [slotAt, getElem?_eq_getElem h, Option.getD_some]
  rw [hslot, ← flatten_cons]
  exact (getElem_cons_eraseIdx_perm h).symm.flatten

theorem flatten_modify_perm (h : i < slots.length) (f : List α → List α) :
    (slots.modify i f).flatten.Perm (f (slotAt slots i) ++ (slots.eraseIdx i).flatten) := by
  have hset : slots.modify i f = slots.set i (f (slotAt slots i)) := modify_eq_set f i slots
  rw [hset, ← flatten_cons]
  exact (set_perm_cons_eraseIdx h _).flatten

/-- Every element lies in the slot of its key. -/
def Filed (key : α → Nat) (slots : List (List α)) : Prop := ∀ i, ∀ a ∈ slotAt slots i, key a = i

theorem Filed.modify (h : Filed key slots) (hi : i < slots.length) {f : List α → List α}
    (hf : ∀ a ∈ f (slotAt slots i), key a = i) : Filed key (slots.modify i f) := by
  intro j a ha
  rw [slotAt_modify hi] at ha
  split at ha
  · next hij =>
    subst hij
    exact hf a ha
  · exact h j a ha

theorem Filed.of_mem (h : Filed key slots) (ha : a ∈ slots.flatten) : a ∈ slotAt slots (key a) := by
  obtain ⟨slot, hslot, ha⟩ := mem_flatten.mp ha
  obtain ⟨i, hi⟩ := getElem?_of_mem hslot
  have hmem : a ∈ slotAt slots i := by
    rw [slotAt, hi]
    exact ha
  rwa [h i a hmem]

/-! ### The first element that is accepted -/

/-- The list with the first element that `g` accepts replaced. -/
def updateFirst? (g : α → Option α) : List α → Option (List α)
  | [] => none
  | a :: rest =>
    match g a with
    | some b => some (b :: rest)
    | none => (updateFirst? g rest).map (a :: ·)

theorem updateFirst?_cons_some (h : g a = some b) (rest : List α) :
    updateFirst? g (a :: rest) = some (b :: rest) := by
  simp only [updateFirst?, h]

theorem updateFirst?_cons_none (h : g a = none) (rest : List α) :
    updateFirst? g (a :: rest) = (updateFirst? g rest).map (a :: ·) := by
  simp only [updateFirst?, h]

theorem updateFirst?_append (g : α → Option α) (l m : List α) :
    updateFirst? g (l ++ m) = ((updateFirst? g l).map (· ++ m)).or ((updateFirst? g m).map (l ++ ·)) := by
  induction l with
  | nil =>
    show updateFirst? g m = (updateFirst? g m).map fun x => x
    rw [Option.map_id']
  | cons a rest ih =>
    cases h : g a with
    | some b => rw [cons_append, updateFirst?_cons_some h, updateFirst?_cons_some h]; rfl
    | none =>
      rw [cons_append, updateFirst?_cons_none h, updateFirst?_cons_none h, ih]
      cases updateFirst? g rest with
      | some l => rfl
      | none => cases updateFirst? g m <;> rfl

theorem updateFirst?_flatten (g : α → Option α) (slots : List (List α)) :
    (updateFirst? (updateFirst? g) slots).map List.flatten = updateFirst? g slots.flatten := by
  induction slots with
  | nil => rfl
  | cons slot rest ih =>
    rw [flatten_cons, updateFirst?_append]
    cases h : updateFirst? g slot with
    | some l =>
      rw [updateFirst?_cons_some h]
      rfl
    | none =>
      rw [updateFirst?_cons_none h, ← ih, Option.map_map, Option.map_map]
      rfl

theorem length_updateFirst? (h : updateFirst? g l = some l') : l'.length = l.length := by
  induction l generalizing l' with
  | nil => cases h
  | cons a rest ih =>
    cases ha : g a with
    | some b =>
      rw [updateFirst?_cons_some ha] at h
      cases h
      rfl
    | none =>
      rw [updateFirst?_cons_none ha] at h
      obtain ⟨m, hm, hl⟩ := Option.map_eq_some_iff.mp h
      subst hl
      rw [length_cons, length_cons, ih hm]

/-- Nothing moves, and what changes was accepted. -/
theorem getElem?_updateFirst? (h : updateFirst? g l = some l') (hb : l'[i]? = some b) :
    ∃ a, l[i]? = some a ∧ (b = a ∨ g a = some b) := by
  induction l generalizing l' i with
  | nil => cases h
  | cons a rest ih =>
    cases ha : g a with
    | some c =>
      rw [updateFirst?_cons_some ha] at h
      cases h
      cases i with
      | zero =>
        cases hb
        exact ⟨a, rfl, .inr ha⟩
      | succ i => exact ⟨b, hb, .inl rfl⟩
    | none =>
      rw [updateFirst?_cons_none ha] at h
      obtain ⟨m, hm, hl⟩ := Option.map_eq_some_iff.mp h
      subst hl
      cases i with
      | zero => exact ⟨b, hb, .inl rfl⟩
      | succ i => exact ih hm hb

theorem mem_updateFirst? (h : updateFirst? g l = some l') (hb : b ∈ l') :
    ∃ a ∈ l, b = a ∨ g a = some b := by
  obtain ⟨i, hi⟩ := getElem?_of_mem hb
  obtain ⟨a, ha, hab⟩ := getElem?_updateFirst? h hi
  exact ⟨a, mem_of_getElem? ha, hab⟩

theorem Filed.updateFirst? (h : Filed key slots) (hg : ∀ a b, g a = some b → key b = key a)
    (hslots : updateFirst? (updateFirst? g) slots = some slots') : Filed key slots' := by
  intro i b hb
  cases hi : slots'[i]? with
  | none =>
    rw [slotAt, hi] at hb
    cases hb
  | some slot' =>
    rw [slotAt, hi, Option.getD_some] at hb
    obtain ⟨slot, hslot, heq⟩ := getElem?_updateFirst? hslots hi
    have hold : ∀ a ∈ slot, key a = i := fun a ha => h i a (by rwa [slotAt, hslot])
    rcases heq with heq | heq
    · subst heq
      exact hold b hb
    · obtain ⟨a, ha, hab⟩ := mem_updateFirst? heq hb
      rcases hab with hab | hab
      · subst hab
        exact hold b ha
      · rw [hg a b hab]
        exact hold a ha

/-- Where the first accepted element is active and its replacement is not, the active elements
lose just that one. -/
theorem filter_updateFirst? {p q : α → Bool} {f : α → α} (hq : ∀ a, q a = true → p a = true)
    (hf : ∀ a, q a = true → p (f a) = false) (l : List α) :
    (l.find? q = none ∧ Base.updateFirst? (fun a => if q a then some (f a) else none) l = none) ∨
      ∃ a l', l.find? q = some a ∧ Base.updateFirst? (fun a => if q a then some (f a) else none) l = some l' ∧
        (l.filter p).Perm (a :: l'.filter p) := by
  induction l with
  | nil => exact .inl ⟨rfl, rfl⟩
  | cons a rest ih =>
    cases hqa : q a with
    | true =>
      refine .inr ⟨a, f a :: rest, find?_cons_of_pos hqa, updateFirst?_cons_some (by simp only [hqa, if_true]) _, ?_⟩
      rw [filter_cons_of_pos (hq a hqa), filter_cons_of_neg (by simp only [hf a hqa, Bool.false_eq_true,
        not_false_eq_true])]
    | false =>
      have hnone : (if q a then some (f a) else none) = none := by simp only [hqa, Bool.false_eq_true, if_false]
      have hfind : (a :: rest).find? q = rest.find? q := find?_cons_of_neg (by simp only [hqa, Bool.false_eq_true,
        not_false_eq_true])
      rw [hfind, updateFirst?_cons_none hnone]
      rcases ih with ⟨h1, h2⟩ | ⟨b, l', h1, h2, h3⟩
      · exact .inl ⟨h1, by rw [h2]; rfl⟩
      · refine .inr ⟨b, a :: l', h1, by rw [h2]; rfl, ?_⟩
        cases hpa : p a with
        | true =>
          rw [filter_cons_of_pos hpa, filter_cons_of_pos hpa]
          exact (h3.cons a).trans (List.Perm.swap ..)
        | false =>
          rw [filter_cons_of_neg (by simp only [hpa, Bool.false_eq_true, not_false_eq_true]),
            filter_cons_of_neg (by simp only [hpa, Bool.false_eq_true, not_false_eq_true])]
          exact h3

end ChaosKernel.Base
