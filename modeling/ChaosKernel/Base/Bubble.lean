import Mathlib

/-! Sorting by a key with loops that swap.

A pass of the bubble sort carries the greatest element it has met to the end, and a
pass without a swap finds the list in order (`bubbleFrom_last`, `bubbleFrom_done`). It
swaps only what is out of order, so the sort is stable (`bubbleSort_stable`). The
exchange sort puts the least of the remaining elements in front, one place after the
other. -/
namespace ChaosKernel.Base
open List
variable {α β : Type*} [LinearOrder β] (key : α → β)

/-- One pass, at the element `x` and with the elements after it; whether it has swapped. -/
def bubbleFrom (x : α) : List α → List α × Bool
  | [] => ([x], false)
  | y :: rest =>
    if key y < key x then (y :: (bubbleFrom x rest).1, true)
    else (x :: (bubbleFrom y rest).1, (bubbleFrom y rest).2)

def bubble : List α → List α × Bool
  | [] => ([], false)
  | x :: rest => bubbleFrom key x rest

/-- The passes over the first `n` elements, the first `n - 1` and so on, up to one that does not swap. -/
def bubblePasses : Nat → List α → List α
  | 0, l => l
  | n + 1, l =>
    if (bubble key (l.take (n + 1))).2 then bubblePasses n ((bubble key (l.take (n + 1))).1 ++ l.drop (n + 1))
    else (bubble key (l.take (n + 1))).1 ++ l.drop (n + 1)

def bubbleSort (l : List α) : List α := bubblePasses key l.length l

/-- The inner loop of the exchange sort: the element that ends up at its place, and the others. -/
def exchangeFrom (x : α) : List α → α × List α
  | [] => (x, [])
  | y :: rest =>
    if key y < key x then ((exchangeFrom y rest).1, x :: (exchangeFrom y rest).2)
    else ((exchangeFrom x rest).1, y :: (exchangeFrom x rest).2)

/-- One place after the other; there are as many as there are elements. -/
def exchangePasses : Nat → List α → List α
  | n + 1, x :: rest => (exchangeFrom key x rest).1 :: exchangePasses n (exchangeFrom key x rest).2
  | _, l => l

def exchangeSort (l : List α) : List α := exchangePasses key l.length l

theorem bubbleFrom_perm (x : α) (l : List α) : (bubbleFrom key x l).1.Perm (x :: l) := by
  induction l generalizing x with
  | nil => exact List.Perm.refl _
  | cons y rest ih =>
    rw [bubbleFrom]
    split
    · exact ((ih x).cons y).trans (List.Perm.swap x y rest)
    · exact (ih y).cons x

theorem bubble_perm (l : List α) : (bubble key l).1.Perm l := by
  cases l with
  | nil => exact List.Perm.refl _
  | cons x rest => exact bubbleFrom_perm key x rest

theorem bubblePasses_perm (n : Nat) (l : List α) : (bubblePasses key n l).Perm l := by
  have hpass (m : Nat) (l : List α) : ((bubble key (l.take m)).1 ++ l.drop m).Perm l := by
    have h := (bubble_perm key (l.take m)).append_right (l.drop m)
    rwa [take_append_drop] at h
  induction n generalizing l with
  | zero => exact List.Perm.refl _
  | succ n ih =>
    rw [bubblePasses]
    split
    · exact (ih _).trans (hpass (n + 1) l)
    · exact hpass (n + 1) l

theorem bubbleSort_perm (l : List α) : (bubbleSort key l).Perm l := bubblePasses_perm key l.length l

theorem exchangeFrom_perm (x : α) (l : List α) :
    ((exchangeFrom key x l).1 :: (exchangeFrom key x l).2).Perm (x :: l) := by
  induction l generalizing x with
  | nil => exact List.Perm.refl _
  | cons y rest ih =>
    rw [exchangeFrom]
    split
    · exact (List.Perm.swap _ _ _).trans ((ih y).cons x)
    · exact (List.Perm.swap _ _ _).trans (((ih x).cons y).trans (List.Perm.swap x y rest))

theorem exchangePasses_perm (n : Nat) (l : List α) : (exchangePasses key n l).Perm l := by
  induction n generalizing l with
  | zero => exact List.Perm.refl _
  | succ n ih =>
    cases l with
    | nil => exact List.Perm.refl _
    | cons x rest => exact ((ih _).cons _).trans (exchangeFrom_perm key x rest)

theorem exchangeSort_perm (l : List α) : (exchangeSort key l).Perm l := exchangePasses_perm key l.length l

/-- What a pass ends with is as great as all before it. -/
theorem bubbleFrom_last (x : α) (l : List α) :
    ∃ front m, (bubbleFrom key x l).1 = front ++ [m] ∧ key x ≤ key m ∧ ∀ y ∈ front, key y ≤ key m := by
  induction l generalizing x with
  | nil => exact ⟨[], x, rfl, le_refl _, fun y hy => absurd hy not_mem_nil⟩
  | cons y rest ih =>
    rw [bubbleFrom]
    split
    · next hlt =>
      obtain ⟨front, m, heq, hx, hfront⟩ := ih x
      refine ⟨y :: front, m, by rw [heq, cons_append], hx, fun z hz => ?_⟩
      rcases mem_cons.mp hz with hz | hz
      · exact hz ▸ (hlt.le.trans hx)
      · exact hfront z hz
    · next hge =>
      obtain ⟨front, m, heq, hy, hfront⟩ := ih y
      have hx : key x ≤ key m := (not_lt.mp hge).trans hy
      refine ⟨x :: front, m, by rw [heq, cons_append], hx, fun z hz => ?_⟩
      rcases mem_cons.mp hz with hz | hz
      · exact hz ▸ hx
      · exact hfront z hz

variable {key}

/-- A pass that does not swap leaves the list as it is, and it is in order. -/
theorem bubbleFrom_done {x : α} {l : List α} (h : (bubbleFrom key x l).2 = false) :
    (bubbleFrom key x l).1 = x :: l ∧ (x :: l).IsChain fun a b => key a ≤ key b := by
  induction l generalizing x with
  | nil => exact ⟨rfl, isChain_singleton _⟩
  | cons y rest ih =>
    rw [bubbleFrom] at h ⊢
    split at h
    · cases h
    · next hge =>
      obtain ⟨heq, hchain⟩ := ih h
      rw [if_neg hge]
      exact ⟨by rw [heq], isChain_cons_cons.mpr ⟨not_lt.mp hge, hchain⟩⟩

/-- A list in order. -/
def InOrder (key : α → β) (l : List α) : Prop := l.Pairwise fun a b => key a ≤ key b

/-- The elements behind those that are still looked at are in order, and as great as those. -/
theorem bubblePasses_inOrder {n : Nat} {front back : List α} (hn : front.length = n) (hback : InOrder key back)
    (hle : ∀ x ∈ front, ∀ y ∈ back, key x ≤ key y) : InOrder key (bubblePasses key n (front ++ back)) := by
  induction n generalizing front back with
  | zero =>
    rw [eq_nil_of_length_eq_zero hn]
    exact hback
  | succ n ih =>
    obtain ⟨x, rest, hfront⟩ := exists_cons_of_length_eq_add_one hn
    rw [bubblePasses, take_left' hn, drop_left' hn, hfront, bubble]
    have hperm := bubbleFrom_perm key x rest
    split
    · obtain ⟨front', m, heq, _, hm⟩ := bubbleFrom_last key x rest
      rw [heq] at hperm ⊢
      have hmem : ∀ y ∈ front' ++ [m], y ∈ front := fun y hy => hfront ▸ hperm.mem_iff.mp hy
      have hlen := hperm.length_eq
      rw [length_append, ← hfront, hn, length_singleton] at hlen
      rw [append_assoc]
      refine ih (Nat.succ.inj hlen) (pairwise_cons.mpr ⟨?_, hback⟩) fun y hy z hz => ?_
      · exact hle m (hmem m (mem_append_right _ mem_cons_self))
      · rcases mem_cons.mp hz with hz | hz
        · exact hz ▸ hm y hy
        · exact hle y (hmem y (mem_append_left _ hy)) z hz
    · next hdone =>
      obtain ⟨heq, hchain⟩ := bubbleFrom_done (Bool.eq_false_iff.mpr hdone)
      have : IsTrans α fun a b => key a ≤ key b := ⟨fun _ _ _ => le_trans⟩
      rw [heq, ← hfront]
      exact pairwise_append.mpr ⟨hfront ▸ hchain.pairwise, hback, hle⟩

theorem bubbleSort_inOrder (l : List α) : InOrder key (bubbleSort key l) := by
  have h : InOrder key (bubblePasses key l.length (l ++ [])) :=
    bubblePasses_inOrder rfl List.Pairwise.nil fun _ _ y hy => absurd hy not_mem_nil
  rwa [append_nil] at h

/-! ### Stability -/

/-- `sorted` is `l` in the order of the keys, and elements with one key stand as they stood. -/
structure StablySorted (key : α → β) (l sorted : List α) : Prop where
  perm : sorted.Perm l
  inOrder : InOrder key sorted
  stable : ∀ k, (sorted.filter fun a => key a = k) = l.filter fun a => key a = k

theorem bubbleFrom_filter (x : α) (l : List α) (k : β) :
    ((bubbleFrom key x l).1.filter fun a => key a = k) = (x :: l).filter fun a => key a = k := by
  induction l generalizing x with
  | nil => rfl
  | cons y rest ih =>
    rw [bubbleFrom]
    split
    · next hlt =>
      -- two elements that change places have different keys, so one of them is filtered out
      rw [filter_cons, ih]
      by_cases hx : key x = k
      · have hy : key y ≠ k := hx ▸ hlt.ne
        simp [hx, hy]
      · simp [filter_cons, hx]
    · simp only [filter_cons, ih]

theorem bubblePasses_filter (n : Nat) (l : List α) (k : β) :
    ((bubblePasses key n l).filter fun a => key a = k) = l.filter fun a => key a = k := by
  have hpass (m : Nat) (l : List α) : (((bubble key (l.take m)).1 ++ l.drop m).filter fun a => key a = k) =
      l.filter fun a => key a = k := by
    have hbubble : ((bubble key (l.take m)).1.filter fun a => key a = k) = (l.take m).filter fun a => key a = k := by
      cases l.take m with
      | nil => rfl
      | cons x rest => exact bubbleFrom_filter x rest k
    rw [filter_append, hbubble, ← filter_append, take_append_drop]
  induction n generalizing l with
  | zero => rfl
  | succ n ih =>
    rw [bubblePasses]
    split
    · rw [ih, hpass]
    · exact hpass (n + 1) l

theorem bubbleSort_stable (l : List α) : StablySorted key l (bubbleSort key l) :=
  ⟨bubbleSort_perm key l, bubbleSort_inOrder l, bubblePasses_filter l.length l⟩

end ChaosKernel.Base
