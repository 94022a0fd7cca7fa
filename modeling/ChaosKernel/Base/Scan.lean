import Mathlib

/-! The search for the best element of a list, first come first served.

The loop keeps the best element so far and its key, and moves on only to a key
that is strictly better. An element without a key is passed over. What it ends
with is the first of the elements with the best key. Where computing a key may
fail, the keys are computed first (`mapM_isSome`). -/
namespace ChaosKernel.Base
open List
variable {α β : Type*}

section Loop
variable (r : β → β → Prop) [DecidableRel r]

def scanStep (key : α → Option β) (best : Option α × β) (x : α) : Option α × β :=
  match key x with
  | none => best
  | some k => if r k best.2 then (some x, k) else best

/-- `start` is the key an element has to beat to be taken at all. -/
def scan (key : α → Option β) (start : β) (l : List α) : Option α × β := l.foldl (scanStep r key) (none, start)

/-- The index of the element that is found. -/
def scanIdx (key : α → Option β) (start : β) (l : List α) : Option Nat :=
  (scan r (fun e : α × Nat => key e.1) start l.zipIdx).1.map Prod.snd

end Loop

theorem mapM_isSome {α β : Type} {f : α → Option β} {l : List α} :
    (l.mapM f).isSome = true ↔ ∀ x ∈ l, (f x).isSome = true := by
  induction l with
  | nil => exact iff_of_true rfl fun x hx => absurd hx not_mem_nil
  | cons x rest ih =>
    rw [mapM_cons, forall_mem_cons, ← ih]
    cases f x with
    | none => simp
    | some y => cases rest.mapM f <;> simp

theorem length_mapM {α β : Type} {f : α → Option β} {l : List α} {ys : List β} (h : l.mapM f = some ys) :
    ys.length = l.length := by
  induction l generalizing ys with
  | nil =>
    cases h
    rfl
  | cons x rest ih =>
    rw [mapM_cons] at h
    obtain ⟨y, _, h⟩ := Option.bind_eq_some_iff.mp h
    obtain ⟨ys', hys', h⟩ := Option.bind_eq_some_iff.mp h
    cases h
    rw [length_cons, length_cons, ih hys']

theorem mapM_eq_map {α β : Type} {f : α → Option β} {g : α → β} {l : List α} (h : ∀ x ∈ l, f x = some (g x)) :
    l.mapM f = some (l.map g) := by
  induction l with
  | nil => rfl
  | cons x rest ih =>
    rw [mapM_cons, h x mem_cons_self, ih fun y hy => h y (mem_cons_of_mem x hy)]
    rfl

variable {r : β → β → Prop} [DecidableRel r] {key : α → Option β} {start : β}

theorem scan_concat (l : List α) (x : α) :
    scan r key start (l ++ [x]) = scanStep r key (scan r key start l) x := by
  unfold scan
  rw [foldl_append]
  rfl

/-- The same search over elements that carry more than the key is read from. -/
theorem scan_map {γ : Type*} (f : γ → α) (l : List γ) :
    scan r key start (l.map f) = Prod.map (Option.map f) id (scan r (fun c => key (f c)) start l) := by
  induction l using List.reverseRecOn with
  | nil => rfl
  | append_singleton rest c ih =>
    rw [map_append, map_singleton, scan_concat, scan_concat, ih]
    simp only [scanStep]
    split
    · rfl
    · simp only [Prod.map_snd, id]
      split <;> rfl

theorem scanIdx_map {γ : Type*} (f : γ → α) (l : List γ) :
    scanIdx r key start (l.map f) = scanIdx r (fun c => key (f c)) start l := by
  unfold scanIdx
  rw [zipIdx_map, scan_map, Prod.map_fst, Option.map_map]
  rfl

theorem scan_eq_map_zipIdx (l : List α) :
    (scan r key start l).1 = (scan r (fun e : α × Nat => key e.1) start l.zipIdx).1.map Prod.fst := by
  have hmap : scan r key start (l.zipIdx.map Prod.fst) = _ := scan_map Prod.fst l.zipIdx
  rw [zipIdx_map_fst] at hmap
  rw [hmap, Prod.map_fst]

variable {l before after before' after' rest : List α} {best : Option α × β} {y x : α} {k a b c k' : β}

theorem scanIdx_none (h : scanIdx r key start l = none) : (scan r key start l).1 = none := by
  rw [scan_eq_map_zipIdx, Option.map_eq_none_iff.mp h]
  rfl

/-- What the loop knows after the elements `l`: nothing beats the start, or `best` stands in `l`, beats the
start and all before it, and is not beaten after it. -/
inductive Scanned (r : β → β → Prop) (key : α → Option β) (start : β) (l : List α) : Option α × β → Prop
  | nothing (h : ∀ x ∈ l, ∀ k, key x = some k → ¬r k start) : Scanned r key start l (none, start)
  | best {before after : List α} {x : α} {k : β} (hl : l = before ++ x :: after) (hx : key x = some k)
      (hstart : r k start) (hbefore : ∀ y ∈ before, ∀ k', key y = some k' → r k k')
      (hafter : ∀ y ∈ after, ∀ k', key y = some k' → ¬r k' k) : Scanned r key start l (some x, k)

variable [IsStrictTotalOrder β r]

omit [DecidableRel r] in
/-- What beats `b` beats all that `b` is not beaten by. -/
theorem beats_of_not_beats (hab : r a b) (hcb : ¬r c b) : r a c := by
  rcases trichotomous_of r c b with h | h | h
  · exact absurd h hcb
  · exact h ▸ hab
  · exact trans_of r hab h

omit [DecidableRel r] [IsStrictTotalOrder β r] in
theorem Scanned.pass (h : Scanned r key start l best) (hy : ∀ k, key y = some k → ¬r k best.2) :
    Scanned r key start (l ++ [y]) best := by
  cases h with
  | nothing h =>
    refine .nothing fun x hx => ?_
    rcases mem_append.mp hx with hx | hx
    · exact h x hx
    · exact mem_singleton.mp hx ▸ hy
  | best hl hx hstart hbefore hafter =>
    refine .best (by rw [hl, append_assoc, cons_append]) hx hstart hbefore fun z hz => ?_
    rcases mem_append.mp hz with hz | hz
    · exact hafter z hz
    · exact mem_singleton.mp hz ▸ hy

omit [DecidableRel r] in
theorem Scanned.take (h : Scanned r key start l best) (hy : key y = some k) (hk : r k best.2) :
    Scanned r key start (l ++ [y]) (some y, k) := by
  cases h with
  | nothing h =>
    exact .best rfl hy hk (fun z hz k' hk' => beats_of_not_beats hk (h z hz k' hk'))
      fun z hz => absurd hz not_mem_nil
  | best hl hx hstart hbefore hafter =>
    refine .best rfl hy (trans_of r hk hstart) (fun z hz k' hk' => ?_) fun z hz => absurd hz not_mem_nil
    rw [hl, mem_append, mem_cons] at hz
    rcases hz with hz | hz | hz
    · exact trans_of r hk (hbefore z hz k' hk')
    · rw [hz, hx] at hk'
      cases hk'
      exact hk
    · exact beats_of_not_beats hk (hafter z hz k' hk')

theorem scanned_step (h : Scanned r key start l best) (y : α) :
    Scanned r key start (l ++ [y]) (scanStep r key best y) := by
  unfold scanStep
  split
  · next hy => exact h.pass fun k hk => by rw [hy] at hk; cases hk
  · next k hy =>
    split
    · next hk => exact h.take hy hk
    · next hk => exact h.pass fun k' hk' => by rw [hy] at hk'; cases hk'; exact hk

/-- The loop finds the first of the elements with the best key. -/
theorem scanned (l : List α) : Scanned r key start l (scan r key start l) := by
  induction l using List.reverseRecOn with
  | nil => exact .nothing fun x hx => absurd hx not_mem_nil
  | append_singleton rest y ih =>
    rw [scan_concat]
    exact scanned_step ih y

theorem scan_eq_none : (scan r key start l).1 = none ↔ ∀ x ∈ l, ∀ k, key x = some k → ¬r k start := by
  have hs : Scanned r key start l (scan r key start l) := scanned l
  generalize scan r key start l = best at hs ⊢
  cases hs with
  | nothing h => exact iff_of_true rfl h
  | best hl hx hstart =>
    refine iff_of_false (fun h => by cases h) fun h => h _ ?_ _ hx hstart
    rw [hl]
    exact mem_append_right _ mem_cons_self

theorem scan_eq_some (h : (scan r key start l).1 = some x) :
    ∃ before after k, l = before ++ x :: after ∧ key x = some k ∧ r k start ∧
      (∀ y ∈ before, ∀ k', key y = some k' → r k k') ∧ ∀ y ∈ after, ∀ k', key y = some k' → ¬r k' k := by
  have hs : Scanned r key start l (scan r key start l) := scanned l
  generalize scan r key start l = best at hs h
  cases hs with
  | nothing => cases h
  | best hl hx hstart hbefore hafter =>
    cases h
    exact ⟨_, _, _, hl, hx, hstart, hbefore, hafter⟩

/-- There is no other choice. -/
theorem scan_of_first (hx : key x = some k) (hstart : r k start)
    (hbefore : ∀ y ∈ before, ∀ k', key y = some k' → r k k')
    (hafter : ∀ y ∈ after, ∀ k', key y = some k' → ¬r k' k) :
    (scan r key start (before ++ x :: after)).1 = some x := by
  have htake : scanStep r key (scan r key start before) x = (some x, k) := by
    have hbeats : r k (scan r key start before).2 := by
      have hs : Scanned r key start before (scan r key start before) := scanned before
      generalize scan r key start before = best at hs ⊢
      cases hs with
      | nothing => exact hstart
      | best hl hy _ _ _ =>
        refine hbefore _ ?_ _ hy
        rw [hl]
        exact mem_append_right _ mem_cons_self
    simp only [scanStep, hx, if_pos hbeats]
  have hpass : ∀ l : List α, (∀ y ∈ l, ∀ k', key y = some k' → ¬r k' k) →
      l.foldl (scanStep r key) (some x, k) = (some x, k) := by
    intro l hl
    induction l with
    | nil => rfl
    | cons y rest ih =>
      have hstay : scanStep r key (some x, k) y = (some x, k) := by
        unfold scanStep
        split
        · rfl
        · next k' hk' => exact if_neg (hl y mem_cons_self k' hk')
      rw [foldl_cons, hstay]
      exact ih fun z hz => hl z (mem_cons_of_mem y hz)
  have hscan : scan r key start (before ++ x :: after) =
      after.foldl (scanStep r key) (scanStep r key (scan r key start before) x) := by
    unfold scan
    rw [foldl_append, foldl_cons]
  rw [hscan, htake, hpass after hafter]

theorem mem_of_scan (h : (scan r key start l).1 = some x) : x ∈ l := by
  obtain ⟨before, after, k, hl, _⟩ := scan_eq_some h
  rw [hl]
  exact mem_append_right _ mem_cons_self

/-- The index is one of the list, and the element that is found stands there. -/
theorem scanIdx_some {i : Nat} (h : scanIdx r key start l = some i) :
    ∃ x, l[i]? = some x ∧ (scan r key start l).1 = some x := by
  obtain ⟨e, he, hi⟩ := Option.map_eq_some_iff.mp h
  rw [scan_eq_map_zipIdx, he]
  exact ⟨e.1, hi ▸ mk_mem_zipIdx_iff_getElem?.mp (mem_of_scan he), rfl⟩

/-- No element has a better key than the one that is found. -/
theorem not_beaten_of_scan (h : (scan r key start l).1 = some x) (hx : key x = some k) (hy : y ∈ l)
    (hk' : key y = some k') : ¬r k' k := by
  obtain ⟨before, after, k₀, hl, hk₀, _, hbefore, hafter⟩ := scan_eq_some h
  rw [hx] at hk₀
  cases hk₀
  rw [hl, mem_append, mem_cons] at hy
  rcases hy with hy | hy | hy
  · exact fun hr => asymm_of r hr (hbefore y hy k' hk')
  · rw [hy, hx] at hk'
    cases hk'
    exact irrefl_of r k
  · exact hafter y hy k' hk'

/-! ### Least keys -/

/-- `x` is the first element of `l` with the least `f`. -/
def FirstLeast [LE β] [LT β] (f : α → β) (l : List α) (x : α) : Prop :=
  ∃ before after, l = before ++ x :: after ∧ (∀ y ∈ before, f x < f y) ∧ ∀ y ∈ after, f x ≤ f y

theorem scan_eq_some_iff [LinearOrder β] {f : α → β} {start : β} :
    (scan (· < ·) (fun y => some (f y)) start l).1 = some x ↔ f x < start ∧ FirstLeast f l x := by
  constructor
  · intro h
    obtain ⟨before, after, k, hl, hk, hstart, hbefore, hafter⟩ := scan_eq_some h
    cases hk
    exact ⟨hstart, before, after, hl, fun y hy => hbefore y hy _ rfl, fun y hy => not_lt.mp (hafter y hy _ rfl)⟩
  · intro h
    obtain ⟨hstart, before, after, hl, hbefore, hafter⟩ := h
    rw [hl]
    refine scan_of_first rfl hstart (fun y hy k' hk' => ?_) fun y hy k' hk' => ?_
    · cases hk'
      exact hbefore y hy
    · cases hk'
      exact not_lt.mpr (hafter y hy)

theorem FirstLeast.mem [LE β] [LT β] {f : α → β} (h : FirstLeast f l x) : x ∈ l := by
  obtain ⟨before, after, hl, _⟩ := h
  rw [hl]
  exact mem_append_right _ mem_cons_self

theorem FirstLeast.le [LinearOrder β] {f : α → β} (h : FirstLeast f l x) (hy : y ∈ l) : f x ≤ f y := by
  obtain ⟨before, after, hl, hbefore, hafter⟩ := h
  rw [hl, mem_append, mem_cons] at hy
  rcases hy with hy | hy | hy
  · exact (hbefore y hy).le
  · rw [hy]
  · exact hafter y hy

/-- Of two elements one is before the other. -/
theorem before_or_after (h : before ++ x :: after = before' ++ y :: after') (hne : x ≠ y) :
    (x ∈ before' ∧ y ∈ after) ∨ (x ∈ after' ∧ y ∈ before) := by
  rcases append_eq_append_iff.mp h with ⟨middle, hbefore, hafter⟩ | ⟨middle, hbefore, hafter⟩
  · cases middle with
    | nil => exact absurd (List.cons.inj hafter).1 hne
    | cons z rest =>
      obtain ⟨rfl, hrest⟩ := List.cons.inj hafter
      refine .inl ⟨hbefore ▸ mem_append_right _ mem_cons_self, ?_⟩
      exact hrest ▸ mem_append_right _ mem_cons_self
  · cases middle with
    | nil => exact absurd (List.cons.inj hafter).1.symm hne
    | cons z rest =>
      obtain ⟨rfl, hrest⟩ := List.cons.inj hafter
      refine .inr ⟨hrest ▸ mem_append_right _ mem_cons_self, ?_⟩
      exact hbefore ▸ mem_append_right _ mem_cons_self

/-- Nothing below `start` is found: if all keys are `start` or less, they are `start`, and the first element is
the first of the least. -/
theorem firstLeast_of_scan_none [LinearOrder β] {f : α → β} {start : β} (hle : ∀ y ∈ x :: rest, f y ≤ start)
    (h : (scan (· < ·) (fun y => some (f y)) start (x :: rest)).1 = none) : FirstLeast f (x :: rest) x := by
  refine ⟨[], rest, rfl, fun y hy => absurd hy not_mem_nil, fun y hy => ?_⟩
  exact (hle x mem_cons_self).trans (not_lt.mp (scan_eq_none.mp h y (mem_cons_of_mem x hy) _ rfl))

/-- A key that orders the elements in the same way has the same first least element. -/
theorem FirstLeast.congr [LinearOrder β] {f g : α → β} (h : FirstLeast f l x)
    (hfg : ∀ y ∈ l, g y ≤ g x ↔ f y ≤ f x) (hgf : ∀ y ∈ l, g x ≤ g y ↔ f x ≤ f y) : FirstLeast g l x := by
  obtain ⟨before, after, hl, hbefore, hafter⟩ := h
  refine ⟨before, after, hl, fun y hy => ?_, fun y hy => ?_⟩
  · rw [lt_iff_not_ge, hfg y (hl ▸ mem_append_left _ hy), ← lt_iff_not_ge]
    exact hbefore y hy
  · exact (hgf y (hl ▸ mem_append_right _ (mem_cons_of_mem x hy))).mpr (hafter y hy)

end ChaosKernel.Base
