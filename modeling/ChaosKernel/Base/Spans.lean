import Mathlib

/-! Lists of disjoint intervals.

The items of a list stand for half-open intervals of addresses, each with a tag
(`Spans`). A list is laid out when no item is empty and each ends before the next
begins; it is then a partial function from addresses to tags (`tagAt`). Cutting an
interval out of every item (`cut`) takes its addresses away from that function and
changes nothing else. -/
namespace ChaosKernel.Base
open List

/-- Items that stand for intervals, and how an item is moved to another interval. -/
structure Spans (α τ : Type) where
  lo : α → Nat
  hi : α → Nat
  tag : α → τ
  resize : α → Nat → Nat → α
  lo_resize : ∀ a l h, lo (resize a l h) = l
  hi_resize : ∀ a l h, hi (resize a l h) = h
  tag_resize : ∀ a l h, tag (resize a l h) = tag a
  resize_self : ∀ a, resize a (lo a) (hi a) = a

namespace Spans
variable {α τ : Type} (S : Spans α τ)

/-- The address is in the item's interval. -/
def Holds (a : α) (x : Nat) : Prop := S.lo a ≤ x ∧ x < S.hi a

instance (a : α) (x : Nat) : Decidable (S.Holds a x) := inferInstanceAs (Decidable (_ ∧ _))

/-- No item is empty, and each ends before the later ones begin. -/
structure Laid (l : List α) : Prop where
  proper : ∀ a ∈ l, S.lo a < S.hi a
  sorted : l.Pairwise fun a b => S.hi a ≤ S.lo b

/-- The tag of an address. -/
def tagAt (l : List α) (x : Nat) : Option τ := (l.find? fun a => S.Holds a x).map S.tag

variable {S} {l : List α} {a b : α} {s e x : Nat}

theorem laid_nil : S.Laid [] := ⟨fun _ h => absurd h not_mem_nil, List.Pairwise.nil⟩

theorem laid_cons : S.Laid (a :: l) ↔ S.lo a < S.hi a ∧ (∀ b ∈ l, S.hi a ≤ S.lo b) ∧ S.Laid l := by
  constructor
  · intro h
    obtain ⟨ha, hl⟩ := pairwise_cons.mp h.sorted
    exact ⟨h.proper a (mem_cons_self ..), ha, fun b hb => h.proper b (mem_cons_of_mem a hb), hl⟩
  · intro ⟨ha, hsep, hl⟩
    refine ⟨fun b hb => ?_, pairwise_cons.mpr ⟨hsep, hl.sorted⟩⟩
    rcases mem_cons.mp hb with rfl | hb
    · exact ha
    · exact hl.proper b hb

/-- Two items of a list hold no address in common. -/
theorem Laid.eq_of_holds (h : S.Laid l) (ha : a ∈ l) (hb : b ∈ l) (hax : S.Holds a x) (hbx : S.Holds b x) :
    a = b := by
  induction l with
  | nil => exact absurd ha not_mem_nil
  | cons c l ih =>
    obtain ⟨_, hsep, hl⟩ := laid_cons.mp h
    unfold Holds at hax hbx
    rcases mem_cons.mp ha with hac | hal
    · rcases mem_cons.mp hb with hbc | hbl
      · exact hac.trans hbc.symm
      · have := hac ▸ hsep b hbl
        omega
    · rcases mem_cons.mp hb with hbc | hbl
      · have := hbc ▸ hsep a hal
        omega
      · exact ih hl hal hbl

theorem Laid.find?_eq_some (h : S.Laid l) : (l.find? fun a => S.Holds a x) = some a ↔ a ∈ l ∧ S.Holds a x := by
  constructor
  · intro hfind
    exact ⟨mem_of_find?_eq_some hfind, by simpa using find?_some hfind⟩
  · intro ⟨ha, hx⟩
    cases hfind : l.find? fun a => S.Holds a x with
    | none => exact absurd hx (by simpa using find?_eq_none.mp hfind a ha)
    | some b =>
      have hb : S.Holds b x := by simpa using find?_some hfind
      rw [h.eq_of_holds ha (mem_of_find?_eq_some hfind) hx hb]

theorem Laid.tagAt_eq_some (h : S.Laid l) {t : τ} :
    S.tagAt l x = some t ↔ ∃ a ∈ l, S.Holds a x ∧ S.tag a = t := by
  simp only [tagAt, Option.map_eq_some_iff, h.find?_eq_some, and_assoc]

/-! ### Cutting -/

/-- What is left of an item outside `[s, e)`. -/
def cut (S : Spans α τ) (s e : Nat) (a : α) : List α :=
  (if S.lo a < s then [S.resize a (S.lo a) (min s (S.hi a))] else []) ++
    if e < S.hi a then [S.resize a (max e (S.lo a)) (S.hi a)] else []

theorem mem_cut : b ∈ S.cut s e a ↔ (S.lo a < s ∧ b = S.resize a (S.lo a) (min s (S.hi a))) ∨
    (e < S.hi a ∧ b = S.resize a (max e (S.lo a)) (S.hi a)) := by
  unfold cut
  split <;> split <;> simp [*]

/-- An item that the cut does not touch is left as it is. -/
theorem cut_of_disjoint (hse : s ≤ e) (ha : S.lo a < S.hi a) (h : S.hi a ≤ s ∨ e ≤ S.lo a) : S.cut s e a = [a] := by
  unfold cut
  rcases h with h | h
  · rw [if_pos (by omega), if_neg (by omega), min_eq_right h, S.resize_self]
    rfl
  · rw [if_neg (by omega), if_pos (by omega), max_eq_right h, S.resize_self]
    rfl

theorem lo_le_of_mem_cut (h : b ∈ S.cut s e a) : S.lo a ≤ S.lo b ∧ S.hi b ≤ S.hi a := by
  rcases mem_cut.mp h with ⟨hlo, rfl⟩ | ⟨hhi, rfl⟩
  · rw [S.lo_resize, S.hi_resize]
    omega
  · rw [S.lo_resize, S.hi_resize]
    omega

theorem laid_cut_one (hse : s ≤ e) (ha : S.lo a < S.hi a) : S.Laid (S.cut s e a) := by
  constructor
  · intro b hb
    rcases mem_cut.mp hb with ⟨hlo, rfl⟩ | ⟨hhi, rfl⟩
    · rw [S.lo_resize, S.hi_resize]
      omega
    · rw [S.lo_resize, S.hi_resize]
      omega
  · unfold cut
    split <;> split <;> simp [S.lo_resize, S.hi_resize]
    omega

theorem laid_append {k : List α} : S.Laid (l ++ k) ↔ S.Laid l ∧ S.Laid k ∧ ∀ a ∈ l, ∀ b ∈ k, S.hi a ≤ S.lo b := by
  constructor
  · intro h
    obtain ⟨hl, hk, hsep⟩ := pairwise_append.mp h.sorted
    exact ⟨⟨fun a ha => h.proper a (mem_append_left k ha), hl⟩,
      ⟨fun a ha => h.proper a (mem_append_right l ha), hk⟩, hsep⟩
  · intro ⟨hl, hk, hsep⟩
    refine ⟨fun a ha => ?_, pairwise_append.mpr ⟨hl.sorted, hk.sorted, hsep⟩⟩
    rcases mem_append.mp ha with ha | ha
    · exact hl.proper a ha
    · exact hk.proper a ha

theorem Laid.cut (h : S.Laid l) (hse : s ≤ e) : S.Laid (l.flatMap (S.cut s e)) := by
  induction l with
  | nil => exact laid_nil
  | cons a l ih =>
    obtain ⟨ha, hsep, hl⟩ := laid_cons.mp h
    rw [flatMap_cons, laid_append]
    refine ⟨laid_cut_one hse ha, ih hl, fun b hb c hc => ?_⟩
    obtain ⟨d, hd, hc⟩ := mem_flatMap.mp hc
    have h₁ := lo_le_of_mem_cut hb
    have h₂ := lo_le_of_mem_cut hc
    have := hsep d hd
    omega

/-- A piece holds the addresses of its item outside the cut. -/
theorem exists_mem_cut : (∃ b ∈ S.cut s e a, S.Holds b x) ↔ S.Holds a x ∧ ¬(s ≤ x ∧ x < e) := by
  simp only [mem_cut, Holds]
  constructor
  · intro ⟨b, hb, hx⟩
    rcases hb with ⟨hlo, rfl⟩ | ⟨hhi, rfl⟩
    · rw [S.lo_resize, S.hi_resize] at hx
      omega
    · rw [S.lo_resize, S.hi_resize] at hx
      omega
  · intro ⟨hx, hout⟩
    rcases Nat.lt_or_ge x s with hlt | hge
    · refine ⟨_, .inl ⟨by omega, rfl⟩, ?_⟩
      rw [S.lo_resize, S.hi_resize]
      omega
    · refine ⟨_, .inr ⟨by omega, rfl⟩, ?_⟩
      rw [S.lo_resize, S.hi_resize]
      omega

/-- What is left holds the addresses outside the cut. -/
theorem exists_holds_cut : (∃ b ∈ l.flatMap (S.cut s e), S.Holds b x) ↔ (∃ a ∈ l, S.Holds a x) ∧ ¬(s ≤ x ∧ x < e) := by
  constructor
  · intro ⟨b, hb, hx⟩
    obtain ⟨a, ha, hb⟩ := mem_flatMap.mp hb
    obtain ⟨hax, hout⟩ := exists_mem_cut.mp ⟨b, hb, hx⟩
    exact ⟨⟨a, ha, hax⟩, hout⟩
  · intro ⟨⟨a, ha, hax⟩, hout⟩
    obtain ⟨b, hb, hx⟩ := exists_mem_cut.mpr ⟨hax, hout⟩
    exact ⟨b, mem_flatMap.mpr ⟨a, ha, hb⟩, hx⟩

theorem tag_of_mem_cut (h : b ∈ S.cut s e a) : S.tag b = S.tag a := by
  rcases mem_cut.mp h with ⟨_, rfl⟩ | ⟨_, rfl⟩
  · exact S.tag_resize ..
  · exact S.tag_resize ..

/-- The cut takes its addresses away and changes nothing else. -/
theorem Laid.tagAt_cut (h : S.Laid l) (hse : s ≤ e) (x : Nat) :
    S.tagAt (l.flatMap (S.cut s e)) x = if s ≤ x ∧ x < e then none else S.tagAt l x := by
  have hcut := h.cut hse (s := s) (e := e)
  ext t
  rw [hcut.tagAt_eq_some, Option.ite_none_left_eq_some, h.tagAt_eq_some]
  constructor
  · intro ⟨b, hb, hx, ht⟩
    obtain ⟨a, ha, hb⟩ := mem_flatMap.mp hb
    obtain ⟨hax, hout⟩ := exists_mem_cut.mp ⟨b, hb, hx⟩
    exact ⟨hout, a, ha, hax, tag_of_mem_cut hb ▸ ht⟩
  · intro ⟨hout, a, ha, hax, ht⟩
    obtain ⟨b, hb, hx⟩ := exists_mem_cut.mpr ⟨hax, hout⟩
    exact ⟨b, mem_flatMap.mpr ⟨a, ha, hb⟩, hx, (tag_of_mem_cut hb).trans ht⟩

/-! ### Inserting -/

/-- An item goes before the first that begins after it. -/
theorem Laid.insert (h : S.Laid l) (ha : S.lo a < S.hi a) (hfree : ∀ b ∈ l, S.hi a ≤ S.lo b ∨ S.hi b ≤ S.lo a) :
    S.Laid (l.insertIdx (l.findIdx fun b => S.lo a < S.lo b) a) := by
  induction l with
  | nil => exact laid_cons.mpr ⟨ha, fun b hb => absurd hb not_mem_nil, laid_nil⟩
  | cons c l ih =>
    obtain ⟨hc, hsep, hl⟩ := laid_cons.mp h
    have hcfree := hfree c (mem_cons_self ..)
    by_cases hlt : S.lo a < S.lo c
    · have hidx : (c :: l).findIdx (fun b => S.lo a < S.lo b) = 0 := by
        rw [findIdx_cons, decide_eq_true hlt]
        rfl
      rw [hidx, insertIdx_zero]
      refine laid_cons.mpr ⟨ha, fun b hb => ?_, h⟩
      rcases mem_cons.mp hb with rfl | hb
      · omega
      · have := hsep b hb
        omega
    · have hidx : (c :: l).findIdx (fun b => S.lo a < S.lo b) = l.findIdx (fun b => S.lo a < S.lo b) + 1 := by
        rw [findIdx_cons, decide_eq_false hlt]
        rfl
      rw [hidx, insertIdx_succ_cons]
      refine laid_cons.mpr ⟨hc, fun b hb => ?_, ih hl fun b hb => hfree b (mem_cons_of_mem c hb)⟩
      rcases (mem_insertIdx (findIdx_le_length)).mp hb with rfl | hb
      · omega
      · exact hsep b hb

/-! ### Measuring -/

/-- How much of `[p, q)` is in an item. -/
def overlap (S : Spans α τ) (p q : Nat) (a : α) : Nat := min q (S.hi a) - max p (S.lo a)

/-- How much of `[p, q)` is in the items together. -/
def measure (S : Spans α τ) (p q : Nat) (l : List α) : Nat := (l.map (S.overlap p q)).sum

/-- The addresses of `[p, q)` that are in some item. -/
def within (S : Spans α τ) (p q : Nat) (l : List α) : Finset Nat :=
  (Finset.Ico p q).filter fun x => ∃ a ∈ l, S.Holds a x

variable {p q : Nat}

theorem measure_cons : S.measure p q (a :: l) = S.overlap p q a + S.measure p q l := by
  rw [measure, map_cons, sum_cons]
  rfl

theorem mem_within : x ∈ S.within p q l ↔ (p ≤ x ∧ x < q) ∧ ∃ a ∈ l, S.Holds a x := by
  rw [within, Finset.mem_filter, Finset.mem_Ico]

/-- The items are disjoint, so that adding up counts no address twice. -/
theorem Laid.measure_eq_card (h : S.Laid l) : S.measure p q l = (S.within p q l).card := by
  induction l with
  | nil => simp [measure, within]
  | cons a l ih =>
    obtain ⟨_, hsep, hl⟩ := laid_cons.mp h
    have hsplit : S.within p q (a :: l) = Finset.Ico (max p (S.lo a)) (min q (S.hi a)) ∪ S.within p q l := by
      ext x
      simp only [mem_within, Finset.mem_union, Finset.mem_Ico, exists_mem_cons_iff, Holds]
      constructor
      · intro ⟨hx, hor⟩
        rcases hor with ha | hrest
        · exact .inl (by omega)
        · exact .inr ⟨hx, hrest⟩
      · intro hor
        rcases hor with ha | ⟨hx, hrest⟩
        · exact ⟨by omega, .inl (by omega)⟩
        · exact ⟨hx, .inr hrest⟩
    have hdisj : Disjoint (Finset.Ico (max p (S.lo a)) (min q (S.hi a))) (S.within p q l) := by
      rw [Finset.disjoint_left]
      intro x hx hx'
      obtain ⟨_, b, hb, hbx⟩ := mem_within.mp hx'
      have := hsep b hb
      unfold Holds at hbx
      rw [Finset.mem_Ico] at hx
      omega
    rw [measure_cons, ih hl, hsplit, Finset.card_union_of_disjoint hdisj, Nat.card_Ico, overlap]

theorem Laid.measure_le (h : S.Laid l) : S.measure p q l ≤ q - p := by
  rw [h.measure_eq_card, ← Nat.card_Ico]
  exact Finset.card_filter_le ..

/-- The measure is full where every address is in an item. -/
theorem Laid.measure_eq_iff (h : S.Laid l) :
    S.measure p q l = q - p ↔ ∀ x, p ≤ x → x < q → ∃ a ∈ l, S.Holds a x := by
  rw [h.measure_eq_card, ← Nat.card_Ico, within, Finset.card_filter_eq_iff]
  simp only [Finset.mem_Ico, and_imp]

end Spans
end ChaosKernel.Base
