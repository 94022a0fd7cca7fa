import Mathlib

/-! Blocks of a power of two cells, and tilings by them.

A block `⟨lo, k⟩` covers the `2^k` cells from `lo` on; it need not be aligned. Its
buddy is the block whose start differs in bit `k`, which is always the block right
before or right after it, so two buddies make up a block of twice the size.
`Tiles` says that blocks cover a range with no cell covered twice, and is kept by
splitting and merging (`SameCells`).

Aligned blocks are nested or disjoint. A tiling by aligned blocks in which no two
buddies could still be merged is therefore determined by its range: it consists of
the aligned blocks that fit and whose parent does not (`Merged.mem_iff`). -/
namespace ChaosKernel.Base
open List

@[ext] structure Dyad where
  lo : Nat
  order : Nat
  deriving DecidableEq

/-- Changing bit `k` moves by `2^k`, up or down. -/
theorem xor_two_pow (a k : Nat) :
    (Even (a / 2 ^ k) ∧ a ^^^ 2 ^ k = a + 2 ^ k) ∨
      (Odd (a / 2 ^ k) ∧ 2 ^ k ≤ a ∧ a ^^^ 2 ^ k = a - 2 ^ k) := by
  have hpos : 0 < 2 ^ k := Nat.two_pow_pos k
  have hdiv : (a ^^^ 2 ^ k) / 2 ^ k = (a / 2 ^ k) ^^^ 1 := by
    rw [Nat.xor_div_two_pow, Nat.div_self hpos]
  have hmod : (a ^^^ 2 ^ k) % 2 ^ k = a % 2 ^ k := by
    rw [Nat.xor_mod_two_pow, Nat.mod_self, Nat.xor_zero]
  have hold := Nat.div_add_mod a (2 ^ k)
  have hnew := Nat.div_add_mod (a ^^^ 2 ^ k) (2 ^ k)
  rw [hdiv, hmod] at hnew
  rcases Nat.even_or_odd (a / 2 ^ k) with heven | hodd
  · rw [Nat.xor_one_of_even heven, Nat.mul_add, Nat.mul_one] at hnew
    exact .inl ⟨heven, by omega⟩
  · have hsub := Nat.xor_one_of_odd hodd
    obtain ⟨m, hm⟩ := id hodd
    rw [hsub, hm, Nat.add_sub_cancel] at hnew
    rw [hm, Nat.mul_add, Nat.mul_one] at hold
    exact .inr ⟨hodd, by omega, by omega⟩

namespace Dyad

def Covers (b : Dyad) (x : Nat) : Prop := b.lo ≤ x ∧ x < b.lo + 2 ^ b.order

def cells (b : Dyad) : List Nat := List.range' b.lo (2 ^ b.order)

def buddy (b : Dyad) : Dyad := ⟨b.lo ^^^ 2 ^ b.order, b.order⟩

/-- A block and its buddy together. -/
def parent (b : Dyad) : Dyad := ⟨min b.lo (b.lo ^^^ 2 ^ b.order), b.order + 1⟩

variable {b a : Dyad} {x y lo k : Nat}

theorem mem_cells : x ∈ b.cells ↔ b.Covers x := mem_range'_1

theorem cells_split (lo k : Nat) :
    cells ⟨lo, k + 1⟩ = cells ⟨lo, k⟩ ++ cells ⟨lo + 2 ^ k, k⟩ := by
  show List.range' lo (2 ^ (k + 1)) = List.range' lo (2 ^ k) ++ List.range' (lo + 2 ^ k) (2 ^ k)
  rw [range'_append_1, Nat.pow_succ, Nat.mul_two]

theorem cells_parent (b : Dyad) : b.parent.cells.Perm (b.cells ++ b.buddy.cells) := by
  obtain ⟨lo, k⟩ := b
  simp only [parent, buddy]
  rcases xor_two_pow lo k with ⟨_, hxor⟩ | ⟨_, hle, hxor⟩
  · rw [hxor, min_eq_left (Nat.le_add_right _ _), cells_split]
  · rw [hxor, min_eq_right (Nat.sub_le _ _), cells_split, Nat.sub_add_cancel hle]
    exact perm_append_comm

/-! ### Alignment -/

def Aligned (b : Dyad) : Prop := 2 ^ b.order ∣ b.lo

theorem Aligned.covers_iff (h : b.Aligned) : b.Covers x ↔ x / 2 ^ b.order = b.lo / 2 ^ b.order := by
  obtain ⟨m, hm⟩ := h
  have hpos : 0 < 2 ^ b.order := Nat.two_pow_pos b.order
  rw [Covers, hm, Nat.mul_div_cancel_left m hpos, Nat.div_eq_iff hpos, Nat.mul_comm]
  omega

/-- Aligned blocks that share a cell are nested. -/
theorem Aligned.covers_of_le (ha : a.Aligned) (hb : b.Aligned) (hle : a.order ≤ b.order) (hax : a.Covers x)
    (hbx : b.Covers x) (hay : a.Covers y) : b.Covers y := by
  rw [ha.covers_iff] at hax hay
  rw [hb.covers_iff] at hbx ⊢
  have hpow : 2 ^ b.order = 2 ^ a.order * 2 ^ (b.order - a.order) := by
    rw [← Nat.pow_add, Nat.add_sub_cancel' hle]
  rw [← hbx, hpow, ← Nat.div_div_eq_div_mul, ← Nat.div_div_eq_div_mul, hax, hay]

theorem Aligned.eq_of_covers (ha : a.Aligned) (hb : b.Aligned) (horder : a.order = b.order)
    (hax : a.Covers x) (hbx : b.Covers x) : a = b := by
  rw [ha.covers_iff] at hax
  rw [hb.covers_iff, ← horder] at hbx
  refine Dyad.ext ?_ horder
  rw [← Nat.div_mul_cancel ha, ← hax, hbx]
  exact Nat.div_mul_cancel (by rw [horder]; exact hb)

theorem Aligned.parent (h : b.Aligned) : b.parent.Aligned := by
  obtain ⟨lo, k⟩ := b
  obtain ⟨m, hm⟩ := h
  simp only at hm
  have hpos : 0 < 2 ^ k := Nat.two_pow_pos k
  show 2 ^ (k + 1) ∣ min lo (lo ^^^ 2 ^ k)
  rcases xor_two_pow lo k with ⟨heven, hxor⟩ | ⟨hodd, _, hxor⟩
  · rw [hxor, min_eq_left (Nat.le_add_right _ _)]
    rw [hm, Nat.mul_div_cancel_left m hpos] at heven
    obtain ⟨j, hj⟩ := heven
    exact ⟨j, by rw [hm, hj, Nat.pow_succ]; ring⟩
  · rw [hxor, min_eq_right (Nat.sub_le _ _)]
    rw [hm, Nat.mul_div_cancel_left m hpos] at hodd
    obtain ⟨j, hj⟩ := hodd
    refine ⟨j, ?_⟩
    rw [hm, hj, Nat.pow_succ, Nat.mul_add, Nat.mul_one, Nat.add_sub_cancel]
    ring

/-- The buddy of the lower half of an aligned block is its upper half. -/
theorem buddy_lower (h : 2 ^ (k + 1) ∣ lo) : buddy ⟨lo, k⟩ = ⟨lo + 2 ^ k, k⟩ := by
  obtain ⟨m, hm⟩ := h
  have hpos : 0 < 2 ^ k := Nat.two_pow_pos k
  have hdiv : lo / 2 ^ k = 2 * m := by
    rw [hm, Nat.pow_succ, Nat.mul_assoc, Nat.mul_div_cancel_left _ hpos]
  rcases xor_two_pow lo k with ⟨_, hxor⟩ | ⟨hodd, _⟩
  · exact Dyad.ext hxor rfl
  · rw [hdiv] at hodd
    exact absurd hodd (by simp)

theorem buddy_ne (b : Dyad) : b.buddy ≠ b := by
  intro heq
  have hlo : b.lo ^^^ 2 ^ b.order = b.lo := congrArg lo heq
  have hpos : 0 < 2 ^ b.order := Nat.two_pow_pos b.order
  rcases xor_two_pow b.lo b.order with ⟨_, hxor⟩ | ⟨_, hle, hxor⟩ <;> omega

theorem buddy_buddy (b : Dyad) : b.buddy.buddy = b := by
  refine Dyad.ext ?_ rfl
  show b.lo ^^^ 2 ^ b.order ^^^ 2 ^ b.order = b.lo
  rw [Nat.xor_assoc, Nat.xor_self, Nat.xor_zero]

end Dyad

open Dyad

/-! ### Tilings -/

/-- The same cells, each as often. -/
def SameCells (T T' : List Dyad) : Prop := (T.flatMap cells).Perm (T'.flatMap cells)

namespace SameCells
variable {T T' T'' : List Dyad}

theorem of_perm (h : T.Perm T') : SameCells T T' := h.flatMap_right cells

theorem symm (h : SameCells T T') : SameCells T' T := List.Perm.symm h

theorem trans (h : SameCells T T') (h' : SameCells T' T'') : SameCells T T'' := List.Perm.trans h h'

theorem cons (b : Dyad) (h : SameCells T T') : SameCells (b :: T) (b :: T') := by
  simp only [SameCells, flatMap_cons]
  exact List.Perm.append_left b.cells h

theorem append_right (h : SameCells T T') (X : List Dyad) : SameCells (T ++ X) (T' ++ X) := by
  simp only [SameCells, flatMap_append]
  exact List.Perm.append_right _ h

theorem split (lo k : Nat) (T : List Dyad) :
    SameCells (⟨lo, k + 1⟩ :: T) (⟨lo, k⟩ :: ⟨lo + 2 ^ k, k⟩ :: T) := by
  simp only [SameCells, flatMap_cons, cells_split, append_assoc]
  exact .refl _

theorem merge (b : Dyad) (T : List Dyad) : SameCells (b :: b.buddy :: T) (b.parent :: T) := by
  simp only [SameCells, flatMap_cons, ← append_assoc]
  exact (cells_parent b).symm.append_right _

end SameCells

/-- The blocks cover `[start, start + len)` and nothing else, and no cell twice. -/
def Tiles (T : List Dyad) (start len : Nat) : Prop := (T.flatMap cells).Perm (List.range' start len)

namespace Tiles
variable {T T' : List Dyad} {start len x : Nat}

theorem same (h : Tiles T start len) (hsame : SameCells T T') : Tiles T' start len :=
  List.Perm.trans hsame.symm h

theorem covers (h : Tiles T start len) (x : Nat) :
    (∃ b ∈ T, b.Covers x) ↔ start ≤ x ∧ x < start + len := by
  rw [← mem_range'_1, ← h.mem_iff, mem_flatMap]
  simp only [mem_cells]

theorem disjoint (h : Tiles T start len) : T.Pairwise fun a b => ∀ x, a.Covers x → ¬b.Covers x := by
  have hnodup : (T.flatMap cells).Nodup := h.nodup_iff.mpr nodup_range'
  refine (nodup_flatMap.mp hnodup).2.imp fun hdisj x hax hbx => ?_
  exact hdisj (mem_cells.mpr hax) (mem_cells.mpr hbx)

variable {a b : Dyad}

theorem eq_of_covers (h : Tiles T start len) (ha : a ∈ T) (hb : b ∈ T) (hax : a.Covers x) (hbx : b.Covers x) :
    a = b := by
  by_contra hne
  have hsymm : Std.Symm fun a b : Dyad => ∀ x, a.Covers x → ¬b.Covers x :=
    ⟨fun _ _ hab y hb ha => hab y ha hb⟩
  exact h.disjoint.forall ha hb hne x hax hbx

theorem sum (h : Tiles T start len) : (T.map fun b => 2 ^ b.order).sum = len := by
  have hlen := h.length_eq
  rw [length_flatMap, length_range'] at hlen
  simpa only [cells, length_range'] using hlen

theorem inside (h : Tiles T start len) (hb : b ∈ T) : start ≤ b.lo ∧ b.lo + 2 ^ b.order ≤ start + len := by
  have hpos : 0 < 2 ^ b.order := Nat.two_pow_pos b.order
  have hfirst := (h.covers b.lo).mp ⟨b, hb, le_rfl, by omega⟩
  have hlast := (h.covers (b.lo + 2 ^ b.order - 1)).mp ⟨b, hb, by omega, by omega⟩
  omega

/-- One more block right after the range. -/
theorem snoc (h : Tiles T start len) (k : Nat) : Tiles (⟨start + len, k⟩ :: T) start (len + 2 ^ k) := by
  rw [Tiles, flatMap_cons, ← range'_append_1]
  exact perm_append_comm.trans (List.Perm.append_right _ h)

end Tiles

/-! ### The merged tiling -/

/-- Aligned blocks among which no two buddies below order `top` could be merged. -/
structure Tidy (top : Nat) (T : List Dyad) : Prop where
  aligned : ∀ b ∈ T, b.Aligned
  apart : ∀ b ∈ T, b.order < top → b.buddy ∉ T

variable {top : Nat} {T T' : List Dyad}

theorem Tidy.subset (h : Tidy top T) (hsub : ∀ b ∈ T', b ∈ T) : Tidy top T' :=
  ⟨fun b hb => h.aligned b (hsub b hb), fun b hb hlt hbuddy => h.apart b (hsub b hb) hlt (hsub _ hbuddy)⟩

/-- One more aligned block whose buddy is not there. -/
theorem Tidy.cons {b : Dyad} (h : Tidy top T) (haligned : b.Aligned) (hbuddy : b.order < top → b.buddy ∉ T) :
    Tidy top (b :: T) := by
  refine ⟨forall_mem_cons.mpr ⟨haligned, h.aligned⟩, fun c hc hlt hin => ?_⟩
  rcases mem_cons.mp hc with rfl | hcT
  · rcases mem_cons.mp hin with heq | hin
    · exact buddy_ne c heq
    · exact hbuddy hlt hin
  · rcases mem_cons.mp hin with heq | hin
    · have horder : c.order = b.order := by
        rw [← heq]
        rfl
      refine hbuddy (horder ▸ hlt) ?_
      rw [← heq, buddy_buddy]
      exact hcT
    · exact h.apart c hcT hlt hin

/-- A tiling by such blocks, of order at most `top`. -/
structure Merged (top start len : Nat) (T : List Dyad) : Prop where
  tiles : Tiles T start len
  le : ∀ b ∈ T, b.order ≤ top
  tidy : Tidy top T

namespace Merged
variable {top start len lo k : Nat} {T T' : List Dyad}

/-- An aligned block inside the range lies in one block of the tiling. -/
theorem covering (h : Merged top start len T) (hk : k ≤ top) (hlo : 2 ^ k ∣ lo) (hstart : start ≤ lo)
    (hend : lo + 2 ^ k ≤ start + len) : ∃ b ∈ T, k ≤ b.order ∧ b.Covers lo := by
  induction k generalizing lo with
  | zero =>
    obtain ⟨b, hb, hcov⟩ := (h.tiles.covers lo).mpr ⟨hstart, by omega⟩
    exact ⟨b, hb, Nat.zero_le _, hcov⟩
  | succ k ih =>
    have hpos : 0 < 2 ^ k := Nat.two_pow_pos k
    have hhalf : 2 ^ k ∣ lo := (Nat.pow_dvd_pow 2 k.le_succ).trans hlo
    rw [Nat.pow_succ] at hend
    obtain ⟨a, ha, hka, hcova⟩ := ih (by omega) hhalf hstart (by omega)
    obtain ⟨b, hb, hkb, hcovb⟩ := ih (by omega) (hhalf.add (dvd_refl _)) (by omega) (by omega)
    -- Either half lies in a block that covers both, or the halves are two unmerged buddies.
    have hwhole : Aligned ⟨lo, k + 1⟩ := hlo
    have hlow : Covers ⟨lo, k + 1⟩ lo := ⟨le_rfl, by simp only [Nat.pow_succ]; omega⟩
    have hhigh : Covers ⟨lo, k + 1⟩ (lo + 2 ^ k) := ⟨by simp only; omega, by simp only [Nat.pow_succ]; omega⟩
    rcases Nat.lt_or_ge k a.order with hlt | hge
    · exact ⟨a, ha, hlt, hcova⟩
    rcases Nat.lt_or_ge k b.order with hlt | hge'
    · exact ⟨b, hb, hlt, hwhole.covers_of_le (h.tidy.aligned b hb) hlt hhigh hcovb hlow⟩
    have hlower : a = ⟨lo, k⟩ :=
      (h.tidy.aligned a ha).eq_of_covers hhalf (le_antisymm hge hka) hcova ⟨le_rfl, by simp only; omega⟩
    have hupper : b = ⟨lo + 2 ^ k, k⟩ :=
      (h.tidy.aligned b hb).eq_of_covers (hhalf.add (dvd_refl _)) (le_antisymm hge' hkb) hcovb
        ⟨le_rfl, by simp only; omega⟩
    subst hlower hupper
    have := h.tidy.apart _ ha (by simp only; omega)
    rw [buddy_lower hlo] at this
    exact absurd hb this

/-- The blocks of a merged tiling: aligned blocks that fit and whose parent does not. -/
theorem mem_iff (h : Merged top start len T) (b : Dyad) :
    b ∈ T ↔ b.Aligned ∧ b.order ≤ top ∧ (start ≤ b.lo ∧ b.lo + 2 ^ b.order ≤ start + len) ∧
      (b.order < top → ¬(start ≤ b.parent.lo ∧ b.parent.lo + 2 ^ b.parent.order ≤ start + len)) := by
  have hfirst : ∀ c : Dyad, c.Covers c.lo := fun c =>
    ⟨le_rfl, Nat.lt_add_of_pos_right (Nat.two_pow_pos c.order)⟩
  have hparent : b.parent.Covers b.lo := by
    rw [← mem_cells, (cells_parent b).mem_iff, mem_append]
    exact .inl (mem_cells.mpr (hfirst b))
  constructor
  · intro hb
    refine ⟨h.tidy.aligned b hb, h.le b hb, h.tiles.inside hb, fun hlt hin => ?_⟩
    have haligned := (h.tidy.aligned b hb).parent
    obtain ⟨c, hc, hle, hcov⟩ := h.covering (Nat.succ_le_of_lt hlt) haligned hin.1 hin.2
    have hcb := haligned.covers_of_le (h.tidy.aligned c hc) hle (hfirst _) hcov hparent
    have := h.tiles.eq_of_covers hc hb hcb (hfirst b)
    subst this
    exact absurd hle (Nat.not_succ_le_self _)
  · intro hb
    obtain ⟨haligned, hle, hin, hmax⟩ := hb
    obtain ⟨c, hc, hkc, hcov⟩ := h.covering hle haligned hin.1 hin.2
    rcases Nat.lt_or_ge b.order c.order with hlt | hge
    · have hcle := h.le c hc
      have hins := h.tiles.inside hc
      refine absurd ?_ (hmax (by omega))
      have hsub : ∀ x, b.parent.Covers x → c.Covers x := fun x hx =>
        haligned.parent.covers_of_le (h.tidy.aligned c hc) hlt hparent hcov hx
      have hlow := hsub _ (hfirst _)
      have hpos : 0 < 2 ^ b.parent.order := Nat.two_pow_pos _
      have hhigh := hsub (b.parent.lo + 2 ^ b.parent.order - 1) ⟨by omega, by omega⟩
      obtain ⟨hlow, _⟩ := hlow
      obtain ⟨_, hhigh⟩ := hhigh
      omega
    · have : c = b :=
        (h.tidy.aligned c hc).eq_of_covers haligned (le_antisymm hge hkc) hcov (hfirst b)
      exact this ▸ hc

/-- A range has one merged tiling. -/
theorem unique (h : Merged top start len T) (h' : Merged top start len T') (b : Dyad) :
    b ∈ T ↔ b ∈ T' := by
  rw [h.mem_iff, h'.mem_iff]

end Merged
end ChaosKernel.Base
