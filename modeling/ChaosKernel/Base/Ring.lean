import Mathlib

/-! Ring buffers indexed by running counters.

A ring of capacity `cap` keeps a queue in a list of `cap` cells. `rd` counts what
was ever taken, and the queue lies in the cells after it, going round:
`InRing data cap rd q`. Appending writes the one cell after the queue, which is
none of the queue's, and taking moves `rd` on.

Where a counter finds its cell in some other way, as one that wraps round does,
two places of the queue may share a cell. `InCells` and `NoClash` are about any
map from counters to cells: what an append writes over must be the same value. -/
namespace ChaosKernel.Base
open List
variable {α : Type*}

structure InRing (data : List α) (cap rd : Nat) (q : List α) : Prop where
  length : data.length = cap
  le : q.length ≤ cap
  cells : ∀ i < q.length, data[(rd + 1 + i) % cap]? = q[i]?

namespace InRing
variable {data q : List α} {cap rd a i j : Nat} {v : α}

theorem empty (data : List α) (rd : Nat) : InRing data data.length rd [] :=
  ⟨rfl, Nat.zero_le _, fun _ hi => absurd hi (Nat.not_lt_zero _)⟩

/-- Two cells less than a full round apart are different ones. -/
theorem index_ne (hij : i < j) (hj : j < i + cap) : (a + i) % cap ≠ (a + j) % cap := by
  intro heq
  have hdvd : cap ∣ a + j - (a + i) := (Nat.modEq_iff_dvd' (by omega)).mp heq
  have := Nat.le_of_dvd (by omega) hdvd
  omega

theorem push (h : InRing data cap rd q) (hlt : q.length < cap) (v : α) :
    InRing (data.set ((rd + q.length + 1) % cap) v) cap rd (q ++ [v]) := by
  have hcap : 0 < cap := by omega
  have hnew : rd + 1 + q.length = rd + q.length + 1 := by omega
  refine ⟨by rw [length_set]; exact h.length, by rw [length_append]; simpa using hlt, ?_⟩
  intro i hi
  rw [length_append, length_singleton] at hi
  rw [getElem?_set, ← hnew]
  by_cases hlast : i = q.length
  · subst hlast
    rw [if_pos rfl, if_pos (by rw [h.length]; exact Nat.mod_lt _ hcap), getElem?_concat_length]
  · rw [if_neg (index_ne (by omega) (by omega)).symm, getElem?_append_left (by omega)]
    exact h.cells i (by omega)

theorem pop (h : InRing data cap rd (v :: q)) :
    data[(rd + 1) % cap]? = some v ∧ InRing data cap (rd + 1) q := by
  refine ⟨h.cells 0 (Nat.succ_pos _), h.length, (Nat.le_succ _).trans h.le, fun i hi => ?_⟩
  have hcell := h.cells (i + 1) (Nat.succ_lt_succ hi)
  rw [getElem?_cons_succ] at hcell
  rw [← hcell]
  congr 2
  omega

end InRing

/-! ### Any map from counters to cells -/

section Cells
variable {cell : Nat → Nat} {data q r : List α} {first : Nat} {v : α}

/-- The queue lies in the cells of the counters from `first` on. -/
def InCells (cell : Nat → Nat) (data : List α) (first : Nat) (q : List α) : Prop :=
  ∀ i < q.length, data[cell (first + i)]? = q[i]?

/-- Places of the queue that share a cell hold the same value. -/
def NoClash (cell : Nat → Nat) (first : Nat) (q : List α) : Prop :=
  ∀ i < q.length, ∀ j < q.length, cell (first + i) = cell (first + j) → q[i]? = q[j]?

theorem InCells.noClash (h : InCells cell data first q) : NoClash cell first q := by
  intro i hi j hj hcell
  rw [← h i hi, ← h j hj, hcell]

theorem NoClash.of_append (h : NoClash cell first (q ++ r)) : NoClash cell first q := by
  intro i hi j hj hcell
  have heq := h i (by rw [length_append]; omega) j (by rw [length_append]; omega) hcell
  rwa [getElem?_append_left hi, getElem?_append_left hj] at heq

/-- Whatever the cells hold is a queue. -/
theorem exists_inCells (hcell : ∀ k, cell k < data.length) (first n : Nat) :
    ∃ q, q.length = n ∧ InCells cell data first q := by
  refine ⟨List.ofFn fun i : Fin n => data.get ⟨cell (first + i), hcell _⟩, length_ofFn, fun i hi => ?_⟩
  rw [length_ofFn] at hi
  rw [List.getElem?_ofFn, dif_pos hi, getElem?_eq_getElem (hcell _), get_eq_getElem]

theorem InCells.push (h : InCells cell data first q) (hlt : cell (first + q.length) < data.length)
    (hclash : NoClash cell first (q ++ [v])) :
    InCells cell (data.set (cell (first + q.length)) v) first (q ++ [v]) := by
  have hlast : (q ++ [v])[q.length]? = some v := getElem?_concat_length
  intro i hi
  rw [getElem?_set]
  by_cases hcell : cell (first + q.length) = cell (first + i)
  · rw [if_pos hcell, if_pos hlt, ← hlast]
    exact hclash q.length (by rw [length_append]; simp) i hi hcell
  · have hne : i ≠ q.length := fun heq => hcell (by rw [heq])
    rw [length_append, length_singleton] at hi
    rw [if_neg hcell, getElem?_append_left (by omega)]
    exact h i (by omega)

theorem InCells.pop (h : InCells cell data first (v :: q)) :
    data[cell first]? = some v ∧ InCells cell data (first + 1) q := by
  refine ⟨h 0 (Nat.succ_pos _), fun i hi => ?_⟩
  have hcell := h (i + 1) (Nat.succ_lt_succ hi)
  rw [getElem?_cons_succ] at hcell
  rw [← hcell]
  congr 2
  omega

end Cells
end ChaosKernel.Base
