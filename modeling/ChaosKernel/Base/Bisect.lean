import Mathlib

/-! Bisection.

`bisect probe lo hi` looks for an index with `probe i = .eq` among `lo ≤ i < hi`.
A probe says on which side of its index to go on: `.lt` below it, `.gt` above.
Where the probes point to each other (`Pointing`), a search that comes back with
nothing has missed nothing. -/
namespace ChaosKernel.Base

def bisect (probe : Nat → Ordering) (lo hi : Nat) : Option Nat :=
  if lo < hi then
    let mid := lo + (hi - lo) / 2
    match probe mid with
    | .lt => bisect probe lo mid
    | .gt => bisect probe (mid + 1) hi
    | .eq => some mid
  else none
termination_by hi - lo

/-- Above an index that points down all indices point down, and below one that points up all point up. -/
structure Pointing (probe : Nat → Ordering) (n : Nat) : Prop where
  down : ∀ i j, i < j → j < n → probe i = .lt → probe j = .lt
  up : ∀ i j, i < j → j < n → probe j = .gt → probe i = .gt

variable {probe : Nat → Ordering} {lo hi n i : Nat}

theorem bisect_some (h : bisect probe lo hi = some i) : lo ≤ i ∧ i < hi ∧ probe i = .eq := by
  induction lo, hi using bisect.induct probe with
  | case1 lo hi hlt mid hprobe ih =>
    rw [bisect, if_pos hlt] at h
    simp only [mid, hprobe] at h
    obtain ⟨hle, hi', heq⟩ := ih h
    exact ⟨hle, by omega, heq⟩
  | case2 lo hi hlt mid hprobe ih =>
    rw [bisect, if_pos hlt] at h
    simp only [mid, hprobe] at h
    obtain ⟨hle, hi', heq⟩ := ih h
    exact ⟨by omega, hi', heq⟩
  | case3 lo hi hlt mid hprobe =>
    rw [bisect, if_pos hlt] at h
    simp only [mid, hprobe, Option.some.injEq] at h
    subst h
    exact ⟨by omega, by omega, hprobe⟩
  | case4 lo hi hge =>
    rw [bisect, if_neg hge] at h
    cases h

theorem bisect_none (hpoint : Pointing probe n) (hn : hi ≤ n) (h : bisect probe lo hi = none) (hlo : lo ≤ i)
    (hi' : i < hi) : probe i ≠ .eq := by
  induction lo, hi using bisect.induct probe with
  | case1 lo hi hlt mid hprobe ih =>
    rw [bisect, if_pos hlt] at h
    simp only [mid, hprobe] at h
    rcases Nat.lt_trichotomy i mid with hbelow | heq | habove
    · exact ih (by omega) h hlo hbelow
    · rw [heq, hprobe]
      exact nofun
    · rw [hpoint.down mid i habove (by omega) hprobe]
      exact nofun
  | case2 lo hi hlt mid hprobe ih =>
    rw [bisect, if_pos hlt] at h
    simp only [mid, hprobe] at h
    rcases Nat.lt_trichotomy i mid with hbelow | heq | habove
    · rw [hpoint.up i mid hbelow (by omega) hprobe]
      exact nofun
    · rw [heq, hprobe]
      exact nofun
    · exact ih hn h habove hi'
  | case3 lo hi hlt mid hprobe =>
    rw [bisect, if_pos hlt] at h
    simp only [mid, hprobe] at h
    cases h
  | case4 lo hi hge => omega

end ChaosKernel.Base
