import ChaosKernel.Base.Align

/-! First fit between blocks.

Blocks are intervals `[b.1, b.2)` in any order. The search asks for the least
multiple of `al` at which `len` numbers fit below a limit without meeting a block.
It jumps to the end of whichever block it meets first, rounded up. No multiple
that it jumps over fits, since all of them meet that block, and no block is met
twice, since the search is past its end; so one round more than there are blocks
is enough (`firstFit_spec`). -/
namespace ChaosKernel.Base
open List
variable (blocks : List (Nat × Nat)) (al len limit : Nat)

/-- The block meets `[a, a + len)`. -/
def Crosses (a : Nat) (b : Nat × Nat) : Prop := b.1 < a + len ∧ a < b.2

instance (a : Nat) (b : Nat × Nat) : Decidable (Crosses len a b) := inferInstanceAs (Decidable (_ ∧ _))

def Fits (a : Nat) : Prop := al ∣ a ∧ a + len ≤ limit ∧ ∀ b ∈ blocks, ¬Crosses len a b

/-- A bounded number of rounds of the search, from a candidate on. -/
def firstFit : Nat → Nat → Option Nat
  | 0, _ => none
  | rounds + 1, cand =>
    if limit < cand + len then none
    else
      match blocks.find? fun b => Crosses len cand b with
      | none => some cand
      | some b => firstFit rounds (roundUp al b.2)

variable {blocks al len limit}
variable {a cand rounds : Nat} {b : Nat × Nat}

/-- From `cand` on, nothing fits before the end of a block that `cand` meets. -/
theorem Fits.past (hal : 0 < al) (hb : b ∈ blocks) (hmeets : Crosses len cand b)
    (hfits : Fits blocks al len limit a) (hle : cand ≤ a) : roundUp al b.2 ≤ a := by
  rw [roundUp_le_iff hal hfits.1]
  by_contra hlt
  have hlo := hmeets.1
  exact hfits.2.2 b hb ⟨by omega, by omega⟩

/-- The blocks that end above a candidate are the ones it may still meet. -/
def ahead (blocks : List (Nat × Nat)) (cand : Nat) : Nat := blocks.countP fun b => cand < b.2

theorem ahead_lt (hal : 0 < al) (hb : b ∈ blocks) (hmeets : Crosses len cand b) :
    ahead blocks (roundUp al b.2) < ahead blocks cand := by
  have hend := hmeets.2
  have hround := le_roundUp (x := b.2) hal
  obtain ⟨pre, post, rfl⟩ := append_of_mem hb
  have hmono (bs : List (Nat × Nat)) : ahead bs (roundUp al b.2) ≤ ahead bs cand := by
    refine countP_mono_left fun c _ hc => ?_
    rw [decide_eq_true_eq] at hc ⊢
    omega
  have hpre := hmono pre
  have hpost := hmono post
  unfold ahead at hpre hpost ⊢
  rw [countP_append, countP_append, countP_cons_of_neg (by simpa using hround),
    countP_cons_of_pos (by simpa using hend)]
  omega

/-- The search returns the least place from its candidate on that fits, if there is one. -/
theorem firstFit_spec (len limit : Nat) (hal : 0 < al) (hcand : al ∣ cand)
    (hrounds : ahead blocks cand < rounds) :
    (∀ a, firstFit blocks al len limit rounds cand = some a ↔
      IsLeast {a | cand ≤ a ∧ Fits blocks al len limit a} a) ∧
    (firstFit blocks al len limit rounds cand = none ↔ ∀ a, cand ≤ a → ¬Fits blocks al len limit a) := by
  induction rounds generalizing cand with
  | zero => exact absurd hrounds (Nat.not_lt_zero _)
  | succ rounds ih =>
    rw [firstFit]
    by_cases hover : limit < cand + len
    · have hnone : ∀ a, cand ≤ a → ¬Fits blocks al len limit a := by
        intro a hle hfits
        have hlimit := hfits.2.1
        omega
      rw [if_pos hover]
      exact ⟨fun a => iff_of_false nofun fun h => hnone a h.1.1 h.1.2, iff_of_true rfl hnone⟩
    · rw [if_neg hover]
      cases hfind : blocks.find? fun b => Crosses len cand b with
      | none =>
        have hfits : Fits blocks al len limit cand :=
          ⟨hcand, by omega, fun b hb => by simpa using find?_eq_none.mp hfind b hb⟩
        have hleast : IsLeast {a | cand ≤ a ∧ Fits blocks al len limit a} cand := ⟨⟨le_rfl, hfits⟩, fun _ h => h.1⟩
        refine ⟨fun a => ?_, iff_of_false nofun fun h => h cand le_rfl hfits⟩
        rw [Option.some.injEq]
        exact ⟨fun h => h ▸ hleast, fun h => hleast.unique h⟩
      | some b =>
        have hb := mem_of_find?_eq_some hfind
        have hmeets : Crosses len cand b := by simpa using find?_some hfind
        obtain ⟨hsome, hnone⟩ := ih (dvd_roundUp al b.2) (by have := ahead_lt hal hb hmeets; omega)
        have hjump : ∀ a, (roundUp al b.2 ≤ a ∧ Fits blocks al len limit a) ↔
            (cand ≤ a ∧ Fits blocks al len limit a) := by
          intro a
          refine and_congr_left fun hfits => ⟨fun hle => ?_, fun hle => hfits.past hal hb hmeets hle⟩
          have hend := hmeets.2
          have hround := le_roundUp (x := b.2) hal
          omega
        refine ⟨fun a => ?_, ?_⟩
        · rw [show {a | cand ≤ a ∧ Fits blocks al len limit a} =
            {a | roundUp al b.2 ≤ a ∧ Fits blocks al len limit a} from Set.ext fun a => (hjump a).symm]
          exact hsome a
        · refine hnone.trans (forall_congr' fun a => ?_)
          rw [← not_and, ← not_and, hjump a]

end ChaosKernel.Base
