import ChaosKernel.Base.BitSets
import ChaosKernel.Base.Recency

/-! Capability sets.

A process holds three sets of capabilities: the permitted ones (`bits`), the
effective ones and the ambient ones. `drop_cap` takes a capability out of the first
two and leaves it in the third, and `inherit` masks the first two and copies the
third. `capabilities_iff`: the sets stay well formed, and what was dropped stays
out of reach, exactly when no ambient capability is dropped and none outside the
mask is handed down. -/
namespace ChaosKernel.Proc
open Base

def inheritableMask : BitVec 64 := 0x000000FFFFFFFFFF#64

structure CapSet where
  bits : BitVec 64
  effective : BitVec 64
  ambient : BitVec 64
  deriving DecidableEq, Repr

namespace CapSet

def new : CapSet := ⟨0#64, 0#64, 0#64⟩

def full : CapSet := ⟨~~~0#64, ~~~0#64, 0#64⟩

def grant (c : CapSet) (cap : Nat) : CapSet :=
  if cap < 64 then {c with bits := c.bits ||| bit cap, effective := c.effective ||| bit cap} else c

def dropCap (c : CapSet) (cap : Nat) : CapSet :=
  if cap < 64 then {c with bits := c.bits &&& ~~~bit cap, effective := c.effective &&& ~~~bit cap} else c

/-- The set of a child of a process with the set `parent`. -/
def inherit (parent : CapSet) : CapSet :=
  ⟨parent.bits &&& inheritableMask, parent.effective &&& inheritableMask, parent.ambient⟩

def clearAmbient (c : CapSet) : CapSet := {c with ambient := 0#64}

/-- The set, and whether the capability is permitted. -/
def raiseAmbient (c : CapSet) (cap : Nat) : CapSet × Bool :=
  if 64 ≤ cap then (c, false)
  else if hasBit c.bits cap then ({c with ambient := c.ambient ||| bit cap}, true)
  else (c, false)

end CapSet

/-! ### Histories -/

/-- `inherit` goes on with the child. -/
inductive CapOp where
  | grant (cap : Nat)
  | dropCap (cap : Nat)
  | raiseAmbient (cap : Nat)
  | clearAmbient
  | inherit
  deriving DecidableEq, Repr

namespace CapSet

def step (c : CapSet) : CapOp → CapSet
  | .grant cap => c.grant cap
  | .dropCap cap => c.dropCap cap
  | .raiseAmbient cap => (c.raiseAmbient cap).1
  | .clearAmbient => c.clearAmbient
  | .inherit => c.inherit

/-- The set after the operations `ops`. -/
def after (c : CapSet) (ops : List CapOp) : CapSet := ops.foldl step c

/-- `cap` is in one of the three sets. -/
def Holds (c : CapSet) (cap : Nat) : Prop :=
  c.bits.getLsbD cap = true ∨ c.effective.getLsbD cap = true ∨ c.ambient.getLsbD cap = true

/-- The effective and the ambient capabilities are permitted. -/
structure WellFormed (c : CapSet) : Prop where
  effective : Within c.effective c.bits
  ambient : Within c.ambient c.bits

/-- A child has nothing that its parent does not have in the same set, and nothing outside the mask. -/
structure Inherits (parent child : CapSet) : Prop where
  bits : Within child.bits (parent.bits &&& inheritableMask)
  effective : Within child.effective (parent.effective &&& inheritableMask)
  ambient : Within child.ambient (parent.ambient &&& inheritableMask)

end CapSet

/-- `cap` was dropped, by the process or by one it descends from, and not granted since. -/
def Dropped (ops : List CapOp) (cap : Nat) : Prop :=
  cap < 64 ∧ Since (.dropCap cap) (.grant cap) ops

/-- What holds after the operations `ops` on `start`. -/
structure CapSound (start : CapSet) (ops : List CapOp) : Prop where
  wellFormed : (start.after ops).WellFormed
  inherits : ∀ before, ops = before ++ [.inherit] → (start.after before).Inherits (start.after ops)
  dropped : ∀ cap, Dropped ops cap → ¬(start.after ops).Holds cap

/-- A capability is dropped while it is not ambient, and a set is handed down while its ambient
capabilities are in the mask. -/
def CapSet.Allows (c : CapSet) : CapOp → Prop
  | .dropCap cap => c.ambient.getLsbD cap = false
  | .inherit => Within c.ambient inheritableMask
  | _ => True

namespace CapSet
variable {c : CapSet} {start : CapSet} {ops : List CapOp} {op : CapOp} {cap : Nat}

theorem after_concat : start.after (ops ++ [op]) = (start.after ops).step op := List.foldl_concat ..

/-! ### One operation -/

theorem wellFormed_iff : c.WellFormed ↔ ∀ i, (c.effective.getLsbD i = true → c.bits.getLsbD i = true) ∧
    (c.ambient.getLsbD i = true → c.bits.getLsbD i = true) :=
  ⟨fun h i => ⟨within_iff.mp h.effective i, within_iff.mp h.ambient i⟩,
    fun h => ⟨within_iff.mpr fun i => (h i).1, within_iff.mpr fun i => (h i).2⟩⟩

theorem step_wellFormed (h : c.WellFormed) (hop : c.Allows op) : (c.step op).WellFormed := by
  rw [wellFormed_iff] at h ⊢
  intro i
  obtain ⟨heff, hamb⟩ := h i
  cases op with
  | grant cap =>
    simp only [step, grant]
    split
    · next hlt =>
      simp only [getLsbD_insert hlt]
      exact ⟨fun hi => hi.imp_left heff, fun hi => .inl (hamb hi)⟩
    · exact ⟨heff, hamb⟩
  | dropCap cap =>
    simp only [step, dropCap]
    split
    · next hlt =>
      simp only [getLsbD_remove hlt]
      refine ⟨fun hi => hi.imp_left heff, fun hi => ⟨hamb hi, fun hcap => ?_⟩⟩
      rw [hcap, show c.ambient.getLsbD cap = false from hop] at hi
      cases hi
    · exact ⟨heff, hamb⟩
  | raiseAmbient cap =>
    simp only [step, raiseAmbient]
    split
    · exact ⟨heff, hamb⟩
    · next hlt =>
      split
      · next hbit =>
        simp only [getLsbD_insert (not_le.mp hlt)]
        exact ⟨heff, fun hi => hi.elim hamb fun hcap => hcap ▸ hasBit_iff.mp hbit⟩
      · exact ⟨heff, hamb⟩
  | clearAmbient =>
    refine ⟨heff, fun hi => ?_⟩
    simp only [step, clearAmbient, BitVec.getLsbD_zero, Bool.false_eq_true] at hi
  | inherit =>
    have hmask := within_iff.mp (show Within c.ambient inheritableMask from hop) i
    simp only [step, inherit, BitVec.getLsbD_and, Bool.and_eq_true]
    exact ⟨fun hi => hi.imp_left heff, fun hi => ⟨hamb hi, hmask hi⟩⟩

theorem bits_step {i : Nat} (h : (c.step op).bits.getLsbD i = true) :
    (c.bits.getLsbD i = true ∧ (op = .dropCap i → 64 ≤ i)) ∨ op = .grant i := by
  cases op with
  | grant cap =>
    simp only [step, grant] at h
    split at h
    · next hlt =>
      rw [getLsbD_insert hlt] at h
      exact h.imp (fun h => ⟨h, fun hop => by cases hop⟩) fun h => by rw [h]
    · exact .inl ⟨h, fun hop => by cases hop⟩
  | dropCap cap =>
    simp only [step, dropCap] at h
    split at h
    · next hlt =>
      rw [getLsbD_remove hlt] at h
      exact .inl ⟨h.1, fun hop => absurd (CapOp.dropCap.inj hop).symm h.2⟩
    · next hge => exact .inl ⟨h, fun hop => CapOp.dropCap.inj hop ▸ not_lt.mp hge⟩
  | raiseAmbient cap =>
    simp only [step, raiseAmbient] at h
    refine .inl ⟨?_, fun hop => by cases hop⟩
    split at h
    · exact h
    · split at h <;> exact h
  | clearAmbient => exact .inl ⟨h, fun hop => by cases hop⟩
  | inherit =>
    simp only [step, inherit, BitVec.getLsbD_and, Bool.and_eq_true] at h
    exact .inl ⟨h.1, fun hop => by cases hop⟩

theorem inherits_iff : c.Inherits c.inherit ↔ Within c.ambient inheritableMask := by
  constructor
  · intro h
    rw [within_iff]
    intro i hi
    have := within_iff.mp h.ambient i hi
    rw [BitVec.getLsbD_and, Bool.and_eq_true] at this
    exact this.2
  · intro h
    refine ⟨within_self _, within_self _, within_iff.mpr fun i hi => ?_⟩
    rw [BitVec.getLsbD_and, Bool.and_eq_true]
    exact ⟨hi, within_iff.mp h i hi⟩

/-! ### Whole histories -/

/-- A capability that was dropped is not permitted, whatever happened to the other two sets. -/
theorem not_permitted (hd : Dropped ops cap) : (start.after ops).bits.getLsbD cap = false := by
  obtain ⟨hlt, hd⟩ := hd
  induction ops using List.reverseRecOn with
  | nil => exact absurd hd (since_nil _ _)
  | append_singleton ops op ih =>
    rw [after_concat, Bool.eq_false_iff]
    intro hbit
    rw [since_concat] at hd
    rcases bits_step hbit with ⟨hbit, hdrop⟩ | hgrant
    · rcases hd with hd | ⟨hd, _⟩
      · exact absurd hlt (not_lt.mpr (hdrop hd))
      · rw [ih hd] at hbit
        cases hbit
    · rcases hd with hd | ⟨_, hne⟩
      · rw [hgrant] at hd
        cases hd
      · exact hne hgrant

theorem WellFormed.not_holds (h : c.WellFormed) (hcap : c.bits.getLsbD cap = false) : ¬c.Holds cap := by
  intro hholds
  obtain ⟨heff, hamb⟩ := wellFormed_iff.mp h cap
  rw [hcap] at heff hamb
  rcases hholds with h | h | h
  · rw [hcap] at h
    cases h
  · cases heff h
  · cases hamb h

theorem start_wellFormed (h : start = new ∨ start = full) : start.WellFormed := by
  rcases h with h | h <;> rw [h] <;> constructor <;> decide

/-- **Capability sets stay well formed, and what is dropped stays out of reach, exactly when no ambient
capability is dropped and none outside the mask is handed down.** -/
theorem capabilities_iff (start : CapSet) (h : start = new ∨ start = full) (ops : List CapOp) :
    (∀ done, done <+: ops → CapSound start done) ↔
      ∀ done op, done ++ [op] <+: ops → (start.after done).Allows op := by
  constructor
  · intro hsound done op hpre
    have hs := hsound (done ++ [op]) hpre
    cases op with
    | grant cap => trivial
    | dropCap cap =>
      by_cases hlt : cap < 64
      · rw [CapSet.Allows, Bool.eq_false_iff]
        intro hamb
        refine hs.dropped cap ⟨hlt, since_concat.mpr (.inl rfl)⟩ (.inr (.inr ?_))
        rw [after_concat, step, dropCap, if_pos hlt]
        exact hamb
      · exact BitVec.getLsbD_of_ge _ _ (not_lt.mp hlt)
    | raiseAmbient cap => trivial
    | clearAmbient => trivial
    | inherit =>
      have := hs.inherits done rfl
      rw [after_concat] at this
      exact inherits_iff.mp this
  · intro hallowed done hpre
    have hwf : (start.after done).WellFormed := by
      induction done using List.reverseRecOn with
      | nil => exact start_wellFormed h
      | append_singleton done op ih =>
        rw [after_concat]
        exact step_wellFormed (ih ((List.prefix_append _ _).trans hpre)) (hallowed done op hpre)
    refine ⟨hwf, fun before hbefore => ?_, fun cap hd => hwf.not_holds (not_permitted hd)⟩
    rw [hbefore] at hpre ⊢
    rw [after_concat]
    exact inherits_iff.mpr (hallowed before .inherit hpre)

theorem capabilities_iff_full : (full = new ∨ full = full) ∧
    ((∀ done, done <+: [.dropCap 3, .inherit] → CapSound full done) ↔
      ∀ done op, done ++ [op] <+: [.dropCap 3, .inherit] → (full.after done).Allows op) :=
  ⟨.inr rfl, capabilities_iff full (.inr rfl) _⟩

/-- A capability that was raised before it was dropped is handed down. -/
theorem dropped_inherited :
    ¬∀ done, done <+: [.grant 3, .raiseAmbient 3, .dropCap 3, .inherit] → CapSound new done := by
  intro h
  have hsound := h _ (List.prefix_refl _)
  refine hsound.dropped 3 ⟨by decide, [.grant 3, .raiseAmbient 3], [.inherit], rfl, by decide⟩ (.inr (.inr ?_))
  decide

end CapSet
end ChaosKernel.Proc
