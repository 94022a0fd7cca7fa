import ChaosKernel.Base.Align
import ChaosKernel.Memory.Vm

/-! Parts of a region.

`split_at` cuts a region at an address, and `merge_with` puts two regions together. The
left part of a region that grows down does not grow, and a merge goes on with the file
offset of its left part whatever the right one has. -/
namespace ChaosKernel.Memory.VmRegion
open Base

def vmGrowsdown : Nat := 0x10

/-- A panic where the end overflows. -/
def splitAt (r : VmRegion) (addr : Nat) : Option (Option (VmRegion × VmRegion)) :=
  r.endAddr.map fun e =>
    if addr ≤ r.base ∨ e ≤ addr then none
    else
      let ll := addr - r.base
      let lf := if r.flags &&& vmGrowsdown ≠ 0 then andNot r.flags vmGrowsdown else r.flags
      some ({r with len := ll, flags := lf},
        {r with base := addr, len := r.len - ll, offset := wrappingAdd r.offset ll})

def mergeWith (r other : VmRegion) : Option (Option VmRegion) :=
  r.endAddr.bind fun se =>
    if se ≠ other.base ∨ r.flags ≠ other.flags ∨ r.tag ≠ other.tag then some none
    else (add? r.len other.len).map fun len => some {r with len := len, refCount := max r.refCount other.refCount}

/-- What a region assigns to an address: the flags, the tag and the place in the file. -/
def assigned (r : VmRegion) (x : Nat) : Nat × Nat × Nat := (r.flags, r.tag, wrappingAdd r.offset (x - r.base))

/-- On the addresses of `r` nothing changes. -/
def Agrees (r c : VmRegion) : Prop := ∀ x, r.base ≤ x → x < r.base + r.len → c.assigned x = r.assigned x

def SplitKept (r : VmRegion) (addr : Nat) : Prop :=
  ∃ left right, r.splitAt addr = some (some (left, right)) ∧ left.base = r.base ∧
    left.base + left.len = right.base ∧ right.base + right.len = r.base + r.len ∧ left.Agrees r ∧ right.Agrees r ∧
    left.mergeWith right = some (some r)

variable {r a b c : VmRegion} {addr : Nat}

theorem splitKept_iff (hend : r.base + r.len < wordSize) (hlo : r.base < addr) (hhi : addr < r.base + r.len) :
    r.SplitKept addr ↔ r.flags &&& vmGrowsdown = 0 := by
  have hsplit : r.splitAt addr = _ := congrArg (Option.map _) (add?_of_lt hend)
  rw [Option.map_some, if_neg (by omega)] at hsplit
  rw [SplitKept, hsplit]
  constructor
  · intro h
    obtain ⟨left, right, heq, _, _, _, hleft, _⟩ := h
    cases heq
    have hflags := congrArg Prod.fst (hleft r.base le_rfl (by dsimp only; omega))
    dsimp only [assigned] at hflags
    split at hflags
    · have hclear : (usizeMax ^^^ vmGrowsdown) &&& vmGrowsdown = 0 := by decide
      rw [hflags, andNot, Nat.and_assoc, hclear, Nat.and_zero]
    · next h => exact not_not.mp h
  · intro h
    rw [if_neg (not_not_intro h)]
    have hmerge : add? (addr - r.base) (r.len - (addr - r.base)) = some r.len := by
      rw [add?_of_lt (by omega)]
      exact congrArg some (by omega)
    have hmid : add? r.base (addr - r.base) = some addr := by
      rw [add?_of_lt (by omega)]
      exact congrArg some (by omega)
    refine ⟨_, _, rfl, rfl, Nat.add_sub_of_le hlo.le, ?_, fun x _ _ => rfl, fun x hx _ => ?_, ?_⟩
    · dsimp only
      omega
    · refine congrArg (fun o => (r.flags, r.tag, o)) ?_
      dsimp only [wrappingAdd] at hx ⊢
      rw [Nat.mod_add_mod]
      exact congrArg (· % wordSize) (by omega)
    · simp [mergeWith, endAddr, hmid, hmerge]

theorem agrees_merge_iff (h : a.mergeWith b = some (some c)) :
    a.Agrees c ∧ b.Agrees c ↔ b.len = 0 ∨ b.offset ≡ a.offset + a.len [MOD wordSize] := by
  obtain ⟨se, hse, h⟩ := Option.bind_eq_some_iff.mp h
  split at h
  · cases h
  · next hsame =>
    simp only [not_or, not_not] at hsame
    obtain ⟨hbase, hflags, htag⟩ := hsame
    rw [(add?_eq_some hse).1] at hbase
    obtain ⟨len, _, h⟩ := Option.map_eq_some_iff.mp h
    cases h
    refine (and_iff_right fun _ _ _ => rfl).trans ?_
    constructor
    · intro hagrees
      refine or_iff_not_imp_left.mpr fun hlen => ?_
      have hplace := congrArg (fun p => p.2.2) (hagrees b.base le_rfl (by omega))
      dsimp only [assigned, wrappingAdd] at hplace
      rw [Nat.sub_self, Nat.add_zero, ← hbase, Nat.add_sub_cancel_left] at hplace
      exact hplace.symm
    · intro hoff x hx hlt
      have hmod := hoff.resolve_left (by omega)
      have hsplit : a.offset + (x - a.base) = a.offset + a.len + (x - b.base) := by omega
      dsimp only [assigned, wrappingAdd]
      rw [hflags, htag, hsplit]
      exact congrArg _ (congrArg _ (hmod.symm.add_right _))

/-- **A split changes nothing but the cut exactly where the region does not grow down, and a merge exactly where the
right part is empty or goes on in the file where the left one ends.** -/
theorem parts_kept_iff (r : VmRegion) :
    (∀ addr, r.base + r.len < wordSize → r.base < addr → addr < r.base + r.len →
      (r.SplitKept addr ↔ r.flags &&& vmGrowsdown = 0)) ∧
    ∀ b c : VmRegion, r.mergeWith b = some (some c) →
      (r.Agrees c ∧ b.Agrees c ↔ b.len = 0 ∨ b.offset ≡ r.offset + r.len [MOD wordSize]) :=
  ⟨fun _ hend hlo hhi => splitKept_iff hend hlo hhi, fun _ _ hmerge => agrees_merge_iff hmerge⟩

/-- Two pages of a file are split, and two that follow each other in it are merged. -/
theorem parts_kept_iff_pages : SplitKept ⟨0x1000, 0x2000, 3, 0, 0, 1⟩ 0x2000 ∧
    ∃ c, mergeWith ⟨0x1000, 0x1000, 3, 0, 0, 1⟩ ⟨0x2000, 0x1000, 3, 0x1000, 0, 1⟩ = some (some c) ∧
      Agrees ⟨0x1000, 0x1000, 3, 0, 0, 1⟩ c ∧ Agrees ⟨0x2000, 0x1000, 3, 0x1000, 0, 1⟩ c :=
  ⟨((parts_kept_iff ⟨0x1000, 0x2000, 3, 0, 0, 1⟩).1 0x2000 (by decide) (by decide) (by decide)).mpr rfl,
    _, rfl, ((parts_kept_iff ⟨0x1000, 0x1000, 3, 0, 0, 1⟩).2 _ _ rfl).mpr (.inr rfl)⟩

/-- A stack that grows down, and two pages of one file in the wrong order. -/
theorem parts_changed : ¬SplitKept ⟨0x1000, 0x2000, 0x13, 0, 0, 1⟩ 0x2000 ∧
    ∃ c, mergeWith ⟨0x1000, 0x1000, 3, 0x1000, 0, 1⟩ ⟨0x2000, 0x1000, 3, 0, 0, 1⟩ = some (some c) ∧
      ¬Agrees ⟨0x2000, 0x1000, 3, 0, 0, 1⟩ c := by
  refine ⟨fun h => absurd ((splitKept_iff (by decide) (by decide) (by decide)).mp h) (by decide), _, rfl, fun h => ?_⟩
  exact absurd (h 0x2000 (by decide) (by decide)) (by decide)

end ChaosKernel.Memory.VmRegion
