import ChaosKernel.Memory.FindFree
import ChaosKernel.Memory.IntervalMap

/-! Tests of ranges.

`overlaps` takes a region that ends where the first one starts for an overlap, and `insert`
does not. `check_access_rw` and `validate_access` refuse the range that ends at the kernel,
and `check_access` accepts it. Everywhere else the tests agree (`range_tests_iff`). -/
namespace ChaosKernel.Memory
open Base VmRegion

namespace VmRegion

def contains (r : VmRegion) (addr : Nat) : Option Bool :=
  if addr < r.base then some false else r.endAddr.map fun e => decide (addr < e)

def overlaps (r other : VmRegion) : Bool :=
  !decide (wrappingAdd r.base r.len ≤ other.base ∨ wrappingAdd other.base other.len < r.base)

end VmRegion

def kheapSz : Nat := 0x800000

/-- The pages of the range and its alignment are computed, without an overflow, and not used. -/
def checkAccessRw (addr len : Nat) (_writable : Bool) : Bool :=
  if len = 0 then true
  else
    let boundary := wrappingAdd addr len
    if kernBase ≤ boundary ∨ boundary < addr then false else decide (boundary < kernBase)

inductive AccessError where
  | eoverflow | efault | einval
  deriving DecidableEq, Repr

def validateAccess (mode addr len _pid : Nat) : Except AccessError Unit :=
  if len = 0 then .ok ()
  else
    let e := wrappingAdd addr len
    let checked := if checkAccess addr len then .ok () else .error .efault
    if e < addr then .error .eoverflow
    else if kernBase ≤ e then .error .efault
    else
      match mode with
      | 0 | 1 => checked
      | 2 =>
        let span := andNot (e + pageSz - 1) (pageSz - 1) - andNot addr (pageSz - 1)
        if kheapSz < span then .error .efault else checked
      | _ => .error .einval

variable {a b : VmRegion} {map : VmMap} {addr len : Nat}

theorem VmRegion.contains_iff (h : a.Proper) (addr : Nat) : a.contains addr = some true ↔ a.Covers addr := by
  rw [contains, endAddr_proper h, Covers]
  split <;> simp <;> omega

theorem VmRegion.overlaps_iff (ha : a.Proper) (hb : b.Proper) :
    a.overlaps b = true ↔ b.base < a.base + a.len ∧ a.base ≤ b.base + b.len := by
  simp [overlaps, wrappingAdd, Nat.mod_eq_of_lt ha.2, Nat.mod_eq_of_lt hb.2]

theorem VmRegion.meet_iff (ha : a.Proper) (hb : b.Proper) :
    (∃ addr, a.contains addr = some true ∧ b.contains addr = some true) ↔
      a.base < b.base + b.len ∧ b.base < a.base + a.len := by
  rw [← not_iff_not, ← apart_iff ha hb, Apart]
  simp only [contains_iff ha, contains_iff hb, not_exists, not_and]

theorem VmMap.insert_fails_iff (ha : a.Proper) (hb : b.Proper) (hmap : map.regions = [a]) :
    (∃ e, map.insert b = .error e) ↔ ¬b.Apart a := by
  have hkept : map.Kept := by
    refine ⟨?_, ?_, ?_⟩ <;> simp [hmap, ha]
  have hcases := hkept.insert_cases hb
  rw [hmap, List.forall_mem_singleton] at hcases
  rcases hcases with ⟨hapart, map', hok, _⟩ | ⟨hmeet, herr⟩
  · exact iff_of_false (fun ⟨e, he⟩ => by cases hok.symm.trans he) (not_not_intro hapart)
  · exact iff_of_true ⟨_, herr⟩ hmeet

theorem access_iff (haddr : addr < wordSize) (hlen : 1 ≤ len ∧ len < wordSize) :
    (checkAccess addr len = true ↔ addr + len ≤ kernBase) ∧
      (∀ w, checkAccessRw addr len w = true ↔ addr + len < kernBase) ∧
      ∀ mode < 2, ∀ pid, validateAccess mode addr len pid = .ok () ↔ addr + len < kernBase := by
  have hkern := VmMap.kernBase_lt
  have hcheck : checkAccess addr len = true ↔ addr + len ≤ kernBase := by
    rw [checkAccess, decide_eq_true_eq]
    omega
  have hwrap : (kernBase ≤ wrappingAdd addr len ∨ wrappingAdd addr len < addr) ↔ kernBase ≤ addr + len := by
    simp only [wrappingAdd, wordSize] at *
    omega
  refine ⟨hcheck, fun w => ?_, fun mode hmode pid => ?_⟩
  · simp [checkAccessRw, Nat.ne_of_gt hlen.1]
    omega
  · rw [validateAccess, if_neg (by omega)]
    dsimp only
    split
    · next h => exact iff_of_false (by simp) (Nat.not_lt.mpr (hwrap.mp (.inr h)))
    · next hge =>
      split
      · next h => exact iff_of_false (by simp) (Nat.not_lt.mpr (hwrap.mp (.inl h)))
      · next h =>
        have hlt : addr + len < kernBase := Nat.not_le.mp (mt hwrap.mpr (not_or.mpr ⟨h, hge⟩))
        rw [if_pos (hcheck.mpr hlt.le)]
        interval_cases mode <;> exact iff_of_true rfl hlt

/-- **The tests of overlap agree exactly where the regions do not touch, and the tests of access exactly where the
range does not end at the kernel.** -/
theorem range_tests_iff (a b : VmRegion) (map : VmMap) (addr len pid : Nat) (ha : a.Proper) (hb : b.Proper)
    (hmap : map.regions = [a]) (haddr : addr < wordSize) (hlen : 1 ≤ len ∧ len < wordSize) :
    ((a.overlaps b = b.overlaps a ∧
        (a.overlaps b = true ↔ ∃ x, a.contains x = some true ∧ b.contains x = some true) ∧
        (a.overlaps b = true ↔ ∃ e, map.insert b = .error e)) ↔
      a.base + a.len ≠ b.base ∧ b.base + b.len ≠ a.base) ∧
    (((checkAccess addr len = true ↔ addr + len ≤ kernBase) ∧
        (∀ w, checkAccessRw addr len w = true ↔ addr + len ≤ kernBase) ∧
        ∀ mode < 2, validateAccess mode addr len pid = .ok () ↔ addr + len ≤ kernBase) ↔
      addr + len ≠ kernBase) := by
  have hpos := ha.1
  constructor
  · rw [Bool.eq_iff_iff, overlaps_iff ha hb, overlaps_iff hb ha, meet_iff ha hb,
      VmMap.insert_fails_iff ha hb hmap, apart_iff hb ha]
    omega
  · obtain ⟨hcheck, hrw, hvalidate⟩ := access_iff haddr hlen
    constructor
    · intro h
      have hsame := (hrw true).symm.trans (h.2.1 true)
      omega
    · intro h
      have hsame : addr + len < kernBase ↔ addr + len ≤ kernBase := by omega
      exact ⟨hcheck, fun w => (hrw w).trans hsame, fun mode hmode => (hvalidate mode hmode pid).trans hsame⟩

theorem range_tests_iff_apart : overlaps (.new 24 8 3) (.new 8 8 3) = overlaps (.new 8 8 3) (.new 24 8 3) :=
  ((range_tests_iff (.new 24 8 3) (.new 8 8 3) ⟨[.new 24 8 3], 0, 0⟩ 0 1 1 (by decide) (by decide) rfl (by decide)
    (by decide)).1.mpr (by decide)).1

end ChaosKernel.Memory
