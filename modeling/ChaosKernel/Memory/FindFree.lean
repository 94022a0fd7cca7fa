import ChaosKernel.Base.FirstFit
import ChaosKernel.Memory.Spaces

/-! Free ranges of an address space.

`find_free` starts at the base for mappings, rounded up, and jumps behind the
first region of the list that it meets. Below the kernel none of its sums
overflows: the kernel's base is a multiple of every alignment up to `2^31`, so
that a candidate, the end of a region rounded up, does not pass it. What is left
is a first fit between blocks, and the number of rounds is enough for it. -/
namespace ChaosKernel.Memory
open Base List

namespace VmMap

/-- The end of the first region that meets `[cand, ce)`. -/
def conflictEnd (cand ce : Nat) : List VmRegion → Except (Stop Errno) (Option Nat)
  | [] => .ok none
  | r :: rest =>
    match r.endAddr with
    | none => .error .panic
    | some re => if r.base < ce ∧ cand < re then .ok (some re) else conflictEnd cand ce rest

/-- The rounds of `find_free`, at most `max_iters` of them. -/
def findFreeLoop (regions : List VmRegion) (len alMask : Nat) : Nat → Nat → Except (Stop Errno) (Option Nat)
  | 0, _ => .ok none
  | iters + 1, cand =>
    if kernBase < wrappingAdd cand len ∨ wrappingAdd cand len < cand then .ok none
    else
      match add? cand len with
      | none => .error .panic
      | some ce =>
        match conflictEnd cand ce regions with
        | .error e => .error e
        | .ok none => .ok (some cand)
        | .ok (some re) =>
          match add? re alMask with
          | none => .error .panic
          | some next => findFreeLoop regions len alMask iters (andNot next alMask)

def findFree (map : VmMap) (len align : Nat) : Except (Stop Errno) (Option Nat) :=
  if len = 0 then .ok (some map.mmapBase)
  else
    let al := if 1 < align then align else pageSz
    let alMask := al - 1
    match add? map.mmapBase alMask with
    | none => .error .panic
    | some cand => findFreeLoop map.regions len alMask (map.regions.length + 2) (andNot cand alMask)

/-! ### Below the kernel -/

/-- A region that has an address and ends at or below the kernel's base. -/
def InUser (region : VmRegion) : Prop := 1 ≤ region.len ∧ region.base + region.len ≤ kernBase

def block (r : VmRegion) : Nat × Nat := (r.base, r.base + r.len)

theorem kernBase_lt : kernBase < wordSize := by
  unfold kernBase
  decide

theorem kernBase_room : kernBase + 2 ^ 31 ≤ wordSize := by
  unfold kernBase
  decide

variable {k x len iters a al align : Nat} {regions : List VmRegion}

theorem two_pow_dvd_kernBase (hk : k ≤ 31) : 2 ^ k ∣ kernBase := by
  have hbase : 2 ^ 31 ∣ kernBase := by
    unfold kernBase
    decide
  exact (Nat.pow_dvd_pow 2 hk).trans hbase

/-- Rounding up a number below the kernel does not overflow and stays below the kernel. -/
theorem align_below (hk : k ≤ 31) (hx : x ≤ kernBase) :
    add? x (2 ^ k - 1) = some (x + (2 ^ k - 1)) ∧
      andNot (x + (2 ^ k - 1)) (2 ^ k - 1) = roundUp (2 ^ k) x ∧ roundUp (2 ^ k) x ≤ kernBase := by
  have hpos : 0 < 2 ^ k := Nat.two_pow_pos k
  have hle : 2 ^ k ≤ 2 ^ 31 := Nat.pow_le_pow_right (by decide) hk
  have hroom := kernBase_room
  have hword : x + (2 ^ k - 1) < wordSize := by omega
  exact ⟨add?_of_lt hword, roundUp_two_pow hword, (roundUp_le_iff hpos (two_pow_dvd_kernBase hk)).mpr hx⟩

theorem conflictEnd_eq (hregions : ∀ r ∈ regions, InUser r) (cand len : Nat) :
    conflictEnd cand (cand + len) regions =
      .ok (((regions.map block).find? fun b => Crosses len cand b).map Prod.snd) := by
  induction regions with
  | nil => rfl
  | cons r rest ih =>
    have hr := hregions r mem_cons_self
    have hend : r.endAddr = some (r.base + r.len) := add?_of_lt (hr.2.trans_lt kernBase_lt)
    rw [conflictEnd, hend, map_cons, find?_cons]
    by_cases hmeets : Crosses len cand (block r)
    · rw [decide_eq_true hmeets]
      exact if_pos hmeets
    · rw [decide_eq_false hmeets]
      exact (if_neg hmeets).trans (ih fun s hs => hregions s (mem_cons_of_mem r hs))

/-- The rounds are those of the first fit. -/
theorem findFreeLoop_eq (hregions : ∀ r ∈ regions, InUser r) (hlen : len < wordSize) (hk : k ≤ 31)
    {cand : Nat} (hcand : cand ≤ kernBase) :
    findFreeLoop regions len (2 ^ k - 1) iters cand =
      .ok (firstFit (regions.map block) (2 ^ k) len kernBase iters cand) := by
  have hbase := kernBase_lt
  induction iters generalizing cand with
  | zero => rfl
  | succ iters ih =>
    rw [findFreeLoop, firstFit]
    by_cases hover : kernBase < cand + len
    · -- The sum passes the kernel's base, or wraps round and is below the candidate.
      rw [if_pos hover, if_pos]
      rw [wrappingAdd]
      by_cases hword : cand + len < wordSize
      · rw [Nat.mod_eq_of_lt hword]
        exact .inl hover
      · rw [Nat.mod_eq_sub_mod (by omega), Nat.mod_eq_of_lt (by omega)]
        exact .inr (by omega)
    · have hsum : wrappingAdd cand len = cand + len := Nat.mod_eq_of_lt (by omega)
      rw [if_neg hover, hsum, if_neg (by omega), add?_of_lt (by omega)]
      simp only [conflictEnd_eq hregions]
      cases hfind : (regions.map block).find? fun b => Crosses len cand b with
      | none => rfl
      | some b =>
        obtain ⟨r, hr, hblock⟩ := mem_map.mp (mem_of_find?_eq_some hfind)
        have hend : b.2 ≤ kernBase := by
          rw [← hblock]
          exact (hregions r hr).2
        obtain ⟨hadd, hround, hbelow⟩ := align_below hk hend
        simp only [Option.map_some, hadd, hround]
        exact ih hbelow

theorem not_meets_iff {r : VmRegion} (hr : InUser r) (hlen : 1 ≤ len) :
    ¬Crosses len a (block r) ↔ ∀ addr, r.Covers addr → ¬(a ≤ addr ∧ addr < a + len) := by
  have hpos := hr.1
  constructor
  · intro hmiss addr hcovers hin
    have h₁ := hcovers.1
    have h₂ := hcovers.2
    exact hmiss ⟨show r.base < a + len by omega, show a < r.base + r.len by omega⟩
  · intro hmiss hmeets
    have h₁ : r.base < a + len := hmeets.1
    have h₂ : a < r.base + r.len := hmeets.2
    exact hmiss (max a r.base) ⟨by omega, by omega⟩ ⟨by omega, by omega⟩

/-! ### First fit -/

/-- What is asked of an address: aligned, from the base for mappings on, below the kernel, and with no
address of a region in the range. -/
structure Usable (map : VmMap) (len al a : Nat) : Prop where
  aligned : al ∣ a
  above : map.mmapBase ≤ a
  below : a + len ≤ kernBase
  free : ∀ r ∈ map.regions, ∀ addr, r.Covers addr → ¬(a ≤ addr ∧ addr < a + len)

theorem usable_iff {map : VmMap} (hregions : ∀ r ∈ map.regions, InUser r) (hal : 0 < al) (hlen : 1 ≤ len) :
    map.Usable len al a ↔
      roundUp al map.mmapBase ≤ a ∧ Fits (map.regions.map block) al len kernBase a := by
  have hfree : (∀ b ∈ map.regions.map block, ¬Crosses len a b) ↔
      ∀ r ∈ map.regions, ∀ addr, r.Covers addr → ¬(a ≤ addr ∧ addr < a + len) := by
    rw [List.forall_mem_map]
    exact forall₂_congr fun r hr => not_meets_iff (hregions r hr) hlen
  constructor
  · intro h
    exact ⟨(roundUp_le_iff hal h.aligned).mpr h.above, h.aligned, h.below, hfree.mpr h.free⟩
  · intro ⟨hle, haligned, hbelow, hmiss⟩
    exact ⟨haligned, (roundUp_le_iff hal haligned).mp hle, hbelow, hfree.mp hmiss⟩

/-- The alignment that is used: `0` and `1` stand for the size of a page. -/
def alignment (align : Nat) : Nat := if 1 < align then align else pageSz

theorem alignment_eq (h : align ≤ 1 ∨ ∃ k ≤ 31, align = 2 ^ k) : ∃ k ≤ 31, alignment align = 2 ^ k := by
  by_cases hlt : 1 < align
  · rcases h with hle | ⟨k, hk, heq⟩
    · omega
    · exact ⟨k, hk, by rw [alignment, if_pos hlt, heq]⟩
  · exact ⟨12, by decide, by rw [alignment, if_neg hlt]; rfl⟩

/-- **`find_free` returns the least usable address, and none exactly where there is none; no sum of it
overflows, and its rounds are enough.** -/
theorem findFree_first_fit (map : VmMap) (hbase : map.mmapBase ≤ kernBase) (hregions : ∀ r ∈ map.regions, InUser r)
    (len align : Nat) (hlen : 1 ≤ len) (hword : len < wordSize) (halign : align ≤ 1 ∨ ∃ k ≤ 31, align = 2 ^ k) :
    ∃ found, map.findFree len align = .ok found ∧
      (∀ a, found = some a ↔ IsLeast {a | map.Usable len (alignment align) a} a) ∧
      (found = none ↔ ∀ a, ¬map.Usable len (alignment align) a) := by
  obtain ⟨k, hk, hal⟩ := alignment_eq halign
  have hpos : 0 < 2 ^ k := Nat.two_pow_pos k
  obtain ⟨hadd, hround, hstart⟩ := align_below hk hbase
  have hrun : map.findFree len align = .ok (firstFit (map.regions.map block) (2 ^ k) len kernBase
      (map.regions.length + 2) (roundUp (2 ^ k) map.mmapBase)) := by
    rw [findFree, if_neg (by omega)]
    simp only [show (if 1 < align then align else pageSz) = 2 ^ k from hal, hadd, hround]
    exact findFreeLoop_eq hregions hword hk hstart
  have hrounds : ahead (map.regions.map block) (roundUp (2 ^ k) map.mmapBase) < map.regions.length + 2 := by
    have hle : ahead (map.regions.map block) (roundUp (2 ^ k) map.mmapBase) ≤ (map.regions.map block).length :=
      countP_le_length
    rw [length_map] at hle
    omega
  obtain ⟨hsome, hnone⟩ := firstFit_spec len kernBase hpos (dvd_roundUp (2 ^ k) map.mmapBase) hrounds
  refine ⟨_, hrun, fun a => ?_, ?_⟩
  · rw [hal, show {a | map.Usable len (2 ^ k) a} = _ from Set.ext fun a => usable_iff hregions hpos hlen]
    exact hsome a
  · rw [hal, hnone]
    refine forall_congr' fun a => ?_
    rw [usable_iff hregions hpos hlen, not_and]

/-- Two regions with a gap of two pages between them. -/
def gapped : VmMap := ⟨[VmRegion.new 0x70000000 0x1000 3, VmRegion.new 0x70003000 0x1000 3], 0x00400000, 0x70000000⟩

/-- Three pages do not fit before the first region, nor between the two. -/
theorem findFree_first_fit_gapped : gapped.findFree 0x3000 0 = .ok (some 0x70004000) ∧
    IsLeast {a | gapped.Usable 0x3000 (alignment 0) a} 0x70004000 := by
  have hregions : ∀ r ∈ gapped.regions, InUser r := by
    unfold InUser kernBase
    decide
  have hfound : gapped.findFree 0x3000 0 = .ok (some 0x70004000) := by decide +kernel
  obtain ⟨found, hrun, hsome, _⟩ := findFree_first_fit gapped (by unfold kernBase; decide) hregions 0x3000 0
    (by decide) (by decide) (.inl (by decide))
  cases hfound.symm.trans hrun
  exact ⟨hfound, (hsome _).mp rfl⟩

/-- A search from the last address stops when it rounds that up. -/
theorem findFree_from_end : (VmMap.mk [] 0x00400000 (2 ^ 64 - 1)).findFree 1 0 = .error .panic := by
  decide +kernel

end VmMap

end ChaosKernel.Memory
