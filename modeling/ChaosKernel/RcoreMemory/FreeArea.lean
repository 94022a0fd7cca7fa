import ChaosKernel.Base.Ordered
import ChaosKernel.RcoreMemory.Removal

/-! Where a new area goes.

`find_free_area` tries the hint, rounded up to a page, and then the end of each area.
The areas are tidy, so the ends come in order, the last of them is always free, and
what the overlap test of the search accepts, `push` accepts too. The search adds the
length to a rounded address and `push` rounds the sum up once more, so it is the
rounded hint that has to leave room below the top of the address space
(`findFreeArea_least`); a hint that has room itself may be rounded into the last
page, and then `push` panics. -/
namespace ChaosKernel.RcoreMemory
open Base List

variable {H σ : Type} {M : MemoryHandler H σ} {areas : List (MemoryArea H)} {len x hint addr : Nat}

/-- No area meets the `len` bytes at `addr`. -/
def FreeAt (areas : List (MemoryArea H)) (len addr : Nat) : Prop :=
  ∀ a ∈ areas, a.endAddr ≤ addr ∨ addr + len ≤ a.startAddr

instance (areas : List (MemoryArea H)) (len addr : Nat) : Decidable (FreeAt areas len addr) :=
  inferInstanceAs (Decidable (∀ a ∈ areas, _))

theorem firstFree_cons (h : Tidy areas) (hlen : 1 ≤ len) (hx : x + pageSize < wordSize)
    (hroom : roundUp pageSize x + len < wordSize) (addrs : List Nat) :
    firstFree areas len (x :: addrs) = if FreeAt areas len (roundUp pageSize x) then some (roundUp pageSize x)
      else firstFree areas len addrs := by
  have htest := testFreeArea_eq h (s := roundUp pageSize x) (e := roundUp pageSize x + len) (by omega)
  rw [firstFree, roundUp?_eq_some.mpr ⟨hx, rfl⟩]
  show (add? (roundUp pageSize x) len >>= _) = _
  rw [add?_of_lt hroom]
  show (testFreeArea areas (roundUp pageSize x) (roundUp pageSize x + len) >>= _) = _
  rw [htest]
  by_cases hfree : FreeAt areas len (roundUp pageSize x)
  · rw [if_pos hfree, show decide (∀ a ∈ areas, _) = true from decide_eq_true hfree]
    rfl
  · rw [if_neg hfree, show decide (∀ a ∈ areas, _) = false from decide_eq_false hfree]
    rfl

theorem firstFree_eq (h : Tidy areas) (hlen : 1 ≤ len) {addrs : List Nat}
    (hroom : ∀ x ∈ addrs, roundUp pageSize x + len + pageSize < wordSize) :
    firstFree areas len addrs = (addrs.map (roundUp pageSize)).find? (FreeAt areas len ·) := by
  induction addrs with
  | nil => rfl
  | cons x addrs ih =>
    have hx := hroom x (mem_cons_self ..)
    have hle : x ≤ roundUp pageSize x := le_roundUp (by decide)
    rw [firstFree_cons h hlen (by omega) (by omega), map_cons, find?_cons]
    by_cases hfree : FreeAt areas len (roundUp pageSize x)
    · rw [if_pos hfree, decide_eq_true hfree]
    · rw [if_neg hfree, decide_eq_false hfree]
      exact ih fun y hy => hroom y (mem_cons_of_mem x hy)

theorem Tidy.ends_sorted (h : Tidy areas) : (areas.map MemoryArea.endAddr).Pairwise (· < ·) := by
  rw [pairwise_map]
  refine h.laid.sorted.imp_of_mem fun {a b} _ hb hab => ?_
  exact lt_of_le_of_lt hab (h.proper hb)

theorem find?_ends (h : Tidy areas) :
    (areas.map MemoryArea.endAddr).find? (FreeAt areas len ·) = some x ↔
      IsLeast {y | (∃ a ∈ areas, a.endAddr = y) ∧ FreeAt areas len y} x := by
  rw [← head?_filter, head?_eq_some_iff_le (h.ends_sorted.filter _)]
  simp only [mem_filter, mem_map, decide_eq_true_eq]
  exact Iff.rfl

theorem exists_free_end (len : Nat) (h : Tidy areas) (hne : areas ≠ []) : ∃ a ∈ areas, FreeAt areas len a.endAddr := by
  have hends : areas.map MemoryArea.endAddr ≠ [] := by simpa using hne
  obtain ⟨hlast, hmax⟩ := (getLast?_eq_some_iff_le h.ends_sorted).mp (getLast?_eq_getLast_of_ne_nil hends)
  obtain ⟨a, ha, heq⟩ := mem_map.mp hlast
  refine ⟨a, ha, fun b hb => .inl ?_⟩
  rw [heq]
  exact hmax _ (List.mem_map_of_mem hb)

theorem roundUp_of_dvd (h : pageSize ∣ x) : roundUp pageSize x = x :=
  le_antisymm ((roundUp_le_iff (by decide) h).mpr le_rfl) (le_roundUp (by decide))

/-- The search tries the rounded hint and then the ends, which are page boundaries. -/
theorem findFreeArea_eq (h : Tidy areas) (hlen : 1 ≤ len)
    (hhint : roundUp pageSize hint + len + pageSize < wordSize)
    (hends : ∀ a ∈ areas, a.endAddr + len + pageSize < wordSize) :
    findFreeArea areas hint len = if FreeAt areas len (roundUp pageSize hint) then some (roundUp pageSize hint)
      else (areas.map MemoryArea.endAddr).find? (FreeAt areas len ·) := by
  have hmap : (areas.map MemoryArea.endAddr).map (roundUp pageSize) = areas.map MemoryArea.endAddr := by
    rw [map_map]
    exact map_congr_left fun a ha => roundUp_of_dvd (h.aligned a ha).2
  rw [findFreeArea, firstFree_eq h hlen, map_cons, hmap, find?_cons]
  · split
    · next hfree => rw [if_pos (of_decide_eq_true hfree)]
    · next hfree => rw [if_neg (of_decide_eq_false hfree)]
  · intro x hx
    rcases mem_cons.mp hx with rfl | hx
    · exact hhint
    · obtain ⟨a, ha, rfl⟩ := mem_map.mp hx
      rw [roundUp_of_dvd (h.aligned a ha).2]
      exact hends a ha

theorem push_of_free {vm : MemorySet H σ} (h : Tidy vm.areas) (hlen : 1 ≤ len) (haddr : pageSize ∣ addr)
    (hroom : addr + len + pageSize < wordSize) (hfree : FreeAt vm.areas len addr) (attr : MemoryAttr)
    (handler : H) (name : String) : vm.push M addr (addr + len) attr handler name = (do
      let area : MemoryArea H := ⟨addr, roundUp pageSize (addr + len), attr, handler, name⟩
      let pt ← area.map M vm.pageTable
      pure ⟨vm.areas.insertIdx (vm.areas.findIdx fun b => addr < b.startAddr) area, pt⟩) := by
  have hle : addr + len ≤ roundUp pageSize (addr + len) := le_roundUp (by decide)
  have hpages : ∀ a ∈ vm.areas, a.endAddr ≤ addr ∨ roundUp pageSize (addr + len) ≤ a.startAddr := fun a ha =>
    (hfree a ha).imp_right (roundUp_le_iff (by decide) (h.aligned a ha).1).mpr
  rw [MemorySet.push, andNot_page (by omega), Nat.div_mul_cancel haddr, roundUp?_eq_some.mpr ⟨hroom, rfl⟩, orPanic_bind,
    testFreeArea_eq h (by omega), decide_eq_true hpages, check, if_pos (by omega)]
  rfl

/-- **Where the search ends.** If the hint, rounded up to a page, and the ends of the areas leave room,
`find_free_area` returns a page boundary behind which the pages of the range are free: the rounded
hint if they are free there, and else the least end of an area at which they are. A push there
comes to map the pages. -/
theorem findFreeArea_least {ops : List (AreaOp H)} {pt : σ} {vm : MemorySet H σ}
    (hops : ∀ op ∈ ops, op.Words ∧ op.Aligned) (hrun : (areaSets M).run ⟨[], pt⟩ ops = some vm) (hint : Nat)
    (hlen : 1 ≤ len)
    (hhint : roundUp pageSize hint + len + pageSize < wordSize)
    (hends : ∀ a ∈ vm.areas, a.endAddr + len + pageSize < wordSize) :
    ∃ addr, findFreeArea vm.areas hint len = some addr ∧ pageSize ∣ addr ∧
      (∀ a ∈ vm.areas, a.endAddr ≤ addr ∨ roundUp pageSize (addr + len) ≤ a.startAddr) ∧
      (FreeAt vm.areas len (roundUp pageSize hint) → addr = roundUp pageSize hint) ∧
      (¬FreeAt vm.areas len (roundUp pageSize hint) →
        IsLeast {y | (∃ a ∈ vm.areas, a.endAddr = y) ∧ FreeAt vm.areas len y} addr) ∧
      ∀ (attr : MemoryAttr) (handler : H) (name : String),
        vm.push M addr (addr + len) attr handler name = (do
          let area : MemoryArea H := ⟨addr, roundUp pageSize (addr + len), attr, handler, name⟩
          let pt ← area.map M vm.pageTable
          pure ⟨vm.areas.insertIdx (vm.areas.findIdx fun b => addr < b.startAddr) area, pt⟩) := by
  have h := tidy_run hops hrun
  have hfind := findFreeArea_eq h hlen hhint hends
  -- What a found place is good for, apart from how it was found.
  have hgood : ∀ addr, pageSize ∣ addr → addr + len + pageSize < wordSize → FreeAt vm.areas len addr →
      (∀ a ∈ vm.areas, a.endAddr ≤ addr ∨ roundUp pageSize (addr + len) ≤ a.startAddr) ∧
      ∀ (attr : MemoryAttr) (handler : H) (name : String), vm.push M addr (addr + len) attr handler name = _ :=
    fun addr haddr hroom hfree =>
      ⟨fun a ha => (hfree a ha).imp_right (roundUp_le_iff (by decide) (h.aligned a ha).1).mpr,
        push_of_free h hlen haddr hroom hfree⟩
  by_cases hfree : FreeAt vm.areas len (roundUp pageSize hint)
  · rw [if_pos hfree] at hfind
    obtain ⟨hpages, hpush⟩ := hgood _ (dvd_roundUp ..) hhint hfree
    exact ⟨_, hfind, dvd_roundUp .., hpages, fun _ => rfl, fun hnot => absurd hfree hnot, hpush⟩
  · have hne : vm.areas ≠ [] := fun hnil => hfree (by
      rw [hnil]
      exact fun _ ha => absurd ha not_mem_nil)
    obtain ⟨b, hb, hbfree⟩ := exists_free_end len h hne
    rw [if_neg hfree] at hfind
    have hsome : ((vm.areas.map MemoryArea.endAddr).find? (FreeAt vm.areas len ·)).isSome := by
      rw [find?_isSome]
      exact ⟨b.endAddr, List.mem_map_of_mem hb, decide_eq_true hbfree⟩
    obtain ⟨addr, haddr⟩ := Option.isSome_iff_exists.mp hsome
    have hleast := (find?_ends h).mp haddr
    obtain ⟨⟨a, ha, hend⟩, hafree⟩ := hleast.1
    obtain ⟨hpages, hpush⟩ := hgood addr (hend ▸ (h.aligned a ha).2) (hend ▸ hends a ha) hafree
    exact ⟨addr, hfind.trans haddr, hend ▸ (h.aligned a ha).2, hpages, fun hfree' => absurd hfree' hfree,
      fun _ => hleast, hpush⟩

theorem findFreeArea_least_behind : ∃ (vm : MemorySet Nat _) (addr : Nat),
    (areaSets recorder).run ⟨[], []⟩ [.push 0x1000 0x3000 .default 7 "heap"] = some vm ∧
    findFreeArea vm.areas 0x1800 0x1000 = some addr ∧ pageSize ∣ addr := by
  have hrun : (((areaSets recorder).run ⟨[], []⟩ [.push 0x1000 0x3000 .default 7 "heap"]).any fun vm =>
      vm.areas = [⟨0x1000, 0x3000, .default, 7, "heap"⟩]) = true := by decide +kernel
  obtain ⟨vm, hrun, hareas⟩ := System.exists_of_run_any hrun
  have hops : ∀ op ∈ [AreaOp.push 0x1000 0x3000 .default 7 "heap"], op.Words ∧ op.Aligned := by
    intro op hop
    rw [mem_singleton.mp hop]
    exact ⟨by unfold AreaOp.Words; decide, by unfold AreaOp.Aligned; decide⟩
  have hends : ∀ a ∈ vm.areas, a.endAddr + 0x1000 + pageSize < wordSize := by
    rw [hareas]
    decide
  obtain ⟨addr, hfind, haddr, _⟩ := findFreeArea_least hops hrun 0x1800 (by decide) (by decide) hends
  exact ⟨vm, addr, hrun, hfind, haddr⟩

/-- A hint that has room for a byte and a page above it is rounded into the last page, where a push
panics. -/
theorem findFreeArea_last_page : 0xFFFFFFFFFFFFEFFE + 1 + pageSize < wordSize ∧
    findFreeArea ([] : List (MemoryArea Nat)) 0xFFFFFFFFFFFFEFFE 1 = some 0xFFFFFFFFFFFFF000 ∧
    ((⟨[], []⟩ : MemorySet Nat _).push recorder 0xFFFFFFFFFFFFF000 (0xFFFFFFFFFFFFF000 + 1) .default 7
      "heap").toOption =
      none := by
  decide +kernel

end ChaosKernel.RcoreMemory
