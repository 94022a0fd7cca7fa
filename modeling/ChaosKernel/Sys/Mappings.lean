import ChaosKernel.Base.Outcomes
import ChaosKernel.Sys.MemoryCalls

/-! The ranges that `SYS_MMAP` hands out.

An address that the caller does not fix is computed from the clock and the
descriptor; what was handed out before is not looked at. The range lies on pages
below the kernel, and it is new exactly when nothing is held where the clock and the
descriptor point to. An address that the caller fixes is not looked at either
(`ranges_fresh_iff`). -/
namespace ChaosKernel.Sys
open Base Memory Proc Call

/-! ### Runs -/

/-- A machine, with the addresses that were handed out and not unmapped since. -/
structure MapWorld where
  machine : Machine
  held : Nat → Bool

inductive MapStep where
  | tick
  | mmap (addr len prot flags fd offset : Nat)
  | munmap (addr len : Nat)

/-- The bytes of `len` rounded up to pages, from `addr` on. -/
def inRange (addr len x : Nat) : Bool := addr ≤ x ∧ x < addr + pageUp len

def mmaps : System MapWorld MapStep where
  step w
    | .tick => some {w with machine := {w.machine with clk := w.machine.clk + 1}}
    | .mmap addr len prot flags fd offset => settle (sysMmap addr len prot flags fd offset w.machine)
      (fun a m => ⟨m, fun x => w.held x || inRange a len x⟩) fun m => ⟨m, w.held⟩
    | .munmap addr len => settle (sysMunmap addr len w.machine)
      (fun _ m => ⟨m, fun x => w.held x && !inRange addr len x⟩) fun m => ⟨m, w.held⟩

/-- Nothing of the range is held. -/
def MapWorld.Free (w : MapWorld) (addr len : Nat) : Prop := ∀ x, inRange addr len x = true → w.held x = false

/-- A range that is returned lies on pages below the kernel, and if its address was not fixed it is new. -/
def RangeFresh (w : MapWorld) : MapStep → Prop
  | .mmap addr len prot flags fd offset => ∀ a m, sysMmap addr len prot flags fd offset w.machine = (.ok a, m) →
    a % pageSz = 0 ∧ a + pageUp len ≤ kernBase ∧ (¬FixedAddr addr flags → w.Free a len)
  | _ => True

/-- The place that clock and descriptor point to. -/
def slotAddr (clk fd len : Nat) : Nat :=
  mmapBase + (clk + fd) % ((kernBase - mmapBase - pageUp len) / pageSz) * pageSz

/-- A fixed address is one of a page and leaves room below the kernel; where the address is not fixed,
nothing is held at the place that clock and descriptor point to. -/
def PlaceFree (w : MapWorld) : MapStep → Prop
  | .mmap addr len prot flags fd offset => (sysMmap addr len prot flags fd offset).Returns w.machine →
    (FixedAddr addr flags → addr % pageSz = 0 ∧ addr + pageUp len ≤ kernBase) ∧
    (¬FixedAddr addr flags → w.Free (slotAddr w.machine.clk fd len) len)
  | _ => True

/-! ### Addresses -/

theorem kernBase_mod : kernBase % pageSz = 0 := by
  simp only [kernBase]
  decide

theorem mmapSlot?_slotAddr {clk fd len a : Nat} (h : mmapSlot? clk fd (pageUp len) = some a) :
    a = slotAddr clk fd len ∧ a % pageSz = 0 ∧ a + pageUp len ≤ kernBase := by
  obtain ⟨_, hroom, rfl⟩ := mmapSlot?_eq_some.mp h
  have hpage := pageUp_mod len
  have hkern := kernBase_mod
  obtain ⟨pages, hpages⟩ : pageSz ∣ kernBase - mmapBase - pageUp len := by
    apply Nat.dvd_of_mod_eq_zero
    simp only [pageSz, mmapBase] at *
    omega
  have hdiv : (kernBase - mmapBase - pageUp len) / pageSz = pages := by
    rw [hpages, Nat.mul_div_cancel_left _ (by decide)]
  have hslot : (clk + fd) * pageSz % (kernBase - mmapBase - pageUp len) = (clk + fd) % pages * pageSz := by
    rw [hpages, Nat.mul_comm pageSz pages, Nat.mul_mod_mul_right]
  rw [slotAddr, hdiv, hslot]
  have hpos : 0 < pages := by
    simp only [pageSz] at hpages
    omega
  have hlt := Nat.mod_lt (clk + fd) hpos
  simp only [pageAddr, pageSz, mmapBase] at *
  omega

theorem sysMmap_meets (m : Machine) (addr len prot flags fd offset : Nat) :
    (sysMmap addr len prot flags fd offset).Meets m
      (fun a _ => mmapAddr? m.clk addr flags fd (pageUp len) = some a) fun _ => True := by
  rw [sysMmap, meets_failIf_bind]
  refine ⟨fun _ => trivial, fun _ => ?_⟩
  rw [meets_own_bind]
  intro alignedLen haligned
  have hlen := (alignUp?_eq_some.mp haligned).2
  rw [meets_get_bind, meets_own_bind]
  intro a haddr
  rw [hlen] at haddr
  rw [meets_failIf_bind, meets_failIf_bind]
  exact ⟨fun _ => trivial, fun _ => ⟨fun _ => trivial, fun _ => haddr⟩⟩

theorem rangeFresh_iff (w : MapWorld) (a : MapStep) : RangeFresh w a ↔ PlaceFree w a := by
  cases a with
  | tick => exact Iff.rfl
  | munmap addr len => exact Iff.rfl
  | mmap addr len prot flags fd offset =>
    have hplace : ∀ a m, sysMmap addr len prot flags fd offset w.machine = (.ok a, m) →
        (FixedAddr addr flags ∧ a = addr) ∨
        (¬FixedAddr addr flags ∧ a = slotAddr w.machine.clk fd len ∧ a % pageSz = 0 ∧ a + pageUp len ≤ kernBase) := by
      intro a m hok
      have haddr := (sysMmap_meets w.machine addr len prot flags fd offset).ok hok
      unfold mmapAddr? at haddr
      split at haddr
      · next hfixed => exact .inl ⟨hfixed, (Option.some.inj haddr).symm⟩
      · next hfixed => exact .inr ⟨hfixed, mmapSlot?_slotAddr haddr⟩
    constructor
    · intro hfresh hreturns
      obtain ⟨a, m, hok⟩ := hreturns
      obtain ⟨haligned, hbelow, hnew⟩ := hfresh a m hok
      rcases hplace a m hok with ⟨hfixed, rfl⟩ | ⟨hfixed, hslot, _⟩
      · exact ⟨fun _ => ⟨haligned, hbelow⟩, fun hnot => absurd hfixed hnot⟩
      · exact ⟨fun h => absurd h hfixed, fun _ => hslot ▸ hnew hfixed⟩
    · intro hfree a m hok
      obtain ⟨hpage, hnew⟩ := hfree ⟨a, m, hok⟩
      rcases hplace a m hok with ⟨hfixed, rfl⟩ | ⟨hfixed, hslot, haligned, hbelow⟩
      · exact ⟨(hpage hfixed).1, (hpage hfixed).2, fun hnot => absurd hfixed hnot⟩
      · exact ⟨haligned, hbelow, fun _ => hslot ▸ hnew hfixed⟩

/-- **Along every run of mappings, unmappings and ticks, every returned range is on pages below the kernel and
every range whose address is not fixed is new exactly when the fixed addresses are on pages with room below the
kernel and nothing is held where clock and descriptor point to.** -/
theorem ranges_fresh_iff (m : Machine) (steps : List MapStep) :
    mmaps.Asks RangeFresh ⟨m, fun _ => false⟩ steps ↔ mmaps.Asks PlaceFree ⟨m, fun _ => false⟩ steps :=
  System.asks_iff (J := fun _ => True) (fun _ _ _ _ _ => trivial) (fun w a _ => rangeFresh_iff w a) trivial steps

/-- Two calls between two ticks return the same page. -/
theorem page_mapped_twice : ¬mmaps.Asks RangeFresh ⟨Machine.boot 4, fun _ => false⟩
    [.mmap 0 4096 3 mapAnonymous 0 0, .mmap 0 4096 3 mapAnonymous 0 0] := by
  intro h
  have hrun : ((mmaps.run ⟨Machine.boot 4, fun _ => false⟩ [.mmap 0 4096 3 mapAnonymous 0 0]).any fun w =>
      w.held mmapBase = true ∧ (sysMmap 0 4096 3 mapAnonymous 0 0 w.machine).1.toOption = some mmapBase) = true := by
    decide +kernel
  obtain ⟨w, hw, hheld, hmap⟩ := System.exists_of_run_any hrun
  rcases hres : sysMmap 0 4096 3 mapAnonymous 0 0 w.machine with ⟨e | a, m⟩
  · rw [hres] at hmap
    cases hmap
  · rw [hres] at hmap
    cases hmap
    have hfree := (h _ _ w (List.prefix_refl _) hw mmapBase m hres).2.2 (fun hfixed => hfixed.1 rfl) mmapBase (by decide)
    rw [hheld] at hfree
    cases hfree

end ChaosKernel.Sys
