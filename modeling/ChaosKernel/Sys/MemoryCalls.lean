import ChaosKernel.Sys.Machine

/-! System calls on the address space.

`SYS_MMAP` chooses an address and `SYS_MUNMAP` counts pages; neither touches the
regions of a task. The break of a task is its `vm_token`. -/
namespace ChaosKernel.Sys
open Base Memory Proc Call Option

/-- `len` rounded up to pages. -/
def pageUp (len : Nat) : Nat := pageAddr (len + pageSz - 1)

theorem alignUp?_eq_some {len n : Nat} : alignUp? len = some n ↔ len + pageSz < wordSize ∧ n = pageUp len := by
  unfold alignUp? add? pageUp
  split
  · next h =>
    simp only [map_some, some.injEq, h, true_and]
    exact eq_comm
  · next h => simp only [map_none, h, false_and, reduceCtorEq]

theorem pageUp_mod (len : Nat) : pageUp len % pageSz = 0 := by
  simp only [pageUp, pageAddr, pageSz]
  omega

theorem le_pageUp (len : Nat) : len ≤ pageUp len := by
  simp only [pageUp, pageAddr, pageSz]
  omega

theorem pageUp_lt (len : Nat) : pageUp len < len + pageSz := by
  simp only [pageUp, pageAddr, pageSz]
  omega

/-! ### Mappings -/

def mapAnonymous : Nat := 0x20
def mapFixed : Nat := 0x10

/-- Where addresses that the caller does not fix begin. -/
def mmapBase : Nat := 0x70000000

/-- The address of a mapping that the caller does not fix, from the clock and the descriptor. -/
def mmapSlot? (clk fd alignedLen : Nat) : Option Nat := do
  let ticks ← mul? clk 4096
  let pages ← mul? fd pageSz
  let seed ← add? ticks pages
  let room ← sub? kernBase mmapBase
  let room ← sub? room alignedLen
  let slot ← rem? seed room
  let addr ← add? mmapBase slot
  pure (pageAddr addr)

theorem mmapBase_le : mmapBase ≤ kernBase := by
  simp only [kernBase, mmapBase]
  decide

theorem kernBase_lt : kernBase + pageSz < wordSize := by
  simp only [kernBase, pageSz, wordSize]
  decide

/-- The address of a mapping the caller does not fix, where it can be computed. -/
theorem mmapSlot?_eq_some {clk fd alignedLen a : Nat} : mmapSlot? clk fd alignedLen = some a ↔
    (clk + fd) * pageSz < wordSize ∧ alignedLen < kernBase - mmapBase ∧
      a = pageAddr (mmapBase + (clk + fd) * pageSz % (kernBase - mmapBase - alignedLen)) := by
  have hsplit : (clk + fd) * pageSz = clk * 4096 + fd * pageSz := Nat.add_mul clk fd pageSz
  have hbase := mmapBase_le
  have hkern := kernBase_lt
  simp only [mmapSlot?, mul?, add?, sub?, rem?, bind_eq_bind, bind_eq_some_iff,
    ite_none_right_eq_some, ite_none_left_eq_some, some.injEq, Option.pure_def]
  rw [hsplit]
  constructor
  · intro h
    obtain ⟨_, ⟨_, rfl⟩, _, ⟨_, rfl⟩, _, ⟨hseed, rfl⟩, _, ⟨_, rfl⟩, _, ⟨hroom, rfl⟩, _, ⟨hpos, rfl⟩, _, ⟨_, rfl⟩, rfl⟩ := h
    exact ⟨hseed, by omega, rfl⟩
  · intro h
    obtain ⟨hseed, hroom, rfl⟩ := h
    have hpos : 0 < kernBase - mmapBase - alignedLen := Nat.sub_pos_of_lt hroom
    have hslot := Nat.mod_lt (clk * 4096 + fd * pageSz) hpos
    exact ⟨_, ⟨lt_of_le_of_lt (Nat.le_add_right _ _) hseed, rfl⟩, _,
      ⟨lt_of_le_of_lt (Nat.le_add_left _ _) hseed, rfl⟩, _, ⟨hseed, rfl⟩, _, ⟨hbase, rfl⟩, _, ⟨hroom.le, rfl⟩, _,
      ⟨hpos.ne', rfl⟩, _, ⟨by omega, rfl⟩, rfl⟩

/-- The caller fixes the address. -/
def FixedAddr (addr flags : Nat) : Prop := addr ≠ 0 ∧ flags &&& mapFixed ≠ 0

/-- The caller's address is taken as it is when it is fixed and not null. -/
def mmapAddr? (clk addr flags fd alignedLen : Nat) : Option Nat :=
  if addr ≠ 0 ∧ flags &&& mapFixed ≠ 0 then some addr else mmapSlot? clk fd alignedLen

def sysMmap (addr len _prot flags fd offset : Nat) : SysM Nat := do
  failIf (len = 0) .einval
  let alignedLen ← own (alignUp? len)
  let m ← get
  let resultAddr ← own (mmapAddr? m.clk addr flags fd alignedLen)
  failIf (m.kernel.pool.freeCount < alignedLen / pageSz) .enomem
  failIf (flags &&& mapAnonymous = 0 ∧ alignedLen < pageAddr offset) .einval
  pure resultAddr

/-- The addresses of `pages` pages from page `i` on, one after the other. -/
def walkPages? (addr : Nat) : Nat → Nat → Option Unit
  | 0, _ => some ()
  | pages + 1, i => (mul? i pageSz).bind fun off => (add? addr off).bind fun _ => walkPages? addr pages (i + 1)

theorem walkPages?_eq_some {addr pages : Nat} (i : Nat) :
    walkPages? addr pages i = some () ↔ ∀ p < pages, addr + (i + p) * pageSz < wordSize := by
  induction pages generalizing i with
  | zero => simp [walkPages?]
  | succ pages ih =>
    simp only [walkPages?, mul?, add?, bind_eq_some_iff, ite_none_right_eq_some, some.injEq, ih]
    constructor
    · intro h p hp
      obtain ⟨_, ⟨_, rfl⟩, _, ⟨hfirst, _⟩, hrest⟩ := h
      cases p with
      | zero => exact hfirst
      | succ p =>
        rw [Nat.add_comm p 1, ← Nat.add_assoc]
        exact hrest p (Nat.lt_of_succ_lt_succ hp)
    · intro h
      have hfirst : addr + i * pageSz < wordSize := h 0 (Nat.succ_pos pages)
      refine ⟨_, ⟨lt_of_le_of_lt (Nat.le_add_left _ _) hfirst, rfl⟩, _, ⟨hfirst, rfl⟩, fun p hp => ?_⟩
      have := h (p + 1) (Nat.succ_lt_succ hp)
      rwa [Nat.add_comm p 1, ← Nat.add_assoc] at this

/-- The pages are counted off and that is all. -/
def sysMunmap (addr len : Nat) : SysM Nat := do
  failIf (addr % pageSz ≠ 0) .einval
  let alignedLen ← own (alignUp? len)
  own (walkPages? addr (alignedLen / pageSz) 0)
  pure 0

/-! ### The break -/

/-- What `SYS_BRK` answers to a null break. -/
def initialBrk : Nat := 0x400000

def allocFrame : SysM Unit := fun m =>
  (.ok (), {m with kernel := {m.kernel with pool := (frameAlloc m.kernel.pool m.clk).2}})

/-- A frame for every page from `oldBrk` on; nothing keeps the numbers of the frames. -/
def growBrk (oldBrk : Nat) : Nat → Nat → SysM Unit
  | 0, _ => pure ()
  | pages + 1, p => do
    let _va ← own ((mul? p pageSz).bind (add? oldBrk))
    allocFrame
    growBrk oldBrk pages (p + 1)

/-- What a break below or above the old one asks of the pool. -/
def moveBrk (oldBrk aligned : Nat) : SysM Unit :=
  if aligned < oldBrk then
    own (walkPages? aligned ((oldBrk - aligned) >>> 12) 0)
  else if oldBrk < aligned then do
    let m ← get
    failIf (m.kernel.pool.freeCount < (aligned - oldBrk) / pageSz) .enomem
    growBrk oldBrk ((aligned - oldBrk) / pageSz) 0
  else pure ()

/-- A null break is not a question about the task. -/
def sysBrk (newBrk : Nat) : SysM Nat :=
  if newBrk = 0 then pure initialBrk
  else do
    failIf (kernBase ≤ newBrk) .enomem
    let aligned ← own (alignUp? newBrk)
    match ← curTask with
    | none => pure aligned
    | some cur => do
      moveBrk cur.2.vmToken aligned
      modifyTasks fun tasks => tasks.modify cur.1 fun task => {task with vmToken := aligned}
      pure aligned

end ChaosKernel.Sys
