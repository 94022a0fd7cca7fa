import ChaosKernel.Base.Align
import ChaosKernel.Base.Run
import ChaosKernel.Base.Words

/-! Memory sets.

A `MemorySet` keeps its areas in a vector ordered by address, and changes a page
table through the handler of each area. Here the handlers and what they act on are
parameters: `MemoryHandler H σ` has the two operations that `push`, `pop` and
`pop_with_split` call, on a state `σ` that has the page table in it. An operation
ends early by a panic, or because a handler asks the page table or the frame
allocator for something they do not allow. -/
namespace ChaosKernel.RcoreMemory
open Base

/-- `PAGE_SIZE`, `1 << 12`. -/
def pageSize : Nat := 4096

/-- How an operation ends without a result. -/
inductive Crash where
  /-- An overflow, a failed assertion or a failed `expect`. -/
  | panic
  /-- The page table or the frame allocator is used in a way they do not allow. -/
  | misuse
  /-- It never returns. -/
  | hang
  deriving DecidableEq, Repr

def orPanic {α : Type} : Option α → Except Crash α
  | some a => .ok a
  | none => .error .panic

def check (p : Prop) [Decidable p] : Except Crash Unit := if p then .ok () else .error .panic

structure MemoryAttr where
  user : Bool
  readonly : Bool
  execute : Bool
  mmio : UInt8
  deriving DecidableEq, Repr

def MemoryAttr.default : MemoryAttr := ⟨false, false, false, 0⟩

structure MemoryArea (H : Type) where
  startAddr : Nat
  endAddr : Nat
  attr : MemoryAttr
  handler : H
  name : String
  deriving DecidableEq, Repr

/-- The handlers of type `H`, by what they do to a page of the state. -/
structure MemoryHandler (H σ : Type) where
  map : H → Nat → MemoryAttr → σ → Except Crash σ
  unmap : H → Nat → σ → Except Crash σ

/-- The addresses of the pages that `Page::range_of` iterates over. -/
def rangeOf (start last : Nat) : Option (List Nat) := do
  let last ← sub? last 1
  pure ((List.range' (start / pageSize) (last / pageSize + 1 - start / pageSize)).map (· * pageSize))

section Areas
variable {H σ : Type} (M : MemoryHandler H σ)

namespace MemoryArea

def contains (area : MemoryArea H) (addr : Nat) : Prop := area.startAddr ≤ addr ∧ addr < area.endAddr

instance (area : MemoryArea H) (addr : Nat) : Decidable (area.contains addr) := inferInstanceAs (Decidable (_ ∧ _))

/-- `is_overlap_with`, which compares pages. -/
def isOverlapWith (area : MemoryArea H) (startAddr endAddr : Nat) : Option Bool := do
  let p0 := area.startAddr / pageSize
  let p1 := (← sub? area.endAddr 1) / pageSize + 1
  let p2 := startAddr / pageSize
  let p3 := (← sub? endAddr 1) / pageSize + 1
  pure (!(p1 ≤ p2 || p0 ≥ p3))

def map (area : MemoryArea H) (pt : σ) : Except Crash σ := do
  let pages ← orPanic (rangeOf area.startAddr area.endAddr)
  pages.foldlM (fun pt page => M.map area.handler page area.attr pt) pt

def unmap (area : MemoryArea H) (pt : σ) : Except Crash σ := do
  let pages ← orPanic (rangeOf area.startAddr area.endAddr)
  pages.foldlM (fun pt page => M.unmap area.handler page pt) pt

end MemoryArea

/-- `(addr + PAGE_SIZE - 1) & !(PAGE_SIZE - 1)`. -/
def roundUp? (addr : Nat) : Option Nat := do
  let sum ← add? addr pageSize
  pure (andNot (sum - 1) (pageSize - 1))

/-- `test_free_area`: no area overlaps, as far as the search gets. -/
def testFreeArea : List (MemoryArea H) → Nat → Nat → Option Bool
  | [], _, _ => some true
  | area :: rest, startAddr, endAddr => do
    if ← area.isOverlapWith startAddr endAddr then
      some false
    else
      testFreeArea rest startAddr endAddr

/-- The search of `find_free_area`, over the addresses that are left to try. -/
def firstFree (areas : List (MemoryArea H)) (len : Nat) : List Nat → Option Nat
  | [] => none
  | addr :: rest => do
    let addr ← roundUp? addr
    let last ← add? addr len
    if ← testFreeArea areas addr last then
      some addr
    else
      firstFree areas len rest

/-- `find_free_area`. -/
def findFreeArea (areas : List (MemoryArea H)) (addrHint len : Nat) : Option Nat :=
  firstFree areas len (addrHint :: areas.map MemoryArea.endAddr)

structure MemorySet (H σ : Type) where
  areas : List (MemoryArea H)
  pageTable : σ

namespace MemorySet

/-- `push`. -/
def push (vm : MemorySet H σ) (startAddr endAddr : Nat) (attr : MemoryAttr) (handler : H) (name : String) :
    Except Crash (MemorySet H σ) := do
  let startAddr := andNot startAddr (pageSize - 1)
  let endAddr ← orPanic (roundUp? endAddr)
  check (startAddr < endAddr)
  check ((← orPanic (testFreeArea vm.areas startAddr endAddr)) = true)
  let area : MemoryArea H := ⟨startAddr, endAddr, attr, handler, name⟩
  let pt ← area.map M vm.pageTable
  let idx := vm.areas.findIdx fun other => startAddr < other.startAddr
  pure ⟨vm.areas.insertIdx idx area, pt⟩

/-- `pop`. -/
def pop (vm : MemorySet H σ) (startAddr endAddr : Nat) : Except Crash (MemorySet H σ) := do
  check (startAddr ≤ endAddr)
  let i := vm.areas.findIdx fun area => area.startAddr = startAddr ∧ area.endAddr = endAddr
  let area ← orPanic vm.areas[i]?
  let pt ← area.unmap M vm.pageTable
  pure ⟨vm.areas.eraseIdx i, pt⟩

/-- The loop of `pop_with_split`, for at most `fuel` rounds. -/
def splitLoop (startAddr endAddr : Nat) : (fuel i : Nat) → MemorySet H σ → Except Crash (MemorySet H σ)
  | 0, _, _ => .error .hang
  | fuel + 1, i, vm =>
    match vm.areas[i]? with
    | none => .ok vm
    | some area => do
      if ← orPanic (area.isOverlapWith startAddr endAddr) then
        let areas := vm.areas.eraseIdx i
        if startAddr ≤ area.startAddr ∧ area.endAddr ≤ endAddr then
          -- subset
          let pt ← area.unmap M vm.pageTable
          splitLoop startAddr endAddr fuel (wrappingAdd (wrappingSub i 1) 1) ⟨areas, pt⟩
        else if startAddr ≤ area.startAddr ∧ area.startAddr < endAddr then
          -- prefix
          let pt ← ({area with endAddr := endAddr} : MemoryArea H).unmap M vm.pageTable
          let areas := areas.insertIdx i {area with startAddr := endAddr}
          splitLoop startAddr endAddr fuel (wrappingAdd i 1) ⟨areas, pt⟩
        else if area.endAddr ≤ endAddr ∧ startAddr < area.endAddr then
          -- postfix
          let pt ← ({area with startAddr := startAddr} : MemoryArea H).unmap M vm.pageTable
          let areas := areas.insertIdx i {area with endAddr := startAddr}
          splitLoop startAddr endAddr fuel (wrappingAdd i 1) ⟨areas, pt⟩
        else
          -- superset
          let dead : MemoryArea H := {area with startAddr := startAddr, endAddr := endAddr}
          let pt ← dead.unmap M vm.pageTable
          let areas := areas.insertIdx i {area with endAddr := startAddr}
          let areas := areas.insertIdx (i + 1) {area with startAddr := endAddr}
          splitLoop startAddr endAddr fuel (wrappingAdd (i + 1) 1) ⟨areas, pt⟩
      else
        splitLoop startAddr endAddr fuel (wrappingAdd i 1) vm

/-- `pop_with_split`. Each round settles one of the areas there were, so that there are no more rounds
than these and the last look at the end of the vector. -/
def popWithSplit (vm : MemorySet H σ) (startAddr endAddr : Nat) : Except Crash (MemorySet H σ) := do
  check (startAddr ≤ endAddr)
  splitLoop M startAddr endAddr (vm.areas.length + 1) 0 vm

end MemorySet

/-! ### Runs -/

inductive AreaOp (H : Type) where
  | push (startAddr endAddr : Nat) (attr : MemoryAttr) (handler : H) (name : String)
  | pop (startAddr endAddr : Nat)
  | popWithSplit (startAddr endAddr : Nat)

/-- The range an operation names. -/
def AreaOp.range : AreaOp H → Nat × Nat
  | .push s e _ _ _ => (s, e)
  | .pop s e => (s, e)
  | .popWithSplit s e => (s, e)

/-- The operation names words. -/
def AreaOp.Words (op : AreaOp H) : Prop := op.range.1 < wordSize ∧ op.range.2 < wordSize

/-- The operation names a range of whole pages. -/
def AreaOp.Aligned (op : AreaOp H) : Prop := pageSize ∣ op.range.1 ∧ pageSize ∣ op.range.2

def areaStep (vm : MemorySet H σ) : AreaOp H → Option (MemorySet H σ)
  | .push s e attr handler name => (vm.push M s e attr handler name).toOption
  | .pop s e => (vm.pop M s e).toOption
  | .popWithSplit s e => (vm.popWithSplit M s e).toOption

/-- A memory set through its operations. -/
def areaSets : System (MemorySet H σ) (AreaOp H) := ⟨areaStep M⟩

theorem areaSets_step : (areaSets M).step = areaStep M := rfl

end Areas
end ChaosKernel.RcoreMemory
