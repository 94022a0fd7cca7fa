import ChaosKernel.Consts

/-! Regions of virtual memory and counted page frames.

A `VmMap` keeps the regions of one address space in a vector, inserts at the
place the base addresses give, and searches by bisection. Ends of regions are
computed with overflow checks, so a region that reaches past the last word makes
the calls that look at it panic. -/
namespace ChaosKernel.Memory
open Base

/-- A frame with the count its holder keeps of the frame's users. -/
structure PgFrame where
  frameId : Nat
  rc : Nat
  deriving DecidableEq, Repr

namespace PgFrame

def withRc (frameId n : Nat) : PgFrame := ⟨frameId, n⟩

def up (frame : PgFrame) : PgFrame := {frame with rc := frame.rc + 1}

/-- `prev - 1` panics on a count of zero. -/
def down (frame : PgFrame) : Option PgFrame :=
  if frame.rc = 0 then none else some {frame with rc := frame.rc - 1}

end PgFrame

structure VmRegion where
  base : Nat
  len : Nat
  flags : Nat
  offset : Nat
  tag : Nat
  refCount : Nat
  deriving DecidableEq, Repr

namespace VmRegion

def new (base len flags : Nat) : VmRegion := ⟨base, len, flags, 0, 0, 1⟩

def refUp (region : VmRegion) : VmRegion := {region with refCount := region.refCount + 1}

/-- `base + len`, which may overflow. -/
def endAddr (region : VmRegion) : Option Nat := add? region.base region.len

def readable (region : VmRegion) : Bool := region.flags &&& vmRead != 0

def writable (region : VmRegion) : Bool := region.flags &&& vmWrite != 0

end VmRegion

structure VmMap where
  regions : List VmRegion
  brk : Nat
  mmapBase : Nat
  deriving DecidableEq, Repr

namespace VmMap

def new : VmMap := ⟨[], 0x00400000, 0x70000000⟩

/-- The loop of `insert`: it passes the regions that start at or below the new one, fails on
one that overlaps it, and puts it where it stops. -/
def insertLoop (region : VmRegion) : List VmRegion → Except (Stop Errno) (List VmRegion)
  | [] => .ok [region]
  | r :: rest =>
    match r.endAddr with
    | none => .error .panic
    | some ee =>
      if region.base < ee ∧ r.base < wrappingAdd region.base region.len then
        .error (.err .overlap)
      else if region.base < r.base then .ok (region :: r :: rest)
      else (insertLoop region rest).map fun rest => r :: rest

def insert (map : VmMap) (region : VmRegion) : Except (Stop Errno) VmMap :=
  (insertLoop region map.regions).map fun regions => {map with regions := regions}

/-- The loop of `find` on the indices `lo ≤ i < hi`. Each round halves them, so a fuel of
`hi - lo` lasts. -/
def findLoop (regions : List VmRegion) (addr : Nat) :
    Nat → Nat → Nat → Except (Stop Errno) (Option VmRegion)
  | 0, _, _ => .ok none
  | fuel + 1, lo, hi =>
    if lo < hi then
      let mid := lo + (hi - lo) / 2
      match regions[mid]? with
      | none => .error .panic
      | some r =>
        if addr < r.base then findLoop regions addr fuel lo mid
        else
          match r.endAddr with
          | none => .error .panic
          | some ee =>
            if ee ≤ addr then findLoop regions addr fuel (mid + 1) hi else .ok (some r)
    else .ok none

def find (map : VmMap) (addr : Nat) : Except (Stop Errno) (Option VmRegion) :=
  findLoop map.regions addr map.regions.length 0 map.regions.length

/-- The loop of `remove_range`: the regions that are left, and whether it ran into one whose
end overflows. -/
def removeLoop (base stop : Nat) : List VmRegion → Except (Stop Errno) Unit × List VmRegion
  | [] => (.ok (), [])
  | r :: rest =>
    match r.endAddr with
    | none => (.error .panic, r :: rest)
    | some re =>
      let (res, left) := removeLoop base stop rest
      if (base ≤ r.base ∧ re ≤ stop) ∨ (r.base < stop ∧ base < re) then (res, left)
      else (res, r :: left)

def removeRange (map : VmMap) (base len : Nat) : Except (Stop Errno) Nat × VmMap :=
  let (res, left) := removeLoop base (wrappingAdd base len) map.regions
  (res.map fun _ => map.regions.length - left.length, {map with regions := left})

end VmMap

/-- The range lies below the kernel's half of the address space. -/
def checkAccess (addr len : Nat) : Bool := addr < kernBase ∧ len ≤ kernBase - addr

end ChaosKernel.Memory
