import ChaosKernel.Memory.AddrSpace

/-! The ways to take frames from the pool and to give them back.

Every path scans the bitmap on its own: from the start, in strides, inside a
zone, round from a preferred frame. What a path gives to its caller is a frame
number, a physical address or a range of the direct map, and computing an address
may overflow after the frame is already marked. A call that panics leaves the
pool as it is at that point. -/
namespace ChaosKernel.Memory
open Base

/-- The largest `isize`; a vector of more bytes cannot be asked for. -/
@[irreducible] def isizeMax : Nat := 2 ^ 63 - 1

structure ZoneInfo where
  zoneId : Nat
  basePfn : Nat
  pageCount : Nat
  freeCount : Nat
  lowWatermark : Nat
  highWatermark : Nat
  managed : Bool

def ZoneInfo.zoneCanAlloc (zone : ZoneInfo) : Bool := zone.lowWatermark < zone.freeCount

structure SharedPage where
  frame : Nat
  w : Bool
  pending : Bool

def SharedPage.new (f : Nat) : SharedPage := ⟨f, false, true⟩

namespace FramePool

/-- Slot `i` is marked used. -/
def take (pool : FramePool) (i : Nat) : FramePool := {pool with slots := pool.slots.set i false}

/-- The first free frame at or after `start`, going round. -/
def takeFrom (pool : FramePool) (start : Nat) : Option Nat × FramePool :=
  match scanFrom pool.slots start with
  | some i => (some i, pool.take i)
  | none => (none, pool)

/-- The frames of `[start, start + sz)` are all free. -/
def freeRun (slots : List Bool) (start sz : Nat) : Bool :=
  (List.range' start sz).all fun i => slots.getD i false

def takeRun (pool : FramePool) (start sz : Nat) : FramePool :=
  {pool with slots := (List.range' start sz).foldl (fun slots i => slots.set i false) pool.slots}

/-- The loop of `get_contig` over the places where a run may start. -/
def contigLoop (slots : List Bool) (sz : Nat) : List Nat → Option Nat
  | [] => none
  | start :: rest =>
    if slots.length < start + sz then none
    else if freeRun slots start sz then some start
    else contigLoop slots sz rest

def getContig (pool : FramePool) (sz alignLog2 : Nat) : Except (Stop Errno) (Option Nat) × FramePool :=
  if 64 ≤ alignLog2 then (.error .panic, pool)
  else
    let starts := (List.range pool.slots.length).filter fun start => start % 2 ^ alignLog2 = 0
    match contigLoop pool.slots sz starts with
    | none => (.ok none, pool)
    | some start => (.ok (some start), pool.takeRun start sz)

/-- The loop of `batch_alloc` from slot `i` on, `count` frames still wanted. -/
def batchLoop : Nat → Nat → List Bool → List Nat × List Bool
  | _, _, [] => ([], [])
  | i, count, f :: rest =>
    if count = 0 then ([], f :: rest)
    else if f then
      let (result, rest) := batchLoop (i + 1) (count - 1) rest
      (i :: result, false :: rest)
    else
      let (result, rest) := batchLoop (i + 1) count rest
      (result, false :: rest)

def batchAlloc (pool : FramePool) (count : Nat) : Except (Stop Errno) (List Nat) × FramePool :=
  if isizeMax < count * 8 then (.error .panic, pool)
  else
    let (result, slots) := batchLoop 0 count pool.slots
    (.ok result, {pool with slots := slots})

def getZoneAware (pool : FramePool) (zone : ZoneInfo) :
    Except (Stop Errno) (Option Nat) × FramePool × ZoneInfo :=
  if zone.zoneCanAlloc then
    match add? zone.basePfn zone.pageCount with
    | none => (.error .panic, pool, zone)
    | some limit =>
      let stop := min limit pool.slots.length
      match (List.range' zone.basePfn (stop - zone.basePfn)).find? fun i => pool.slots.getD i false with
      | none => (.ok none, pool, zone)
      | some i => (.ok (some i), pool.take i, {zone with freeCount := zone.freeCount - 1})
  else (.ok none, pool, zone)

def putZoneAware (pool : FramePool) (idx : Nat) (zone : ZoneInfo) : FramePool × ZoneInfo :=
  if idx < pool.slots.length then (pool.put idx, {zone with freeCount := wrappingAdd zone.freeCount 1})
  else (pool, zone)

end FramePool

/-! ### Allocation by physical address -/

/-- `clk` is the clock the scan starts from. A frame whose address overflows is not returned. -/
def frameAlloc (pool : FramePool) (clk : Nat) : Option Nat × FramePool :=
  match pool.takeFrom (clk % max pool.slots.length 1) with
  | (none, pool) => (none, pool)
  | (some id, pool) =>
    if id * pageSz + memOff < wordSize then (some (id * pageSz + memOff), pool) else (none, pool)

def frameDealloc (pool : FramePool) (target : Nat) : FramePool :=
  if target < memOff then pool
  else if (target - memOff) % pageSz ≠ 0 then pool
  else pool.put ((target - memOff) / pageSz)

/-- The loop of `frame_alloc_contig`: it goes on to the next aligned place, or past the first used
frame of the run it looked at. `start` grows in every round. -/
def allocContigLoop (slots : List Bool) (sz alignment : Nat) : Nat → Nat → Option Nat
  | 0, _ => none
  | fuel + 1, start =>
    if start + sz ≤ slots.length then
      if start % alignment ≠ 0 then
        allocContigLoop slots sz alignment fuel ((start + alignment) / alignment * alignment)
      else
        match (List.range' start sz).find? fun j => !slots.getD j false with
        | some j => allocContigLoop slots sz alignment fuel (j + 1)
        | none => some start
    else none

def frameAllocContig (pool : FramePool) (sz align : Nat) :
    Except (Stop Errno) (Option Nat) × FramePool :=
  if sz = 0 then (.ok none, pool)
  else if 64 ≤ align then (.error .panic, pool)
  else
    match allocContigLoop pool.slots sz (2 ^ align) (pool.slots.length + 1) 0 with
    | none => (.ok none, pool)
    | some start => ((physAddr start).map some, pool.takeRun start sz)

/-! ### The heap -/

/-- Where the next page of the heap is looked for first: right after the last block. -/
def preferredStart : List (Nat × Nat) → Nat
  | [] => 0
  | (lastVa, lastSz) :: _ => (lastVa - physOff) / pageSz + lastSz / pageSz

/-- The blocks after page `pg` joined them, the last block at the head. -/
def addPage (addrs : List (Nat × Nat)) (pg : Nat) : Except (Stop Errno) (List (Nat × Nat)) :=
  match add? physOff (pg * pageSz) with
  | none => .error .panic
  | some va =>
    match addrs with
    | [] => .ok [(va, pageSz)]
    | (lastVa, lastSz) :: rest =>
      match add? lastVa lastSz with
      | none => .error .panic
      | some lastEnd =>
        if lastEnd = va then .ok ((lastVa, lastSz + pageSz) :: rest)
        else
          match add? va pageSz with
          | none => .error .panic
          | some vaEnd =>
            if vaEnd = lastVa then .ok ((va, lastSz + pageSz) :: rest)
            else .ok ((va, pageSz) :: (lastVa, lastSz) :: rest)

/-- One more page for the blocks, unless the pool is empty. -/
def heapPage (addrs : List (Nat × Nat)) (pool : FramePool) :
    Except (Stop Errno) (Option (List (Nat × Nat))) × FramePool :=
  match pool.takeFrom (preferredStart addrs) with
  | (none, pool) => (.ok none, pool)
  | (some pg, pool) => ((addPage addrs pg).map some, pool)

/-- The loop of `heap_grow`, with the attempts and the pages that are left. -/
def heapLoop : Nat → Nat → List (Nat × Nat) → FramePool →
    Except (Stop Errno) (List (Nat × Nat)) × FramePool
  | 0, _, addrs, pool => (.ok addrs, pool)
  | attempts + 1, wanted, addrs, pool =>
    if wanted = 0 then (.ok addrs, pool)
    else
      match heapPage addrs pool with
      | (.error e, pool) => (.error e, pool)
      | (.ok none, pool) => (.ok addrs, pool)
      | (.ok (some addrs), pool) => heapLoop attempts (wanted - 1) addrs pool

def heapGrow (pool : FramePool) (n : Nat) : Except (Stop Errno) (List (Nat × Nat)) × FramePool :=
  if wordSize ≤ n * 2 then (.error .panic, pool)
  else
    let (res, pool) := heapLoop (n * 2) n [] pool
    (res.map List.reverse, pool)

/-! ### Shared pages -/

/-- A pending page gets a frame of its own, and its source loses a user. -/
def SharedPage.fault (page : SharedPage) (pool : FramePool) (src : PgFrame) :
    Except (Stop Errno) Nat × SharedPage × FramePool × PgFrame :=
  if page.pending then
    match pool.takeFrom (page.frame % max pool.slots.length 1) with
    | (none, pool) => (.error (.err .oom), page, pool, src)
    | (some nf, pool) =>
      let rc := if src.rc = 0 then usizeMax else src.rc - 1
      (.ok nf, ⟨nf, true, false⟩, pool, {src with rc := rc})
  else (.ok page.frame, page, pool, src)

/-! ### Pages for the kernel -/

/-- The lengths of the runs of free slots, and how many runs there are, in 32-bit counters. -/
def freeRuns : List Bool → List Nat
  | [] => []
  | false :: rest => freeRuns rest
  | true :: rest =>
    match rest, freeRuns rest with
    | true :: _, len :: runs => (len + 1) :: runs
    | _, runs => 1 :: runs

/-- Only statistics; the counters are 32 bits wide, and a run of `2^30` free frames makes the loop
for its order shift too far. -/
def defragmentFramePool (slots : List Bool) : Except (Stop Errno) Nat :=
  if (freeRuns slots).any (fun len => 2 ^ 30 ≤ len) ∨ 2 ^ 31 ≤ (freeRuns slots).length
  then .error .panic else .ok (slots.countP fun f => f)

/-- The first free frame, by its address. -/
def allocPage (pool : FramePool) : Except (Stop Errno) (Option Nat) × FramePool :=
  match pool.getInner with
  | (none, pool) => (.ok none, pool)
  | (some id, pool) => ((physAddr id).map some, pool)

def allocPagesLoop : Nat → FramePool → Except (Stop Errno) (List Nat) × FramePool
  | 0, pool => (.ok [], pool)
  | count + 1, pool =>
    match allocPage pool with
    | (.error e, pool) => (.error e, pool)
    | (.ok none, pool) => (.ok [], pool)
    | (.ok (some addr), pool) =>
      let (res, pool) := allocPagesLoop count pool
      (res.map fun pages => addr :: pages, pool)

def allocPages (pool : FramePool) (count : Nat) : Except (Stop Errno) (List Nat) × FramePool :=
  if isizeMax < count * 8 then (.error .panic, pool)
  else if pool.freeCount < count then
    match defragmentFramePool pool.slots with
    | .error e => (.error e, pool)
    | .ok _ => allocPagesLoop count pool
  else allocPagesLoop count pool

/-- An address below the start of memory panics. -/
def freePages : List Nat → FramePool → Except (Stop Errno) Unit × FramePool
  | [], pool => (.ok (), pool)
  | pa :: rest, pool =>
    if pa < memOff then (.error .panic, pool)
    else freePages rest (pool.put ((pa - memOff) / pageSz))

end ChaosKernel.Memory
