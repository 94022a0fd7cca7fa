import ChaosKernel.Memory.FramePool
import ChaosKernel.Memory.Vm

/-! Address spaces with copy-on-write pages.

`cowPages` maps a page to the frame behind it, with the count this space keeps of
the spaces that use the frame. A fork copies the table and raises each count in
the parent and in the child; a write fault takes a frame of its own for a page
whose count says that it is shared. Each space has counts of its own: what one
space does to a count, no other space sees.

A call that panics leaves behind what it had done until then. -/
namespace ChaosKernel.Memory
open Base

structure AddrSpace where
  vmMap : VmMap
  pageTableRoot : Nat
  asid : Nat
  refCount : Nat
  cowPages : BTreeMap PgFrame

/-- `addr & !(PAGE_SZ - 1)`. -/
def pageAddr (addr : Nat) : Nat := addr - addr % pageSz

/-- `frame_id * PAGE_SZ + MEM_OFF`, which may overflow. -/
@[irreducible] def physAddr (frameId : Nat) : Except (Stop Errno) Nat :=
  if frameId * pageSz + memOff < wordSize then .ok (frameId * pageSz + memOff) else .error .panic

theorem physAddr_ok {frameId pa : Nat} (h : physAddr frameId = .ok pa) :
    pa = frameId * pageSz + memOff := by
  unfold physAddr at h
  split at h
  · exact (Except.ok.inj h).symm
  · cases h

namespace AddrSpace

def new (asid : Nat) : AddrSpace := ⟨VmMap.new, 0, asid, 1, ∅⟩

/-! ### Fork -/

/-- The parent's count of a region goes up when the region is writable. -/
def refUpWritable (region : VmRegion) : VmRegion := if region.writable then region.refUp else region

/-- The first loop of `fork_from` over the parent's regions. The error of an `insert` that finds
an overlap is dropped. -/
def forkRegions : List VmRegion → VmMap → Except (Stop Errno) VmMap × List VmRegion
  | [], map => (.ok map, [])
  | r :: rest, map =>
    match map.insert (VmRegion.new r.base r.len r.flags) with
    | .error .panic => (.error .panic, refUpWritable r :: rest)
    | .error _ =>
      let (res, rest) := forkRegions rest map
      (res, refUpWritable r :: rest)
    | .ok map =>
      let (res, rest) := forkRegions rest map
      (res, refUpWritable r :: rest)

/-- The child, and the parent after it. -/
def forkFrom (parent : AddrSpace) (newAsid : Nat) : Except (Stop Errno) AddrSpace × AddrSpace :=
  let child := new newAsid
  let (res, regions) := forkRegions parent.vmMap.regions
    {child.vmMap with brk := parent.vmMap.brk, mmapBase := parent.vmMap.mmapBase}
  let parent := {parent with vmMap := {parent.vmMap with regions := regions}}
  match res with
  | .error e => (.error e, parent)
  | .ok map =>
    let cow := parent.cowPages.map fun _ frame => frame.up
    -- writable regions are counted once more
    let regions := parent.vmMap.regions.map refUpWritable
    (.ok {child with vmMap := map, cowPages := cow},
      {parent with vmMap := {parent.vmMap with regions := regions}, cowPages := cow})

/-! ### Faults -/

/-- The frame a write to `page` may go to: the one that is there when its count says that nobody
else uses it, else a new one. The entry whose count goes down for the new frame is the one
that is replaced. -/
def breakCow (space : AddrSpace) (page : Nat) (pool : FramePool) :
    Except (Stop Errno) Nat × AddrSpace × FramePool :=
  let fresh : Except (Stop Errno) Nat × AddrSpace × FramePool :=
    match pool.getInner with
    | (none, pool) => (.error (.err .oom), space, pool)
    | (some newFrameId, pool) =>
      let cow := space.cowPages.insert page (PgFrame.withRc newFrameId 1)
      (.ok newFrameId, {space with cowPages := cow}, pool)
  match space.cowPages[page]? with
  | some frame => if frame.rc ≤ 1 then (.ok frame.frameId, space, pool) else fresh
  | none => fresh

def handleCowFault (space : AddrSpace) (addr : Nat) (pool : FramePool) :
    Except (Stop Errno) Nat × AddrSpace × FramePool :=
  match space.vmMap.find addr with
  | .error e => (.error e, space, pool)
  | .ok none => (.error (.err .segfault), space, pool)
  | .ok (some region) =>
    if region.writable then
      let (res, space, pool) := space.breakCow (pageAddr addr) pool
      (res.bind physAddr, space, pool)
    else (.error (.err .segfault), space, pool)

/-! ### The other calls -/

/-- The pages of `[start, stop)` taken out one by one; a count of zero panics. -/
def dropPages (start stop : Nat) :
    List (Nat × PgFrame) → BTreeMap PgFrame → Except (Stop Errno) Nat × BTreeMap PgFrame
  | [], cow => (.ok 0, cow)
  | (addr, frame) :: rest, cow =>
    if start ≤ addr ∧ addr < stop then
      match frame.down with
      | none => (.error .panic, cow.erase addr)
      | some _ =>
        let (res, cow) := dropPages start stop rest (cow.erase addr)
        (res.map fun n => n + 1, cow)
    else dropPages start stop rest cow

def unmapRange (space : AddrSpace) (start len : Nat) : Except (Stop Errno) Nat × AddrSpace :=
  match add? start len with
  | none => (.error .panic, space)
  | some stop =>
    match space.vmMap.removeRange start len with
    | (.error e, map) => (.error e, {space with vmMap := map})
    | (.ok removed, map) =>
      let (res, cow) := dropPages start stop space.cowPages.toList space.cowPages
      (res.map fun n => removed + n, {space with vmMap := map, cowPages := cow})

/-- The regions a change of protection affects are the ones that meet `[start, stop)`; the end
of a region that starts later is not computed. -/
def meets (start stop : Nat) (region : VmRegion) : Option Bool :=
  if region.base < stop then region.endAddr.map fun ee => start < ee else some false

def protect (space : AddrSpace) (start len newFlags : Nat) : Except (Stop Errno) Unit × AddrSpace :=
  match add? start len with
  | none => (.error .panic, space)
  | some stop =>
    match space.vmMap.regions.mapM fun r =>
        (meets start stop r).map fun hit => if hit then {r with flags := newFlags} else r with
    | none => (.error .panic, space)
    | some regions => (.ok (), {space with vmMap := {space.vmMap with regions := regions}})

/-- The second part is added at the end of the vector, and the region that is split stays as
long as it was. -/
def splitRegion (space : AddrSpace) (addr : Nat) : Except (Stop Errno) Unit × AddrSpace :=
  match space.vmMap.find addr with
  | .error e => (.error e, space)
  | .ok none => (.error (.err .enomem), space)
  | .ok (some region) =>
    let offset := addr - region.base
    if offset = 0 ∨ region.len ≤ offset then (.error (.err .einval), space)
    else
      let second := VmRegion.new addr (region.len - offset) region.flags
      (.ok (), {space with vmMap := {space.vmMap with regions := space.vmMap.regions ++ [second]}})

/-! ### What the calls do to the page table -/

variable {e : Stop Errno} {parent parent' space space' child : AddrSpace} {asid start addr stop n len : Nat}

theorem forkRegions_error {regions : List VmRegion} {map : VmMap}
    (h : (forkRegions regions map).1 = .error e) : e = .panic := by
  induction regions generalizing map with
  | nil => cases h
  | cons r rest ih =>
    unfold forkRegions at h
    split at h
    · cases h
      rfl
    · exact ih h
    · exact ih h

theorem forkFrom_error (h : parent.forkFrom asid = (.error e, parent')) : e = .panic := by
  simp only [forkFrom] at h
  split at h
  · rename_i e' herror
    cases h
    exact forkRegions_error herror
  · cases h

theorem forkFrom_ok (h : parent.forkFrom asid = (.ok child, parent')) :
    child.cowPages = parent.cowPages.map (fun _ frame => frame.up) ∧
      parent'.cowPages = parent.cowPages.map (fun _ frame => frame.up) := by
  simp only [forkFrom] at h
  split at h
  · cases h
  · cases h
    exact ⟨rfl, rfl⟩

theorem get_map_up (cow : BTreeMap PgFrame) (page : Nat) :
    (cow.map fun _ frame => frame.up)[page]? = cow[page]?.map PgFrame.up := by
  rw [Std.ExtTreeMap.getElem?_map]

/-- A write to the page of `addr` is allowed by the region it lies in. -/
def writableAt (space : AddrSpace) (addr : Nat) : Bool :=
  match space.vmMap.find addr with
  | .ok (some region) => region.writable
  | _ => false

/-- A fault at `addr` gets a frame from the pool: the write is allowed, the page is not there
or is counted as shared, and a frame is free. -/
def TakesFrame (space : AddrSpace) (addr : Nat) (pool : FramePool) : Prop :=
  space.writableAt addr = true ∧
    (∀ frame, space.cowPages[pageAddr addr]? = some frame → 2 ≤ frame.rc) ∧
    ∃ i : Nat, pool.slots[i]? = some true

theorem breakCow_cases (space : AddrSpace) (page : Nat) (pool : FramePool) :
    (∃ frame, space.cowPages[page]? = some frame ∧ frame.rc ≤ 1 ∧
        space.breakCow page pool = (.ok frame.frameId, space, pool)) ∨
      ((∀ i : Nat, pool.slots[i]? ≠ some true) ∧
        space.breakCow page pool = (.error (.err .oom), space, pool)) ∨
      ((∀ frame, space.cowPages[page]? = some frame → 2 ≤ frame.rc) ∧
        ∃ i : Nat, pool.slots[i]? = some true ∧
          space.breakCow page pool =
            (.ok i, {space with cowPages := space.cowPages.insert page (PgFrame.withRc i 1)},
              {pool with slots := pool.slots.set i false})) := by
  cases hpage : space.cowPages[page]? with
  | none =>
    rcases pool.getInner_cases with ⟨hget, hfull⟩ | ⟨i, hfree, hget⟩
    · exact .inr (.inl ⟨hfull, by simp only [breakCow, hpage, hget]⟩)
    · refine .inr (.inr ⟨fun frame hframe => (Option.some_ne_none frame hframe.symm).elim, i, hfree, ?_⟩)
      simp only [breakCow, hpage, hget]
  | some frame =>
    by_cases hrc : frame.rc ≤ 1
    · exact .inl ⟨frame, rfl, hrc, by simp only [breakCow, hpage, if_pos hrc]⟩
    · rcases pool.getInner_cases with ⟨hget, hfull⟩ | ⟨i, hfree, hget⟩
      · exact .inr (.inl ⟨hfull, by simp only [breakCow, hpage, if_neg hrc, hget]⟩)
      · refine .inr (.inr ⟨fun frame' hframe' => ?_, i, hfree, ?_⟩)
        · cases hframe'
          omega
        · simp only [breakCow, hpage, if_neg hrc, hget]

theorem handleCowFault_eq (space : AddrSpace) (addr : Nat) (pool : FramePool) :
    (space.writableAt addr = true ∧
        space.handleCowFault addr pool =
          ((space.breakCow (pageAddr addr) pool).1.bind physAddr,
            (space.breakCow (pageAddr addr) pool).2)) ∨
      (space.writableAt addr = false ∧
        ∃ e, space.handleCowFault addr pool = (.error e, space, pool)) := by
  unfold handleCowFault writableAt
  rcases hfind : space.vmMap.find addr with e | (_ | region)
  · exact .inr ⟨rfl, e, rfl⟩
  · exact .inr ⟨rfl, _, rfl⟩
  · cases hregion : region.writable with
    | true => exact .inl ⟨hregion, by simp only [hregion, if_true]⟩
    | false =>
      exact .inr ⟨hregion, .err .segfault, by simp only [hregion, Bool.false_eq_true, if_false]⟩

/-- What a write fault does: it changes nothing, and returns at most the frame of an entry whose
count is one; or it puts a free frame behind the page. -/
theorem handleCowFault_cases {pool pool' : FramePool} {res : Except (Stop Errno) Nat}
    (h : space.handleCowFault addr pool = (res, space', pool')) :
    (¬space.TakesFrame addr pool ∧ space' = space ∧ pool' = pool ∧
        ∀ pa, res = .ok pa → ∃ frame, space.cowPages[pageAddr addr]? = some frame ∧
          frame.rc ≤ 1 ∧ physAddr frame.frameId = .ok pa) ∨
      (space.TakesFrame addr pool ∧ ∃ i : Nat, pool.slots[i]? = some true ∧
        space' = {space with
          cowPages := space.cowPages.insert (pageAddr addr) (PgFrame.withRc i 1)} ∧
        pool' = {pool with slots := pool.slots.set i false} ∧
        ∀ pa, res = .ok pa → physAddr i = .ok pa) := by
  rcases space.handleCowFault_eq addr pool with ⟨hwritable, heq⟩ | ⟨hrefused, e, heq⟩
  · rw [heq] at h
    obtain ⟨hres, hstate⟩ := Prod.mk.inj h
    rcases space.breakCow_cases (pageAddr addr) pool with
      ⟨frame, hframe, hrc, hbreak⟩ | ⟨hfull, hbreak⟩ | ⟨hshared, i, hfree, hbreak⟩
    · simp only [hbreak, Except.bind] at hres hstate
      obtain ⟨rfl, rfl⟩ := Prod.mk.inj hstate
      refine .inl ⟨fun htakes => ?_, rfl, rfl, fun pa hpa => ⟨frame, hframe, hrc, ?_⟩⟩
      · have := htakes.2.1 frame hframe
        omega
      · exact hres.trans hpa
    · simp only [hbreak, Except.bind] at hres hstate
      obtain ⟨rfl, rfl⟩ := Prod.mk.inj hstate
      refine .inl ⟨fun htakes => ?_, rfl, rfl, fun pa hpa => ?_⟩
      · obtain ⟨i, hi⟩ := htakes.2.2
        exact hfull i hi
      · rw [← hres] at hpa
        cases hpa
    · simp only [hbreak, Except.bind] at hres hstate
      obtain ⟨rfl, rfl⟩ := Prod.mk.inj hstate
      exact .inr ⟨⟨hwritable, hshared, i, hfree⟩, i, hfree, rfl, rfl, fun pa hpa => hres.trans hpa⟩
  · rw [heq] at h
    obtain ⟨rfl, hstate⟩ := Prod.mk.inj h
    obtain ⟨rfl, rfl⟩ := Prod.mk.inj hstate
    refine .inl ⟨fun htakes => ?_, rfl, rfl, fun pa hpa => by cases hpa⟩
    exact absurd (hrefused.symm.trans htakes.1) Bool.false_ne_true

theorem dropPages_ok {pages : List (Nat × PgFrame)} {cow cow' : BTreeMap PgFrame}
    (h : dropPages start stop pages cow = (.ok n, cow')) (p : Nat) :
    cow'[p]? = if p ∈ pages.map Prod.fst ∧ start ≤ p ∧ p < stop then none else cow[p]? := by
  induction pages generalizing cow cow' n with
  | nil =>
    cases h
    simp
  | cons page rest ih =>
    obtain ⟨addr, frame⟩ := page
    simp only [dropPages] at h
    split at h
    · rename_i hin
      split at h
      · cases h
      · obtain ⟨hres, rfl⟩ := Prod.mk.inj h
        cases hdrop : (dropPages start stop rest (cow.erase addr)).1 with
        | error e =>
          rw [hdrop] at hres
          cases hres
        | ok m =>
          have hrest : dropPages start stop rest (cow.erase addr) =
              (.ok m, (dropPages start stop rest (cow.erase addr)).2) := by
            rw [← hdrop]
          rw [ih hrest, get_erase]
          by_cases hp : p = addr
          · subst hp
            simp [hin]
          · simp only [List.map_cons, List.mem_cons, hp, Ne.symm hp, false_or, if_false]
    · rename_i hout
      rw [ih h]
      by_cases hp : p = addr
      · subst hp
        rw [if_neg (fun h => hout h.2), if_neg (fun h => hout h.2)]
      · simp only [List.map_cons, List.mem_cons, hp, false_or]

theorem unmapRange_ok (h : space.unmapRange start len = (.ok n, space')) (p : Nat) :
    space'.cowPages[p]? =
      if start ≤ p ∧ p < start + len then none else space.cowPages[p]? := by
  simp only [unmapRange] at h
  split at h
  · cases h
  · rename_i stop hstop
    obtain ⟨rfl, _⟩ := add?_eq_some hstop
    split at h
    · cases h
    · obtain ⟨hres, rfl⟩ := Prod.mk.inj h
      cases hdrop : (dropPages start (start + len) space.cowPages.toList space.cowPages).1 with
      | error e =>
        rw [hdrop] at hres
        cases hres
      | ok m =>
        have hpages : dropPages start (start + len) space.cowPages.toList space.cowPages =
            (.ok m, (dropPages start (start + len) space.cowPages.toList space.cowPages).2) := by
          rw [← hdrop]
        rw [dropPages_ok hpages]
        cases hp : space.cowPages[p]? with
        | none => simp
        | some frame =>
          have hmem : p ∈ space.cowPages.toList.map Prod.fst :=
            List.mem_map.mpr ⟨(p, frame), Std.ExtTreeMap.mem_toList_iff_getElem?_eq_some.mpr hp, rfl⟩
          simp only [hmem, true_and]

end AddrSpace
end ChaosKernel.Memory
