import ChaosKernel.Base.Run
import ChaosKernel.Base.Sharing
import ChaosKernel.Memory.AddrSpace

/-! Copy-on-write across a family of address spaces.

Address spaces that come from `AddrSpace::new` and from forks share one pool of
frames. The counts they keep drift apart: a fork writes the raised count into the
two spaces it touches, a fault and an unmapping change the count of one. A count
of one still says that the frame has no other user, so the frame a write fault
returns is mapped nowhere else (`handleCowFault_exclusive`). -/
namespace ChaosKernel.Memory
open Base Option List

/-- The address spaces made so far, and the pool they share. -/
structure World where
  spaces : List AddrSpace
  pool : FramePool

inductive Call where
  | new (asid : Nat)
  | insert (x : Nat) (region : VmRegion)
  | forkFrom (x newAsid : Nat)
  | handleCowFault (x addr : Nat)
  | unmapRange (x start len : Nat)
  | protect (x start len newFlags : Nat)
  | splitRegion (x addr : Nat)

namespace World

def set (w : World) (x : Nat) (space : AddrSpace) : World := {w with spaces := w.spaces.set x space}

/-- A call on space `x` that changed nothing but the space, if it came back. -/
def update {α : Type} (w : World) (x : Nat) (out : Except (Stop Errno) α × AddrSpace) : Option World :=
  if returned out.1 then some (w.set x out.2) else none

/-- One call on one of the spaces. A call that panics is the end of the run. -/
def step (w : World) : Call → Option World
  | .new asid => some {w with spaces := w.spaces ++ [AddrSpace.new asid]}
  | .insert x region => w.spaces[x]?.bind fun space =>
    match space.vmMap.insert region with
    | .ok map => some (w.set x {space with vmMap := map})
    | .error (.err _) => some w
    | .error _ => none
  | .forkFrom x newAsid => w.spaces[x]?.bind fun space =>
    match space.forkFrom newAsid with
    | (.ok child, parent) => some {w with spaces := w.spaces.set x parent ++ [child]}
    | (.error _, _) => none
  | .handleCowFault x addr => w.spaces[x]?.bind fun space =>
    let (res, space, pool) := space.handleCowFault addr w.pool
    if returned res then some {w.set x space with pool := pool} else none
  | .unmapRange x start len => w.spaces[x]?.bind fun space =>
    match space.unmapRange start len with
    | (.ok _, space) => some (w.set x space)
    | (.error _, _) => none
  | .protect x start len newFlags => w.spaces[x]?.bind fun space =>
    w.update x (space.protect start len newFlags)
  | .splitRegion x addr => w.spaces[x]?.bind fun space => w.update x (space.splitRegion addr)

/-- What space `x` has behind page `p`. -/
def entry (w : World) (x p : Nat) : Option PgFrame := w.spaces[x]?.bind fun space => space.cowPages[p]?

/-- The frames that are marked used. -/
def Used (w : World) (f : Nat) : Prop := w.pool.slots[f]? = some false

end World

def cowWorld : System World Call where
  step := World.step

/-! ### What a call does to the tables -/

namespace World
variable {w w' : World} {x y q asid addr start len : Nat} {space space' : AddrSpace}

theorem entry_of_get (hx : w.spaces[x]? = some space) (p : Nat) :
    w.entry x p = space.cowPages[p]? := by
  rw [entry, hx, bind_some]

theorem entry_set (hx : w.spaces[x]? = some space) (space' : AddrSpace) (y q : Nat) :
    (w.set x space').entry y q = if y = x then space'.cowPages[q]? else w.entry y q := by
  have hlt : x < w.spaces.length := (List.getElem?_eq_some_iff.mp hx).1
  simp only [entry, set, getElem?_set]
  by_cases hy : x = y
  · subst hy
    simp [hlt]
  · simp [hy, Ne.symm hy]

theorem entry_set_same (hx : w.spaces[x]? = some space)
    (hcow : space'.cowPages = space.cowPages) : (w.set x space').entry = w.entry := by
  funext y q
  rw [entry_set hx, hcow]
  split
  · rename_i hy
    rw [hy, entry_of_get hx]
  · rfl

theorem entry_append (w : World) (child : AddrSpace) (y q : Nat) :
    entry {w with spaces := w.spaces ++ [child]} y q =
      if y = w.spaces.length then child.cowPages[q]? else w.entry y q := by
  simp only [entry]
  rcases lt_trichotomy y w.spaces.length with hy | hy | hy
  · rw [getElem?_append_left hy, if_neg hy.ne]
  · subst hy
    rw [if_pos rfl, getElem?_append_right (le_refl _), Nat.sub_self]
    rfl
  · rw [if_neg hy.ne', getElem?_eq_none (by rw [length_append]; exact hy),
      getElem?_eq_none hy.le]

theorem entry_none_of_le (w : World) (h : w.spaces.length ≤ y) : w.entry y q = none := by
  rw [entry, getElem?_eq_none h, bind_none]

theorem step_forkFrom (h : w.step (.forkFrom x asid) = some w') :
    x < w.spaces.length ∧ w'.pool = w.pool ∧ ∀ z p, w'.entry z p =
      if z = x ∨ z = w.spaces.length then (w.entry x p).map PgFrame.up else w.entry z p := by
  simp only [step, bind_eq_some_iff] at h
  obtain ⟨space, hx, h⟩ := h
  have hlt : x < w.spaces.length := (List.getElem?_eq_some_iff.mp hx).1
  split at h
  · rename_i child parent hfork
    cases h
    obtain ⟨hchild, hparent⟩ := AddrSpace.forkFrom_ok hfork
    refine ⟨hlt, rfl, fun z p => ?_⟩
    have happ := entry_append (w.set x parent) child z p
    rw [show (w.set x parent).spaces.length = w.spaces.length from length_set] at happ
    have hgoal : entry {w with spaces := w.spaces.set x parent ++ [child]} z p =
        entry {w.set x parent with spaces := (w.set x parent).spaces ++ [child]} z p := rfl
    rw [hgoal, happ, entry_set hx, entry_of_get hx, hchild, hparent, AddrSpace.get_map_up]
    by_cases hzy : z = w.spaces.length
    · rw [if_pos hzy, if_pos (.inr hzy)]
    · rw [if_neg hzy]
      simp only [hzy, or_false]
  · cases h

theorem step_handleCowFault (h : w.step (.handleCowFault x addr) = some w') (hx : w.spaces[x]? = some space) :
    (¬space.TakesFrame addr w.pool ∧ w'.entry = w.entry ∧ w'.pool = w.pool ∧
        ∀ pa, (space.handleCowFault addr w.pool).1 = .ok pa → ∃ frame,
          w.entry x (pageAddr addr) = some frame ∧ frame.rc ≤ 1 ∧ physAddr frame.frameId = .ok pa) ∨
      (space.TakesFrame addr w.pool ∧ ∃ i : Nat, w.pool.slots[i]? = some true ∧
        w'.pool = {w.pool with slots := w.pool.slots.set i false} ∧
        (∀ y q, w'.entry y q =
          if y = x ∧ q = pageAddr addr then some (PgFrame.withRc i 1) else w.entry y q) ∧
        ∀ pa, (space.handleCowFault addr w.pool).1 = .ok pa → physAddr i = .ok pa) := by
  simp only [step, hx, bind_some] at h
  rcases hfault : space.handleCowFault addr w.pool with ⟨res, space', pool'⟩
  rw [hfault] at h
  simp only [ite_none_right_eq_some, some.injEq] at h
  obtain ⟨_, rfl⟩ := h
  rcases AddrSpace.handleCowFault_cases hfault with
    ⟨hnot, rfl, rfl, hres⟩ | ⟨htakes, i, hfree, rfl, rfl, hres⟩
  · refine .inl ⟨hnot, entry_set_same hx rfl, rfl, ?_⟩
    rw [entry_of_get hx]
    exact hres
  · refine .inr ⟨htakes, i, hfree, rfl, fun y q => ?_, hres⟩
    refine (entry_set hx _ y q).trans ?_
    rw [get_insert]
    by_cases hy : y = x
    · subst hy
      simp only [if_true, true_and, entry_of_get hx, eq_comm]
    · simp only [hy, if_false, false_and]

theorem step_unmapRange (h : w.step (.unmapRange x start len) = some w') :
    w'.pool = w.pool ∧ ∀ y q, w'.entry y q =
      if y = x ∧ start ≤ q ∧ q < start + len then none else w.entry y q := by
  simp only [step, bind_eq_some_iff] at h
  obtain ⟨space, hx, h⟩ := h
  split at h
  · rename_i n space' hunmap
    cases h
    refine ⟨rfl, fun y q => ?_⟩
    rw [entry_set hx, AddrSpace.unmapRange_ok hunmap]
    by_cases hy : y = x
    · subst hy
      simp only [if_true, true_and, entry_of_get hx]
    · simp only [hy, if_false, false_and]
  · cases h

/-- The calls that look at regions only. -/
def regionCall : Call → Bool
  | .new _ | .insert _ _ | .protect _ _ _ _ | .splitRegion _ _ => true
  | _ => false

theorem protect_cowPages (space : AddrSpace) (start len newFlags : Nat) :
    (space.protect start len newFlags).2.cowPages = space.cowPages := by
  unfold AddrSpace.protect
  split
  · rfl
  · split <;> rfl

theorem splitRegion_cowPages (space : AddrSpace) (addr : Nat) :
    (space.splitRegion addr).2.cowPages = space.cowPages := by
  unfold AddrSpace.splitRegion
  split
  · rfl
  · rfl
  · dsimp only
    split <;> rfl

theorem step_regionCall {c : Call} (hc : regionCall c = true) (h : w.step c = some w') :
    w'.entry = w.entry ∧ w'.pool = w.pool := by
  have hupdate : ∀ {α : Type} {x : Nat} {space : AddrSpace}
      {out : Except (Stop Errno) α × AddrSpace}, w.spaces[x]? = some space →
      out.2.cowPages = space.cowPages → w.update x out = some w' →
      w'.entry = w.entry ∧ w'.pool = w.pool := by
    intro α x space out hx hcow hout
    simp only [update, ite_none_right_eq_some, some.injEq] at hout
    obtain ⟨_, rfl⟩ := hout
    exact ⟨entry_set_same hx hcow, rfl⟩
  cases c with
  | new asid =>
    cases h
    refine ⟨funext fun y => funext fun q => ?_, rfl⟩
    rw [entry_append]
    split
    · rename_i hy
      rw [entry_none_of_le w hy.ge]
      exact Std.ExtTreeMap.getElem?_empty
    · rfl
  | insert x region =>
    simp only [step, bind_eq_some_iff] at h
    obtain ⟨space, hx, h⟩ := h
    split at h
    · cases h
      exact ⟨entry_set_same hx rfl, rfl⟩
    · cases h
      exact ⟨rfl, rfl⟩
    · cases h
  | protect x start len newFlags =>
    obtain ⟨space, hx, h⟩ := bind_eq_some_iff.mp h
    exact hupdate hx (protect_cowPages space start len newFlags) h
  | splitRegion x addr =>
    obtain ⟨space, hx, h⟩ := bind_eq_some_iff.mp h
    exact hupdate hx (splitRegion_cowPages space addr) h
  | forkFrom => cases hc
  | handleCowFault => cases hc
  | unmapRange => cases hc

end World

/-! ### A count of one means one user -/

namespace World
variable {w w' : World}

def Counted (w : World) : Prop := Base.Counted PgFrame.frameId PgFrame.rc w.Used w.entry

variable {i x p addr pa offset : Nat} {pool pool' : FramePool}

theorem used_set (w : World) (hfree : w.pool.slots[i]? = some true)
    (hpool : w'.pool = {w.pool with slots := w.pool.slots.set i false}) (f : Nat) :
    w'.Used f ↔ w.Used f ∨ f = i := by
  rw [Used, Used, hpool, (Takes.one hfree).used_iff, mem_singleton]

theorem counted_fresh (hw : w.Counted) (hfree : w.pool.slots[i]? = some true)
    (hpool : w'.pool = {w.pool with slots := w.pool.slots.set i false})
    (hentry : ∀ y q, w'.entry y q =
      if y = x ∧ q = p then some (PgFrame.withRc i 1) else w.entry y q) :
    w'.Counted ∧ Exclusive PgFrame.frameId w'.entry x p (PgFrame.withRc i 1) := by
  refine Base.Counted.fresh hw ?_ rfl hentry fun f hf => (used_set w hfree hpool f).mpr hf
  intro hused
  exact absurd (hfree.symm.trans hused) (by simp)

theorem counted_step {c : Call} (hw : w.Counted) (h : w.step c = some w') : w'.Counted := by
  have hquiet : regionCall c = true → w'.Counted := by
    intro hc
    obtain ⟨hentry, hpool⟩ := step_regionCall hc h
    refine Base.Counted.drop hw (fun x p e he => by rw [← hentry]; exact he) fun f hf => ?_
    rw [Used, hpool]
    exact hf
  cases c with
  | new | insert | protect | splitRegion => exact hquiet rfl
  | forkFrom x asid =>
    obtain ⟨_, hpool, hentry⟩ := step_forkFrom h
    have hfork := Base.Counted.fork hw PgFrame.up (fun _ => rfl) (fun _ => rfl) hentry
    refine hfork.drop (fun _ _ _ he => he) fun f hf => ?_
    rw [Used, hpool]
    exact hf
  | handleCowFault x addr =>
    obtain ⟨space, hx, _⟩ := bind_eq_some_iff.mp h
    rcases step_handleCowFault h hx with ⟨_, hentry, hpool, _⟩ | ⟨_, i, hfree, hpool, hentry, _⟩
    · refine Base.Counted.drop hw (fun x p e he => by rw [← hentry]; exact he) fun f hf => ?_
      rw [Used, hpool]
      exact hf
    · exact (counted_fresh hw hfree hpool hentry).1
  | unmapRange x start len =>
    obtain ⟨hpool, hentry⟩ := step_unmapRange h
    refine Base.Counted.drop hw (fun y q e he => ?_) fun f hf => ?_
    · rw [hentry] at he
      split at he
      · cases he
      · exact he
    · rw [Used, hpool]
      exact hf

theorem counted_new (pool : FramePool) : World.Counted ⟨[], pool⟩ :=
  Base.Counted.empty fun x _ => entry_none_of_le ⟨[], pool⟩ (Nat.zero_le x)

theorem counted_run {calls : List Call} (h : cowWorld.run ⟨[], pool⟩ calls = some w) : w.Counted :=
  System.invariant_run (I := World.Counted) (fun _ _ _ hs hstep => counted_step hs hstep)
    (counted_new pool) h

theorem fault_exclusive (hw : w.Counted) {space : AddrSpace} (hx : w.spaces[x]? = some space)
    (hok : (space.handleCowFault addr w.pool).1 = .ok pa)
    (hstep : w.step (.handleCowFault x addr) = some w') :
    ∃ frame, Exclusive PgFrame.frameId w'.entry x (pageAddr addr) frame ∧
      physAddr frame.frameId = .ok pa := by
  rcases step_handleCowFault hstep hx with ⟨_, hentry, _, hres⟩ | ⟨_, i, hfree, hpool, hentry, hres⟩
  · obtain ⟨frame, hframe, hrc, hpa⟩ := hres pa hok
    refine ⟨frame, ?_, hpa⟩
    rw [hentry]
    exact hw.single x (pageAddr addr) frame hframe hrc
  · exact ⟨PgFrame.withRc i 1, (counted_fresh hw hfree hpool hentry).2, hres pa hok⟩

/-- The bytes space `x` sees in page `p`; a page that is not there reads as zeros. -/
def seen (w : World) (x p : Nat) : Frame :=
  match w.entry x p with
  | some frame => w.pool.readFrame frame.frameId
  | none => Frame.zero

theorem seen_write {data : Bytes} {frame : PgFrame} (hexcl : Exclusive PgFrame.frameId w.entry x p frame)
    (hwrite : w.pool.writeFrame frame.frameId offset data = some pool') (y q i : Nat) :
    (seen {w with pool := pool'} y q).bytes[i]? =
      if (y = x ∧ q = p) ∧ offset ≤ i ∧ i < offset + min data.length (pageSz - offset)
      then data[i - offset]? else (w.seen y q).bytes[i]? := by
  have hentry : entry {w with pool := pool'} y q = w.entry y q := rfl
  simp only [seen, hentry]
  cases he : w.entry y q with
  | none =>
    rw [if_neg]
    rintro ⟨⟨rfl, rfl⟩, _⟩
    rw [hexcl.1] at he
    cases he
  | some other =>
    show (pool'.readFrame other.frameId).bytes[i]? = _
    rw [FramePool.readFrame_writeFrame hwrite]
    have hsame : other.frameId = frame.frameId ↔ y = x ∧ q = p := by
      refine ⟨hexcl.2 y q other he, ?_⟩
      rintro ⟨rfl, rfl⟩
      rw [hexcl.1] at he
      rw [some.inj he]
    simp only [hsame]

end World

/-- **Isolation.** Whatever forks, faults and unmappings came before, the frame a write fault
returns is mapped by that page of that space and by nothing else, and a write to it
changes what that page of that space shows and nothing else. -/
theorem handleCowFault_exclusive {pool : FramePool} {calls : List Call} {w w' : World}
    (hrun : cowWorld.run ⟨[], pool⟩ calls = some w) {x addr pa : Nat} {space : AddrSpace}
    (hx : w.spaces[x]? = some space) (hok : (space.handleCowFault addr w.pool).1 = .ok pa)
    (hstep : w.step (.handleCowFault x addr) = some w') :
    ∃ frame, w'.entry x (pageAddr addr) = some frame ∧ pa = frame.frameId * pageSz + memOff ∧
      (∀ y q other, w'.entry y q = some other → other.frameId = frame.frameId →
        y = x ∧ q = pageAddr addr) ∧
      ∀ offset data pool', w'.pool.writeFrame frame.frameId offset data = some pool' → ∀ y q i,
        (World.seen {w' with pool := pool'} y q).bytes[i]? =
          if (y = x ∧ q = pageAddr addr) ∧ offset ≤ i ∧ i < offset + min data.length (pageSz - offset)
          then data[i - offset]? else (w'.seen y q).bytes[i]? := by
  obtain ⟨frame, hexcl, hpa⟩ := World.fault_exclusive (World.counted_run hrun) hx hok hstep
  refine ⟨frame, hexcl.1, physAddr_ok hpa, hexcl.2, fun offset data pool' hwrite y q i => ?_⟩
  exact World.seen_write hexcl hwrite y q i

/-- A child writes to a page it shares with its parent: frame 1 is the child's alone. -/
theorem handleCowFault_exclusive_child : ∃ w w' : World,
    cowWorld.run ⟨[], FramePool.new 2⟩ [.new 0, .insert 0 (VmRegion.new 0 8192 3),
      .handleCowFault 0 0, .forkFrom 0 1] = some w ∧
    w.step (.handleCowFault 1 100) = some w' ∧
    ∃ frame, w'.entry 1 0 = some frame ∧ 1 * pageSz + memOff = frame.frameId * pageSz + memOff ∧
      ∀ y q other, w'.entry y q = some other → other.frameId = frame.frameId → y = 1 ∧ q = 0 := by
  have hrun : ((cowWorld.run ⟨[], FramePool.new 2⟩ [.new 0, .insert 0 (VmRegion.new 0 8192 3),
      .handleCowFault 0 0, .forkFrom 0 1]).any fun w => w.spaces[1]?.any fun space =>
        (w.step (.handleCowFault 1 100)).isSome ∧
          (space.handleCowFault 100 w.pool).1 = .ok (1 * pageSz + memOff)) = true := by
    decide +kernel
  simp only [Option.any_eq_true, decide_eq_true_eq, isSome_iff_exists] at hrun
  obtain ⟨w, hw, space, hspace, ⟨w', hw'⟩, hok⟩ := hrun
  obtain ⟨frame, hframe, hpa, hother, _⟩ := handleCowFault_exclusive hw hspace hok hw'
  exact ⟨w, w', hw, hw', frame, hframe, hpa, hother⟩

end ChaosKernel.Memory
