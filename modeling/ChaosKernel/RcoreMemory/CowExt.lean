import ChaosKernel.Base.Sharing
import ChaosKernel.RcoreMemory.MemorySet

/-! The copy-on-write extension of a page table.

`CowExt` counts, for each frame, the entries that share it, apart from the page table.
As long as its callers keep to what it asks, the counts are right, a private entry has
its frame alone, and a page fault changes nothing that is read (`cow_isolates`).

What is mapped as shared and readonly does not stay so: a fault there makes the entry a
private copy that can be written, where the documentation of the module says that it is
refused (`readonly_copied`). It stays as long as no fault is made on it
(`readonly_kept`). -/
namespace ChaosKernel.RcoreMemory
open Base Option Function List

/-! ### The code -/

/-- An entry: of the two bits of the shared state, `set_shared` sets one and clears the other. -/
structure CowEntry where
  target : Nat
  writable : Bool
  /-- `writable_shared` if true, `readonly_shared` if false. -/
  shared : Option Bool
  deriving DecidableEq, Repr

def CowEntry.frame (entry : CowEntry) : Nat := entry.target / pageSize

/-- The entry that `map` installs. -/
def CowEntry.mapped (target : Nat) : CowEntry := ⟨target / pageSize * pageSize, true, none⟩

/-- The same after `set_writable(false)` and `set_shared`. -/
def CowEntry.mappedShared (target : Nat) (writable : Bool) : CowEntry :=
  {CowEntry.mapped target with writable := false, shared := some writable}

/-- An entry after `clear_shared` and `set_writable(true)`. -/
def CowEntry.owned (entry : CowEntry) : CowEntry := {entry with writable := true, shared := none}

/-- The read and the write count of a frame. -/
abbrev FrameRcMap := BTreeMap (Nat × Nat)

namespace FrameRcMap

/-- `write_count` if `writable`, `read_count` if not. -/
def count (rc : FrameRcMap) (writable : Bool) (frame : Nat) : Nat :=
  let counts := rc[frame]?.getD (0, 0)
  if writable then counts.2 else counts.1

def put (rc : FrameRcMap) (writable : Bool) (frame n : Nat) : FrameRcMap :=
  let counts := rc[frame]?.getD (0, 0)
  rc.insert frame (if writable then (counts.1, n) else (n, counts.2))

/-- `write_increase` and `read_increase`. -/
def increase (rc : FrameRcMap) (writable : Bool) (frame : Nat) : Option FrameRcMap :=
  let n := rc.count writable frame
  if n + 1 < 2 ^ 16 then some (rc.put writable frame (n + 1)) else none

/-- `write_decrease` and `read_decrease`. -/
def decrease (rc : FrameRcMap) (writable : Bool) (frame : Nat) : Option FrameRcMap :=
  let n := rc.count writable frame
  if n = 0 then none else some (rc.put writable frame (n - 1))

theorem count_put (rc : FrameRcMap) (writable : Bool) (frame n : Nat) (w : Bool) (f : Nat) :
    (rc.put writable frame n).count w f = if (writable, frame) = (w, f) then n else rc.count w f := by
  unfold put count
  rw [get_insert]
  by_cases hf : frame = f
  · subst hf
    cases w <;> cases writable <;> simp
  · simp [hf]

theorem count_increased (rc : FrameRcMap) (writable : Bool) (frame : Nat) (w : Bool) (f : Nat) :
    (rc.put writable frame (rc.count writable frame + 1)).count w f =
      rc.count w f + if some (writable, frame) = some (w, f) then 1 else 0 := by
  rw [count_put]
  by_cases heq : (writable, frame) = (w, f)
  · cases heq
    rw [if_pos rfl, if_pos rfl]
  · rw [if_neg heq, if_neg fun h => heq (some.inj h), Nat.add_zero]

theorem count_decreased {rc : FrameRcMap} {writable : Bool} {frame : Nat} (hpos : 0 < rc.count writable frame)
    (w : Bool) (f : Nat) : rc.count w f = (rc.put writable frame (rc.count writable frame - 1)).count w f +
      if some (writable, frame) = some (w, f) then 1 else 0 := by
  rw [count_put]
  by_cases heq : (writable, frame) = (w, f)
  · cases heq
    rw [if_pos rfl, if_pos rfl, Nat.sub_add_cancel hpos]
  · rw [if_neg heq, if_neg fun h => heq (some.inj h), Nat.add_zero]

end FrameRcMap

/-- The page table by pages, the memory by frames, and the counts. -/
structure CowExt where
  entries : Nat → Option CowEntry
  data : Nat → Nat → UInt8
  rcMap : FrameRcMap

namespace CowExt

/-- Another entry for a page, and other counts. -/
def set (cow : CowExt) (page : Nat) (entry : Option CowEntry) (rcMap : FrameRcMap) : CowExt :=
  {cow with entries := Function.update cow.entries page entry, rcMap := rcMap}

/-- `PageTable::map`, which panics on a page that is mapped. -/
def map (cow : CowExt) (addr : Nat) (entry : CowEntry) : Option CowExt :=
  if cow.entries (addr / pageSize) = none then some (cow.set (addr / pageSize) (some entry) cow.rcMap) else none

/-- `map_to_shared`. -/
def mapToShared (cow : CowExt) (addr target : Nat) (writable : Bool) : Option CowExt := do
  let cow ← cow.map addr (CowEntry.mappedShared target writable)
  let rcMap ← cow.rcMap.increase writable (target / pageSize)
  return {cow with rcMap}

/-- The counts without the entry. -/
def released (cow : CowExt) (entry : CowEntry) : Option FrameRcMap :=
  match entry.shared with
  | some writable => cow.rcMap.decrease writable entry.frame
  | none => some cow.rcMap

/-- `unmap_shared`. -/
def unmapShared (cow : CowExt) (addr : Nat) : Option CowExt := do
  let entry ← cow.entries (addr / pageSize)
  let rcMap ← cow.released entry
  return cow.set (addr / pageSize) none rcMap

/-- `page_fault_handler`, where `alloc_frame` returns `alloc`. -/
def pageFaultHandler (cow : CowExt) (addr alloc : Nat) : Option (Bool × CowExt) :=
  match cow.entries (addr / pageSize) with
  | none => some (false, cow)
  | some entry =>
    if entry.shared = none then some (false, cow)
    else if cow.rcMap.count false entry.frame = 0 ∧ cow.rcMap.count true entry.frame = 1 then do
      let rcMap ← cow.rcMap.decrease true entry.frame
      return (true, cow.set (addr / pageSize) (some entry.owned) rcMap)
    else do
      let tempData := cow.data entry.frame
      let cow ← cow.unmapShared addr
      let cow ← cow.map addr (CowEntry.mapped alloc)
      return (true, {cow with data := Function.update cow.data (alloc / pageSize) tempData})

/-- The byte that is read at an address. -/
def read (cow : CowExt) (addr : Nat) : Option UInt8 :=
  (cow.entries (addr / pageSize)).map fun entry => cow.data entry.frame (addr % pageSize)

/-- A write by the processor, which faults unless the entry is writable. -/
def write (cow : CowExt) (addr : Nat) (byte : UInt8) : Option CowExt := do
  let entry ← (cow.entries (addr / pageSize)).filter CowEntry.writable
  let content := Function.update (cow.data entry.frame) (addr % pageSize) byte
  return {cow with data := Function.update cow.data entry.frame content}

end CowExt

inductive CowOp where
  | mapToShared (addr target : Nat) (writable : Bool)
  | unmapShared (addr : Nat)
  | pageFaultHandler (addr alloc : Nat)
  | write (addr : Nat) (byte : UInt8)

def cowStep (cow : CowExt) : CowOp → Option CowExt
  | .mapToShared addr target writable => cow.mapToShared addr target writable
  | .unmapShared addr => cow.unmapShared addr
  | .pageFaultHandler addr alloc => (cow.pageFaultHandler addr alloc).map Prod.snd
  | .write addr byte => cow.write addr byte

def cowRuns : System CowExt CowOp := ⟨cowStep⟩

/-! ### The counts are right -/

def CowEntry.key (entry : CowEntry) : Option (Bool × Nat) := entry.shared.map fun writable => (writable, entry.frame)

namespace CowExt

/-- The kind of sharing and the frame that a page counts for. -/
def key (cow : CowExt) (page : Nat) : Option (Bool × Nat) := (cow.entries page).bind CowEntry.key

/-- How many entries share the frame. -/
noncomputable def sharers (cow : CowExt) (writable : Bool) (frame : Nat) : Nat :=
  (placesOf cow.key (writable, frame)).ncard

structure Balanced (cow : CowExt) : Prop where
  finite : {page | cow.entries page ≠ none}.Finite
  counts : ∀ writable frame, cow.rcMap.count writable frame = cow.sharers writable frame
  modes : ∀ page entry, cow.entries page = some entry → entry.writable = entry.shared.isNone
  alone : ∀ page entry, cow.entries page = some entry → entry.shared = none →
    ∀ page' entry', cow.entries page' = some entry' → entry'.frame = entry.frame → page' = page

theorem key_set (cow : CowExt) (page : Nat) (entry : Option CowEntry) (rcMap : FrameRcMap) :
    (cow.set page entry rcMap).key = Function.update cow.key page (entry.bind CowEntry.key) := by
  funext q
  by_cases hq : q = page <;> simp [key, set, hq]

theorem set_set (cow : CowExt) (page : Nat) (e e' : Option CowEntry) (rc rc' : FrameRcMap) :
    (cow.set page e rc).set page e' rc' = cow.set page e' rc' := by
  simp only [set, update_idem]

theorem entries_set_none {cow : CowExt} {page q : Nat} {e : CowEntry} {rcMap : FrameRcMap}
    (h : (cow.set page none rcMap).entries q = some e) : q ≠ page ∧ cow.entries q = some e := by
  simp only [set, update_apply] at h
  exact ite_none_left_eq_some.mp h

namespace Balanced
variable {cow : CowExt} {page : Nat} {entry : CowEntry} {rcMap : FrameRcMap}

theorem keys_finite (h : cow.Balanced) : {q | cow.key q ≠ none}.Finite :=
  h.finite.subset fun q hq hnone => hq (by rw [key, hnone, bind_none])

theorem erase (h : cow.Balanced) (hentry : cow.entries page = some entry)
    (hrc : ∀ w f, cow.rcMap.count w f = rcMap.count w f + if entry.key = some (w, f) then 1 else 0) :
    (cow.set page none rcMap).Balanced := by
  have hold : ∀ q e, (cow.set page none rcMap).entries q = some e → cow.entries q = some e :=
    fun q e he => (entries_set_none he).2
  refine ⟨h.finite.subset fun q hq hnone => ?_, fun w f => ?_, fun q e he => h.modes q e (hold q e he),
    fun q e he hprivate q' e' he' => h.alone q e (hold q e he) hprivate q' e' (hold q' e' he')⟩
  · obtain ⟨e, he⟩ := ne_none_iff_exists'.mp hq
    exact some_ne_none e ((hold q e he).symm.trans hnone)
  · have hkey : cow.key page = entry.key := by rw [key, hentry, bind_some]
    have hcount := h.counts w f
    rw [hrc, sharers, ncard_placesOf_erase h.keys_finite, hkey] at hcount
    rw [sharers, key_set]
    exact Nat.add_right_cancel hcount

theorem fill (h : cow.Balanced) (hnone : cow.entries page = none)
    (hrc : ∀ w f, rcMap.count w f = cow.rcMap.count w f + if entry.key = some (w, f) then 1 else 0)
    (hmode : entry.writable = entry.shared.isNone) (hfree : ∀ q e, cow.entries q = some e →
      e.shared = none ∨ entry.shared = none → e.frame ≠ entry.frame) :
    (cow.set page (some entry) rcMap).Balanced := by
  have hcases : ∀ q e, Function.update cow.entries page (some entry) q = some e →
      q = page ∧ e = entry ∨ cow.entries q = some e := by
    intro q e he
    by_cases hq : q = page
    · rw [hq, update_self] at he
      exact .inl ⟨hq, (some.inj he).symm⟩
    · rw [update_of_ne hq] at he
      exact .inr he
  refine ⟨(h.finite.insert page).subset fun q hq => ?_, fun w f => ?_, fun q e he => ?_, ?_⟩
  · by_cases hqp : q = page
    · exact .inl hqp
    · exact .inr fun hold => hq ((update_of_ne hqp ..).trans hold)
  · have hkey : cow.key page = none := by rw [key, hnone, bind_none]
    refine (hrc w f).trans ?_
    rw [h.counts, sharers, sharers, key_set, ncard_placesOf_insert h.keys_finite hkey, bind_some]
  · rcases hcases q e he with ⟨_, rfl⟩ | hold
    · exact hmode
    · exact h.modes q e hold
  · intro q e he hprivate q' e' he' hframe
    rcases hcases q e he with ⟨hq, rfl⟩ | hold <;> rcases hcases q' e' he' with ⟨hq', rfl⟩ | hold'
    · rw [hq, hq']
    · exact absurd hframe (hfree q' e' hold' (.inr hprivate))
    · exact absurd hframe.symm (hfree q e hold (.inl hprivate))
    · exact h.alone q e hold hprivate q' e' hold' hframe

theorem own (h : cow.Balanced) (hnone : cow.entries page = none) (hmode : entry.writable = true)
    (hshared : entry.shared = none) (hfree : ∀ q e, cow.entries q = some e → e.frame ≠ entry.frame) :
    (cow.set page (some entry) cow.rcMap).Balanced := by
  refine h.fill hnone (fun w f => ?_) (by rw [hmode, hshared]; rfl) fun q e he _ => hfree q e he
  rw [CowEntry.key, hshared, map_none, if_neg (some_ne_none _).symm, Nat.add_zero]

theorem count_pos (h : cow.Balanced) {writable : Bool} (hentry : cow.entries page = some entry)
    (hshared : entry.shared = some writable) : 0 < cow.rcMap.count writable entry.frame := by
  rw [h.counts, sharers, Set.ncard_pos (placesOf_finite h.keys_finite _)]
  exact ⟨page, by rw [placesOf, Set.mem_ofPred_eq, key, hentry, bind_some, CowEntry.key, hshared]; rfl⟩

end Balanced

/-! ### What the operations do -/

/-- The operation meets the conditions of its callers. -/
def Fits (cow : CowExt) : CowOp → Prop
  | .mapToShared addr target _ => cow.entries (addr / pageSize) = none ∧
    (∀ page entry, cow.entries page = some entry → entry.shared = none → entry.frame ≠ target / pageSize) ∧
    cow.sharers false (target / pageSize) + cow.sharers true (target / pageSize) + 1 < 65536
  | .unmapShared addr => cow.entries (addr / pageSize) ≠ none
  | .pageFaultHandler _ alloc => ∀ page entry, cow.entries page = some entry → entry.frame ≠ alloc / pageSize
  | .write addr _ => ∃ entry, cow.entries (addr / pageSize) = some entry ∧ entry.writable = true

variable {cow next : CowExt} {addr target alloc : Nat} {entry : CowEntry}

theorem frame_mapped (target : Nat) : (CowEntry.mapped target).frame = target / pageSize :=
  Nat.mul_div_cancel _ (by decide)

theorem map_eq (h : cow.entries (addr / pageSize) = none) (entry : CowEntry) :
    cow.map addr entry = some (cow.set (addr / pageSize) (some entry) cow.rcMap) := if_pos h

theorem map_some (h : cow.map addr entry = some next) :
    cow.entries (addr / pageSize) = none ∧ next = cow.set (addr / pageSize) (some entry) cow.rcMap := by
  obtain ⟨hnone, hnext⟩ := ite_none_right_eq_some.mp h
  exact ⟨hnone, (some.inj hnext).symm⟩

variable {writable shared : Bool}

theorem mapToShared_some (h : cow.mapToShared addr target writable = some next) :
    cow.entries (addr / pageSize) = none ∧
      next.entries = Function.update cow.entries (addr / pageSize) (some (.mappedShared target writable)) := by
  obtain ⟨mid, hmap, hrest⟩ := bind_eq_some_iff.mp h
  obtain ⟨rcMap, _, hnext⟩ := bind_eq_some_iff.mp hrest
  obtain ⟨hnone, hmid⟩ := map_some hmap
  cases hnext
  exact ⟨hnone, by rw [hmid]; rfl⟩

theorem unmapShared_some (h : cow.unmapShared addr = some next) :
    next.entries = Function.update cow.entries (addr / pageSize) none := by
  obtain ⟨entry, _, hrest⟩ := bind_eq_some_iff.mp h
  obtain ⟨rcMap, _, hnext⟩ := bind_eq_some_iff.mp hrest
  cases hnext
  rfl

theorem Balanced.mapToShared (h : cow.Balanced) (hfits : cow.Fits (.mapToShared addr target writable)) :
    ∃ next, cow.mapToShared addr target writable = some next ∧ next.Balanced := by
  obtain ⟨hnone, hfree, hlt⟩ := hfits
  have hroom : cow.rcMap.count writable (target / pageSize) + 1 < 2 ^ 16 := by
    rw [h.counts]
    cases writable <;> omega
  have hframe : (CowEntry.mappedShared target writable).frame = target / pageSize := frame_mapped target
  let rcMap := cow.rcMap.put writable (target / pageSize) (cow.rcMap.count writable (target / pageSize) + 1)
  have hincrease : cow.rcMap.increase writable (target / pageSize) = some rcMap := if_pos hroom
  refine ⟨cow.set (addr / pageSize) (some (.mappedShared target writable)) rcMap, ?_,
    h.fill hnone (fun w f => ?_) rfl fun q e he hprivate => ?_⟩
  · rw [CowExt.mapToShared, map_eq hnone]
    change (cow.rcMap.increase writable (target / pageSize)).bind (fun rcMap =>
      some (cow.set (addr / pageSize) (some (.mappedShared target writable)) rcMap)) = _
    rw [hincrease, bind_some]
  · rw [FrameRcMap.count_increased, CowEntry.key, hframe]
    rfl
  · rw [hframe]
    exact hfree q e he (hprivate.resolve_right (some_ne_none _))

theorem Balanced.unmapShared (h : cow.Balanced) (hentry : cow.entries (addr / pageSize) = some entry) :
    ∃ rcMap, cow.unmapShared addr = some (cow.set (addr / pageSize) none rcMap) ∧
      (cow.set (addr / pageSize) none rcMap).Balanced := by
  cases hshared : entry.shared with
  | none =>
    refine ⟨cow.rcMap, by rw [CowExt.unmapShared, hentry]; simp [released, hshared], h.erase hentry fun w f => ?_⟩
    rw [CowEntry.key, hshared, map_none, if_neg (some_ne_none _).symm, Nat.add_zero]
  | some writable =>
    have hpos := h.count_pos hentry hshared
    refine ⟨_, by rw [CowExt.unmapShared, hentry]; simp [released, hshared, FrameRcMap.decrease, hpos.ne']; rfl,
      h.erase hentry fun w f => ?_⟩
    rw [CowEntry.key, hshared, Option.map_some]
    exact FrameRcMap.count_decreased hpos w f

theorem Balanced.takeOver (h : cow.Balanced) {page : Nat} (hentry : cow.entries page = some entry)
    (hshared : entry.shared = some shared) (hreads : cow.rcMap.count false entry.frame = 0)
    (hwrites : cow.rcMap.count true entry.frame = 1) :
    ∃ rcMap, cow.rcMap.decrease true entry.frame = some rcMap ∧
      (cow.set page (some entry.owned) rcMap).Balanced := by
  have hpos := h.count_pos hentry hshared
  have hkind : shared = true := by
    cases shared with
    | true => rfl
    | false => omega
  subst hkind
  have hdec := FrameRcMap.count_decreased hpos
  refine ⟨_, if_neg hpos.ne', ?_⟩
  have hgone := h.erase hentry fun w f => (by rw [CowEntry.key, hshared]; exact hdec w f)
  rw [← set_set cow page none]
  refine hgone.own (update_self ..) rfl rfl fun q e he (hframe : e.frame = entry.frame) => ?_
  -- an entry that is left and has the frame would be counted, or be private
  obtain ⟨hq, hold⟩ := entries_set_none he
  cases he' : e.shared with
  | none => exact hq (h.alone q e hold he' page entry hentry hframe.symm).symm
  | some w =>
    have hleft := hgone.count_pos he he'
    have hbefore := hdec w e.frame
    rw [hframe] at hleft hbefore
    change 0 < (FrameRcMap.put _ _ _ _).count w entry.frame at hleft
    cases w with
    | false => omega
    | true =>
      rw [if_pos rfl] at hbefore
      omega

theorem Balanced.pageFaultHandler (h : cow.Balanced) (hfits : cow.Fits (.pageFaultHandler addr alloc)) :
    ∃ copied next, cow.pageFaultHandler addr alloc = some (copied, next) ∧ next.Balanced ∧
      ∀ a, next.read a = cow.read a := by
  rw [CowExt.pageFaultHandler]
  cases hentry : cow.entries (addr / pageSize) with
  | none => exact ⟨false, cow, rfl, h, fun _ => rfl⟩
  | some entry =>
    cases hshared : entry.shared with
    | none => exact ⟨false, cow, if_pos hshared, h, fun _ => rfl⟩
    | some shared =>
      dsimp only
      rw [if_neg (by rw [hshared]; exact some_ne_none _)]
      split
      · next hlast =>
        obtain ⟨rcMap, hdec, hnext⟩ := h.takeOver hentry hshared hlast.1 hlast.2
        refine ⟨true, _, by rw [hdec]; rfl, hnext, fun a => ?_⟩
        by_cases ha : a / pageSize = addr / pageSize
        · simp [read, set, ha, hentry, CowEntry.owned, CowEntry.frame]
        · simp [read, set, ha]
      · obtain ⟨rcMap, hunmap, hgone⟩ := h.unmapShared hentry
        have hnone : (cow.set (addr / pageSize) none rcMap).entries (addr / pageSize) = none := update_self ..
        have hmap := map_eq hnone (.mapped alloc)
        have hfree : ∀ q e, (cow.set (addr / pageSize) none rcMap).entries q = some e →
            e.frame ≠ (CowEntry.mapped alloc).frame := by
          intro q e he
          rw [frame_mapped]
          exact hfits q e (entries_set_none he).2
        have hown := hgone.own hnone rfl rfl hfree
        rw [set_set] at hmap hown
        refine ⟨true, {cow.set (addr / pageSize) (some (.mapped alloc)) rcMap with
          data := Function.update cow.data (alloc / pageSize) (cow.data entry.frame)},
          by rw [hunmap, bind_eq_bind, bind_some, hmap]; rfl,
          ⟨hown.finite, hown.counts, hown.modes, hown.alone⟩, fun a => ?_⟩
        by_cases ha : a / pageSize = addr / pageSize
        · simp [read, set, ha, hentry, frame_mapped]
        · cases he : cow.entries (a / pageSize) with
          | none => simp [read, set, ha, he]
          | some e => simp [read, set, ha, he, hfits _ e he]

theorem Balanced.step (h : cow.Balanced) {op : CowOp} (hfits : cow.Fits op) :
    ∃ next, cowStep cow op = some next ∧ next.Balanced := by
  cases op with
  | mapToShared addr target writable => exact h.mapToShared hfits
  | unmapShared addr =>
    obtain ⟨entry, hentry⟩ := ne_none_iff_exists'.mp hfits
    obtain ⟨rcMap, hunmap, hnext⟩ := h.unmapShared hentry
    exact ⟨_, hunmap, hnext⟩
  | pageFaultHandler addr alloc =>
    obtain ⟨copied, next, hfault, hnext, _⟩ := h.pageFaultHandler hfits
    exact ⟨next, by rw [cowStep, hfault]; rfl, hnext⟩
  | write addr byte =>
    obtain ⟨entry, hentry, hwritable⟩ := hfits
    refine ⟨_, by rw [cowStep, CowExt.write, hentry, filter_some, if_pos hwritable]; rfl, ?_⟩
    exact ⟨h.finite, h.counts, h.modes, h.alone⟩

/-- `CowExt::new`. -/
def new (entries : Nat → Option CowEntry) (data : Nat → Nat → UInt8) : CowExt := ⟨entries, data, ∅⟩

end CowExt

/-- **Writers are isolated.** In every sequence of operations that meet their conditions no count overflows or
underflows, the counts are the numbers of the entries that share, a private entry has its frame alone, and a page
fault changes nothing that is read. -/
theorem cow_isolates {entries : Nat → Option CowEntry} {data : Nat → Nat → UInt8} {ops : List CowOp}
    (hstart : (CowExt.new entries data).Balanced) (hfits : cowRuns.Asks CowExt.Fits (.new entries data) ops) :
    (∃ last, cowRuns.run (.new entries data) ops = some last) ∧
    cowRuns.Always CowExt.Balanced (.new entries data) ops ∧
    ∀ done addr alloc cow next, done ++ [.pageFaultHandler addr alloc] <+: ops →
      cowRuns.run (.new entries data) done = some cow → cowStep cow (.pageFaultHandler addr alloc) = some next →
      ∀ a, next.read a = cow.read a := by
  have halways : cowRuns.Always CowExt.Balanced (.new entries data) ops := by
    refine System.always_of_guarded (fun cow op next h hop hstep => ?_) hstart
      fun done op cow next hpre hrun _ => hfits done op cow hpre hrun
    obtain ⟨next', hstep', hnext⟩ := h.step hop
    cases hstep.symm.trans hstep'
    exact hnext
  refine ⟨System.run_of_asks (G := fun cow op => cow.Balanced ∧ cow.Fits op) (fun cow op h => ?_) ?_, halways, ?_⟩
  · obtain ⟨next, hstep, _⟩ := h.1.step h.2
    exact ⟨next, hstep⟩
  · intro done op cow hpre hrun
    exact ⟨halways done cow ((prefix_append done [op]).trans hpre) hrun, hfits done op cow hpre hrun⟩
  · intro done addr alloc cow next hpre hrun hstep
    have hcow := halways done cow ((prefix_append done _).trans hpre) hrun
    obtain ⟨copied, next', hfault, _, hread⟩ := hcow.pageFaultHandler (hfits done _ cow hpre hrun)
    rw [cowStep, hfault] at hstep
    cases hstep
    exact hread

/-- A table without entries. -/
def CowExt.unmapped : CowExt := .new (fun _ => none) fun _ _ => 0

theorem CowExt.unmapped_balanced : unmapped.Balanced := by
  refine ⟨by simp [unmapped, CowExt.new], fun w f => ?_, fun _ _ h => (by cases h), fun _ _ h => (by cases h)⟩
  cases w <;> simp [unmapped, CowExt.new, FrameRcMap.count, CowExt.sharers, placesOf, CowExt.key]

/-- Of two pages that share a frame the first gets a copy and writes to it, and the second has the frame alone
then. -/
def twoSharers : List CowOp :=
  [.mapToShared 0x1000 0 true, .mapToShared 0x2000 0 true, .pageFaultHandler 0x1000 0x4000, .write 0x1000 7,
    .pageFaultHandler 0x2000 0x5000]

theorem frame_ne_of_update {entries : Nat → Option CowEntry} {page n : Nat} {entry : Option CowEntry}
    (h : ∀ q e, entries q = some e → e.frame ≠ n) (hentry : entry.all (fun e => e.frame ≠ n) = true) (q : Nat)
    (e : CowEntry) (he : Function.update entries page entry q = some e) : e.frame ≠ n := by
  rw [update_apply] at he
  split at he
  · rw [he] at hentry
    exact of_decide_eq_true hentry
  · exact h q e he

theorem twoSharers_fits : cowRuns.Asks CowExt.Fits .unmapped twoSharers := by
  have hfirst : cowRuns.Asks CowExt.Fits .unmapped (twoSharers.take 1) := by
    refine System.asks_nil.concat fun cow hrun => ?_
    cases hrun
    exact ⟨rfl, fun _ _ h => (by cases h), by simp [CowExt.unmapped, CowExt.new, CowExt.sharers, placesOf, CowExt.key]⟩
  have hsecond : cowRuns.Asks CowExt.Fits .unmapped (twoSharers.take 2) := by
    refine hfirst.concat fun cow hrun => ?_
    obtain ⟨_, hstep, hbalanced⟩ := CowExt.unmapped_balanced.step hfirst.head
    cases hrun
    cases hstep
    refine ⟨rfl, fun page entry h hprivate => ?_, ?_⟩
    · simp only [CowExt.set, update_apply, CowExt.unmapped, CowExt.new] at h
      split at h
      · rw [← some.inj h] at hprivate
        cases hprivate
      · cases h
    · rw [← hbalanced.counts, ← hbalanced.counts]
      decide +kernel
  have hthird : cowRuns.Asks CowExt.Fits .unmapped (twoSharers.take 3) := by
    refine hsecond.concat fun cow hrun => ?_
    cases hrun
    exact frame_ne_of_update (frame_ne_of_update (fun _ _ h => by cases h) (by decide +kernel)) (by decide +kernel)
  have hfourth : cowRuns.Asks CowExt.Fits .unmapped (twoSharers.take 4) := by
    refine hthird.concat fun cow hrun => ?_
    cases hrun
    exact ⟨.mapped 0x4000, rfl, rfl⟩
  refine hfourth.concat fun cow hrun => ?_
  cases hrun
  refine frame_ne_of_update (frame_ne_of_update ?_ (by decide +kernel)) (by decide +kernel)
  exact frame_ne_of_update (frame_ne_of_update (fun _ _ h => by cases h) (by decide +kernel)) (by decide +kernel)

theorem cow_isolates_two : ∃ last, cowRuns.run .unmapped twoSharers = some last ∧ last.Balanced ∧
    last.entries 1 = some ⟨0x4000, true, none⟩ ∧ last.read 0x1000 = some 7 ∧
    last.entries 2 = some ⟨0, true, none⟩ ∧ last.read 0x2000 = some 0 := by
  obtain ⟨⟨last, hrun⟩, halways, _⟩ := cow_isolates CowExt.unmapped_balanced twoSharers_fits
  have hlast : (cowRuns.run .unmapped twoSharers).all (fun cow => decide (cow.entries 1 = some ⟨0x4000, true, none⟩ ∧
      cow.read 0x1000 = some 7 ∧ cow.entries 2 = some ⟨0, true, none⟩ ∧ cow.read 0x2000 = some 0)) = true := by
    decide +kernel
  rw [show cowRuns.run .unmapped twoSharers = some last from hrun] at hlast
  exact ⟨last, hrun, halways twoSharers last (prefix_refl _) hrun, of_decide_eq_true hlast⟩

/-! ### Readonly pages -/

namespace CowExt
variable {cow next : CowExt} {op : CowOp} {page alloc : Nat} {entry : CowEntry}

/-- No fault is made on a page that is shared and readonly. -/
def Spares (cow : CowExt) : CowOp → Prop
  | .pageFaultHandler addr _ => ∀ entry, cow.entries (addr / pageSize) = some entry → entry.shared ≠ some false
  | _ => True

theorem pageFaultHandler_some {addr : Nat} {copied : Bool}
    (h : cow.pageFaultHandler addr alloc = some (copied, next)) :
    ∃ e, next.entries = Function.update cow.entries (addr / pageSize) e := by
  unfold pageFaultHandler at h
  have hsame : ∃ e, cow.entries = Function.update cow.entries (addr / pageSize) e :=
    ⟨_, (update_eq_self ..).symm⟩
  split at h
  · cases h
    exact hsame
  · split at h
    · cases h
      exact hsame
    · split at h
      · obtain ⟨rcMap, _, hnext⟩ := bind_eq_some_iff.mp h
        cases hnext
        exact ⟨_, rfl⟩
      · obtain ⟨gone, hunmap, hrest⟩ := bind_eq_some_iff.mp h
        obtain ⟨mapped, hmap, hnext⟩ := bind_eq_some_iff.mp hrest
        cases hnext
        refine ⟨some (.mapped alloc), ?_⟩
        rw [(map_some hmap).2, set, unmapShared_some hunmap, update_idem]

/-- A readonly entry stays, unless it is unmapped or a fault is made on it. -/
theorem readonly_step (hstep : cowStep cow op = some next) (hentry : cow.entries page = some entry)
    (hreadonly : entry.shared = some false) (hspares : cow.Spares op)
    (hmapped : ∀ addr, op = .unmapShared addr → page ≠ addr / pageSize) : next.entries page = some entry := by
  have hother : ∀ q e, next.entries = Function.update cow.entries q e → page ≠ q → next.entries page = some entry := by
    intro q e hnext hne
    rw [hnext, update_of_ne hne, hentry]
  cases op with
  | mapToShared addr target writable =>
    obtain ⟨hnone, hnext⟩ := mapToShared_some hstep
    exact hother _ _ hnext fun heq => some_ne_none entry (hentry.symm.trans (heq ▸ hnone))
  | unmapShared addr => exact hother _ _ (unmapShared_some hstep) (hmapped addr rfl)
  | pageFaultHandler addr alloc =>
    obtain ⟨⟨copied, last⟩, hfault, hlast⟩ := map_eq_some_iff.mp hstep
    obtain ⟨e, hnext⟩ := pageFaultHandler_some hfault
    cases hlast
    exact hother _ _ hnext fun heq => hspares entry (heq ▸ hentry) hreadonly
  | write addr byte =>
    obtain ⟨e, _, hnext⟩ := bind_eq_some_iff.mp hstep
    cases hnext
    exact hentry

end CowExt

/-- **Readonly pages stay readonly.** In every sequence in which no fault is made on a page that is shared and
readonly, what `map_to_shared` mapped so keeps its frame and its mode until it is unmapped. -/
theorem readonly_kept {start : CowExt} {ops done later : List CowOp} {addr target : Nat} {cow : CowExt}
    (hspares : cowRuns.Guarded CowExt.Spares start ops)
    (hpre : done ++ .mapToShared addr target false :: later <+: ops)
    (hlater : ∀ op ∈ later, ∀ addr', op = .unmapShared addr' → addr / pageSize ≠ addr' / pageSize)
    (hrun : cowRuns.run start (done ++ .mapToShared addr target false :: later) = some cow) :
    cow.entries (addr / pageSize) = some (.mappedShared target false) := by
  induction later using List.reverseRecOn generalizing cow with
  | nil =>
    rw [System.run_concat, bind_eq_some_iff] at hrun
    obtain ⟨before, _, hstep⟩ := hrun
    rw [(CowExt.mapToShared_some hstep).2, update_self]
  | append_singleton rest op ih =>
    have hsplit : done ++ .mapToShared addr target false :: (rest ++ [op]) =
        done ++ .mapToShared addr target false :: rest ++ [op] := by simp
    rw [hsplit] at hpre hrun
    rw [System.run_concat, bind_eq_some_iff] at hrun
    obtain ⟨before, hbefore, hstep⟩ := hrun
    have hkept := ih ((prefix_append _ [op]).trans hpre)
      (fun op hop => hlater op (mem_append_left _ hop)) hbefore
    exact CowExt.readonly_step hstep hkept rfl (hspares _ op before cow hpre hbefore hstep)
      (hlater op (mem_append_right _ (mem_singleton_self op)))

/-- The other sharer of the frame gets a copy and writes to it. -/
theorem readonly_kept_beside : ∃ cow, cowRuns.run .unmapped ([] ++ .mapToShared 0x1000 0 false ::
      [.mapToShared 0x2000 0 true, .pageFaultHandler 0x2000 0x4000, .write 0x2000 7]) = some cow ∧
    cow.entries (0x1000 / pageSize) = some (.mappedShared 0 false) ∧ cow.read 0x1000 = some 0 ∧
    cow.read 0x2000 = some 7 := by
  have hspares : cowRuns.Guarded CowExt.Spares .unmapped ([] ++ .mapToShared 0x1000 0 false ::
      [.mapToShared 0x2000 0 true, .pageFaultHandler 0x2000 0x4000, .write 0x2000 7]) := by
    refine System.Guarded.concat (System.Guarded.concat ((System.guarded_nil.concat fun _ _ => trivial).concat
      fun _ _ => trivial) fun cow hrun entry hentry => ?_) fun _ _ => trivial
    cases hrun
    simp only [CowExt.set, update_self] at hentry
    rw [← some.inj hentry]
    decide
  exact ⟨_, rfl, readonly_kept hspares (prefix_refl _) (by simp) rfl, rfl, rfl⟩

/-- A fault on a readonly page copies it, and the copy can be written. -/
theorem readonly_copied : ((cowRuns.run .unmapped [.mapToShared 0x1000 0 false]).bind
    fun cow => cow.pageFaultHandler 0x1000 0x4000).map (fun (copied, next) => (copied, next.entries 1)) =
      some (true, some ⟨0x4000, true, none⟩) := by
  rfl

end ChaosKernel.RcoreMemory
