import ChaosKernel.Base.Run
import ChaosKernel.Ipc.Semaphore

/-! What is undone when a process ends.

A process acquires and releases semaphores and records each operation. Its record for a
semaphore is how many more it acquired than released through one number of the array
(`owed`). Dropping the context gives back one unit for each record that is 1, so the
semaphores have their old values again exactly when these records make up the net effect.
Where no array is open twice, every record has to be 0 or 1 (`undoable_unshared_iff`). -/
namespace ChaosKernel.Ipc
open Base List Option

inductive SemKind where
  | tryAcquire
  | release
  deriving DecidableEq, Repr

namespace SemKind

/-- What is recorded. -/
def op : SemKind → Int
  | .tryAcquire => -1
  | .release => 1

/-- A call that succeeds. -/
def act : SemKind → Sema → Option Sema
  | .tryAcquire, s =>
    match s.tryAcquire with
    | (.ok true, s') => some s'
    | _ => none
  | .release, s => s.release

theorem act_cnt (kind : SemKind) (s s' : Sema) (h : kind.act s = some s') : s'.cnt = s.cnt + kind.op := by
  cases kind with
  | tryAcquire =>
    simp only [act] at h
    split at h
    · next s'' heq =>
      cases h
      exact Sema.tryAcquire_cnt heq
    · cases h
  | release => exact Sema.release_cnt s s' h

end SemKind

/-- An operation on the semaphore `num` of the array that is open as `id`, and its record. -/
structure SemStep where
  id : Nat
  num : Nat
  kind : SemKind
  deriving DecidableEq, Repr

structure SemWorld where
  heap : SemHeap
  ctx : SemCtx

/-- A process with open arrays and no records. -/
def SemWorld.fresh (heap : SemHeap) (arrays : BTreeMap Nat) : SemWorld := ⟨heap, ⟨arrays, ∅⟩⟩

def semSteps : System SemWorld SemStep where
  step w s := w.ctx.arrays[s.id]?.bind fun arr => (w.heap.update arr s.num s.kind.act).bind fun heap =>
    (w.ctx.addUndo s.id s.num s.kind.op).map fun ctx => ⟨heap, ctx⟩

/-- What the operations did to a semaphore. -/
def netEffect (arrays : BTreeMap Nat) (steps : List SemStep) (arr num : Nat) : Int :=
  (steps.map fun s => if arrays[s.id]? = some arr ∧ s.num = num then s.kind.op else 0).sum

/-- How many more were acquired than released through one number. -/
def owed (steps : List SemStep) (id num : Nat) : Int :=
  (steps.map fun s => if s.id = id ∧ s.num = num then -s.kind.op else 0).sum

/-- The numbers under which an array is open. -/
def openIds (arrays : BTreeMap Nat) (arr : Nat) : List Nat :=
  (arrays.toList.filter (·.2 == arr)).map Prod.fst

/-- Dropping the context takes back the net effect of the operations on every semaphore, and the
values are those from before. -/
def Restored (heap : SemHeap) (arrays : BTreeMap Nat) (steps : List SemStep) (w : SemWorld) : Prop :=
  ∃ heap', w.ctx.drop w.heap = some heap' ∧ ∀ arr num,
    heap'.value arr num = (w.heap.value arr num).map (· - netEffect arrays steps arr num) ∧
      heap'.value arr num = heap.value arr num

/-- The numbers through which one more was acquired than released make up what was acquired of a
semaphore in all. -/
def Undoable (heap : SemHeap) (arrays : BTreeMap Nat) (steps : List SemStep) : Prop :=
  ∀ arr num, (heap.value arr num).isSome →
    ((openIds arrays arr).countP (fun id => owed steps id num == 1) : Int) = -netEffect arrays steps arr num

/-! ### What a run records -/

theorem netEffect_concat (arrays : BTreeMap Nat) (steps : List SemStep) (s : SemStep) (arr num : Nat) :
    netEffect arrays (steps ++ [s]) arr num =
      netEffect arrays steps arr num + if arrays[s.id]? = some arr ∧ s.num = num then s.kind.op else 0 := by
  rw [netEffect, map_append, sum_append, map_singleton, sum_singleton, netEffect]

theorem owed_concat (steps : List SemStep) (s : SemStep) (id num : Nat) :
    owed (steps ++ [s]) id num = owed steps id num + if s.id = id ∧ s.num = num then -s.kind.op else 0 := by
  rw [owed, map_append, sum_append, map_singleton, sum_singleton, owed]

structure Recorded (heap : SemHeap) (arrays : BTreeMap Nat) (steps : List SemStep) (w : SemWorld) : Prop where
  same : w.ctx.arrays = arrays
  values : ∀ arr num, w.heap.value arr num = (heap.value arr num).map (· + netEffect arrays steps arr num)
  undos : ∀ id num, w.ctx.undos[(id, num)]?.getD 0 = owed steps id num
  keys : ∀ key ∈ w.ctx.undos, ∃ arr, arrays[key.1]? = some arr ∧ (heap.value arr key.2).isSome

theorem recorded_fresh (heap : SemHeap) (arrays : BTreeMap Nat) :
    Recorded heap arrays [] (.fresh heap arrays) where
  same := rfl
  values arr num := by
    rw [SemWorld.fresh]
    cases heap.value arr num <;> simp [netEffect]
  undos id num := by simp [SemWorld.fresh, owed]
  keys key hkey := by simp [SemWorld.fresh] at hkey

variable {heap : SemHeap} {arrays : BTreeMap Nat} {steps : List SemStep} {w : SemWorld}

theorem step_recorded (steps : List SemStep) (w : SemWorld) (s : SemStep) (w' : SemWorld)
    (h : Recorded heap arrays steps w) (hstep : semSteps.step w s = some w') :
    Recorded heap arrays (steps ++ [s]) w' := by
  obtain ⟨arr, harr, hstep⟩ := bind_eq_some_iff.mp hstep
  obtain ⟨heap', hheap, hstep⟩ := bind_eq_some_iff.mp hstep
  obtain ⟨ctx', hctx, heq⟩ := map_eq_some_iff.mp hstep
  subst heq
  rw [h.same] at harr
  refine ⟨(SemCtx.addUndo_arrays hctx).trans h.same, fun a n => ?_, fun i n => ?_, fun key hkey => ?_⟩
  · show heap'.value a n = _
    rw [SemHeap.value_update s.kind.act_cnt hheap, h.values, Option.map_map, netEffect_concat, harr]
    congr 1
    funext v
    simp only [Function.comp_apply, some.injEq, add_assoc]
  · show ctx'.undos[(i, n)]?.getD 0 = _
    rw [SemCtx.get_addUndo hctx, h.undos, owed_concat]
    split <;> omega
  · rcases SemCtx.mem_addUndo hctx hkey with heq | hkey
    · subst heq
      refine ⟨arr, harr, ?_⟩
      obtain ⟨sema, hsema, _⟩ := bind_eq_some_iff.mp hheap
      have hsome : (w.heap.value arr s.num).isSome := by
        rw [SemHeap.value, hsema]
        rfl
      rwa [h.values, isSome_map] at hsome
    · exact h.keys key hkey

/-! ### What is given back -/

variable {arr id num : Nat}

theorem mem_openIds : id ∈ openIds arrays arr ↔ arrays[id]? = some arr := by
  simp only [openIds, List.mem_map, mem_filter, Prod.exists, Std.ExtTreeMap.mem_toList_iff_getElem?_eq_some,
    beq_iff_eq, exists_and_right, exists_eq_right]

theorem openIds_nodup (arrays : BTreeMap Nat) (arr : Nat) : (openIds arrays arr).Nodup := by
  refine pairwise_map.mpr ((Std.ExtTreeMap.ordered_keys_toList (t := arrays)).filter _ |>.imp ?_)
  intro a b hlt heq
  rw [heq] at hlt
  exact absurd (Nat.compare_eq_lt.mp hlt) (lt_irrefl _)

theorem Recorded.countP_releases (h : Recorded heap arrays steps w) (arr num : Nat) :
    w.ctx.undos.toList.countP (w.ctx.releases arr num) =
      (openIds arrays arr).countP fun id => owed steps id num == 1 := by
  have hids : (w.ctx.undos.toList.filter (w.ctx.releases arr num)).length =
      ((w.ctx.undos.toList.filter (w.ctx.releases arr num)).map fun r => r.1.1).length :=
    (length_map _).symm
  rw [countP_eq_length_filter, countP_eq_length_filter, hids]
  refine List.Perm.length_eq ((perm_ext_iff_of_nodup ?_ ((openIds_nodup arrays arr).filter _)).mpr fun id => ?_)
  · refine pairwise_map.mpr (List.Pairwise.imp_of_mem ?_
      ((Std.ExtTreeMap.distinct_keys_toList (t := w.ctx.undos)).filter _))
    intro a b ha hb hne heq
    have hna := (SemCtx.releases_iff.mp (mem_filter.mp ha).2).2.1
    have hnb := (SemCtx.releases_iff.mp (mem_filter.mp hb).2).2.1
    exact hne (Std.LawfulEqCmp.compare_eq_iff_eq.mpr (Prod.ext heq (hna.trans hnb.symm)))
  · have howed : owed steps id num = 1 ↔ w.ctx.undos[(id, num)]? = some 1 := by
      rw [← h.undos]
      cases w.ctx.undos[(id, num)]? <;> simp
    rw [mem_filter, mem_openIds, beq_iff_eq, howed, List.mem_map]
    constructor
    · intro hmem
      obtain ⟨r, hr, heq⟩ := hmem
      obtain ⟨⟨i, n⟩, v⟩ := r
      obtain ⟨hmem, hrel⟩ := mem_filter.mp hr
      obtain ⟨harr, hnum, hone⟩ := SemCtx.releases_iff.mp hrel
      cases heq
      cases hnum
      cases hone
      exact ⟨h.same ▸ harr, Std.ExtTreeMap.mem_toList_iff_getElem?_eq_some.mp hmem⟩
    · intro hand
      refine ⟨((id, num), 1), mem_filter.mpr ⟨?_, ?_⟩, rfl⟩
      · exact Std.ExtTreeMap.mem_toList_iff_getElem?_eq_some.mpr hand.2
      · exact SemCtx.releases_iff.mpr ⟨h.same.symm ▸ hand.1, rfl, rfl⟩

theorem SemHeap.value_le {v : Int} (h : heap.value arr num = some v) : v ≤ maxCnt := by
  obtain ⟨s, _, hcnt⟩ := map_eq_some_iff.mp h
  exact hcnt ▸ s.fits.2

theorem Recorded.restored_iff_undoable (h : Recorded heap arrays steps w) :
    Restored heap arrays steps w ↔ Undoable heap arrays steps := by
  constructor
  · intro hr arr num hsome
    obtain ⟨heap', hdrop, hvalues⟩ := hr
    obtain ⟨v, hv⟩ := isSome_iff_exists.mp hsome
    have hnew := SemCtx.value_undoAll hdrop arr num
    rw [(hvalues arr num).2, h.countP_releases, h.values, hv] at hnew
    simp only [map_some, some.injEq] at hnew
    omega
  · intro hu
    have hsum (arr num : Nat) (v : Int) (hv : heap.value arr num = some v) :
        v + netEffect arrays steps arr num + (w.ctx.undos.toList.countP (w.ctx.releases arr num) : Int) = v := by
      have hcount := hu arr num (by rw [hv]; rfl)
      rw [h.countP_releases, hcount]
      omega
    obtain ⟨heap', hdrop⟩ : ∃ heap', w.ctx.undoAll w.heap w.ctx.undos.toList = some heap' := SemCtx.undoAll_returns
      (fun r hr a ha => by
        obtain ⟨arr, harr, hsome⟩ := h.keys r.1 (Std.ExtTreeMap.mem_iff_isSome_getElem?.mpr (by
          rw [Std.ExtTreeMap.mem_toList_iff_getElem?_eq_some.mp (show (r.1, r.2) ∈ _ from hr)]
          rfl))
        rw [h.same, harr] at ha
        cases ha
        rwa [h.values, isSome_map])
      (fun a n v hv => by
        rw [h.values] at hv
        obtain ⟨u, hu', heq⟩ := map_eq_some_iff.mp hv
        subst heq
        rw [hsum a n u hu']
        exact SemHeap.value_le hu')
    refine ⟨heap', hdrop, fun arr num => ?_⟩
    rw [SemCtx.value_undoAll hdrop, h.values]
    cases hv : heap.value arr num with
    | none => exact ⟨rfl, rfl⟩
    | some v =>
      simp only [map_some, hsum arr num v hv, add_sub_cancel_right, and_self]

/-- **Dropping the context restores the semaphores exactly when the records that are 1 make up what was
acquired.** -/
theorem restored_iff (heap : SemHeap) (arrays : BTreeMap Nat) (steps : List SemStep) (w : SemWorld)
    (hrun : semSteps.run (.fresh heap arrays) steps = some w) :
    Restored heap arrays steps w ↔ Undoable heap arrays steps :=
  (System.history_run (I := Recorded heap arrays) step_recorded (recorded_fresh heap arrays) hrun).restored_iff_undoable

/-- One acquisition is undone. -/
theorem restored_acquired :
    ∃ w, semSteps.run (.fresh [[⟨1, 0, false, 0, by decide⟩]] (Std.ExtTreeMap.insert ∅ 0 0)) [⟨0, 0, .tryAcquire⟩] =
        some w ∧
      Restored [[⟨1, 0, false, 0, by decide⟩]] (Std.ExtTreeMap.insert ∅ 0 0) [⟨0, 0, .tryAcquire⟩] w := by
  have hrun : (semSteps.run (.fresh [[⟨1, 0, false, 0, by decide⟩]] (Std.ExtTreeMap.insert ∅ 0 0))
      [⟨0, 0, .tryAcquire⟩]).isSome = true := by decide +kernel
  obtain ⟨w, hw⟩ := isSome_iff_exists.mp hrun
  refine ⟨w, hw, (restored_iff _ _ _ w hw).mpr fun arr num hsome => ?_⟩
  obtain ⟨v, hv⟩ := isSome_iff_exists.mp hsome
  obtain ⟨s, hs, _⟩ := map_eq_some_iff.mp hv
  obtain ⟨sems, hsems, hs⟩ := bind_eq_some_iff.mp hs
  have harr := (List.getElem?_eq_some_iff.mp hsems).1
  cases Nat.lt_one_iff.mp harr
  cases hsems
  cases Nat.lt_one_iff.mp (List.getElem?_eq_some_iff.mp hs).1
  decide +kernel

/-- Two acquisitions are not. -/
theorem two_acquired_not_restored :
    ∃ w, semSteps.run (.fresh [[⟨2, 0, false, 0, by decide⟩]] (Std.ExtTreeMap.insert ∅ 0 0))
        [⟨0, 0, .tryAcquire⟩, ⟨0, 0, .tryAcquire⟩] = some w ∧
      ¬Restored [[⟨2, 0, false, 0, by decide⟩]] (Std.ExtTreeMap.insert ∅ 0 0)
        [⟨0, 0, .tryAcquire⟩, ⟨0, 0, .tryAcquire⟩] w := by
  have hrun : ((semSteps.run (.fresh [[⟨2, 0, false, 0, by decide⟩]] (Std.ExtTreeMap.insert ∅ 0 0))
      [⟨0, 0, .tryAcquire⟩, ⟨0, 0, .tryAcquire⟩]).any fun w =>
        (w.ctx.drop w.heap).all fun heap => heap.value 0 0 == some 0) = true := by decide +kernel
  obtain ⟨w, hw, hall⟩ := (Option.any_eq_true _ _).mp hrun
  refine ⟨w, hw, fun hrestored => ?_⟩
  obtain ⟨heap, hdrop, hvalues⟩ := hrestored
  rw [hdrop, all_some, (hvalues 0 0).2] at hall
  exact absurd hall (by decide +kernel)

/-! ### Arrays that are open once -/

section Unshared
variable {arrays : BTreeMap Nat} (honce : ∀ i j arr : Nat, arrays[i]? = some arr → arrays[j]? = some arr → i = j)
include honce

variable {id arr : Nat}

theorem openIds_unshared (harr : arrays[id]? = some arr) : openIds arrays arr = [id] := by
  refine perm_singleton.mp ((perm_ext_iff_of_nodup (openIds_nodup arrays arr)
    (nodup_singleton id)).mpr fun i => ?_)
  rw [mem_openIds, mem_singleton]
  exact ⟨fun hi => honce i id arr hi harr, fun heq => heq ▸ harr⟩

theorem netEffect_unshared (harr : arrays[id]? = some arr) (steps : List SemStep) (num : Nat) :
    netEffect arrays steps arr num = -owed steps id num := by
  have hid (s : SemStep) : arrays[s.id]? = some arr ↔ s.id = id :=
    ⟨fun hs => honce s.id id arr hs harr, fun heq => heq ▸ harr⟩
  unfold netEffect owed
  induction steps with
  | nil => rfl
  | cons s rest ih =>
    rw [map_cons, map_cons, sum_cons, sum_cons, ih]
    simp only [hid]
    split <;> omega

/-- Where no array is open under two numbers, one unit may be owed for each semaphore, and no more. -/
theorem undoable_unshared_iff :
    Undoable heap arrays steps ↔ ∀ id arr num : Nat, arrays[id]? = some arr → (heap.value arr num).isSome →
      owed steps id num = 0 ∨ owed steps id num = 1 := by
  constructor
  · intro hu id arr num harr hsome
    have hcount := hu arr num hsome
    rw [openIds_unshared honce harr, netEffect_unshared honce harr, countP_singleton] at hcount
    by_cases hone : owed steps id num = 1
    · exact .inr hone
    · simp [hone] at hcount
      exact .inl hcount.symm
  · intro hall arr num hsome
    cases hopen : openIds arrays arr with
    | nil =>
      have hno (s : SemStep) : ¬(arrays[s.id]? = some arr ∧ s.num = num) := fun hs => by
        have hmem := mem_openIds.mpr hs.1
        rw [hopen] at hmem
        cases hmem
      rw [netEffect, countP_nil]
      simp only [hno, if_false]
      simp
    | cons id rest =>
      have harr : arrays[id]? = some arr := mem_openIds.mp (hopen ▸ mem_cons_self)
      rw [openIds_unshared honce harr] at hopen
      rw [← hopen, netEffect_unshared honce harr, countP_singleton]
      rcases hall id arr num harr hsome with h | h <;> simp [h]

/-- **There a dropped context restores the semaphores exactly when one unit or none is owed for each.** -/
theorem restored_unshared_iff (hrun : semSteps.run (.fresh heap arrays) steps = some w) :
    Restored heap arrays steps w ↔ ∀ id arr num : Nat, arrays[id]? = some arr → (heap.value arr num).isSome →
      owed steps id num = 0 ∨ owed steps id num = 1 :=
  (System.history_run (I := Recorded heap arrays) step_recorded (recorded_fresh heap arrays)
    hrun).restored_iff_undoable.trans (undoable_unshared_iff honce)

end Unshared

def oneSem : SemWorld := .fresh [[⟨1, 0, false, 0, by decide⟩]] (Std.ExtTreeMap.insert ∅ 0 0)

theorem restored_unshared_iff_one : ∃ w, semSteps.run oneSem [⟨0, 0, .tryAcquire⟩] = some w ∧
    Restored oneSem.heap oneSem.ctx.arrays [⟨0, 0, .tryAcquire⟩] w := by
  obtain ⟨w, hw⟩ := isSome_iff_exists.mp
    (show (semSteps.run oneSem [⟨0, 0, .tryAcquire⟩]).isSome = true by decide +kernel)
  refine ⟨w, hw, (restored_unshared_iff (fun i j arr hi hj => ?_) hw).mpr fun id arr num _ _ => ?_⟩
  · rw [get_insert] at hi hj
    split at hi <;> split at hj <;> simp_all
  · rw [owed, map_singleton, sum_singleton]
    split
    · exact .inr rfl
    · exact .inl rfl

end ChaosKernel.Ipc
