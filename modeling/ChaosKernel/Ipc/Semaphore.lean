import ChaosKernel.Consts

/-! Semaphores and the undo records of a process.

A semaphore counts an `isize`. The arrays of semaphores are objects that processes
share: a `SemCtx` opens them under numbers of its own, and one array may be open
under several. For every semaphore of an open array it keeps what has to be undone
when the process ends. `drop` undoes the records that are 1 and leaves the others. -/
namespace ChaosKernel.Ipc
open Base Option

/-- The largest `isize`. -/
def maxCnt : Int := 9223372036854775807

structure Sema where
  cnt : Int
  pid : Nat
  rm : Bool
  /-- The flags of the event bus. -/
  bus : Nat
  fits : -maxCnt - 1 ≤ cnt ∧ cnt ≤ maxCnt

namespace Sema

/-- The count may overflow. -/
def release (s : Sema) : Option Sema :=
  if h : s.cnt < maxCnt then
    some
      { cnt := s.cnt + 1
        pid := s.pid
        rm := s.rm
        bus := if 1 ≤ s.cnt + 1 then s.bus ||| evSemAcq else s.bus
        fits := ⟨by have := s.fits.1; omega, by omega⟩ }
  else none

def tryAcquire (s : Sema) : Except Errno Bool × Sema :=
  if s.rm then (.error .removed, s)
  else if h : 1 ≤ s.cnt then
    (.ok true,
      { cnt := s.cnt - 1
        pid := s.pid
        rm := s.rm
        -- the flags are a `u32`
        bus := if s.cnt - 1 < 1 then s.bus &&& (2 ^ 32 - 1 - evSemAcq) else s.bus
        fits := ⟨by simp only [maxCnt]; omega, by have := s.fits.2; omega⟩ })
  else (.ok false, s)

theorem release_cnt (s s' : Sema) (h : s.release = some s') : s'.cnt = s.cnt + 1 := by
  unfold release at h
  split at h
  · cases h
    rfl
  · cases h

theorem tryAcquire_cnt {s s' : Sema} (h : s.tryAcquire = (.ok true, s')) : s'.cnt = s.cnt - 1 := by
  unfold tryAcquire at h
  split at h
  · cases h
  · split at h
    · cases h
      rfl
    · cases h

end Sema

/-- All arrays of semaphores. -/
abbrev SemHeap := List (List Sema)

namespace SemHeap

def sema? (heap : SemHeap) (arr num : Nat) : Option Sema := heap[arr]?.bind (·[num]?)

def value (heap : SemHeap) (arr num : Nat) : Option Int := (heap.sema? arr num).map Sema.cnt

/-- `f` on one semaphore. -/
def update (heap : SemHeap) (arr num : Nat) (f : Sema → Option Sema) : Option SemHeap :=
  (heap.sema? arr num).bind fun s => (f s).map fun s' => heap.modify arr (·.set num s')

theorem value_update {heap heap' : SemHeap} {arr num : Nat} {f : Sema → Option Sema} {d : Int}
    (hf : ∀ s s', f s = some s' → s'.cnt = s.cnt + d) (h : heap.update arr num f = some heap') (a n : Nat) :
    heap'.value a n = (heap.value a n).map (· + if arr = a ∧ num = n then d else 0) := by
  obtain ⟨s, hs, h⟩ := bind_eq_some_iff.mp h
  obtain ⟨s', hs', heq⟩ := map_eq_some_iff.mp h
  subst heq
  obtain ⟨sems, hsems, hget⟩ := bind_eq_some_iff.mp hs
  obtain ⟨hlt, hat⟩ := List.getElem?_eq_some_iff.mp hget
  simp only [value, sema?, List.getElem?_modify]
  by_cases ha : arr = a
  · subst ha
    by_cases hn : num = n
    · subst hn
      simp [hsems, hlt, hat, hf s s' hs']
    · simp [hsems, hn, Function.comp_def]
  · simp [ha]

end SemHeap

/-- `BTreeMap<(usize, u16), α>`. -/
abbrev PairMap (α : Type) := Std.ExtTreeMap (Nat × Nat) α (@compare _ lexOrd)

structure SemCtx where
  arrays : BTreeMap Nat
  undos : PairMap Int

namespace SemCtx

/-- The records stay behind. -/
def clone (ctx : SemCtx) : SemCtx := ⟨ctx.arrays, ∅⟩

/-- A record is an `i16`. -/
def addUndo (ctx : SemCtx) (id num : Nat) (op : Int) : Option SemCtx :=
  let new := ctx.undos[(id, num)]?.getD 0 - op
  if -32768 ≤ new ∧ new ≤ 32767 then some {ctx with undos := ctx.undos.insert (id, num) new} else none

/-- What one record does when the context is dropped. -/
def undo (ctx : SemCtx) (heap : SemHeap) (record : (Nat × Nat) × Int) : Option SemHeap :=
  match ctx.arrays[record.1.1]? with
  | some arr => if record.2 = 1 then heap.update arr record.1.2 Sema.release else some heap
  | none => some heap

def undoAll (ctx : SemCtx) (heap : SemHeap) : List ((Nat × Nat) × Int) → Option SemHeap
  | [] => some heap
  | record :: rest => (ctx.undo heap record).bind fun heap => ctx.undoAll heap rest

def drop (ctx : SemCtx) (heap : SemHeap) : Option SemHeap := ctx.undoAll heap ctx.undos.toList

variable {ctx ctx' : SemCtx} {id num : Nat} {op : Int} {record : (Nat × Nat) × Int} {heap heap' : SemHeap}
  {records : List ((Nat × Nat) × Int)}

theorem get_addUndo (h : ctx.addUndo id num op = some ctx') (i n : Nat) : ctx'.undos[(i, n)]?.getD 0 =
      ctx.undos[(i, n)]?.getD 0 - if id = i ∧ num = n then op else 0 := by
  obtain ⟨_, heq⟩ := ite_none_right_eq_some.mp h
  cases heq
  rw [Std.ExtTreeMap.getElem?_insert]
  simp only [Std.LawfulEqCmp.compare_eq_iff_eq, Prod.mk.injEq]
  split
  · next h =>
    obtain ⟨hi, hn⟩ := h
    subst hi hn
    rfl
  · rw [sub_zero]

theorem addUndo_arrays (h : ctx.addUndo id num op = some ctx') : ctx'.arrays = ctx.arrays := by
  obtain ⟨_, heq⟩ := ite_none_right_eq_some.mp h
  cases heq
  rfl

theorem mem_addUndo (h : ctx.addUndo id num op = some ctx') {key : Nat × Nat} (hkey : key ∈ ctx'.undos) :
    key = (id, num) ∨ key ∈ ctx.undos := by
  obtain ⟨_, heq⟩ := ite_none_right_eq_some.mp h
  cases heq
  refine (Std.ExtTreeMap.mem_insert.mp hkey).imp_left fun heq => ?_
  exact (Std.LawfulEqCmp.compare_eq_iff_eq.mp heq).symm

/-! ### Dropping the records -/

/-- The record releases the semaphore `num` of `arr`. -/
def releases (ctx : SemCtx) (arr num : Nat) (record : (Nat × Nat) × Int) : Bool :=
  ctx.arrays[record.1.1]? == some arr && record.1.2 == num && record.2 == 1

theorem releases_iff {arr : Nat} :
    ctx.releases arr num record = true ↔
      ctx.arrays[record.1.1]? = some arr ∧ record.1.2 = num ∧ record.2 = 1 := by
  simp only [releases, Bool.and_eq_true, beq_iff_eq, and_assoc]

theorem value_undo (h : ctx.undo heap record = some heap') (a n : Nat) :
    heap'.value a n = (heap.value a n).map (· + if ctx.releases a n record then 1 else 0) := by
  have hsame (hno : ctx.releases a n record = false) :
      (heap.value a n).map (· + if ctx.releases a n record then (1 : Int) else 0) = heap.value a n := by
    rw [hno]
    cases heap.value a n <;> simp
  unfold undo at h
  cases harr : ctx.arrays[record.1.1]? with
  | none =>
    rw [harr] at h
    cases h
    rw [hsame (by simp [releases, harr])]
  | some arr =>
    rw [harr] at h
    dsimp only at h
    by_cases hop : record.2 = 1
    · rw [if_pos hop] at h
      rw [SemHeap.value_update Sema.release_cnt h]
      simp [releases, harr, hop]
    · rw [if_neg hop] at h
      cases h
      rw [hsame (by simp [releases, hop])]

theorem value_undoAll (h : ctx.undoAll heap records = some heap') (a n : Nat) :
    heap'.value a n = (heap.value a n).map (· + (records.countP (ctx.releases a n) : Int)) := by
  induction records generalizing heap with
  | nil =>
    cases h
    cases heap'.value a n <;> simp
  | cons record rest ih =>
    obtain ⟨mid, hmid, h⟩ := bind_eq_some_iff.mp h
    rw [ih h, value_undo hmid, map_map, List.countP_cons]
    congr 1
    funext v
    simp only [Function.comp_apply]
    split <;> push_cast <;> omega

theorem undoAll_returns
    (hsome : ∀ r ∈ records, ∀ a, ctx.arrays[r.1.1]? = some a → (heap.value a r.1.2).isSome)
    (hfits : ∀ a n v, heap.value a n = some v → v + (records.countP (ctx.releases a n) : Int) ≤ maxCnt) :
    ∃ heap', ctx.undoAll heap records = some heap' := by
  induction records generalizing heap with
  | nil => exact ⟨heap, rfl⟩
  | cons record rest ih =>
    obtain ⟨mid, hmid⟩ : ∃ mid, ctx.undo heap record = some mid := by
      unfold undo
      cases harr : ctx.arrays[record.1.1]? with
      | none => exact ⟨heap, rfl⟩
      | some arr =>
        dsimp only
        by_cases hop : record.2 = 1
        · rw [if_pos hop]
          obtain ⟨v, hv⟩ := isSome_iff_exists.mp (hsome record List.mem_cons_self arr harr)
          have hle := hfits arr record.1.2 v hv
          rw [List.countP_cons, if_pos (releases_iff.mpr ⟨harr, rfl, hop⟩)] at hle
          obtain ⟨s, hs, hcnt⟩ := map_eq_some_iff.mp hv
          have hlt : s.cnt < maxCnt := by
            push_cast at hle
            omega
          rw [SemHeap.update, hs, bind_some, Sema.release, dif_pos hlt]
          exact ⟨_, rfl⟩
        · rw [if_neg hop]
          exact ⟨heap, rfl⟩
    obtain ⟨heap', hheap'⟩ : ∃ heap', ctx.undoAll mid rest = some heap' := ih
      (fun r hr a ha => by
        rw [value_undo hmid, isSome_map]
        exact hsome r (List.mem_cons_of_mem _ hr) a ha)
      (fun a n v hv => by
        rw [value_undo hmid] at hv
        obtain ⟨u, hu, heq⟩ := map_eq_some_iff.mp hv
        have hle := hfits a n u hu
        rw [List.countP_cons] at hle
        subst heq
        split_ifs at hle ⊢ <;> push_cast at hle <;> omega)
    exact ⟨heap', by rw [undoAll, hmid]; exact hheap'⟩

end SemCtx
end ChaosKernel.Ipc
