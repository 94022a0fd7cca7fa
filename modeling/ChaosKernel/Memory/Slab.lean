import ChaosKernel.Base.Align
import ChaosKernel.Base.Run
import ChaosKernel.Base.Words
import ChaosKernel.Memory.FrameAlloc

/-! A slab of objects of one size.

The free objects wait in a queue of offsets. An allocation takes the first one and
a release puts its offset at the end, whether the object was handed out or not:
the queue is searched for it, but nothing is done with the answer.

`SlabWorld` keeps the list of the offsets that are handed out. An offset that is
released while it is free is in the queue twice, and nothing ever takes it out
again: when the queue has gone round, it is handed out twice (`objects_iff`). -/
namespace ChaosKernel.Memory
open Base List

structure SlabEntry where
  data : Bytes
  objSize : Nat
  capacity : Nat
  freeList : List Nat
  allocated : Nat
  tag : Nat

namespace SlabEntry

/-- The sizes may overflow, and neither vector may be larger than the largest `isize`. -/
def new (objSize capacity : Nat) : Option SlabEntry :=
  match add? objSize slabAlign with
  | none => none
  | some s =>
    let aligned := andNot (s - 1) (slabAlign - 1)
    match mul? aligned capacity with
    | none => none
    | some total =>
      if isizeMax < capacity * 8 ∨ isizeMax < total then none
      else some ⟨List.replicate total 0, aligned, capacity, (List.range capacity).map fun i => i * aligned, 0, 0⟩

/-- A call that panics does so after it has taken the offset. -/
def slabAlloc (slab : SlabEntry) (zeroed : Bool) : Except (Stop Errno) (Option Nat) × SlabEntry :=
  match slab.freeList with
  | [] => (.ok none, slab)
  | slot :: rest =>
    let slab := {slab with freeList := rest}
    match add? slot slab.objSize with
    | none => (.error .panic, slab)
    | some candidate =>
      let objEnd := if slab.data.length < candidate then slab.data.length else candidate
      let cleared := overwrite? slab.data slot objEnd (List.replicate (objEnd - slot) 0)
      match if zeroed then cleared else some slab.data with
      | none => (.error .panic, slab)
      | some data =>
        match add? slab.allocated 1 with
        | none => (.error .panic, {slab with data := data})
        | some allocated => (.ok (some slot), {slab with data := data, allocated := allocated})

/-- An object size of zero panics. Whether the offset is in the queue is found out and not used. -/
def slabFree (slab : SlabEntry) (offset : Nat) : Option SlabEntry :=
  (rem? offset slab.objSize).map fun m =>
    if offset < slab.data.length ∧ m = 0 then
      {slab with freeList := slab.freeList ++ [offset], allocated := slab.allocated - 1}
    else slab

def slabUsed (slab : SlabEntry) : Nat := slab.allocated

def slabAvail (slab : SlabEntry) : Nat := slab.freeList.length

end SlabEntry

/-- A slab, and the offsets that are handed out. -/
structure SlabWorld where
  slab : SlabEntry
  handed : List Nat

inductive SlabOp where
  | slabAlloc (zeroed : Bool)
  | slabFree (offset : Nat)
  deriving DecidableEq, Repr

namespace SlabWorld

def step (w : SlabWorld) : SlabOp → Option SlabWorld
  | .slabAlloc zeroed =>
    match w.slab.slabAlloc zeroed with
    | (.ok none, slab) => some ⟨slab, w.handed⟩
    | (.ok (some slot), slab) => some ⟨slab, w.handed ++ [slot]⟩
    | (.error _, _) => none
  | .slabFree offset => (w.slab.slabFree offset).map fun slab => ⟨slab, w.handed.erase offset⟩

def system : System SlabWorld SlabOp := ⟨step⟩

/-- The objects that are handed out are different ones of the slab, and all objects are used or available. -/
structure Separate (size capacity : Nat) (w : SlabWorld) : Prop where
  nodup : w.handed.Nodup
  aligned : ∀ offset ∈ w.handed, size ∣ offset
  inside : ∀ offset ∈ w.handed, offset + size ≤ w.slab.data.length
  total : w.slab.slabUsed + w.slab.slabAvail = capacity

/-- An offset that the slab accepts is handed out when it is released. -/
def Returns (w : SlabWorld) : SlabOp → Prop
  | .slabAlloc _ => True
  | .slabFree offset => offset < w.slab.data.length → offset % w.slab.objSize = 0 → offset ∈ w.handed

/-! ### What a run keeps -/

/-- The offsets that are in the queue or handed out. -/
def known (w : SlabWorld) : List Nat := w.slab.freeList ++ w.handed

structure Shaped (size capacity : Nat) (w : SlabWorld) : Prop where
  pos : 0 < size
  word : size * capacity < wordSize
  room : capacity + 1 < wordSize
  objSize : w.slab.objSize = size
  length : w.slab.data.length = size * capacity
  objects : ∀ offset ∈ w.known, size ∣ offset ∧ offset < size * capacity
  all : ∀ i < capacity, i * size ∈ w.known
  allocated : w.slab.allocated ≤ w.handed.length

variable {capacity offset slot : Nat} {slab : SlabEntry} {rest : List Nat} {op : SlabOp} {ops : List SlabOp}

theorem object_end {size : Nat} (hdvd : size ∣ offset) (hlt : offset < size * capacity) :
    offset + size ≤ size * capacity := by
  obtain ⟨k, rfl⟩ := hdvd
  have hk : k < capacity := Nat.lt_of_mul_lt_mul_left hlt
  calc size * k + size = size * (k + 1) := (Nat.mul_succ size k).symm
    _ ≤ size * capacity := Nat.mul_le_mul_left size hk

theorem slabAlloc_cons (hfree : slab.freeList = slot :: rest)
    (hend : slot + slab.objSize ≤ slab.data.length) (hword : slab.data.length < wordSize) (zeroed : Bool) :
    ∃ data, data.length = slab.data.length ∧ slab.slabAlloc zeroed =
      if slab.allocated + 1 < wordSize then
        (.ok (some slot), {slab with data := data, freeList := rest, allocated := slab.allocated + 1})
      else (.error .panic, {slab with data := data, freeList := rest}) := by
  obtain ⟨cleared, hcleared, hlength, _⟩ := overwrite?_spec (Nat.le_add_right slot slab.objSize) hend
    (show (List.replicate slab.objSize (0 : UInt8)).length = slot + slab.objSize - slot by
      rw [length_replicate, Nat.add_sub_cancel_left])
  refine ⟨if zeroed then cleared else slab.data, by split <;> [exact hlength; rfl], ?_⟩
  simp only [SlabEntry.slabAlloc, hfree, add?_of_lt (hend.trans_lt hword), if_neg (Nat.not_lt.mpr hend),
    Nat.add_sub_cancel_left, hcleared, ← apply_ite some]
  by_cases hroom : slab.allocated + 1 < wordSize
  · simp only [add?_of_lt hroom, if_pos hroom]
  · simp only [add?_of_ge (Nat.not_lt.mp hroom), if_neg hroom]

/-- What a step does to the offsets: some that were there come in again, and none exactly where the step returns
what was handed out. -/
structure Moved (w : SlabWorld) (op : SlabOp) (w' : SlabWorld) (again : List Nat) : Prop where
  known : w'.known.Perm (again ++ w.known)
  old : ∀ offset ∈ again, offset ∈ w.known
  objSize : w'.slab.objSize = w.slab.objSize
  length : w'.slab.data.length = w.slab.data.length
  allocated : w.slab.allocated ≤ w.handed.length → w'.slab.allocated ≤ w'.handed.length
  used : w.Returns op → again = [] ∧ (w.slab.allocated = w.handed.length → w'.slab.allocated = w'.handed.length)
  twice : again = [] → w.Returns op

theorem Moved.refl {w : SlabWorld} (h : w.Returns op) : Moved w op w [] :=
  ⟨.refl _, nofun, rfl, rfl, id, fun _ => ⟨rfl, id⟩, fun _ => h⟩

variable {size capacity : Nat} {w w' : SlabWorld}

theorem Shaped.slabAlloc_cons (h : w.Shaped size capacity) (hfree : w.slab.freeList = slot :: rest)
    (zeroed : Bool) :
    ∃ data, data.length = w.slab.data.length ∧ system.step w (.slabAlloc zeroed) =
      if w.slab.allocated + 1 < wordSize then
        some ⟨{w.slab with data := data, freeList := rest, allocated := w.slab.allocated + 1}, w.handed ++ [slot]⟩
      else none := by
  have hmem : slot ∈ w.known := by
    rw [known, hfree]
    exact mem_cons_self
  obtain ⟨hdvd, hlt⟩ := h.objects slot hmem
  have hend : slot + w.slab.objSize ≤ w.slab.data.length := by
    rw [h.objSize, h.length]
    exact object_end hdvd hlt
  obtain ⟨data, hlength, halloc⟩ := SlabWorld.slabAlloc_cons hfree hend (by rw [h.length]; exact h.word) zeroed
  refine ⟨data, hlength, ?_⟩
  by_cases hroom : w.slab.allocated + 1 < wordSize
  · simp only [system, step, halloc, if_pos hroom]
  · simp only [system, step, halloc, if_neg hroom]

theorem Shaped.slabAlloc_nil (hfree : w.slab.freeList = []) (zeroed : Bool) :
    system.step w (.slabAlloc zeroed) = some w := by
  simp only [system, step, SlabEntry.slabAlloc, hfree]

theorem slabAlloc_moved {data : Bytes} {zeroed : Bool} (hfree : w.slab.freeList = slot :: rest)
    (hlength : data.length = w.slab.data.length) :
    Moved w (.slabAlloc zeroed) ⟨{w.slab with data := data, freeList := rest, allocated := w.slab.allocated + 1},
      w.handed ++ [slot]⟩ [] := by
  refine ⟨?_, nofun, rfl, hlength, fun hle => ?_, fun _ => ⟨rfl, fun heq => ?_⟩, fun _ => trivial⟩
  · show (rest ++ (w.handed ++ [slot])).Perm (w.slab.freeList ++ w.handed)
    rw [hfree, ← append_assoc]
    exact perm_append_singleton slot _
  · simp only [length_append, length_singleton]
    omega
  · simp only [length_append, length_singleton]
    omega

theorem slabFree_returned (hmem : offset ∈ w.handed) : Moved w (.slabFree offset)
    ⟨{w.slab with freeList := w.slab.freeList ++ [offset], allocated := w.slab.allocated - 1},
      w.handed.erase offset⟩ [] := by
  have hlength := length_erase_of_mem hmem
  have hpos := length_pos_of_mem hmem
  refine ⟨?_, nofun, rfl, rfl, fun hle => ?_, fun _ => ⟨rfl, fun heq => ?_⟩, fun _ _ _ => hmem⟩
  · show (w.slab.freeList ++ [offset] ++ w.handed.erase offset).Perm (w.slab.freeList ++ w.handed)
    rw [append_assoc]
    exact (perm_cons_erase hmem).symm.append_left _
  · simp only [hlength]
    omega
  · simp only [hlength]
    omega

theorem Shaped.slabFree_again (h : w.Shaped size capacity) (hlt : offset < w.slab.data.length)
    (hmod : offset % w.slab.objSize = 0) (hmem : offset ∉ w.handed) : Moved w (.slabFree offset)
      ⟨{w.slab with freeList := w.slab.freeList ++ [offset], allocated := w.slab.allocated - 1},
        w.handed⟩ [offset] := by
  refine ⟨?_, fun o ho => ?_, rfl, rfl, fun hle => ?_, fun hreturns => ?_, nofun⟩
  · show (w.slab.freeList ++ [offset] ++ w.handed).Perm (offset :: (w.slab.freeList ++ w.handed))
    rw [append_assoc]
    exact perm_middle
  · obtain ⟨i, hi⟩ := Nat.dvd_of_mod_eq_zero hmod
    rw [h.objSize] at hi
    rw [h.length, hi] at hlt
    rw [mem_singleton.mp ho, hi, Nat.mul_comm]
    exact h.all i (Nat.lt_of_mul_lt_mul_left hlt)
  · exact (Nat.sub_le _ _).trans hle
  · exact absurd (hreturns hlt hmod) hmem

theorem Shaped.moved (h : w.Shaped size capacity) (hstep : system.step w op = some w') :
    ∃ again, Moved w op w' again := by
  cases op with
  | slabAlloc zeroed =>
    cases hfree : w.slab.freeList with
    | nil =>
      rw [Shaped.slabAlloc_nil hfree] at hstep
      cases hstep
      exact ⟨[], .refl trivial⟩
    | cons slot rest =>
      obtain ⟨data, hlength, halloc⟩ := h.slabAlloc_cons hfree zeroed
      rw [halloc, Option.ite_none_right_eq_some, Option.some.injEq] at hstep
      obtain ⟨_, rfl⟩ := hstep
      exact ⟨[], slabAlloc_moved hfree hlength⟩
  | slabFree offset =>
    have hrem : rem? offset w.slab.objSize = some (offset % w.slab.objSize) :=
      if_neg (by rw [h.objSize]; exact h.pos.ne')
    simp only [system, step, SlabEntry.slabFree, hrem, Option.map_some, Option.some.injEq] at hstep
    subst hstep
    by_cases hvalid : offset < w.slab.data.length ∧ offset % w.slab.objSize = 0
    · rw [if_pos hvalid]
      by_cases hmem : offset ∈ w.handed
      · exact ⟨[], slabFree_returned hmem⟩
      · rw [erase_of_not_mem hmem]
        exact ⟨[offset], h.slabFree_again hvalid.1 hvalid.2 hmem⟩
    · have hmem : offset ∉ w.handed := fun hmem => by
        obtain ⟨hdvd, hlt⟩ := h.objects offset (mem_append_right _ hmem)
        exact hvalid ⟨by rw [h.length]; exact hlt, by rw [h.objSize]; exact Nat.mod_eq_zero_of_dvd hdvd⟩
      rw [if_neg hvalid, erase_of_not_mem hmem]
      exact ⟨[], .refl fun hlt hmod => absurd ⟨hlt, hmod⟩ hvalid⟩

theorem Shaped.step (h : w.Shaped size capacity) (hstep : system.step w op = some w') :
    w'.Shaped size capacity := by
  obtain ⟨again, hmoved⟩ := h.moved hstep
  have hknown (offset : Nat) : offset ∈ w'.known ↔ offset ∈ w.known := by
    rw [hmoved.known.mem_iff, mem_append]
    exact or_iff_right_of_imp (hmoved.old offset)
  refine ⟨h.pos, h.word, h.room, hmoved.objSize.trans h.objSize, hmoved.length.trans h.length, fun offset ho => ?_,
    fun i hi => ?_, hmoved.allocated h.allocated⟩
  · exact h.objects offset ((hknown offset).mp ho)
  · exact (hknown _).mpr (h.all i hi)

/-! ### Each offset once -/

/-- No offset is known twice, and the count is right. -/
def Tidy (w : SlabWorld) : Prop := w.known.Nodup ∧ w.slab.allocated = w.handed.length

theorem Shaped.tidy_step_iff (h : w.Shaped size capacity) (htidy : w.Tidy)
    (hstep : system.step w op = some w') : w'.Tidy ↔ w.Returns op := by
  obtain ⟨again, hmoved⟩ := h.moved hstep
  constructor
  · intro hafter
    apply hmoved.twice
    have hnodup := hmoved.known.nodup_iff.mp hafter.1
    exact eq_nil_iff_forall_not_mem.mpr fun offset ho =>
      (nodup_append.mp hnodup).2.2 offset ho offset (hmoved.old offset ho) rfl
  · intro hreturns
    obtain ⟨rfl, hused⟩ := hmoved.used hreturns
    exact ⟨hmoved.known.nodup_iff.mpr htidy.1, hused htidy.2⟩

theorem Shaped.nodup_of_step (h : w.Shaped size capacity) (hstep : system.step w op = some w')
    (hnodup : w'.known.Nodup) : w.known.Nodup := by
  obtain ⟨again, hmoved⟩ := h.moved hstep
  exact (nodup_append.mp (hmoved.known.nodup_iff.mp hnodup)).2.1

theorem Shaped.known_length (h : w.Shaped size capacity) (hnodup : w.known.Nodup) : w.known.length = capacity := by
  have hperm : w.known.Perm ((List.range capacity).map fun i => i * size) := by
    rw [perm_ext_iff_of_nodup hnodup]
    · intro offset
      rw [mem_map]
      constructor
      · intro ho
        obtain ⟨⟨i, rfl⟩, hlt⟩ := h.objects offset ho
        exact ⟨i, mem_range.mpr (Nat.lt_of_mul_lt_mul_left hlt), Nat.mul_comm i size⟩
      · intro ⟨i, hi, heq⟩
        rw [← heq]
        exact h.all i (mem_range.mp hi)
    · exact nodup_range.map fun i j heq => Nat.eq_of_mul_eq_mul_right h.pos heq
  rw [hperm.length_eq, length_map, length_range]

theorem Shaped.separate (h : w.Shaped size capacity) (htidy : w.Tidy) : w.Separate size capacity := by
  have hobject : ∀ offset ∈ w.handed, size ∣ offset ∧ offset < size * capacity := fun offset ho =>
    h.objects offset (mem_append_right _ ho)
  refine ⟨(nodup_append.mp htidy.1).2.1, fun offset ho => (hobject offset ho).1, fun offset ho => ?_, ?_⟩
  · rw [h.length]
    exact object_end (hobject offset ho).1 (hobject offset ho).2
  · have hlength := h.known_length htidy.1
    rw [known, length_append] at hlength
    rw [SlabEntry.slabUsed, SlabEntry.slabAvail, htidy.2]
    omega

/-- Separate objects are no more than the capacity, so that the count does not overflow. -/
theorem Shaped.step_exists (h : w.Shaped size capacity) (hsep : w.Separate size capacity) (op : SlabOp) :
    ∃ w', system.step w op = some w' := by
  cases op with
  | slabAlloc zeroed =>
    cases hfree : w.slab.freeList with
    | nil => exact ⟨w, Shaped.slabAlloc_nil hfree zeroed⟩
    | cons slot rest =>
      obtain ⟨data, _, halloc⟩ := h.slabAlloc_cons hfree zeroed
      have htotal := hsep.total
      rw [SlabEntry.slabUsed] at htotal
      have hroom := h.room
      rw [if_pos (by omega)] at halloc
      exact ⟨_, halloc⟩
  | slabFree offset =>
    have hrem : rem? offset w.slab.objSize = some (offset % w.slab.objSize) :=
      if_neg (by rw [h.objSize]; exact h.pos.ne')
    simp only [system, SlabWorld.step, SlabEntry.slabFree, hrem, Option.map_some]
    exact ⟨_, rfl⟩

/-- When the queue is empty, all that is known is handed out; an offset that is known twice shows then. -/
theorem Shaped.nodup_of_drained (h : w.Shaped size capacity) {n : Nat} (hn : w.slab.freeList.length = n)
    (hall : system.Always (Separate size capacity) w (List.replicate n (.slabAlloc false))) : w.known.Nodup := by
  induction n generalizing w with
  | zero =>
    rw [known, length_eq_zero_iff.mp hn]
    exact (hall.head).nodup
  | succ n ih =>
    obtain ⟨w', hstep⟩ := h.step_exists hall.head (.slabAlloc false)
    refine h.nodup_of_step hstep (ih (h.step hstep) ?_ (hall.tail hstep))
    cases hfree : w.slab.freeList with
    | nil =>
      rw [hfree] at hn
      cases hn
    | cons slot rest =>
      obtain ⟨data, _, halloc⟩ := h.slabAlloc_cons hfree false
      rw [hstep, eq_comm, Option.ite_none_right_eq_some, Option.some.injEq] at halloc
      obtain ⟨_, rfl⟩ := halloc
      rw [hfree] at hn
      exact Nat.succ.inj hn

theorem Shaped.nodup_of_separate (h : w.Shaped size capacity)
    (hall : ∀ n, system.Always (Separate size capacity) w (ops ++ List.replicate n (.slabAlloc false))) :
    w.known.Nodup := by
  induction ops generalizing w with
  | nil => exact h.nodup_of_drained rfl (hall w.slab.freeList.length)
  | cons op rest ih =>
    obtain ⟨w', hstep⟩ := h.step_exists (hall 0).head op
    exact h.nodup_of_step hstep (ih (h.step hstep) fun n => (hall n).tail hstep)

/-! ### Runs -/

theorem isizeMax_lt : 2 * isizeMax < wordSize := by
  unfold isizeMax
  decide

theorem shaped_new {objSize : Nat} (hsize : 1 ≤ objSize) (hnew : SlabEntry.new objSize capacity = some slab) :
    slab.objSize = roundUp slabAlign objSize ∧ Shaped (roundUp slabAlign objSize) capacity ⟨slab, []⟩ ∧
      Tidy ⟨slab, []⟩ := by
  have hmax := isizeMax_lt
  have hpos : 0 < roundUp slabAlign objSize := hsize.trans (le_roundUp (by decide))
  rw [SlabEntry.new] at hnew
  split at hnew
  · cases hnew
  · next s hs =>
    obtain ⟨rfl, hword⟩ := add?_eq_some hs
    have hround : andNot (objSize + slabAlign - 1) (slabAlign - 1) = roundUp slabAlign objSize :=
      roundUp_two_pow (k := 3) (by unfold slabAlign at hword; omega)
    simp only [hround] at hnew
    split at hnew
    · cases hnew
    · next total htotal =>
      simp only [mul?, Option.ite_none_right_eq_some, Option.some.injEq] at htotal
      obtain ⟨htotal, rfl⟩ := htotal
      rw [Option.ite_none_left_eq_some, Option.some.injEq] at hnew
      obtain ⟨hsmall, rfl⟩ := hnew
      have hknown : known ⟨⟨List.replicate (roundUp slabAlign objSize * capacity) 0, roundUp slabAlign objSize,
          capacity, (List.range capacity).map fun i => i * roundUp slabAlign objSize, 0, 0⟩, []⟩ =
            (List.range capacity).map fun i => i * roundUp slabAlign objSize := append_nil _
      refine ⟨rfl, ⟨hpos, htotal, by omega, rfl, length_replicate, fun offset ho => ?_, fun i hi => ?_, le_rfl⟩,
        ?_, rfl⟩
      · rw [hknown] at ho
        obtain ⟨i, hi, rfl⟩ := mem_map.mp ho
        refine ⟨Nat.dvd_mul_left _ i, ?_⟩
        rw [Nat.mul_comm]
        exact Nat.mul_lt_mul_of_pos_left (mem_range.mp hi) hpos
      · rw [hknown]
        exact List.mem_map_of_mem (mem_range.mpr hi)
      · rw [hknown]
        exact nodup_range.map fun i j heq => Nat.eq_of_mul_eq_mul_right hpos heq

theorem guarded_append (h : system.Guarded Returns w ops) (n : Nat) :
    system.Guarded Returns w (ops ++ List.replicate n (.slabAlloc false)) := by
  induction n with
  | zero =>
    rw [replicate_zero, append_nil]
    exact h
  | succ n ih =>
    rw [replicate_succ', ← append_assoc]
    exact ih.concat fun _ _ => trivial

/-- **The objects of a slab are never shared, however many allocations follow a sequence of calls, if and only if
each offset that the sequence releases, and the slab accepts, is handed out at that moment.** -/
theorem objects_iff (objSize capacity : Nat) (slab : SlabEntry) (hsize : 1 ≤ objSize)
    (hnew : SlabEntry.new objSize capacity = some slab) (ops : List SlabOp) :
    (∀ n, system.Always (Separate (roundUp slabAlign objSize) capacity) ⟨slab, []⟩
        (ops ++ List.replicate n (.slabAlloc false))) ↔
      system.Guarded Returns ⟨slab, []⟩ ops := by
  obtain ⟨_, hshaped, htidy⟩ := shaped_new hsize hnew
  have hiff (as : List SlabOp) : system.Always Tidy ⟨slab, []⟩ as ↔ system.Guarded Returns ⟨slab, []⟩ as :=
    System.always_iff_guarded (fun _ _ _ h hstep => Shaped.step h hstep)
      (fun _ _ _ h ht hstep => Shaped.tidy_step_iff h ht hstep) hshaped htidy
  have hkept {as : List SlabOp} {t : SlabWorld} (hrun : system.run ⟨slab, []⟩ as = some t) :
      t.Shaped (roundUp slabAlign objSize) capacity :=
    System.invariant_run (fun _ _ _ h hstep => Shaped.step h hstep) hshaped hrun
  constructor
  · intro hall
    rw [← hiff]
    intro done t hpre hrun
    obtain ⟨rest, rfl⟩ := hpre
    have hafter (n : Nat) : system.Always (Separate (roundUp slabAlign objSize) capacity) t
        (rest ++ List.replicate n (.slabAlloc false)) := by
      refine System.Always.after ?_ hrun
      rw [← append_assoc]
      exact hall n
    have hnodup := (hkept hrun).nodup_of_separate hafter
    -- All objects are used or available, and the known ones are the objects.
    have htotal := (hafter 0).head.total
    have hlength := (hkept hrun).known_length hnodup
    rw [known, length_append] at hlength
    rw [SlabEntry.slabUsed, SlabEntry.slabAvail] at htotal
    exact ⟨hnodup, by omega⟩
  · intro hguarded n done t hpre hrun
    exact (hkept hrun).separate ((hiff _).mpr (guarded_append hguarded n) done t hpre hrun)

/-- Two objects of eight bytes. -/
def pair : SlabEntry := ⟨List.replicate 16 0, 8, 2, [0, 8], 0, 0⟩

theorem pair_new : SlabEntry.new 5 2 = some pair := by
  have hmax : ¬(isizeMax < 2 * 8 ∨ isizeMax < 16) := by
    unfold isizeMax
    decide
  rw [SlabEntry.new, show add? 5 slabAlign = some 13 from rfl]
  simp only [show andNot (13 - 1) (slabAlign - 1) = 8 from rfl, show mul? 8 2 = some 16 from rfl, if_neg hmax]
  rfl

theorem objects_iff_pair : (∀ n, system.Always (Separate (roundUp slabAlign 5) 2) ⟨pair, []⟩
      ([.slabAlloc false, .slabFree 0] ++ List.replicate n (.slabAlloc false))) ↔
    system.Guarded Returns ⟨pair, []⟩ [.slabAlloc false, .slabFree 0] :=
  objects_iff 5 2 pair (by decide) pair_new _

/-- The first object is taken and the second, which is free, is released: the next two allocations both return it. -/
theorem object_shared : SlabEntry.new 5 2 = some pair ∧ ∃ w, system.run ⟨pair, []⟩
    [.slabAlloc false, .slabFree 8, .slabAlloc false, .slabAlloc false] = some w ∧ w.handed = [0, 8, 8] ∧
      ¬w.Separate (roundUp slabAlign 5) 2 := by
  have hrun : ((system.run ⟨pair, []⟩ [.slabAlloc false, .slabFree 8, .slabAlloc false, .slabAlloc false]).any
      fun w => w.handed = [0, 8, 8]) = true := by
    decide +kernel
  obtain ⟨w, hw, hhanded⟩ := System.exists_of_run_any hrun
  refine ⟨pair_new, w, hw, hhanded, fun hsep => ?_⟩
  have hnodup := hsep.nodup
  rw [hhanded] at hnodup
  exact absurd hnodup (by decide)

end SlabWorld
end ChaosKernel.Memory
