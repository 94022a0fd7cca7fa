import ChaosKernel.Base.Run
import ChaosKernel.Base.Rust

/-! The registry of kernel objects.

`objects` holds the registered objects and `type_index` their numbers by type, two
maps that every operation changes one after the other. Numbers come from a counter.
A sweep removes the objects without references one by one, as `unregister` does.

The index lists for every type the objects of that type, by their numbers
(`registry_consistent`). -/
namespace ChaosKernel.Objects
open Base List

structure KObjEntry where
  objId : Nat
  typeTag : Nat
  ownerPid : Nat
  createdTick : Nat
  refCount : Nat
  parentId : Option Nat
  deriving DecidableEq

structure KObjRegistry where
  objects : BTreeMap KObjEntry
  seq : Nat
  typeIndex : BTreeMap (List Nat)

namespace KObjRegistry

def new : KObjRegistry := ⟨∅, 1, ∅⟩

/-- What `register` and `register_child` share. -/
def enter (reg : KObjRegistry) (typeTag ownerPid clk : Nat) (parentId : Option Nat) : Nat × KObjRegistry :=
  (reg.seq,
    { objects := reg.objects.insert reg.seq ⟨reg.seq, typeTag, ownerPid, clk, 1, parentId⟩
      seq := wrappingAdd reg.seq 1
      typeIndex := reg.typeIndex.insert typeTag (reg.typeIndex[typeTag]?.getD [] ++ [reg.seq]) })

def register (reg : KObjRegistry) (typeTag ownerPid clk : Nat) : Nat × KObjRegistry :=
  reg.enter typeTag ownerPid clk none

def registerChild (reg : KObjRegistry) (typeTag ownerPid parent clk : Nat) : Nat × KObjRegistry :=
  reg.enter typeTag ownerPid clk (some parent)

def unregister (reg : KObjRegistry) (id : Nat) : Bool × KObjRegistry :=
  match reg.objects[id]? with
  | some entry =>
    (true, {reg with
      objects := reg.objects.erase id
      typeIndex := reg.typeIndex.modify entry.typeTag (·.filter (· != id))})
  | none => (false, reg)

def findByType (reg : KObjRegistry) (tag : Nat) : List Nat := reg.typeIndex[tag]?.getD []

def dumpGraph (reg : KObjRegistry) : List (Nat × Nat) :=
  reg.objects.toList.filterMap fun x => x.2.parentId.map (·, x.1)

/-- The objects that a sweep removes. -/
def dead (reg : KObjRegistry) : List Nat :=
  (reg.objects.toList.filter (·.2.refCount == 0)).map Prod.fst

def removeAll (reg : KObjRegistry) (ids : List Nat) : KObjRegistry :=
  ids.foldl (fun reg id => (reg.unregister id).2) reg

def gcSweep (reg : KObjRegistry) : Nat × KObjRegistry := (reg.dead.length, reg.removeAll reg.dead)

def refUp (reg : KObjRegistry) (id : Nat) : Bool × KObjRegistry :=
  (reg.objects.contains id, {reg with objects := reg.objects.modify id fun e => {e with refCount := e.refCount + 1}})

def refDown (reg : KObjRegistry) (id : Nat) : Bool × KObjRegistry :=
  (reg.objects.contains id, {reg with objects := reg.objects.modify id fun e => {e with refCount := e.refCount - 1}})

/-! ### What is registered -/

theorem get_unregister (reg : KObjRegistry) (id a : Nat) :
    (reg.unregister id).2.objects[a]? = if id = a then none else reg.objects[a]? := by
  unfold unregister
  cases h : reg.objects[id]? with
  | some entry => exact get_erase ..
  | none =>
    by_cases ha : id = a
    · rw [if_pos ha, ← ha]
      exact h
    · rw [if_neg ha]

theorem unregister_seq (reg : KObjRegistry) (id : Nat) : (reg.unregister id).2.seq = reg.seq := by
  unfold unregister
  cases reg.objects[id]? <;> rfl

theorem get_removeAll (reg : KObjRegistry) (ids : List Nat) (a : Nat) :
    (reg.removeAll ids).objects[a]? = if a ∈ ids then none else reg.objects[a]? := by
  induction ids generalizing reg with
  | nil => simp [removeAll]
  | cons id rest ih =>
    refine (ih (reg.unregister id).2).trans ?_
    rw [get_unregister]
    by_cases ha : id = a
    · simp [ha]
    · simp [ha, Ne.symm ha]

variable {reg : KObjRegistry}

theorem mem_dead {id : Nat} : id ∈ reg.dead ↔ ∃ e, reg.objects[id]? = some e ∧ e.refCount = 0 := by
  simp only [dead, mem_map, mem_filter, Prod.exists, Std.ExtTreeMap.mem_toList_iff_getElem?_eq_some,
    beq_iff_eq, exists_and_right, exists_eq_right]

theorem dead_nodup (reg : KObjRegistry) : reg.dead.Nodup := by
  refine pairwise_map.mpr ((Std.ExtTreeMap.ordered_keys_toList (t := reg.objects)).filter _ |>.imp ?_)
  intro a b hlt heq
  rw [heq] at hlt
  exact absurd (Nat.compare_eq_lt.mp hlt) (lt_irrefl _)

theorem get_gcSweep (reg : KObjRegistry) (id : Nat) (e : KObjEntry) :
    reg.gcSweep.2.objects[id]? = some e ↔ reg.objects[id]? = some e ∧ e.refCount ≠ 0 := by
  have hget : reg.gcSweep.2.objects[id]? = _ := get_removeAll reg reg.dead id
  rw [hget, Option.ite_none_left_eq_some]
  constructor
  · intro h
    exact ⟨h.2, fun hzero => h.1 (mem_dead.mpr ⟨e, h.2, hzero⟩)⟩
  · intro h
    refine ⟨fun hdead => ?_, h.1⟩
    obtain ⟨e', he', hzero⟩ := mem_dead.mp hdead
    rw [h.1] at he'
    cases he'
    exact h.2 hzero

theorem size_removeAll {ids : List Nat} (hnodup : ids.Nodup) (hmem : ∀ id ∈ ids, reg.objects[id]?.isSome) :
    ids.length + (reg.removeAll ids).objects.size = reg.objects.size := by
  induction ids generalizing reg with
  | nil => simp [removeAll]
  | cons id rest ih =>
    obtain ⟨hid, hrest⟩ := nodup_cons.mp hnodup
    have hsome := hmem id mem_cons_self
    have hsize : (reg.unregister id).2.objects.size + 1 = reg.objects.size := by
      obtain ⟨e, he⟩ := Option.isSome_iff_exists.mp hsome
      have hcontains : id ∈ reg.objects := Std.ExtTreeMap.mem_iff_isSome_getElem?.mpr hsome
      have hpos : reg.objects.size ≠ 0 := fun hzero => by
        rw [Std.ExtTreeMap.eq_empty_iff_size_eq_zero.mpr hzero] at he
        simp at he
      have herase : (reg.unregister id).2.objects = reg.objects.erase id := by rw [unregister, he]
      rw [herase, Std.ExtTreeMap.size_erase, if_pos (Std.ExtTreeMap.contains_iff_mem.mpr hcontains)]
      omega
    have hrec : rest.length + ((reg.unregister id).2.removeAll rest).objects.size =
        (reg.unregister id).2.objects.size := ih hrest fun a ha => by
      have hne : id ≠ a := fun heq => hid (heq ▸ ha)
      rw [get_unregister, if_neg hne]
      exact hmem a (mem_cons_of_mem _ ha)
    rw [length_cons]
    show rest.length + 1 + ((reg.unregister id).2.removeAll rest).objects.size = _
    omega

/-! ### The index -/

/-- The index lists the objects of a type by their numbers, which the counter is past. -/
structure Indexed (reg : KObjRegistry) : Prop where
  issued : ∀ id e, reg.objects[id]? = some e → id < reg.seq
  sorted : ∀ tag, (reg.findByType tag).Pairwise (· < ·)
  lists : ∀ tag id, id ∈ reg.findByType tag ↔ ∃ e, reg.objects[id]? = some e ∧ e.typeTag = tag

theorem indexed_new : Indexed new where
  issued id e h := by simp [new] at h
  sorted tag := by simp [findByType, new]
  lists tag id := by simp [findByType, new]

namespace Indexed
variable {reg : KObjRegistry} (h : Indexed reg)
include h

theorem findByType_lt {tag id : Nat} (hid : id ∈ reg.findByType tag) : id < reg.seq := by
  obtain ⟨e, he, _⟩ := (h.lists tag id).mp hid
  exact h.issued id e he

theorem enter (hseq : reg.seq + 1 < wordSize) (typeTag ownerPid clk : Nat) (parentId : Option Nat) :
    Indexed (reg.enter typeTag ownerPid clk parentId).2 := by
  have hget (id : Nat) : (reg.enter typeTag ownerPid clk parentId).2.objects[id]? = _ :=
    get_insert reg.objects reg.seq id ⟨reg.seq, typeTag, ownerPid, clk, 1, parentId⟩
  have hfind (tag : Nat) : (reg.enter typeTag ownerPid clk parentId).2.findByType tag =
      if typeTag = tag then reg.findByType tag ++ [reg.seq] else reg.findByType tag := by
    rw [findByType, KObjRegistry.enter, get_insert]
    split
    · next htag =>
      subst htag
      rfl
    · rfl
  refine ⟨fun id e he => ?_, fun tag => ?_, fun tag id => ?_⟩
  · show id < (reg.seq + 1) % wordSize
    rw [Nat.mod_eq_of_lt hseq]
    rw [hget] at he
    split at he
    · omega
    · exact Nat.lt_succ_of_lt (h.issued id e he)
  · rw [hfind]
    split
    · refine pairwise_append.mpr ⟨h.sorted tag, pairwise_singleton .., fun a ha b hb => ?_⟩
      rw [mem_singleton.mp hb]
      exact h.findByType_lt ha
    · exact h.sorted tag
  · rw [hfind, hget]
    by_cases hid : reg.seq = id
    · have hnot : id ∉ reg.findByType tag := fun hmem => absurd (h.findByType_lt hmem) (by omega)
      rw [if_pos hid]
      by_cases htag : typeTag = tag
      · simp [htag, hid]
      · simp [htag, hnot]
    · rw [if_neg hid, ← h.lists tag id]
      split
      · simp [Ne.symm hid]
      · rfl

theorem unregister (id : Nat) : Indexed (reg.unregister id).2 := by
  cases he : reg.objects[id]? with
  | none =>
    rw [KObjRegistry.unregister, he]
    exact h
  | some entry =>
    have hfind (tag : Nat) : (reg.unregister id).2.findByType tag = (reg.findByType tag).filter (· != id) := by
      simp only [findByType, KObjRegistry.unregister, he, get_modify]
      by_cases htag : entry.typeTag = tag
      · rw [if_pos htag]
        cases reg.typeIndex[tag]? <;> rfl
      · rw [if_neg htag, eq_comm]
        refine filter_eq_self.mpr fun a ha => bne_iff_ne.mpr fun heq => htag ?_
        obtain ⟨e, hget, htag'⟩ := (h.lists tag a).mp ha
        rw [heq, he] at hget
        cases hget
        exact htag'
    refine ⟨fun a e ha => ?_, fun tag => ?_, fun tag a => ?_⟩
    · rw [unregister_seq]
      rw [get_unregister] at ha
      split at ha
      · cases ha
      · exact h.issued a e ha
    · rw [hfind]
      exact (h.sorted tag).filter _
    · rw [hfind, mem_filter, h.lists, get_unregister, bne_iff_ne]
      by_cases ha : id = a
      · simp [ha]
      · simp [ha, Ne.symm ha]

theorem removeAll (ids : List Nat) : Indexed (reg.removeAll ids) := by
  induction ids generalizing reg with
  | nil => exact h
  | cons id rest ih => exact ih (h.unregister id)

/-- References are counted in place. -/
theorem recount (id : Nat) {f : KObjEntry → KObjEntry} (hf : ∀ e, (f e).typeTag = e.typeTag) :
    Indexed {reg with objects := reg.objects.modify id f} := by
  have hget (a : Nat) (P : Nat → Prop) : (∃ e, (reg.objects.modify id f)[a]? = some e ∧ P e.typeTag) ↔
      ∃ e, reg.objects[a]? = some e ∧ P e.typeTag := by
    rw [get_modify]
    split
    · simp [hf]
    · rfl
  refine ⟨fun a e he => ?_, h.sorted, fun tag a => ?_⟩
  · obtain ⟨e', he', _⟩ := (hget a fun _ => True).mp ⟨e, he, trivial⟩
    exact h.issued a e' he'
  · exact (h.lists tag a).trans (hget a (· = tag)).symm

end Indexed
end KObjRegistry

/-! ### Runs -/

inductive RegistryOp where
  | register (typeTag ownerPid clk : Nat)
  | registerChild (typeTag ownerPid parent clk : Nat)
  | unregister (id : Nat)
  | refUp (id : Nat)
  | refDown (id : Nat)
  | gcSweep
  deriving DecidableEq

namespace KObjRegistry

def apply (reg : KObjRegistry) : RegistryOp → KObjRegistry
  | .register typeTag ownerPid clk => (reg.register typeTag ownerPid clk).2
  | .registerChild typeTag ownerPid parent clk => (reg.registerChild typeTag ownerPid parent clk).2
  | .unregister id => (reg.unregister id).2
  | .refUp id => (reg.refUp id).2
  | .refDown id => (reg.refDown id).2
  | .gcSweep => reg.gcSweep.2

/-- The numbers that an operation returns. -/
def returns (reg : KObjRegistry) : RegistryOp → List Nat
  | .register typeTag ownerPid clk => [(reg.register typeTag ownerPid clk).1]
  | .registerChild typeTag ownerPid parent clk => [(reg.registerChild typeTag ownerPid parent clk).1]
  | _ => []

theorem Indexed.apply {reg : KObjRegistry} (h : Indexed reg) {op : RegistryOp}
    (hseq : reg.seq + (reg.returns op).length < wordSize) : Indexed (reg.apply op) := by
  cases op with
  | register typeTag ownerPid clk => exact h.enter hseq typeTag ownerPid clk none
  | registerChild typeTag ownerPid parent clk => exact h.enter hseq typeTag ownerPid clk (some parent)
  | unregister id => exact h.unregister id
  | refUp id => exact h.recount id fun _ => rfl
  | refDown id => exact h.recount id fun _ => rfl
  | gcSweep => exact h.removeAll reg.dead

end KObjRegistry

/-- A registry and the numbers it has returned. -/
structure RegistryWorld where
  reg : KObjRegistry
  numbers : List Nat

def registries : System RegistryWorld RegistryOp where
  step w op := some ⟨w.reg.apply op, w.numbers ++ w.reg.returns op⟩

structure Consistent (w : RegistryWorld) : Prop where
  sorted : ∀ tag, (w.reg.findByType tag).Pairwise (· < ·)
  lists : ∀ tag id, id ∈ w.reg.findByType tag ↔ ∃ e, w.reg.objects[id]? = some e ∧ e.typeTag = tag
  /-- No number is returned twice. -/
  fresh : w.numbers.Nodup
  sweeps : ∀ (id : Nat) (e : KObjEntry), w.reg.gcSweep.2.objects[id]? = some e ↔ w.reg.objects[id]? = some e ∧ e.refCount ≠ 0
  counts : w.reg.gcSweep.1 + w.reg.gcSweep.2.objects.size = w.reg.objects.size

theorem removeAll_seq (reg : KObjRegistry) (ids : List Nat) : (reg.removeAll ids).seq = reg.seq := by
  induction ids generalizing reg with
  | nil => rfl
  | cons id rest ih => exact (ih (reg.unregister id).2).trans (reg.unregister_seq id)

/-- The counter is past all the numbers. -/
structure Numbered (w : RegistryWorld) : Prop where
  indexed : w.reg.Indexed
  numbers : w.numbers.Pairwise (· < ·)
  past : ∀ id ∈ w.numbers, id < w.reg.seq
  counted : w.reg.seq = w.numbers.length + 1

/-- As long as the counter has not come round. -/
theorem step_numbered (w : RegistryWorld) (op : RegistryOp) (w' : RegistryWorld)
    (h : w.numbers.length + 1 < wordSize → Numbered w) (hstep : registries.step w op = some w')
    (hword : w'.numbers.length + 1 < wordSize) : Numbered w' := by
  cases hstep
  dsimp only at hword
  rw [length_append] at hword
  replace h := h (by omega)
  have hroom : w.reg.seq + (w.reg.returns op).length < wordSize := by
    rw [h.counted]
    omega
  have hindexed := h.indexed.apply hroom
  have hold {reg : KObjRegistry} (hi : reg.Indexed) (hseq : reg.seq = w.reg.seq) :
      Numbered ⟨reg, w.numbers ++ []⟩ := by
    rw [append_nil]
    exact ⟨hi, h.numbers, fun id hid => hseq.symm ▸ h.past id hid, hseq.trans h.counted⟩
  have hnew {reg : KObjRegistry} (hi : reg.Indexed) (hseq : reg.seq = wrappingAdd w.reg.seq 1)
      (hroom : w.reg.seq + 1 < wordSize) : Numbered ⟨reg, w.numbers ++ [w.reg.seq]⟩ := by
    rw [wrappingAdd, Nat.mod_eq_of_lt hroom] at hseq
    refine ⟨hi, pairwise_append.mpr ⟨h.numbers, pairwise_singleton .., fun a ha b hb => ?_⟩,
      fun id hid => ?_, ?_⟩
    · rw [mem_singleton.mp hb]
      exact h.past a ha
    · rw [hseq]
      rcases mem_append.mp hid with hid | hid
      · exact Nat.lt_succ_of_lt (h.past id hid)
      · rw [mem_singleton.mp hid]
        exact Nat.lt_succ_self _
    · rw [hseq, h.counted, length_append]
      rfl
  cases op with
  | register typeTag ownerPid clk => exact hnew hindexed rfl hroom
  | registerChild typeTag ownerPid parent clk => exact hnew hindexed rfl hroom
  | unregister id => exact hold hindexed (w.reg.unregister_seq id)
  | refUp id => exact hold hindexed rfl
  | refDown id => exact hold hindexed rfl
  | gcSweep => exact hold hindexed (removeAll_seq w.reg w.reg.dead)

/-- **In every run that has not used up the numbers, the index lists exactly the registered objects of each type, in
the order of their numbers; no number is used twice; a sweep removes the objects without references and counts
them.** -/
theorem registry_consistent (ops : List RegistryOp) (w : RegistryWorld)
    (hrun : registries.run ⟨.new, []⟩ ops = some w) (hword : w.numbers.length + 1 < wordSize) : Consistent w := by
  have hw := System.invariant_run (I := fun w => w.numbers.length + 1 < wordSize → Numbered w) step_numbered
    (fun _ => ⟨KObjRegistry.indexed_new, List.Pairwise.nil, fun _ hid => (by cases hid), rfl⟩) hrun hword
  refine ⟨hw.indexed.sorted, hw.indexed.lists, hw.numbers.imp fun hlt => hlt.ne, w.reg.get_gcSweep, ?_⟩
  refine KObjRegistry.size_removeAll w.reg.dead_nodup fun id hid => ?_
  obtain ⟨e, he, _⟩ := KObjRegistry.mem_dead.mp hid
  rw [he]
  rfl

theorem registry_consistent_swept :
    ∃ w, registries.run ⟨.new, []⟩ [.register 7 1 0, .register 7 1 0, .refDown 1, .gcSweep] = some w ∧
      w.numbers = [1, 2] ∧ w.reg.findByType 7 = [2] ∧ Consistent w := by
  have hrun : ((registries.run ⟨.new, []⟩ [.register 7 1 0, .register 7 1 0, .refDown 1, .gcSweep]).any
      fun w => w.numbers = [1, 2] ∧ w.reg.findByType 7 = [2]) = true := by decide +kernel
  obtain ⟨w, hw, hnumbers, hfind⟩ := System.exists_of_run_any hrun
  exact ⟨w, hw, hnumbers, hfind, registry_consistent _ w hw (by rw [hnumbers]; decide)⟩

end ChaosKernel.Objects
