import ChaosKernel.Objects.Registry

/-! The graph of the kernel objects.

A child knows its parent, and nothing knows the children of an object: `unregister`
and a sweep remove an object whether or not it has any. A parent is registered before
its child and so has the smaller number, which is why the links never go in a circle;
they may lead to an object that is gone. -/
namespace ChaosKernel.Objects
open Base Option

/-- Following the parents leads to an object without parent. -/
inductive Rooted (reg : KObjRegistry) : Nat → Prop where
  | root {id : Nat} {e : KObjEntry} : reg.objects[id]? = some e → e.parentId = none → Rooted reg id
  | link {id parent : Nat} {e : KObjEntry} :
      reg.objects[id]? = some e → e.parentId = some parent → Rooted reg parent → Rooted reg id

structure Connected (reg : KObjRegistry) : Prop where
  edges : ∀ parent child, (parent, child) ∈ reg.dumpGraph → parent ∈ reg.objects ∧ child ∈ reg.objects
  rooted : ∀ id, id ∈ reg.objects → Rooted reg id

/-- The registry, in which children are registered with parents that are registered, as long as the counter has
not come round. -/
def graphs : System KObjRegistry RegistryOp where
  step reg op :=
    if reg.seq + (reg.returns op).length < wordSize then
      match op with
      | .registerChild typeTag ownerPid parent clk =>
        if parent ∈ reg.objects then some (reg.registerChild typeTag ownerPid parent clk).2 else none
      | op => some (reg.apply op)
    else none

/-- No object loses its parent: only objects without children are removed, or, by a sweep, with all
their children. -/
def KeepsParents (reg : KObjRegistry) : RegistryOp → Prop
  | .unregister id => ∀ (child : Nat) (e : KObjEntry), reg.objects[child]? = some e → e.parentId = some id →
      id ∉ reg.objects
  | .gcSweep => ∀ (child : Nat) (e : KObjEntry), reg.objects[child]? = some e → e.refCount ≠ 0 →
      ∀ (parent : Nat) (p : KObjEntry), e.parentId = some parent → reg.objects[parent]? = some p → p.refCount ≠ 0
  | _ => True

variable {reg reg' : KObjRegistry} {f : KObjEntry → KObjEntry} {parentId : Option Nat}

theorem KObjRegistry.mem_dumpGraph {parent child : Nat} :
    (parent, child) ∈ reg.dumpGraph ↔ ∃ e, reg.objects[child]? = some e ∧ e.parentId = some parent := by
  simp only [dumpGraph, List.mem_filterMap, Prod.exists, Std.ExtTreeMap.mem_toList_iff_getElem?_eq_some,
    map_eq_some_iff, Prod.mk.injEq]
  constructor
  · intro h
    obtain ⟨id, e, he, p, hp, hpp, hid⟩ := h
    subst hpp hid
    exact ⟨e, he, hp⟩
  · intro h
    obtain ⟨e, he, hp⟩ := h
    exact ⟨child, e, he, parent, hp, rfl, rfl⟩

theorem KObjRegistry.mem_objects {id : Nat} : id ∈ reg.objects ↔ ∃ e, reg.objects[id]? = some e :=
  Std.ExtTreeMap.mem_iff_isSome_getElem?.trans isSome_iff_exists

/-! ### Parents are older -/

/-- A parent has a smaller number than its child. -/
structure Ordered (reg : KObjRegistry) : Prop where
  indexed : reg.Indexed
  older : ∀ (child : Nat) (e : KObjEntry) (parent : Nat), reg.objects[child]? = some e → e.parentId = some parent →
    parent < child

/-- Every parent is registered. -/
def Attached (reg : KObjRegistry) : Prop :=
  ∀ (child : Nat) (e : KObjEntry) (parent : Nat), reg.objects[child]? = some e → e.parentId = some parent →
    parent ∈ reg.objects

theorem Ordered.connected_iff_attached (h : Ordered reg) : Connected reg ↔ Attached reg := by
  constructor
  · intro hc child e parent he hp
    exact (hc.edges parent child (KObjRegistry.mem_dumpGraph.mpr ⟨e, he, hp⟩)).1
  · intro ha
    refine ⟨fun parent child hedge => ?_, fun id => ?_⟩
    · obtain ⟨e, he, hp⟩ := KObjRegistry.mem_dumpGraph.mp hedge
      exact ⟨ha child e parent he hp, KObjRegistry.mem_objects.mpr ⟨e, he⟩⟩
    · -- along the links the numbers go down
      induction id using Nat.strong_induction_on with
      | h id ih =>
        intro hid
        obtain ⟨e, he⟩ := KObjRegistry.mem_objects.mp hid
        cases hp : e.parentId with
        | none => exact .root he hp
        | some parent => exact .link he hp (ih parent (h.older id e parent he hp) (ha id e parent he hp))

/-- What the objects of one registry are in another, but for their counts. -/
def Survives (reg reg' : KObjRegistry) : Prop :=
  ∀ (id : Nat) (e' : KObjEntry), reg'.objects[id]? = some e' →
    ∃ e, reg.objects[id]? = some e ∧ e.parentId = e'.parentId

theorem Ordered.survives (h : Ordered reg) (hindexed : reg'.Indexed) (hs : Survives reg reg') :
    Ordered reg' := by
  refine ⟨hindexed, fun child e' parent he' hp => ?_⟩
  obtain ⟨e, he, heq⟩ := hs child e' he'
  exact h.older child e parent he (heq.trans hp)

theorem survives_unregister (reg : KObjRegistry) (id : Nat) : Survives reg (reg.unregister id).2 := by
  intro a e' he'
  rw [KObjRegistry.get_unregister] at he'
  split at he'
  · cases he'
  · exact ⟨e', he', rfl⟩

theorem survives_gcSweep (reg : KObjRegistry) : Survives reg reg.gcSweep.2 :=
  fun a e' he' => ⟨e', ((reg.get_gcSweep a e').mp he').1, rfl⟩

theorem survives_recount (reg : KObjRegistry) (id : Nat) (hf : ∀ e, (f e).parentId = e.parentId) :
    Survives reg {reg with objects := reg.objects.modify id f} := by
  intro a e' he'
  have he' : (reg.objects.modify id f)[a]? = some e' := he'
  rw [get_modify] at he'
  split at he'
  · obtain ⟨e, he, heq⟩ := map_eq_some_iff.mp he'
    exact ⟨e, he, by rw [← heq, hf]⟩
  · exact ⟨e', he', rfl⟩

theorem get_enter {typeTag ownerPid clk : Nat} {id : Nat} {e : KObjEntry}
    (h : (reg.enter typeTag ownerPid clk parentId).2.objects[id]? = some e) :
    id = reg.seq ∧ e.parentId = parentId ∨ reg.objects[id]? = some e := by
  have h : (reg.objects.insert reg.seq _)[id]? = some e := h
  rw [get_insert] at h
  split at h
  · next hid =>
    cases h
    exact .inl ⟨hid.symm, rfl⟩
  · exact .inr h

theorem Ordered.enter (h : Ordered reg) (hseq : reg.seq + 1 < wordSize) (typeTag ownerPid clk : Nat)
    (hparent : ∀ parent, parentId = some parent → parent ∈ reg.objects) :
    Ordered (reg.enter typeTag ownerPid clk parentId).2 := by
  refine ⟨h.indexed.enter hseq typeTag ownerPid clk parentId, fun child e parent he hp => ?_⟩
  rcases get_enter he with ⟨hid, hpid⟩ | he
  · obtain ⟨p, hp'⟩ := KObjRegistry.mem_objects.mp (hparent parent (hpid.symm.trans hp))
    rw [hid]
    exact h.indexed.issued parent p hp'
  · exact h.older child e parent he hp

theorem Attached.enter (h : Attached reg) (typeTag ownerPid clk : Nat)
    (hparent : ∀ parent, parentId = some parent → parent ∈ reg.objects) :
    Attached (reg.enter typeTag ownerPid clk parentId).2 := by
  intro child e parent he hp
  have hold : parent ∈ reg.objects := by
    rcases get_enter he with ⟨_, hpid⟩ | he
    · exact hparent parent (hpid.symm.trans hp)
    · exact h child e parent he hp
  exact Std.ExtTreeMap.mem_insert.mpr (.inr hold)

/-! ### One operation -/

theorem step_ordered (reg : KObjRegistry) (op : RegistryOp) (reg' : KObjRegistry) (h : Ordered reg)
    (hstep : graphs.step reg op = some reg') : Ordered reg' := by
  obtain ⟨hseq, hstep⟩ := ite_none_right_eq_some.mp hstep
  cases op with
  | register typeTag ownerPid clk =>
    cases hstep
    exact h.enter hseq typeTag ownerPid clk fun _ hp => by cases hp
  | registerChild typeTag ownerPid parent clk =>
    obtain ⟨hparent, heq⟩ := ite_none_right_eq_some.mp hstep
    cases heq
    refine h.enter hseq typeTag ownerPid clk fun p hp => ?_
    cases hp
    exact hparent
  | unregister id =>
    cases hstep
    exact h.survives (h.indexed.unregister id) (survives_unregister reg id)
  | refUp id =>
    cases hstep
    exact h.survives (h.indexed.recount id fun _ => rfl) (survives_recount reg id fun _ => rfl)
  | refDown id =>
    cases hstep
    exact h.survives (h.indexed.recount id fun _ => rfl) (survives_recount reg id fun _ => rfl)
  | gcSweep =>
    cases hstep
    exact h.survives (h.indexed.removeAll reg.dead) (survives_gcSweep reg)

theorem Attached.recount (h : Attached reg) (id : Nat) (hf : ∀ e, (f e).parentId = e.parentId) :
    Attached {reg with objects := reg.objects.modify id f} := by
  intro child e' parent he' hp
  obtain ⟨e, he, heq⟩ := survives_recount reg id hf child e' he'
  exact Std.ExtTreeMap.mem_modify.mpr (h child e parent he (heq.trans hp))

theorem Attached.unregister_iff (h : Attached reg) (hord : Ordered reg) (id : Nat) :
    Attached (reg.unregister id).2 ↔ KeepsParents reg (.unregister id) := by
  constructor
  · intro h' child e he hp hid
    have hne : id ≠ child := (hord.older child e id he hp).ne
    have hmem := h' child e id (by rw [KObjRegistry.get_unregister, if_neg hne, he]) hp
    obtain ⟨p, hget⟩ := KObjRegistry.mem_objects.mp hmem
    rw [KObjRegistry.get_unregister, if_pos rfl] at hget
    cases hget
  · intro hk child e parent he hp
    rw [KObjRegistry.get_unregister, ite_none_left_eq_some] at he
    obtain ⟨p, hget⟩ := KObjRegistry.mem_objects.mp (h child e parent he.2 hp)
    have hne : id ≠ parent := fun heq =>
      hk child e he.2 (heq ▸ hp) (heq ▸ KObjRegistry.mem_objects.mpr ⟨p, hget⟩)
    exact KObjRegistry.mem_objects.mpr ⟨p, by rw [KObjRegistry.get_unregister, if_neg hne, hget]⟩

theorem Attached.gcSweep_iff (h : Attached reg) : Attached reg.gcSweep.2 ↔ KeepsParents reg .gcSweep := by
  constructor
  · intro h' child e he href parent p hp hget
    have hmem := h' child e parent ((reg.get_gcSweep child e).mpr ⟨he, href⟩) hp
    obtain ⟨p', hget'⟩ := KObjRegistry.mem_objects.mp hmem
    obtain ⟨hold, hne⟩ := (reg.get_gcSweep parent p').mp hget'
    rw [hget] at hold
    cases hold
    exact hne
  · intro hk child e parent he hp
    obtain ⟨he, href⟩ := (reg.get_gcSweep child e).mp he
    obtain ⟨p, hget⟩ := KObjRegistry.mem_objects.mp (h child e parent he hp)
    exact KObjRegistry.mem_objects.mpr ⟨p, (reg.get_gcSweep parent p).mpr ⟨hget, hk child e he href parent p hp hget⟩⟩

theorem step_connected (reg : KObjRegistry) (op : RegistryOp) (reg' : KObjRegistry) (hord : Ordered reg)
    (h : Connected reg) (hstep : graphs.step reg op = some reg') : Connected reg' ↔ KeepsParents reg op := by
  rw [(step_ordered reg op reg' hord hstep).connected_iff_attached]
  have h := hord.connected_iff_attached.mp h
  obtain ⟨_, hstep⟩ := ite_none_right_eq_some.mp hstep
  cases op with
  | register typeTag ownerPid clk =>
    cases hstep
    exact iff_of_true (h.enter typeTag ownerPid clk fun _ hp => by cases hp) trivial
  | registerChild typeTag ownerPid parent clk =>
    obtain ⟨hparent, heq⟩ := ite_none_right_eq_some.mp hstep
    cases heq
    refine iff_of_true (h.enter typeTag ownerPid clk fun p hp => ?_) trivial
    cases hp
    exact hparent
  | unregister id =>
    cases hstep
    exact h.unregister_iff hord id
  | refUp id =>
    cases hstep
    exact iff_of_true (h.recount id fun _ => rfl) trivial
  | refDown id =>
    cases hstep
    exact iff_of_true (h.recount id fun _ => rfl) trivial
  | gcSweep =>
    cases hstep
    exact h.gcSweep_iff

theorem ordered_new : Ordered .new :=
  ⟨KObjRegistry.indexed_new, fun child e parent he => by simp [KObjRegistry.new] at he⟩

/-! ### Runs -/

/-- **The graph has no dangling edge along a run exactly when objects are removed only without their
children or together with them.** -/
theorem connected_iff (ops : List RegistryOp) :
    graphs.Always Connected .new ops ↔ graphs.Guarded KeepsParents .new ops :=
  System.always_iff_guarded step_ordered step_connected ordered_new
    (ordered_new.connected_iff_attached.mpr fun child e parent he => by simp [KObjRegistry.new] at he)

/-- A parent is unregistered before its child. -/
theorem child_left_dangling :
    ¬graphs.Always Connected .new [.register 7 1 0, .registerChild 7 1 1 0, .unregister 1] := by
  intro h
  have hrun : ((graphs.run .new [.register 7 1 0, .registerChild 7 1 1 0, .unregister 1]).any
      fun reg => reg.dumpGraph.contains (1, 2) && !reg.objects.contains 1) = true := by decide +kernel
  obtain ⟨reg, hreg, hstate⟩ := (Option.any_eq_true _ _).mp hrun
  obtain ⟨hedge, hgone⟩ := Bool.and_eq_true_iff.mp hstate
  have hmem := ((h _ reg (List.prefix_refl _) hreg).edges 1 2 (List.contains_iff_mem.mp hedge)).1
  rw [Std.ExtTreeMap.contains_iff_mem.mpr hmem] at hgone
  cases hgone

end ChaosKernel.Objects
