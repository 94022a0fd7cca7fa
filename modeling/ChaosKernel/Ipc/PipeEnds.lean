import ChaosKernel.Base.Run
import ChaosKernel.Ipc.Pipe

/-! The count of the ends of a pipe.

Nodes are made in pairs, cloned, and dropped. `ends` is 2 for a new pair, a drop
lowers it, and a clone does not raise it. So it is 2 just as long as no node of
the pipe was dropped, and the other side is seen to be there just as long. A
pipe that lost a node is answered right from then on if the nodes it has left
are all of one kind (`Kept.endsSeen_iff`). -/
namespace ChaosKernel.Ipc
open Base Option

/-! ### Pipes and the nodes that are alive -/

structure PipeWorld where
  pipes : BTreeMap PipeBuf
  nodes : BTreeMap PipeNode
  /-- Numbers from here on are new. -/
  next : Nat

/-- The clone of a node is the derived one or `FLike::dup`; they do the same. -/
inductive PipeStep where
  | pair
  | clone (n : Nat)
  | drop (n : Nat)
  | write (n : Nat) (buf : Bytes)
  | read (n len : Nat)

namespace PipeWorld

def new : PipeWorld := ⟨∅, ∅, 0⟩

/-- A node that is alive, and its pipe. -/
def node (w : PipeWorld) (n : Nat) : Option (PipeNode × PipeBuf) :=
  w.nodes[n]?.bind fun node => w.pipes[node.data]?.map fun pipe => (node, pipe)

def setPipe (w : PipeWorld) (p : Nat) (pipe : PipeBuf) : PipeWorld := {w with pipes := w.pipes.insert p pipe}

def step (w : PipeWorld) : PipeStep → Option PipeWorld
  | .pair => some {
      pipes := w.pipes.insert w.next PipeBuf.new
      nodes := (w.nodes.insert w.next ⟨w.next, .rd⟩).insert (w.next + 1) ⟨w.next, .wr⟩
      next := w.next + 2}
  | .clone n => (w.node n).map fun (node, _) =>
    {w with nodes := w.nodes.insert w.next node, next := w.next + 1}
  | .drop n => (w.node n).bind fun (node, pipe) => pipe.dropNode.map fun pipe =>
    {w.setPipe node.data pipe with nodes := w.nodes.erase n}
  | .write n buf => (w.node n).map fun (node, pipe) => w.setPipe node.data (pipe.writeAt node.dir buf).2
  | .read n len => (w.node n).map fun (node, pipe) => w.setPipe node.data (pipe.readAt node.dir len).2

/-- Some end of this kind is alive. -/
def Alive (w : PipeWorld) (p : Nat) (dir : PipeDir) : Prop := ∃ n : Nat, w.nodes[n]? = some ⟨p, dir⟩

/-- A read end of an empty pipe is told to wait exactly while some write end is alive, and a write
end may write exactly while some read end is. -/
def EndsSeen (w : PipeWorld) : Prop := ∀ n node pipe, w.node n = some (node, pipe) →
  (node.dir = .rd → pipe.buf = [] → ∀ len, 0 < len →
    ((pipe.readAt node.dir len).1 = .error (.err .again) ↔ w.Alive node.data .wr)) ∧
  (node.dir = .wr → (pipe.canWrite node.dir = true ↔ w.Alive node.data .rd))

/-- A node is dropped only when the pipe then has no read end left, or no write end. -/
def ClosesOneSide (w : PipeWorld) : PipeStep → Prop
  | .drop n => ∀ node, w.nodes[n]? = some node →
    ∃ dir, ∀ m : Nat, w.nodes[m]? = some ⟨node.data, dir⟩ → m = n
  | _ => True

/-- What every step keeps: nodes have pipes, a pipe that counts 2 ends has both, and numbers from
`next` on are new. -/
structure Kept (w : PipeWorld) : Prop where
  piped : ∀ (n : Nat) node, w.nodes[n]? = some node → ∃ pipe, w.pipes[node.data]? = some pipe
  both : ∀ (p : Nat) pipe, w.pipes[p]? = some pipe → pipe.ends = 2 → ∀ dir, w.Alive p dir
  most : ∀ (p : Nat) pipe, w.pipes[p]? = some pipe → pipe.ends ≤ 2
  fresh : ∀ n : Nat, w.next ≤ n → w.nodes[n]? = none ∧ w.pipes[n]? = none

/-- A pipe that lost an end has ends of one kind only. -/
def OneSided (w : PipeWorld) : Prop := ∀ (p : Nat) pipe, w.pipes[p]? = some pipe →
  pipe.ends = 2 ∨ ¬(w.Alive p .rd ∧ w.Alive p .wr)

variable {w w' : PipeWorld}

theorem node_eq_some {n : Nat} {node : PipeNode} {pipe : PipeBuf} :
    w.node n = some (node, pipe) ↔ w.nodes[n]? = some node ∧ w.pipes[node.data]? = some pipe := by
  simp only [PipeWorld.node, bind_eq_some_iff, map_eq_some_iff, Prod.mk.injEq]
  constructor
  · intro ⟨node', hnode, pipe', hpipe, hn, hp⟩
    subst hn hp
    exact ⟨hnode, hpipe⟩
  · intro ⟨hnode, hpipe⟩
    exact ⟨node, hnode, pipe, hpipe, rfl, rfl⟩

theorem Kept.endsSeen_iff (h : w.Kept) : w.EndsSeen ↔ w.OneSided := by
  constructor
  · intro hseen p pipe hpipe
    by_contra hnot
    obtain ⟨hends, hrd, n, hn⟩ := not_or.mp hnot |>.imp_right not_not.mp
    have hwrite := (hseen n ⟨p, .wr⟩ pipe (node_eq_some.mpr ⟨hn, hpipe⟩)).2 rfl
    exact hends ((pipe.canWrite_iff).mp (hwrite.mpr hrd))
  · intro hone n node pipe hnode
    obtain ⟨hn, hpipe⟩ := node_eq_some.mp hnode
    have hother : ∀ dir, node.dir ≠ dir → (pipe.ends = 2 ↔ w.Alive node.data dir) := by
      intro dir hdir
      refine ⟨fun hends => h.both _ pipe hpipe hends dir, fun halive => ?_⟩
      refine (hone _ pipe hpipe).resolve_right (fun hnot => hnot ?_)
      have hself : w.Alive node.data node.dir := ⟨n, hn⟩
      cases hkind : node.dir with
      | rd =>
        rw [hkind] at hself hdir
        cases dir with
        | rd => exact absurd rfl hdir
        | wr => exact ⟨hself, halive⟩
      | wr =>
        rw [hkind] at hself hdir
        cases dir with
        | rd => exact ⟨halive, hself⟩
        | wr => exact absurd rfl hdir
    refine ⟨fun hdir hempty len hlen => ?_, fun hdir => ?_⟩
    · rw [hdir, PipeBuf.readAt_again hempty hlen]
      exact hother .wr (by rw [hdir]; decide)
    · rw [hdir, PipeBuf.canWrite_iff]
      exact hother .rd (by rw [hdir]; decide)

/-! ### One step -/

/-- What a step does. -/
inductive Steps (w : PipeWorld) : PipeStep → PipeWorld → Prop
  | pair : Steps w .pair ⟨w.pipes.insert w.next PipeBuf.new,
      (w.nodes.insert w.next ⟨w.next, .rd⟩).insert (w.next + 1) ⟨w.next, .wr⟩, w.next + 2⟩
  | clone {n node pipe} (hnode : w.node n = some (node, pipe)) :
      Steps w (.clone n) ⟨w.pipes, w.nodes.insert w.next node, w.next + 1⟩
  | drop {n node pipe} (hnode : w.node n = some (node, pipe)) (ev : Nat) :
      Steps w (.drop n) ⟨w.pipes.insert node.data ⟨pipe.buf, ev, pipe.ends - 1⟩, w.nodes.erase n, w.next⟩
  | transfer {a n node pipe pipe'} (hnode : w.node n = some (node, pipe)) (hends : pipe'.ends = pipe.ends)
      (hkeeps : w.ClosesOneSide a) : Steps w a ⟨w.pipes.insert node.data pipe', w.nodes, w.next⟩

theorem step_cases {a : PipeStep} (h : w.step a = some w') : w.Steps a w' := by
  cases a with
  | pair =>
    cases h
    exact .pair
  | clone n =>
    obtain ⟨⟨node, pipe⟩, hnode, rfl⟩ := map_eq_some_iff.mp h
    exact .clone hnode
  | drop n =>
    obtain ⟨⟨node, pipe⟩, hnode, hdrop⟩ := bind_eq_some_iff.mp h
    obtain ⟨pipe', hpipe, rfl⟩ := map_eq_some_iff.mp hdrop
    simp only [PipeBuf.dropNode, ite_none_left_eq_some, some.injEq] at hpipe
    rw [← hpipe.2]
    exact .drop hnode _
  | write n buf =>
    obtain ⟨⟨node, pipe⟩, hnode, rfl⟩ := map_eq_some_iff.mp h
    exact .transfer hnode (pipe.writeAt_ends node.dir buf) trivial
  | read n len =>
    obtain ⟨⟨node, pipe⟩, hnode, rfl⟩ := map_eq_some_iff.mp h
    exact .transfer hnode (pipe.readAt_ends node.dir len) trivial

theorem Kept.alive_pair (h : w.Kept) (pipes : BTreeMap PipeBuf) (next p : Nat) (dir : PipeDir) :
    Alive ⟨pipes, (w.nodes.insert w.next ⟨w.next, .rd⟩).insert (w.next + 1) ⟨w.next, .wr⟩, next⟩ p dir ↔
      p = w.next ∨ w.Alive p dir := by
  simp only [Alive, get_insert]
  constructor
  · intro ⟨n, hn⟩
    split at hn
    · cases hn
      exact .inl rfl
    · split at hn
      · cases hn
        exact .inl rfl
      · exact .inr ⟨n, hn⟩
  · intro hor
    rcases hor with rfl | ⟨n, hn⟩
    · cases dir with
      | rd => exact ⟨w.next, by simp⟩
      | wr => exact ⟨w.next + 1, by simp⟩
    · have hlt : n < w.next := by
        by_contra hge
        rw [(h.fresh n (by omega)).1] at hn
        cases hn
      refine ⟨n, ?_⟩
      rw [if_neg (by omega), if_neg (by omega)]
      exact hn

theorem Kept.alive_clone (h : w.Kept) {n : Nat} {node : PipeNode} (hn : w.nodes[n]? = some node)
    (pipes : BTreeMap PipeBuf) (next p : Nat) (dir : PipeDir) :
    Alive ⟨pipes, w.nodes.insert w.next node, next⟩ p dir ↔ w.Alive p dir := by
  simp only [Alive, get_insert]
  constructor
  · intro ⟨m, hm⟩
    split at hm
    · cases hm
      exact ⟨n, hn⟩
    · exact ⟨m, hm⟩
  · intro ⟨m, hm⟩
    refine ⟨m, ?_⟩
    have hne : w.next ≠ m := by
      intro heq
      rw [(h.fresh m (by omega)).1] at hm
      cases hm
    rw [if_neg hne]
    exact hm

theorem alive_drop (n : Nat) (pipes : BTreeMap PipeBuf) (next p : Nat) (dir : PipeDir) :
    Alive ⟨pipes, w.nodes.erase n, next⟩ p dir ↔ ∃ m : Nat, m ≠ n ∧ w.nodes[m]? = some ⟨p, dir⟩ := by
  simp only [Alive, get_erase]
  constructor
  · intro ⟨m, hm⟩
    split at hm
    · cases hm
    · next hne => exact ⟨m, Ne.symm hne, hm⟩
  · intro ⟨m, hne, hm⟩
    exact ⟨m, by rw [if_neg (Ne.symm hne)]; exact hm⟩

theorem Kept.pair (h : w.Kept) : Kept ⟨w.pipes.insert w.next PipeBuf.new,
    (w.nodes.insert w.next ⟨w.next, .rd⟩).insert (w.next + 1) ⟨w.next, .wr⟩, w.next + 2⟩ := by
  refine ⟨fun n node hn => ?_, fun p pipe hp hends dir => ?_, fun p pipe hp => ?_, fun n hn => ?_⟩
  · have hdata : w.nodes[n]? = some node ∨ node.data = w.next := by
      simp only [get_insert] at hn
      split at hn
      · cases hn
        exact .inr rfl
      · split at hn
        · cases hn
          exact .inr rfl
        · exact .inl hn
    simp only [get_insert]
    by_cases hnew : w.next = node.data
    · exact ⟨PipeBuf.new, if_pos hnew⟩
    · obtain ⟨pipe, hpipe⟩ := h.piped n node (hdata.resolve_right (Ne.symm hnew))
      exact ⟨pipe, by rw [if_neg hnew]; exact hpipe⟩
  · rw [h.alive_pair]
    simp only [get_insert] at hp
    split at hp
    · next hnew => exact .inl hnew.symm
    · exact .inr (h.both p pipe hp hends dir)
  · simp only [get_insert] at hp
    split at hp
    · cases hp
      exact le_refl _
    · exact h.most p pipe hp
  · have hge : w.next + 2 ≤ n := hn
    simp only [get_insert]
    rw [if_neg (by omega), if_neg (by omega), if_neg (by omega)]
    exact h.fresh n (by omega)

theorem Kept.clone (h : w.Kept) {n : Nat} {node : PipeNode} (hn : w.nodes[n]? = some node) :
    Kept ⟨w.pipes, w.nodes.insert w.next node, w.next + 1⟩ := by
  refine ⟨fun m node' hm => ?_, fun p pipe hp hends dir => ?_, h.most, fun m hm => ?_⟩
  · simp only [get_insert] at hm
    split at hm
    · cases hm
      exact h.piped n node hn
    · exact h.piped m node' hm
  · rw [h.alive_clone hn]
    exact h.both p pipe hp hends dir
  · have hge : w.next + 1 ≤ m := hm
    simp only [get_insert]
    rw [if_neg (by omega)]
    exact h.fresh m (by omega)

theorem Kept.change (h : w.Kept) {p : Nat} {pipe pipe' : PipeBuf} (hpipe : w.pipes[p]? = some pipe)
    (hends : pipe'.ends ≤ pipe.ends) : Kept ⟨w.pipes.insert p pipe', w.nodes, w.next⟩ := by
  have hmost := h.most p pipe hpipe
  refine ⟨fun n node hn => ?_, fun q pipe'' hq htwo dir => ?_, fun q pipe'' hq => ?_, fun n hn => ?_⟩
  · obtain ⟨old, hold⟩ := h.piped n node hn
    simp only [get_insert]
    by_cases hsame : p = node.data
    · exact ⟨pipe', if_pos hsame⟩
    · exact ⟨old, by rw [if_neg hsame]; exact hold⟩
  · simp only [get_insert] at hq
    split at hq
    · next hsame =>
      cases hq
      exact h.both q pipe (by rw [← hsame]; exact hpipe) (by omega) dir
    · exact h.both q pipe'' hq htwo dir
  · simp only [get_insert] at hq
    split at hq
    · cases hq
      omega
    · exact h.most q pipe'' hq
  · obtain ⟨hnodes, hpipes⟩ := h.fresh n hn
    refine ⟨hnodes, ?_⟩
    have hne : p ≠ n := by
      intro heq
      rw [heq, hpipes] at hpipe
      cases hpipe
    simp only [get_insert]
    rw [if_neg hne]
    exact hpipes

theorem Kept.erase (h : w.Kept) {n : Nat} {node : PipeNode} (hn : w.nodes[n]? = some node)
    (hends : ∀ pipe, w.pipes[node.data]? = some pipe → pipe.ends ≠ 2) :
    Kept ⟨w.pipes, w.nodes.erase n, w.next⟩ := by
  refine ⟨fun m node' hm => ?_, fun p pipe hp htwo dir => ?_, h.most, fun m hm => ?_⟩
  · simp only [get_erase] at hm
    split at hm
    · cases hm
    · exact h.piped m node' hm
  · obtain ⟨m, hm⟩ := h.both p pipe hp htwo dir
    rw [alive_drop]
    refine ⟨m, fun heq => ?_, hm⟩
    rw [heq, hn] at hm
    rw [some.inj hm] at hends
    exact hends pipe hp htwo
  · obtain ⟨hnodes, hpipes⟩ := h.fresh m hm
    refine ⟨?_, hpipes⟩
    simp only [get_erase]
    split
    · rfl
    · exact hnodes

theorem Kept.step (h : w.Kept) {a : PipeStep} (hstep : w.step a = some w') : w'.Kept := by
  cases step_cases hstep with
  | pair => exact h.pair
  | clone hnode => exact h.clone (node_eq_some.mp hnode).1
  | @drop n node pipe hnode ev =>
    obtain ⟨hn, hpipe⟩ := node_eq_some.mp hnode
    have hmost := h.most node.data pipe hpipe
    have hless : (PipeBuf.mk pipe.buf ev (pipe.ends - 1)).ends ≤ pipe.ends := by
      show pipe.ends - 1 ≤ pipe.ends
      omega
    refine (h.change hpipe hless).erase hn fun pipe' hpipe' => ?_
    simp only [get_insert, if_true, some.injEq] at hpipe'
    rw [← hpipe']
    show pipe.ends - 1 ≠ 2
    omega
  | transfer hnode hends _ => exact h.change (node_eq_some.mp hnode).2 (le_of_eq hends)

theorem kept_new : new.Kept := by
  have hpipes : ∀ p : Nat, new.pipes[p]? = none := fun p => Std.ExtTreeMap.getElem?_empty
  have hnodes : ∀ n : Nat, new.nodes[n]? = none := fun n => Std.ExtTreeMap.getElem?_empty
  refine ⟨fun n node hn => ?_, fun p pipe hp => ?_, fun p pipe hp => ?_, fun n _ => ⟨hnodes n, hpipes n⟩⟩
  · rw [hnodes] at hn
    cases hn
  · rw [hpipes] at hp
    cases hp
  · rw [hpipes] at hp
    cases hp

theorem Kept.oneSided_step (h : w.Kept) (hone : w.OneSided) {a : PipeStep} (hstep : w.step a = some w') :
    w'.OneSided ↔ w.ClosesOneSide a := by
  cases step_cases hstep with
  | pair =>
    refine iff_of_true (fun p pipe hp => ?_) trivial
    simp only [get_insert] at hp
    split at hp
    · cases hp
      exact .inl rfl
    · next hne =>
      rw [h.alive_pair, h.alive_pair]
      refine (hone p pipe hp).imp_right fun hnot hboth => hnot ⟨?_, ?_⟩
      · exact hboth.1.resolve_left (Ne.symm hne)
      · exact hboth.2.resolve_left (Ne.symm hne)
  | clone hnode =>
    refine iff_of_true (fun p pipe hp => ?_) trivial
    rw [h.alive_clone (node_eq_some.mp hnode).1, h.alive_clone (node_eq_some.mp hnode).1]
    exact hone p pipe hp
  | @drop n node pipe hnode ev =>
    obtain ⟨hn, hpipe⟩ := node_eq_some.mp hnode
    have hmost := h.most node.data pipe hpipe
    constructor
    · intro hone' node' hnode'
      rw [hn] at hnode'
      rw [← some.inj hnode']
      have hleft := hone' node.data ⟨pipe.buf, ev, pipe.ends - 1⟩ (by rw [get_insert, if_pos rfl])
      rw [alive_drop, alive_drop] at hleft
      rcases not_and_or.mp (hleft.resolve_left (by show pipe.ends - 1 ≠ 2; omega)) with hgone | hgone
      · exact ⟨.rd, fun m hm => by_contra fun hne => hgone ⟨m, hne, hm⟩⟩
      · exact ⟨.wr, fun m hm => by_contra fun hne => hgone ⟨m, hne, hm⟩⟩
    · intro hcloses p pipe' hp
      rw [alive_drop, alive_drop]
      obtain ⟨dir, honly⟩ := hcloses node hn
      simp only [get_insert] at hp
      split at hp
      · next hsame =>
        rw [hsame] at honly
        refine .inr fun hboth => ?_
        have hgone : ¬∃ m : Nat, m ≠ n ∧ w.nodes[m]? = some ⟨p, dir⟩ :=
          fun ⟨m, hne, hm⟩ => hne (honly m hm)
        cases dir with
        | rd => exact hgone hboth.1
        | wr => exact hgone hboth.2
      · refine (hone p pipe' hp).imp_right fun hnot hboth => hnot ⟨?_, ?_⟩
        · obtain ⟨m, _, hm⟩ := hboth.1
          exact ⟨m, hm⟩
        · obtain ⟨m, _, hm⟩ := hboth.2
          exact ⟨m, hm⟩
  | @transfer a n node pipe pipe' hnode hends hkeeps =>
    refine iff_of_true (fun p pipe'' hp => ?_) hkeeps
    simp only [get_insert] at hp
    split at hp
    · next hsame =>
      cases hp
      rw [hends]
      exact hone p pipe (by rw [← hsame]; exact (node_eq_some.mp hnode).2)
    · exact hone p pipe'' hp

end PipeWorld

def pipes : System PipeWorld PipeStep := ⟨PipeWorld.step⟩

/-- **When the ends of a pipe are seen.** In a run of pairs, clones, drops, reads and writes, a
reader of an empty pipe is told to wait exactly while a writer is alive, and a writer may write
exactly while a reader is, in all states just when every drop takes the last end of its kind or
comes after the last end of the other kind. -/
theorem ends_seen_iff (steps : List PipeStep) :
    pipes.Always PipeWorld.EndsSeen PipeWorld.new steps ↔
      pipes.Guarded PipeWorld.ClosesOneSide PipeWorld.new steps := by
  refine System.always_iff_guarded (J := PipeWorld.Kept) (fun _ _ _ h hstep => h.step hstep)
    (fun w a w' h hseen hstep => ?_) PipeWorld.kept_new ?_
  · rw [(h.step hstep).endsSeen_iff]
    exact h.oneSided_step (h.endsSeen_iff.mp hseen) hstep
  · rw [PipeWorld.kept_new.endsSeen_iff]
    intro p pipe hp
    rw [show PipeWorld.new.pipes[p]? = none from Std.ExtTreeMap.getElem?_empty] at hp
    cases hp

/-- A write end is cloned and the clone dropped, as `get_file` does for one call: the reader of the
empty pipe gets end of file, and the writer may not write, with both ends alive. -/
theorem ends_miscounted : ¬pipes.Always PipeWorld.EndsSeen PipeWorld.new [.pair, .clone 1, .drop 2] := by
  intro hall
  have hrun : ((pipes.run PipeWorld.new [.pair, .clone 1, .drop 2]).any fun w =>
      ((w.node 0).any fun (node, pipe) => node = ⟨0, .rd⟩ ∧ pipe.buf = [] ∧
        (pipe.readAt node.dir 1).1 = .ok []) ∧ w.nodes[1]? = some ⟨0, .wr⟩) = true := by
    decide +kernel
  simp only [Option.any_eq_true, decide_eq_true_eq] at hrun
  obtain ⟨w, hw, ⟨⟨node, pipe⟩, hnode, rfl, hempty, hread⟩, hwriter⟩ := hrun
  have hseen := (hall _ w (List.prefix_refl _) hw 0 _ pipe hnode).1 rfl hempty 1 (by decide)
  have hagain := hseen.mpr ⟨1, hwriter⟩
  rw [hread] at hagain
  cases hagain

end ChaosKernel.Ipc
