import ChaosKernel.Base.Family
import ChaosKernel.Proc.Lifecycle

/-! The table of tasks as a family.

The members that are there are the tasks of the table; the parents and the lists of
children are those of the objects. A fork is a birth. A reap is an adoption by the root
and a burial, neither of which takes anybody out of a list. -/
namespace ChaosKernel.Proc
open Base Memory Option Function List

namespace TaskTable

def family (tasks : TaskTable) : Family Nat where
  alive i := (tasks.find i).isSome
  children i := (tasks.heap[i]?.map fun task => task.subtasks).getD []
  parent i := tasks.heap[i]?.bind fun task => task.parent

/-- What holds of the table whatever happens to the tree. -/
structure Formed (tasks : TaskTable) : Prop where
  root : tasks.root = some 1
  findRoot : tasks.find 1 = some 1
  find : ∀ i j, tasks.find i = some j → j = i ∧ (tasks.heap[i]?).isSome
  heap : ∀ i task, tasks.heap[i]? = some task → task.id = i ∧ 0 < i ∧ i < tasks.seq
  children : ∀ i, ∀ c ∈ tasks.family.children i, c ≠ 1 ∧ (tasks.heap[c]?).isSome
  gone : ∀ i, tasks.find i = none → tasks.family.children i = []

variable {tasks : TaskTable}
variable {task source : Task} {tasks' tasks'' : TaskTable} {f : Task → Task} {id i j src r c : Nat}

theorem family_children (h : tasks.heap[i]? = some task) : tasks.family.children i = task.subtasks := by
  simp only [family, h, map_some, getD_some]

theorem find_modify (tasks : TaskTable) (t : Nat) (f : Task → Task) (i : Nat) :
    (tasks.modify t f).find i = tasks.find i := by
  unfold modify
  split <;> rfl

theorem root_modify (tasks : TaskTable) (t : Nat) (f : Task → Task) : (tasks.modify t f).root = tasks.root := by
  unfold modify
  split <;> rfl

theorem isSome_modify (tasks : TaskTable) (t : Nat) (f : Task → Task) (i : Nat) :
    ((tasks.modify t f).heap[i]?).isSome = (tasks.heap[i]?).isSome := by
  rw [heap_modify]
  split
  · next h => rw [h, isSome_map]
  · rfl

theorem alive_of_find (h : tasks.find i = some j) : tasks.family.alive i := by
  show (tasks.find i).isSome
  rw [h]
  rfl

/-! ### Changes of links -/

/-- The same tasks, under the same ids. -/
structure Relinked (tasks tasks' : TaskTable) : Prop where
  root : tasks'.root = tasks.root
  seq : tasks'.seq = tasks.seq
  find : ∀ i, tasks'.find i = tasks.find i
  ids : ∀ i : Nat, tasks'.heap[i]?.map Task.id = tasks.heap[i]?.map Task.id

theorem Relinked.isSome (h : tasks.Relinked tasks') (i : Nat) :
    (tasks'.heap[i]?).isSome = (tasks.heap[i]?).isSome := by
  have hids := congrArg Option.isSome (h.ids i)
  rwa [isSome_map, isSome_map] at hids

theorem Relinked.trans (h : tasks.Relinked tasks') (h' : tasks'.Relinked tasks'') :
    tasks.Relinked tasks'' :=
  ⟨h'.root.trans h.root, h'.seq.trans h.seq, fun i => (h'.find i).trans (h.find i),
    fun i => (h'.ids i).trans (h.ids i)⟩

theorem relinked_modify (t : Nat) (hf : ∀ task, (f task).id = task.id) :
    tasks.Relinked (tasks.modify t f) := by
  refine ⟨root_modify .., seq_modify .., find_modify tasks t f, fun i => ?_⟩
  rw [heap_modify]
  split
  · next hi => simp only [hi, Option.map_map, comp_def, hf]
  · rfl

theorem Formed.relink (h : tasks.Formed) (hlinks : tasks.Relinked tasks')
    (hchildren : ∀ i, ∀ c ∈ tasks'.family.children i, c ≠ 1 ∧ (tasks.heap[c]?).isSome)
    (hgone : ∀ i, tasks.find i = none → tasks'.family.children i = []) : tasks'.Formed := by
  refine ⟨hlinks.root.trans h.root, (hlinks.find 1).trans h.findRoot, fun i j hij => ?_, fun i task hi => ?_,
    fun i c hc => ?_, fun i hi => hgone i ((hlinks.find i).symm.trans hi)⟩
  · rw [hlinks.find] at hij
    rw [hlinks.isSome]
    exact h.find i j hij
  · have hid := hlinks.ids i
    rw [hi] at hid
    obtain ⟨old, hold, hsame⟩ := map_eq_some_iff.mp hid.symm
    rw [hlinks.seq, ← hsame]
    exact h.heap i old hold
  · rw [hlinks.isSome]
    exact hchildren i c hc

/-- A change of one task that leaves its place in the tree. -/
structure Beside (f : Task → Task) : Prop where
  id : ∀ task, (f task).id = task.id
  parent : ∀ task, (f task).parent = task.parent
  subtasks : ∀ task, (f task).subtasks = task.subtasks

theorem family_modify (hf : Beside f) (t : Nat) : (tasks.modify t f).family = tasks.family := by
  simp only [family, Family.mk.injEq]
  refine ⟨funext fun i => by rw [find_modify], funext fun i => ?_, funext fun i => ?_⟩
  · rw [heap_modify]
    split
    · next h => simp only [h, Option.map_map, comp_def, hf.subtasks]
    · rfl
  · rw [heap_modify]
    split
    · next h => simp only [h, bind_map, comp_def, hf.parent]
    · rfl

theorem Formed.modify (h : tasks.Formed) (hf : Beside f) (t : Nat) : (tasks.modify t f).Formed := by
  refine h.relink (relinked_modify t hf.id) ?_ ?_
  · rw [family_modify hf]
    exact h.children
  · rw [family_modify hf]
    exact h.gone

/-! ### Forks -/

theorem heap_forkTask (tasks : TaskTable) (src : Nat) (source : Task) (i : Nat) :
    (tasks.forkTask src source).2.heap[i]? =
      if tasks.seq = i then some {Task.make tasks.seq source.tag with
        cwd := copyPath source.cwd, execPath := source.execPath, pgid := source.pgid,
        sigMask := source.sigMask, parent := some src, pid := tasks.seq, threads := [tasks.seq]}
      else if src = i then some {source with subtasks := source.subtasks ++ [tasks.seq]}
      else tasks.heap[i]? := by
  simp only [forkTask, get_insert]

theorem find_forkTask (tasks : TaskTable) (src : Nat) (source : Task) (i : Nat) :
    (tasks.forkTask src source).2.find i = if tasks.seq = i then some tasks.seq else tasks.find i := by
  simp only [forkTask, find, get_insert]

theorem forkTask_family (hsrc : tasks.heap[src]? = some source) (hlt : src < tasks.seq) :
    (tasks.forkTask src source).2.family = tasks.family.birth src tasks.seq := by
  simp only [family, Family.birth, Family.mk.injEq]
  refine ⟨funext fun i => ?_, funext fun i => ?_, funext fun i => ?_⟩
  · rw [find_forkTask]
    by_cases hi : tasks.seq = i
    · simp [hi]
    · simp [hi, Ne.symm hi]
  · rw [heap_forkTask]
    by_cases hi : tasks.seq = i
    · have his : i ≠ src := by omega
      rw [if_pos hi, update_of_ne his, hi, update_self]
      rfl
    · rw [if_neg hi]
      by_cases his : src = i
      · rw [if_pos his, his, update_self, ← his, hsrc]
        rfl
      · rw [if_neg his, update_of_ne (Ne.symm his), update_of_ne (Ne.symm hi)]
  · rw [heap_forkTask]
    by_cases hi : tasks.seq = i
    · rw [if_pos hi, hi, update_self]
      rfl
    · rw [if_neg hi, update_of_ne (Ne.symm hi)]
      by_cases his : src = i
      · rw [if_pos his, ← his, hsrc]
        rfl
      · rw [if_neg his]

theorem Formed.fresh (h : tasks.Formed) : tasks.find tasks.seq = none := by
  cases hfind : tasks.find tasks.seq with
  | none => rfl
  | some j =>
    obtain ⟨_, hsome⟩ := h.find _ _ hfind
    obtain ⟨task, htask⟩ := isSome_iff_exists.mp hsome
    have hlt := (h.heap _ _ htask).2.2
    omega

theorem Formed.forkTask (h : tasks.Formed) (hfind : tasks.find src = some src)
    (hsrc : tasks.heap[src]? = some source) : (tasks.forkTask src source).2.Formed := by
  obtain ⟨hid, hpos, hlt⟩ := h.heap src source hsrc
  have hone : tasks.seq ≠ 1 := fun heq => by
    have hfresh := h.fresh
    rw [heq, h.findRoot] at hfresh
    cases hfresh
  have hsome (i : Nat) (hi : (tasks.heap[i]?).isSome) : ((tasks.forkTask src source).2.heap[i]?).isSome := by
    rw [heap_forkTask]
    split
    · rfl
    · split
      · rfl
      · exact hi
  have hnew : ((tasks.forkTask src source).2.heap[tasks.seq]?).isSome := by
    rw [heap_forkTask, if_pos rfl]
    rfl
  refine ⟨h.root, ?_, fun i j hij => ?_, fun i task hi => ?_, fun i c hc => ?_, fun i hi => ?_⟩
  · rw [find_forkTask, if_neg hone, h.findRoot]
  · rw [find_forkTask] at hij
    split at hij
    · next heq =>
      cases hij
      exact ⟨heq, heq ▸ hnew⟩
    · obtain ⟨heq, hi⟩ := h.find i j hij
      exact ⟨heq, hsome i hi⟩
  · show task.id = i ∧ 0 < i ∧ i < tasks.seq + 1
    rw [heap_forkTask] at hi
    split at hi
    · next heq =>
      cases hi
      exact ⟨heq, by omega, by omega⟩
    · split at hi
      · next heq =>
        cases hi
        exact ⟨by rw [← heq]; exact hid, by omega, by omega⟩
      · obtain ⟨hid', hpos', hlt'⟩ := h.heap i task hi
        exact ⟨hid', hpos', by omega⟩
  · rw [forkTask_family hsrc hlt] at hc
    simp only [Family.birth, update_apply] at hc
    have hold (hmem : ∃ i, c ∈ tasks.family.children i) : c ≠ 1 ∧
        ((tasks.forkTask src source).2.heap[c]?).isSome := by
      obtain ⟨i, hmem⟩ := hmem
      obtain ⟨hne, hc⟩ := h.children i c hmem
      exact ⟨hne, hsome c hc⟩
    split at hc
    · rcases mem_append.mp hc with hmem | hmem
      · exact hold ⟨src, hmem⟩
      · rw [mem_singleton.mp hmem]
        exact ⟨hone, hnew⟩
    · split at hc
      · cases hc
      · exact hold ⟨i, hc⟩
  · rw [find_forkTask] at hi
    split at hi
    · cases hi
    · next hne =>
      have his : i ≠ src := fun heq => by
        rw [heq, hfind] at hi
        cases hi
      rw [forkTask_family hsrc hlt]
      simp only [Family.birth, update_of_ne his, update_of_ne (Ne.symm hne)]
      exact h.gone i hi

/-! ### Adoptions -/

theorem heap_adopt (tasks : TaskTable) (r c i : Nat) :
    (tasks.adopt r c).heap[i]? = tasks.heap[i]?.map fun task => {task with
      parent := if i = c then some r else task.parent
      subtasks := if i = r then task.subtasks ++ [c] else task.subtasks} := by
  simp only [adopt, heap_modify]
  by_cases hir : i = r <;> by_cases hic : i = c
  · subst hir hic
    simp [comp_def]
  · subst hir
    simp [hic]
  · subst hic
    simp [hir]
  · simp [hir, hic]

theorem find_adopt (tasks : TaskTable) (r c i : Nat) : (tasks.adopt r c).find i = tasks.find i := by
  rw [adopt, find_modify, find_modify]

theorem family_adopt (hr : (tasks.heap[r]?).isSome) (hc : (tasks.heap[c]?).isSome) :
    (tasks.adopt r c).family = tasks.family.adopt r [c] := by
  obtain ⟨rtask, hr⟩ := isSome_iff_exists.mp hr
  obtain ⟨ctask, hc⟩ := isSome_iff_exists.mp hc
  simp only [family, Family.adopt, Family.mk.injEq, heap_adopt, find_adopt, Option.map_map,
    comp_def, bind_map, mem_singleton]
  refine ⟨trivial, funext fun i => ?_, funext fun i => ?_⟩
  · by_cases hir : i = r
    · rw [hir, update_self, hr]
      simp
    · rw [update_of_ne hir]
      simp only [hir, if_false]
  · by_cases hic : i = c
    · rw [if_pos hic, hic, hc]
      simp
    · simp only [hic, if_false]

theorem relinked_adopt (tasks : TaskTable) (r c : Nat) : tasks.Relinked (tasks.adopt r c) := by
  have hparent : tasks.Relinked (tasks.modify c fun task => {task with parent := some r}) :=
    relinked_modify c fun _ => rfl
  refine hparent.trans ?_
  exact relinked_modify r fun _ => rfl

theorem Formed.adopt (h : tasks.Formed) (hc : (tasks.heap[c]?).isSome) (hone : c ≠ 1) :
    (tasks.adopt 1 c).Formed := by
  refine h.relink (relinked_adopt tasks 1 c) (fun i d hd => ?_) fun i hi => ?_
  · rw [family_adopt (h.find 1 1 h.findRoot).2 hc] at hd
    simp only [Family.adopt, update_apply] at hd
    split at hd
    · rcases mem_append.mp hd with hmem | hmem
      · exact h.children 1 d hmem
      · rw [mem_singleton.mp hmem]
        exact ⟨hone, hc⟩
    · exact h.children i d hd
  · have hi1 : i ≠ 1 := fun heq => by
      rw [heq, h.findRoot] at hi
      cases hi
    rw [family_adopt (h.find 1 1 h.findRoot).2 hc]
    simp only [Family.adopt, update_of_ne hi1]
    exact h.gone i hi

theorem Formed.adoptAll (h : tasks.Formed) {cs : List Nat} (hcs : ∀ c ∈ cs, c ≠ 1 ∧ (tasks.heap[c]?).isSome) :
    (cs.foldl (fun tasks c => tasks.adopt 1 c) tasks).Formed ∧
      (cs.foldl (fun tasks c => tasks.adopt 1 c) tasks).family = tasks.family.adopt 1 cs := by
  induction cs generalizing tasks with
  | nil => exact ⟨h, (tasks.family.adopt_nil 1).symm⟩
  | cons c cs ih =>
    obtain ⟨hone, hc⟩ := hcs c mem_cons_self
    have hrest : ∀ d ∈ cs, d ≠ 1 ∧ ((tasks.adopt 1 c).heap[d]?).isSome := fun d hd => by
      rw [heap_adopt, isSome_map]
      exact hcs d (mem_cons_of_mem c hd)
    obtain ⟨hformed, hfamily⟩ := ih (h.adopt hc hone) hrest
    refine ⟨hformed, ?_⟩
    rw [foldl_cons, hfamily, family_adopt (h.find 1 1 h.findRoot).2 hc, Family.adopt_adopt]

/-! ### Burials -/

theorem family_drain (tasks : TaskTable) (id : Nat) :
    (tasks.modify id fun task => {task with status := some 0, subtasks := []}).family =
      {tasks.family with children := Function.update tasks.family.children id []} := by
  simp only [family, Family.mk.injEq, find_modify, heap_modify]
  refine ⟨trivial, funext fun i => ?_, funext fun i => ?_⟩
  · by_cases hi : i = id
    · rw [hi, if_pos rfl, update_self, Option.map_map]
      cases tasks.heap[id]? <;> rfl
    · rw [if_neg hi, update_of_ne hi]
  · by_cases hi : i = id
    · rw [hi, if_pos rfl, bind_map]
      rfl
    · rw [if_neg hi]

theorem Formed.drain (h : tasks.Formed) (id : Nat) :
    (tasks.modify id fun task => {task with status := some 0, subtasks := []}).Formed := by
  refine h.relink (relinked_modify id fun _ => rfl) (fun i c hc => ?_) fun i hi => ?_
  · rw [family_drain] at hc
    simp only [update_apply] at hc
    split at hc
    · cases hc
    · exact h.children i c hc
  · rw [family_drain]
    simp only [update_apply]
    split
    · rfl
    · exact h.gone i hi

theorem reap_eq (h : tasks.Formed) (hfind : tasks.find id = some id) (htask : tasks.heap[id]? = some task) :
    tasks.reap id =
      let rest := task.subtasks.foldl (fun tasks c => tasks.adopt 1 c)
        (tasks.modify id fun task => {task with status := some 0, subtasks := []})
      {rest with map := rest.map.erase id} := by
  have hroot := h.root
  simp only [reap, hfind, bind_some, htask, map_some, modify, setTask, hroot]

theorem Formed.reap (h : tasks.Formed) (hfind : tasks.find id = some id)
    (htask : tasks.heap[id]? = some task) (hid : id ≠ 1) :
    (tasks.reap id).Formed ∧
      (tasks.reap id).family = (tasks.family.adopt 1 (tasks.family.children id)).bury id := by
  have hcs : ∀ c ∈ task.subtasks, c ≠ 1 ∧
      ((tasks.modify id fun task => {task with status := some 0, subtasks := []}).heap[c]?).isSome := by
    intro c hc
    rw [isSome_modify]
    rw [← family_children htask] at hc
    exact h.children id c hc
  obtain ⟨hadopted, hadopts⟩ := (h.drain id).adoptAll hcs
  rw [reap_eq h hfind htask]
  generalize hrest : task.subtasks.foldl (fun tasks c => tasks.adopt 1 c)
    (tasks.modify id fun task => {task with status := some 0, subtasks := []}) = rest at hadopted hadopts
  have hfinds (i : Nat) : TaskTable.find {rest with map := rest.map.erase id} i =
      if id = i then none else rest.find i := get_erase ..
  have hkids : rest.family.children id = [] := by
    rw [hadopts, family_drain]
    simp only [Family.adopt, update_of_ne hid, update_self]
  refine ⟨⟨hadopted.root, ?_, fun i j hij => ?_, hadopted.heap, hadopted.children, fun i hi => ?_⟩, ?_⟩
  · rw [hfinds, if_neg hid, hadopted.findRoot]
  · rw [hfinds] at hij
    split at hij
    · cases hij
    · exact hadopted.find i j hij
  · rw [hfinds] at hi
    split at hi
    · next heq =>
      rw [← heq]
      exact hkids
    · exact hadopted.gone i hi
  · have halive (i : Nat) : (TaskTable.family {rest with map := rest.map.erase id}).alive i =
        (rest.family.alive i ∧ i ≠ id) := by
      simp only [family, hfinds]
      by_cases hi : id = i
      · simp [hi]
      · simp [hi, Ne.symm hi]
    have hsplit : TaskTable.family {rest with map := rest.map.erase id} =
        ⟨fun i => rest.family.alive i ∧ i ≠ id, rest.family.children, rest.family.parent⟩ := by
      rw [← funext halive]
      rfl
    rw [hsplit, hadopts, family_drain, family_children htask]
    simp only [Family.adopt, Family.bury, Family.mk.injEq, update_of_ne (Ne.symm hid)]
    exact ⟨trivial, update_comm hid .., trivial⟩

/-- Of a task that may be gone already. -/
theorem Formed.reap_any (h : tasks.Formed) (htask : tasks.heap[id]? = some task) (hid : id ≠ 1) :
    (tasks.reap id).Formed := by
  cases hfind : tasks.find id with
  | none =>
    rw [TaskTable.reap, hfind]
    exact h
  | some j =>
    obtain ⟨rfl, _⟩ := h.find id j hfind
    exact (h.reap hfind htask hid).1

end TaskTable

end ChaosKernel.Proc
