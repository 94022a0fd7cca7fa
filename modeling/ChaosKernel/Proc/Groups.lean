import ChaosKernel.Base.Ordered
import ChaosKernel.Base.Words
import ChaosKernel.Proc.Lifecycle

/-! Process groups and signals.

A group is the tasks of the table that carry its number. A signal is put into the
queue of its recipient together with a sender, and `hasSig` is what the recipient
asks about its queue. A `ProcessGroup` is a list of members of its own, beside the
numbers in the tasks. -/
namespace ChaosKernel.Proc
open Base

/-- What of a task decides over its signals. -/
structure Inbox where
  id : Nat
  mask : Nat
  queue : List (Int × Int)

namespace Inbox

/-- An entry of the queue that `has_sig` counts. The entry's sender has to be −1 or the task itself,
and a signal has a bit of the mask only below 64. -/
def sees (box : Inbox) (entry : Int × Int) : Bool :=
  (entry.2 = -1 ∨ asUsize entry.2 = box.id) ∧ 0 ≤ entry.1 ∧ entry.1 < 64 ∧ box.mask &&& (1 <<< entry.1.toNat) = 0

def hasSig (box : Inbox) : Bool := box.queue.any box.sees

/-- Whether the mask blocks a signal. -/
def blocks (box : Inbox) (signo : Int) : Bool :=
  0 ≤ signo ∧ signo < 64 ∧ box.mask &&& (1 <<< signo.toNat) ≠ 0

/-- The inbox after `n` more entries. -/
def push (box : Inbox) (n : Nat) (entry : Int × Int) : Inbox :=
  {box with queue := box.queue ++ List.replicate n entry}

theorem push_zero (box : Inbox) (entry : Int × Int) : box.push 0 entry = box := by
  simp [push]

variable {box : Inbox} {n : Nat}

theorem push_eq_self {entry : Int × Int} (h : box.push n entry = box) : n = 0 := by
  have hqueue := congrArg Inbox.queue h
  simpa [push] using hqueue

theorem push_push (box : Inbox) (i j : Nat) (entry : Int × Int) :
    (box.push i entry).push j entry = box.push (i + j) entry := by
  simp [push, List.append_assoc]

theorem hasSig_push (box : Inbox) (hn : 0 < n) (entry : Int × Int) :
    (box.push n entry).hasSig = (box.hasSig || box.sees entry) := by
  show (box.queue ++ List.replicate n entry).any box.sees = _
  rw [List.any_append, List.any_replicate, if_neg hn.ne']
  rfl

theorem sees_iff {signo : Int} (h : box.blocks signo = false) (senderTid : Int) :
    box.sees (signo, senderTid) = true ↔
      (senderTid = -1 ∨ asUsize senderTid = box.id) ∧ 0 ≤ signo ∧ signo < 64 := by
  simp only [blocks, decide_eq_false_iff_not] at h
  simp only [sees, decide_eq_true_eq]
  grind

end Inbox

def Task.inbox (task : Task) : Inbox := ⟨task.id, task.sigMask, task.sigQueue⟩

namespace TaskTable

def count (tasks : TaskTable) : Nat := tasks.map.size

/-- The tasks of a group, in the order of the table. -/
def pgidGroup (tasks : TaskTable) (pgid : Int) : List Nat :=
  (tasks.map.toList.map Prod.snd).filter (tasks.holds fun task => task.pgid = pgid)

/-- The ids under which the table has a task with a property. -/
def idsOf (tasks : TaskTable) (p : Task → Bool) : List Nat :=
  (tasks.map.toList.filter fun entry => tasks.holds p entry.2).map Prod.fst

def activeTasks (tasks : TaskTable) : List Nat := tasks.idsOf fun task => !task.done

def zombieTasks (tasks : TaskTable) : List Nat := tasks.idsOf Task.done

def sendSig (tasks : TaskTable) (signo senderTid : Int) (t : Nat) : TaskTable :=
  tasks.modify t fun task => task.sendSig signo senderTid

def sendAll (tasks : TaskTable) (signo senderTid : Int) (ts : List Nat) : TaskTable :=
  ts.foldl (fun tasks t => tasks.sendSig signo senderTid t) tasks

def sendSignalGroup (tasks : TaskTable) (pgid signo : Int) : Nat × TaskTable :=
  let group := tasks.pgidGroup pgid
  (group.length, tasks.sendAll signo (-1) group)

variable {tasks : TaskTable} {t id : Nat}

theorem mem_pgidGroup {pgid : Int} :
    t ∈ tasks.pgidGroup pgid ↔ (∃ id, tasks.find id = some t) ∧ tasks.holds (fun task => task.pgid = pgid) t = true := by
  simp only [pgidGroup, List.mem_filter, List.mem_map, Prod.exists, Std.ExtTreeMap.mem_toList_iff_getElem?_eq_some,
    exists_eq_right]
  exact Iff.rfl

theorem mem_idsOf {p : Task → Bool} :
    id ∈ tasks.idsOf p ↔ ∃ t, tasks.find id = some t ∧ tasks.holds p t = true := by
  simp only [idsOf, List.mem_map, List.mem_filter, Prod.exists, Std.ExtTreeMap.mem_toList_iff_getElem?_eq_some]
  constructor
  · intro h
    obtain ⟨i, t, ⟨hfind, hholds⟩, rfl⟩ := h
    exact ⟨t, hfind, hholds⟩
  · intro h
    obtain ⟨t, hfind, hholds⟩ := h
    exact ⟨id, t, ⟨hfind, hholds⟩, rfl⟩

theorem idsOf_pairwise (tasks : TaskTable) (p : Task → Bool) : (tasks.idsOf p).Pairwise (· < ·) := by
  refine List.pairwise_map.mpr ((Std.ExtTreeMap.ordered_keys_toList (t := tasks.map)).filter _ |>.imp ?_)
  intro a b hlt
  exact Nat.compare_eq_lt.mp hlt

end TaskTable

structure ProcessGroup where
  pgid : Int
  leader : Nat
  members : List Nat

namespace ProcessGroup

/-- Every member that the table finds gets the signal, with the leader as its sender. -/
def broadcastSignal (group : ProcessGroup) (signo : Int) (tasks : TaskTable) : TaskTable :=
  tasks.sendAll signo (asIsize group.leader) (group.members.filterMap tasks.find)

end ProcessGroup
end ChaosKernel.Proc
