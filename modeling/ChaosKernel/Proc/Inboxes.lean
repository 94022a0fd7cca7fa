import ChaosKernel.Proc.Groups

/-! The inboxes of a table.

A change to a task that leaves its id, its mask and its queue alone leaves all
inboxes as they are; sending a signal adds one entry to one inbox. -/
namespace ChaosKernel.Proc
open Base

namespace TaskTable

def inbox (tasks : TaskTable) (t : Nat) : Option Inbox := tasks.heap[t]?.map Task.inbox

theorem inbox_modify {f : Task → Task} (hf : ∀ task, (f task).inbox = task.inbox) (tasks : TaskTable) (t r : Nat) :
    (tasks.modify t f).inbox r = tasks.inbox r := by
  unfold inbox
  rw [heap_modify]
  split
  · next h =>
    rw [h, Option.map_map]
    congr 1
    funext task
    exact hf task
  · rfl

theorem inbox_sendSig (tasks : TaskTable) (signo senderTid : Int) (t r : Nat) :
    (tasks.sendSig signo senderTid t).inbox r =
      (tasks.inbox r).map fun box => box.push (if r = t then 1 else 0) (signo, senderTid) := by
  unfold inbox sendSig
  rw [heap_modify]
  split
  · next h =>
    rw [h, Option.map_map, Option.map_map]
    rfl
  · simp only [Inbox.push_zero, Option.map_id']

theorem inbox_sendAll (tasks : TaskTable) (signo senderTid : Int) (ts : List Nat) (r : Nat) :
    (tasks.sendAll signo senderTid ts).inbox r =
      (tasks.inbox r).map fun box => box.push (ts.count r) (signo, senderTid) := by
  unfold sendAll
  induction ts generalizing tasks with
  | nil => simp only [List.foldl_nil, List.count_nil, Inbox.push_zero, Option.map_id']
  | cons t rest ih =>
    rw [List.foldl_cons, ih, inbox_sendSig, Option.map_map]
    congr 1
    funext box
    show (box.push _ _).push _ _ = _
    rw [Inbox.push_push, List.count_cons, Nat.add_comm]
    simp only [beq_iff_eq, eq_comm (a := t)]

theorem inbox_adopt (tasks : TaskTable) (r c t : Nat) : (tasks.adopt r c).inbox t = tasks.inbox t := by
  refine (inbox_modify ?_ _ r t).trans (inbox_modify ?_ tasks c t)
  · exact fun _ => rfl
  · exact fun _ => rfl

end TaskTable

theorem TaskTable.inbox_foldl {g : TaskTable → Nat → TaskTable} {r : Nat}
    (hg : ∀ tasks c, (g tasks c).inbox r = tasks.inbox r) (tasks : TaskTable) (cs : List Nat) :
    (cs.foldl g tasks).inbox r = tasks.inbox r := by
  induction cs generalizing tasks with
  | nil => rfl
  | cons c cs ih => rw [List.foldl_cons, ih, hg]

/-- An exit tells the parent, under the name of the task that ends, and nobody else. -/
theorem Kernel.sysExit_inbox {k : Kernel} {t : Nat} {task : Task} (hrun : k.running = some (t, task)) (status r : Nat) :
    (k.sysExit status).tasks.inbox r = (k.tasks.sendAll sigchld t task.parent.toList).inbox r := by
  simp only [Kernel.sysExit, hrun]
  refine (TaskTable.inbox_foldl (fun tasks child => ?_) _ _).trans ?_
  · cases tasks.find 1 with
    | none => rfl
    | some init => exact TaskTable.inbox_adopt tasks init child r
  cases task.parent with
  | none =>
    refine TaskTable.inbox_modify ?_ k.tasks t r
    exact fun _ => rfl
  | some p =>
    show (TaskTable.sendSig _ sigchld t p).inbox r = (k.tasks.sendSig sigchld t p).inbox r
    rw [TaskTable.inbox_sendSig, TaskTable.inbox_sendSig]
    refine congrArg (Option.map _) ((TaskTable.inbox_modify ?_ _ p r).trans (TaskTable.inbox_modify ?_ k.tasks t r))
    · exact fun _ => rfl
    · exact fun _ => rfl

end ChaosKernel.Proc
