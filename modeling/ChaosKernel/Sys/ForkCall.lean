import ChaosKernel.Sys.ProcessCalls

/-! The system call that forks.

`SYS_FORK` uses up the number of a task and returns it, but no task is made: `do_fork` is
not called. It measures the memory against a constant and not against the pool, so that it
also refuses where the pressure is low. What is left of the agreement with `do_fork` is a
refusal under high pressure (`sysFork_like_doFork_iff`). -/
namespace ChaosKernel.Proc
open Base Memory

/-- The used frames of the pool in percent. The runs of free frames are counted on the way, in an `i32`. -/
def Kernel.memoryPressure (k : Kernel) : Option Nat :=
  if k.pool.cap = 0 then some 100
  else do
    let used ← sub? k.pool.cap k.pool.freeCount
    let percent ← mul? used 100
    if (freeRuns k.pool.slots).length < 2 ^ 31 then some (percent / k.pool.cap) else none

end ChaosKernel.Proc

namespace ChaosKernel.Sys
open Base Memory Proc Call

/-! ### What a fork should do -/

/-- The same tasks are registered, and none of them changed. The number of the next task is left out. -/
def SameTasks (m m' : Machine) : Prop :=
  m'.kernel.tasks.map = m.kernel.tasks.map ∧ m'.kernel.tasks.heap = m.kernel.tasks.heap

/-- What of a region a child has too. -/
def placed (region : VmRegion) : Nat × Nat × Nat := (region.base, region.len, region.flags)

/-- `c` is a child of `t` that was not there before, with the descriptors and the regions of `t`. -/
structure NewChild (m m' : Machine) (t : Nat) (task : Task) (c : Nat) : Prop where
  new : m.kernel.tasks.find c = none
  registered : ∃ ref child, m'.kernel.tasks.find c = some ref ∧ m'.kernel.tasks.heap[ref]? = some child ∧
    child.parent = some t ∧ m'.files.table ref = (m.files.table t).map (fun _ fl => fl.dup false) ∧
    child.addrSpace.vmMap.regions.map placed = task.addrSpace.vmMap.regions.map placed

/-- The task after `f` gave all tasks their numbers. The address space keeps a number of its task. -/
def renumber (f : Nat → Nat) (task : Task) : Task :=
  {task with
    id := f task.id
    parent := task.parent.map f
    subtasks := task.subtasks.map f
    pid := f task.pid
    threads := task.threads.map f
    addrSpace := {task.addrSpace with asid := 0}}

/-- The two machines have the same tasks under other numbers. -/
structure SameUpTo (f : Nat → Nat) (m m' : Machine) : Prop where
  found : ∀ i, m'.kernel.tasks.find (f i) = (m.kernel.tasks.find i).map f
  tasks : ∀ i : Nat, (m'.kernel.tasks.heap[f i]?).map (renumber id) = (m.kernel.tasks.heap[i]?).map (renumber f)
  tables : ∀ i, m'.files.table (f i) = m.files.table i
  pool : m'.kernel.pool = m.kernel.pool

/-- `SYS_FORK` of the task `t` refuses under high pressure and else does what `do_fork` does. -/
def ForksLike (m : Machine) (t : Nat) (task : Task) : Prop :=
  ∃ pressure, m.kernel.memoryPressure = some pressure ∧
    if 90 < pressure then ∃ m', sysFork m = (.error (.err .enomem), m') ∧ SameTasks m m'
    else ∃ c m' c' m'', sysFork m = (.ok c, m') ∧ NewChild m m' t task c ∧ doFork task.id m = (.ok c', m'') ∧
      ∃ f : Nat → Nat, f.Bijective ∧ f c' = c ∧ SameUpTo f m'' m'

/-! ### What the call does -/

/-- The cost that the call puts on a child. -/
def forkCost (m : Machine) : Nat := min m.kernel.pool.freeCount 256 + m.kernel.tasks.count * 2

/-- The call finds too little memory, measured against `N_FRAMES`. -/
def ForkRefused (m : Machine) : Prop :=
  forkCost m < wordSize ∧ m.kernel.pool.freeCount ≤ nFrames ∧
    (90 < (nFrames - m.kernel.pool.freeCount) * 100 / nFrames ∨ m.kernel.pool.freeCount < forkCost m / pageSz)

/-- The machine after a number was used up. -/
def numbered (m : Machine) : Machine := m.withTasks {m.kernel.tasks with seq := m.kernel.tasks.seq + 1}

/-- The call without its arithmetic. -/
theorem sysFork_eq (m : Machine) : sysFork m =
    if ¬forkCost m < wordSize then (.error .trap, m)
    else if ¬m.kernel.pool.freeCount ≤ nFrames then (.error .trap, numbered m)
    else if 90 < (nFrames - m.kernel.pool.freeCount) * 100 / nFrames ∨
      m.kernel.pool.freeCount < forkCost m / pageSz then (.error (.err .enomem), numbered m)
    else (.ok m.kernel.tasks.seq, numbered m) := by
  rw [sysFork, get_bind]
  by_cases hcost : forkCost m < wordSize
  · rw [if_neg (not_not_intro hcost)]
    have hactive : mul? m.kernel.tasks.count 2 = some (m.kernel.tasks.count * 2) :=
      if_pos (Nat.lt_of_le_of_lt (Nat.le_add_left _ _) hcost)
    have hadd : add? (min m.kernel.pool.freeCount 256) (m.kernel.tasks.count * 2) = some (forkCost m) := add?_of_lt hcost
    rw [hactive, own_some_bind, hadd, own_some_bind, bind_ok (rfl : modifyTasks _ m = (.ok (), numbered m))]
    by_cases hfree : m.kernel.pool.freeCount ≤ nFrames
    · have hpercent : mul? (nFrames - m.kernel.pool.freeCount) 100 = some ((nFrames - m.kernel.pool.freeCount) * 100) :=
        if_pos (by simp only [nFrames, wordSize]; omega)
      rw [if_neg (not_not_intro hfree), sub?, if_pos hfree, own_some_bind, hpercent, own_some_bind, failIf_bind,
        failIf_bind, pure_apply, ite_or]
    · rw [if_pos hfree, sub?, if_neg hfree]
      rfl
  · rw [if_pos hcost]
    by_cases hactive : m.kernel.tasks.count * 2 < wordSize
    · have hadd : add? (min m.kernel.pool.freeCount 256) (m.kernel.tasks.count * 2) = none := add?_eq_none.mpr hcost
      rw [mul?, if_pos hactive, own_some_bind, hadd, own_none_bind]
    · rw [mul?, if_neg hactive, own_none_bind]

theorem sysFork_sameTasks (m : Machine) : SameTasks m (sysFork m).2 := by
  rw [sysFork_eq]
  split_ifs <;> exact ⟨rfl, rfl⟩

theorem sysFork_refused_iff (m : Machine) : (sysFork m).1 = .error (.err .enomem) ↔ ForkRefused m := by
  rw [sysFork_eq, ForkRefused]
  split_ifs with hcost hfree hshort
  · exact iff_of_true rfl ⟨hcost, hfree, hshort⟩
  · exact iff_of_false (fun h => by cases h) fun h => hshort h.2.2
  · exact iff_of_false (fun h => by cases h) fun h => hfree h.2.1
  · exact iff_of_false (fun h => by cases h) fun h => hcost h.1

theorem not_newChild {m m' : Machine} {t c : Nat} {task : Task} (h : SameTasks m m') : ¬NewChild m m' t task c := by
  intro hchild
  obtain ⟨ref, _, hfind, _⟩ := hchild.registered
  have hsame : m'.kernel.tasks.find c = m.kernel.tasks.find c := by
    rw [TaskTable.find, TaskTable.find, h.1]
  rw [hsame, hchild.new] at hfind
  cases hfind

/-- **`SYS_FORK` does what `do_fork` does exactly when the pressure is high and the call refuses.** -/
theorem sysFork_like_doFork_iff (m : Machine) (t : Nat) (task : Task) :
    ForksLike m t task ↔ (∃ pressure, m.kernel.memoryPressure = some pressure ∧ 90 < pressure) ∧ ForkRefused m := by
  have hsame := sysFork_sameTasks m
  constructor
  · intro h
    obtain ⟨pressure, hpressure, h⟩ := h
    by_cases hhigh : 90 < pressure
    · rw [if_pos hhigh] at h
      obtain ⟨m', hfork, _⟩ := h
      exact ⟨⟨pressure, hpressure, hhigh⟩, (sysFork_refused_iff m).mp (by rw [hfork])⟩
    · rw [if_neg hhigh] at h
      obtain ⟨c, m', c', m'', hfork, hchild, _⟩ := h
      rw [hfork] at hsame
      exact absurd hchild (not_newChild hsame)
  · intro h
    obtain ⟨⟨pressure, hpressure, hhigh⟩, hrefused⟩ := h
    refine ⟨pressure, hpressure, ?_⟩
    rw [if_pos hhigh]
    exact ⟨(sysFork m).2, Prod.ext ((sysFork_refused_iff m).mpr hrefused) rfl, hsame⟩

/-- All four frames of the pool are free, and the call finds no memory. -/
theorem sysFork_refuses_free_pool : ∃ t task, (Machine.boot 4).kernel.running = some (t, task) ∧
    ¬ForksLike (Machine.boot 4) t task := by
  have hpressure : (Machine.boot 4).kernel.memoryPressure = some 0 := by decide +kernel
  refine ⟨1, _, rfl, fun h => ?_⟩
  obtain ⟨pressure, hsome, h⟩ := h
  rw [hpressure] at hsome
  cases hsome
  rw [if_neg (by decide)] at h
  obtain ⟨c, m', c', m'', hfork, _⟩ := h
  have hrefused : (sysFork (Machine.boot 4)).1 = .error (.err .enomem) := by decide +kernel
  rw [hfork] at hrefused
  cases hrefused

end ChaosKernel.Sys
