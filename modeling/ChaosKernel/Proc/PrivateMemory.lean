import ChaosKernel.Base.Run
import ChaosKernel.Proc.ForkMemory

/-! Fork and private memory.

The reference is the plain one: every task has memory of its own, zero at first,
a fork copies the parent's, and a write changes the writer's. A task reads what
the reference says just as long as no write breaks a shared page that has a byte
other than zero next to the written ones (`reads_along_iff`). -/
namespace ChaosKernel.Proc
open Base Memory List Option

/-! ### The kernel beside the reference -/

/-- Every task's memory, by address. -/
abbrev Reference := Nat → Nat → UInt8

def Reference.fork (mem : Reference) (parent child : Nat) : Reference :=
  fun t => if t = child then mem parent else mem t

def Reference.write (mem : Reference) (t start : Nat) (data : Bytes) : Reference := fun y a =>
  if y = t ∧ start ≤ a ∧ a < start + data.length then data.getD (a - start) 0 else mem y a

structure Traced where
  kernel : Kernel
  mem : Reference

inductive MemCall where
  | setCur (id : Nat)
  | insert (t : Nat) (region : VmRegion)
  | doFork (parentId : Nat)
  | write (start : Nat) (data : Bytes)
  | read (start len : Nat)

namespace Traced

/-- One call, on both sides. A write is one that succeeds; addresses are words. -/
def step (s : Traced) : MemCall → Option Traced
  | .setCur id => some {s with kernel := s.kernel.setCur 0 (s.kernel.tasks.find id)}
  | .insert t region => s.kernel.tasks.heap[t]?.bind fun task =>
    match task.addrSpace.vmMap.insert region with
    | .ok map => some {s with kernel := s.kernel.setSpace t task {task.addrSpace with vmMap := map}}
    | .error (.err _) => some s
    | .error _ => none
  | .doFork parentId =>
    match s.kernel.doFork parentId with
    | (.ok child, k) =>
      some ⟨k, ((s.kernel.tasks.find parentId).elim s.mem fun parent => s.mem.fork parent child)⟩
    | (.error (.err _), k) => some {s with kernel := k}
    | (.error _, _) => none
  | .write start data =>
    if start < wordSize then
      (s.kernel.userWrite start data).bind fun k =>
        s.kernel.running.map fun current => ⟨k, s.mem.write current.1 start data⟩
    else none
  | .read start len =>
    if returned (s.kernel.copyFromUser start (List.replicate len 0)) then some s else none

def new (nf : Nat) : Traced := ⟨(Kernel.new nf).procInit, fun _ _ => 0⟩

/-- Whatever task reads whatever range, it gets the bytes of the reference. -/
def ReadsRight (s : Traced) : Prop :=
  ∀ t start len bytes, s.kernel.tasks.heap[t]? ≠ none → start < wordSize →
    s.kernel.userRead t start len = .ok bytes →
    bytes = (List.range len).map fun i => s.mem t (start + i)

/-- The write is not one that touches a shared page of the running task on which some byte
outside the written range is not zero. -/
def KeepsBytes (s : Traced) : MemCall → Prop
  | .write start data => ∀ t task, s.kernel.running = some (t, task) → ∀ a,
      ¬(start ≤ a ∧ a < start + data.length) → Touches start data.length a →
      s.kernel.Shared t (pageAddr a) → s.kernel.byteAt t a = 0
  | _ => True

end Traced

def userMemory : System Traced MemCall where
  step := Traced.step

/-! ### Reads show the bytes -/

variable {k : Kernel} {t start len : Nat} {task : Task}

theorem userRead_eq (hcpus : 0 < k.cpus.length) (htask : k.tasks.heap[t]? = some task) (start len : Nat) :
    k.userRead t start len = Kernel.copyFromLoop task.addrSpace.cowPages k.pool start (len + 1) 0
      (List.replicate len 0) := by
  have hcur : (k.setCur 0 (some t)).curTask 0 = some t := by
    simp [Kernel.curTask, Kernel.setCur, hcpus]
  have hrun : (k.setCur 0 (some t)).running = some (t, task) := by
    rw [Kernel.running, hcur]
    show k.tasks.heap[t]?.map _ = _
    rw [htask, map_some]
  simp only [Kernel.userRead, Kernel.copyFromUser, hrun, length_replicate]
  rfl

theorem userRead_bytes (hcpus : 0 < k.cpus.length) (htask : k.tasks.heap[t]? = some task)
    (hrange : start + len ≤ wordSize) :
    k.userRead t start len = .ok ((List.range len).map fun i => k.byteAt t (start + i)) := by
  rw [userRead_eq hcpus htask]
  obtain ⟨buf, hloop, hlen, hbytes⟩ := copyFromLoop_image task.addrSpace.cowPages k.pool start
    (len + 1) 0 (List.replicate len 0) (Nat.zero_le _) (by rw [length_replicate]; omega)
    (by rw [length_replicate]; exact hrange)
    (fun i _ hi _ => by rw [length_replicate] at hi; simp [hi])
  rw [length_replicate] at hlen hbytes
  rw [hloop]
  congr 1
  apply ext_getElem?
  intro i
  by_cases hi : i < len
  · rw [hbytes i hi, if_pos (Nat.zero_le i), getElem?_map, getElem?_range hi, map_some,
      Kernel.byteAt, funext (Kernel.entry_of_get htask)]
  · rw [getElem?_eq_none (by omega), getElem?_eq_none (by simp; omega)]

theorem readsRight_iff {s : Traced} (hcpus : 0 < s.kernel.cpus.length) :
    s.ReadsRight ↔ ∀ t a, s.kernel.tasks.heap[t]? ≠ none → a < wordSize →
      s.kernel.byteAt t a = s.mem t a := by
  constructor
  · intro hreads t a ht ha
    obtain ⟨task, htask⟩ := ne_none_iff_exists'.mp ht
    have hone := hreads t a 1 _ ht ha (userRead_bytes hcpus htask (by omega))
    simpa using hone
  · intro hbytes t start len bytes ht hstart hread
    obtain ⟨task, htask⟩ := ne_none_iff_exists'.mp ht
    have hrange : start + len ≤ wordSize := by
      rw [userRead_eq hcpus htask] at hread
      have := copyFromLoop_range (show start + 0 ≤ wordSize by omega) hread
      rwa [length_replicate] at this
    rw [userRead_bytes hcpus htask hrange] at hread
    rw [← Except.ok.inj hread]
    apply map_congr_left
    intro i hi
    have := mem_range.mp hi
    exact hbytes t (start + i) ht (by omega)

/-! ### One call, and whole runs -/

/-- What every call keeps. -/
def Traced.Sound (s : Traced) : Prop := s.kernel.Sound ∧ 0 < s.kernel.cpus.length

theorem sound_setSpace (hs : k.Sound) (htask : k.tasks.heap[t]? = some task) (map : VmMap) :
    (k.setSpace t task {task.addrSpace with vmMap := map}).Sound ∧
      (k.setSpace t task {task.addrSpace with vmMap := map}).entry = k.entry := by
  have hentry : (k.setSpace t task {task.addrSpace with vmMap := map}).entry = k.entry := by
    funext y q
    rw [Kernel.entry_setSpace]
    split
    · rename_i hy
      rw [hy, Kernel.entry_of_get htask]
    · rfl
  refine ⟨⟨?_, hs.blank, fun y hy => ?_⟩, hentry⟩
  · rw [hentry]
    exact hs.counted
  · exact (Kernel.heap_setSpace htask _ y).mpr (hs.unborn y hy)

namespace Traced
variable {s s' : Traced}

/-- A fork on both sides. -/
theorem step_doFork {parentId : Nat} (hs : s.Sound) (h : s.step (.doFork parentId) = some s') :
    s' = s ∨ ∃ parent child, s.kernel.tasks.heap[parent]? ≠ none ∧
      Forked s.kernel s'.kernel parent child ∧ s'.mem = s.mem.fork parent child := by
  simp only [step] at h
  split at h
  · rename_i child k hfork
    cases h
    obtain ⟨parent, hfind, hparent, hforked⟩ := doFork_forked hs.1 hfork
    exact .inr ⟨parent, child, hparent, hforked, by rw [hfind]; rfl⟩
  · rename_i k hfork
    cases h
    rw [doFork_error hfork]
    exact .inl rfl
  · cases h

variable {start len : Nat} {c : MemCall} (nf : Nat)

theorem step_write {data : Bytes} (hs : s.Sound) (h : s.step (.write start data) = some s') :
    ∃ t task, s.kernel.running = some (t, task) ∧ Wrote s.kernel s'.kernel t start data ∧
      s'.mem = s.mem.write t start data := by
  simp only [step, ite_none_right_eq_some, bind_eq_some_iff, map_eq_some_iff] at h
  obtain ⟨hstart, k, hwrite, ⟨t, task⟩, hrun, rfl⟩ := h
  obtain ⟨t', task', hrun', hwrote⟩ := userWrite_wrote hs.1 hstart hwrite
  cases hrun.symm.trans hrun'
  exact ⟨t, task, hrun, hwrote, rfl⟩

theorem step_read (h : s.step (.read start len) = some s') : s' = s := by
  simp only [step, ite_none_right_eq_some, some.injEq] at h
  exact h.2.symm

theorem step_insert {region : VmRegion} (hs : s.Sound) (h : s.step (.insert t region) = some s') :
    s'.Sound ∧ s'.kernel.entry = s.kernel.entry ∧ s'.kernel.pool = s.kernel.pool ∧ s'.mem = s.mem ∧
      ∀ y : Nat, s'.kernel.tasks.heap[y]? = none ↔ s.kernel.tasks.heap[y]? = none := by
  simp only [step, bind_eq_some_iff] at h
  obtain ⟨task, htask, h⟩ := h
  split at h
  · cases h
    obtain ⟨hsound, hentry⟩ := sound_setSpace hs.1 htask _
    exact ⟨⟨hsound, hs.2⟩, hentry, rfl, rfl, Kernel.heap_setSpace htask _⟩
  · cases h
    exact ⟨hs, rfl, rfl, rfl, fun _ => Iff.rfl⟩
  · cases h

theorem sound_step (hs : s.Sound) (h : s.step c = some s') : s'.Sound := by
  cases c with
  | setCur id =>
    cases h
    refine ⟨⟨hs.1.counted, hs.1.blank, hs.1.unborn⟩, ?_⟩
    show 0 < (s.kernel.cpus.set 0 _).length
    rw [length_set]
    exact hs.2
  | insert t region => exact (step_insert hs h).1
  | doFork parentId =>
    obtain rfl | ⟨parent, child, _, hforked, _⟩ := step_doFork hs h
    · exact hs
    · exact ⟨hforked.sound, by rw [hforked.cpus]; exact hs.2⟩
  | write start data =>
    obtain ⟨t, task, _, hwrote, _⟩ := step_write hs h
    exact ⟨hwrote.sound, by rw [hwrote.cpus]; exact hs.2⟩
  | read start len =>
    rw [step_read h]
    exact hs

theorem reads_step_iff (hs : s.Sound) (hreads : s.ReadsRight) (h : s.step c = some s') :
    s'.ReadsRight ↔ s.KeepsBytes c := by
  have hbytes := (readsRight_iff hs.2).mp hreads
  rw [readsRight_iff (sound_step hs h).2]
  cases c with
  | setCur id =>
    cases h
    exact iff_of_true hbytes trivial
  | insert t region =>
    obtain ⟨_, hentry, hpool, hmem, htasks⟩ := step_insert hs h
    refine iff_of_true (fun t a ht ha => ?_) trivial
    rw [Kernel.byteAt, hentry, hpool, hmem]
    exact hbytes t a (fun hnone => ht ((htasks t).mpr hnone)) ha
  | doFork parentId =>
    obtain rfl | ⟨parent, child, hparent, hforked, hmem⟩ := step_doFork hs h
    · exact iff_of_true hbytes trivial
    · refine iff_of_true (fun t a ht ha => ?_) trivial
      rw [hmem, Reference.fork]
      by_cases htc : t = child
      · rw [if_pos htc, htc, hforked.copied]
        exact hbytes parent a hparent ha
      · rw [if_neg htc, hforked.kept t a htc]
        exact hbytes t a (fun hnone => ht ((hforked.tasks t).mpr ⟨htc, hnone⟩)) ha
  | write start data =>
    obtain ⟨t, task, hrun, hwrote, hmem⟩ := step_write hs h
    have ht : s.kernel.tasks.heap[t]? ≠ none := by
      rw [(Kernel.running_eq_some hrun).2]
      simp
    constructor
    · intro hright t' task' hrun' a hout htouches hshared
      cases hrun.symm.trans hrun'
      have ha : a < wordSize := by
        obtain ⟨b, _, hb, hpage⟩ := htouches
        have hrange := hwrote.range
        simp only [pageAddr, pageSz, wordSize] at *
        omega
      have hnow := hright t a (fun hnone => ht ((hwrote.tasks t).mp hnone)) ha
      rw [hwrote.lost a hout htouches hshared, hmem, Reference.write, if_neg (fun hin => hout hin.2)]
        at hnow
      rw [hbytes t a ht ha, ← hnow]
    · intro hkeeps y a hy ha
      have hy' : s.kernel.tasks.heap[y]? ≠ none := fun hnone => hy ((hwrote.tasks y).mpr hnone)
      rw [hmem, Reference.write]
      by_cases hin : y = t ∧ start ≤ a ∧ a < start + data.length
      · rw [if_pos hin, hin.1, hwrote.written a hin.2.1 hin.2.2]
      · rw [if_neg hin, ← hbytes y a hy' ha]
        by_cases hlost : y = t ∧ Touches start data.length a ∧ s.kernel.Shared t (pageAddr a)
        · obtain ⟨rfl, htouches, hshared⟩ := hlost
          have hout : ¬(start ≤ a ∧ a < start + data.length) := fun h => hin ⟨rfl, h⟩
          rw [hwrote.lost a hout htouches hshared, hkeeps y task hrun a hout htouches hshared]
        · exact hwrote.kept y a hin hlost
  | read start len =>
    rw [step_read h]
    exact iff_of_true hbytes trivial

theorem heap_new (nf t : Nat) : (new nf).kernel.tasks.heap[t]? =
    if t = 1 then some {Task.make 1 "init" with threads := [1]} else none := by
  simp only [new, Kernel.procInit, Kernel.new, TaskTable.heap_modify, TaskTable.spawnRoot,
    TaskTable.spawn, TaskTable.new, get_insert, Std.ExtTreeMap.getElem?_empty]
  by_cases ht : t = 1
  · simp [ht, Task.make]
  · simp [ht, Ne.symm ht]

theorem entry_new (nf t p : Nat) : (new nf).kernel.entry t p = none := by
  rw [Kernel.entry, heap_new]
  split
  · exact Std.ExtTreeMap.getElem?_empty
  · rfl

theorem sound_new : (new nf).Sound := by
  refine ⟨⟨Counted.empty (entry_new nf), fun f _ => ?_, fun t ht => ?_⟩, ?_⟩
  · show ((∅ : BTreeMap Frame)[f]?).getD Frame.zero = Frame.zero
    rw [Std.ExtTreeMap.getElem?_empty, getD_none]
  · have hseq : (new nf).kernel.tasks.seq = 2 := TaskTable.seq_modify _ _ _
    rw [heap_new, if_neg (by omega)]
  · show 0 < (List.replicate Kernel.maxCpu (none : Option Nat)).length
    decide

theorem readsRight_new : (new nf).ReadsRight := by
  rw [readsRight_iff (sound_new nf).2]
  intro t a _ _
  exact byteAt_none (entry_new nf t (pageAddr a))

end Traced

/-- **When fork is private.** In a run of forks, writes and reads by any tasks, every task reads
what the reference says in all states just when every write is one that keeps the bytes around it. -/
theorem reads_along_iff (nf : Nat) (calls : List MemCall) :
    userMemory.Always Traced.ReadsRight (Traced.new nf) calls ↔
      userMemory.Guarded Traced.KeepsBytes (Traced.new nf) calls :=
  System.always_iff_guarded (J := Traced.Sound) (fun _ _ _ hs hstep => Traced.sound_step hs hstep)
    (fun _ _ _ hs hreads hstep => Traced.reads_step_iff hs hreads hstep)
    (Traced.sound_new nf) (Traced.readsRight_new nf)

/-- A parent writes 5 to address 0 and forks; the child writes 7 to address 1 and reads 0, 7 where
the reference has 5, 7. -/
theorem reads_fail_after_fork : ∃ s : Traced,
    userMemory.run (Traced.new 2) [.setCur 1, .insert 1 (VmRegion.new 0 4096 3), .write 0 [5],
      .doFork 1, .setCur 2, .write 1 [7]] = some s ∧
    s.kernel.userRead 2 0 2 = .ok [0, 7] ∧ [s.mem 2 0, s.mem 2 1] = [5, 7] ∧ ¬s.ReadsRight := by
  have hrun : ((userMemory.run (Traced.new 2) [.setCur 1, .insert 1 (VmRegion.new 0 4096 3),
      .write 0 [5], .doFork 1, .setCur 2, .write 1 [7]]).any fun s =>
        s.kernel.userRead 2 0 2 = .ok [0, 7] ∧ [s.mem 2 0, s.mem 2 1] = [5, 7] ∧
          s.kernel.tasks.heap[2]?.isSome) = true := by
    decide +kernel
  obtain ⟨s, hs, hread, hmem, htask⟩ := System.exists_of_run_any hrun
  refine ⟨s, hs, hread, hmem, fun hright => ?_⟩
  have hsame : [0, 7] = [s.mem 2 0, s.mem 2 1] :=
    hright 2 0 2 _ (isSome_iff_ne_none.mp htask) (by decide) hread
  rw [hmem] at hsame
  exact absurd hsame (by decide)

end ChaosKernel.Proc
