import ChaosKernel.Proc.UserRange
import ChaosKernel.Sys.ProcessCalls

/-! The signal mask a task asks for.

`SYS_SIGPROCMASK` checks that the caller may read a set at one address and write one
at another. Then it takes the first address itself for the set, and stores nothing at
the second. So the mask is right where the bits of the address do what the stored set
would do, the old mask is found at the second address where it was before, and the
same set at two addresses gives two masks (`mask_right_iff`). -/
namespace ChaosKernel.Sys
open Base Memory Proc Call

/-! ### Sets of signals -/

/-- Every signal but `SIGKILL` and `SIGSTOP`. -/
def maskable (i : Fin 64) : Bool := i.val ≠ sigkill ∧ i.val ≠ sigstop

/-- The mask to have: the set, without the two signals, is added, taken away or put in its place. -/
def combine (how : Fin 3) (mask set : BitVec 64) : BitVec 64 :=
  let set := set &&& ~~~BitVec.ofNat 64 unmaskable
  match how with
  | 0 => mask ||| set
  | 1 => mask &&& ~~~set
  | 2 => set

/-- The mask that `newMask?` computes. -/
def taken (how : Fin 3) (mask set : BitVec 64) : BitVec 64 :=
  match how with
  | 0 => (mask ||| set) &&& ~~~BitVec.ofNat 64 unmaskable
  | 1 => mask &&& ~~~set
  | 2 => set &&& ~~~BitVec.ofNat 64 unmaskable

/-- The address has, as a set, the effect that the stored set is to have. -/
def Serves (how : Fin 3) (mask address set : BitVec 64) : Prop :=
  ∀ i : Fin 64, match how with
  | 0 => if maskable i then mask[i] = true ∨ address[i] = set[i] else mask[i] = false
  | 1 => mask[i] = true → address[i] = (set[i] && maskable i)
  | 2 => maskable i = true → address[i] = set[i]

theorem unmaskable_bit (i : Fin 64) : (BitVec.ofNat 64 unmaskable)[i.val] = !maskable i := by
  revert i
  decide

theorem bits_eq_iff {x y : BitVec 64} : x = y ↔ ∀ i : Fin 64, x[i] = y[i] :=
  ⟨fun h i => by rw [h], fun h => BitVec.eq_of_getElem_eq fun i hi => h ⟨i, hi⟩⟩

theorem taken_eq_combine_iff (how : Fin 3) (mask address set : BitVec 64) :
    taken how mask address = combine how mask set ↔ Serves how mask address set := by
  rw [bits_eq_iff]
  refine forall_congr' fun i => ?_
  have hbit := unmaskable_bit i
  fin_cases how
  all_goals
    simp only [taken, combine, Fin.getElem_fin, BitVec.getElem_and, BitVec.getElem_or, BitVec.getElem_not, hbit]
    cases maskable i <;> cases mask[i.val] <;> cases address[i.val] <;> cases set[i.val] <;> decide

theorem notU64_bits (x : Nat) : BitVec.ofNat 64 (notU64 x) = ~~~BitVec.ofNat 64 x := by
  apply BitVec.eq_of_toNat_eq
  rw [BitVec.toNat_not, BitVec.toNat_ofNat, BitVec.toNat_ofNat]
  exact Nat.mod_eq_of_lt (by simp only [notU64, wordSize]; omega)

theorem newMask?_bits (how : Fin 3) (mask set : Nat) : ∃ new, newMask? how mask set = some new ∧
    BitVec.ofNat 64 new = taken how (BitVec.ofNat 64 mask) (BitVec.ofNat 64 set) := by
  fin_cases how
  all_goals
    refine ⟨_, rfl, ?_⟩
    simp only [taken, BitVec.ofNat_and, BitVec.ofNat_or, notU64_bits]

/-! ### The checks -/

/-- The checks before the call reads its arguments. -/
def checkSets (setAddr oldsetAddr : Nat) : SysM Unit := do
  userRangeOpt setAddr 8 false
  userRangeOpt oldsetAddr 8 true

/-- The running task and its mask. -/
def callerMask (k : Kernel) : Option (Nat × Nat) := k.running.map fun cur => (cur.1, cur.2.sigMask)

theorem userRangeOpt_callerMask {addr len : Nat} {writing : Bool} {m m' : Machine} {u : Unit}
    (h : userRangeOpt addr len writing m = (.ok u, m')) : callerMask m'.kernel = callerMask m.kernel := by
  unfold userRangeOpt at h
  split at h
  · rw [(pure_eq_ok.mp h).2]
  · obtain ⟨_, k, hensure, rfl⟩ := userRange_eq_ok.mp h
    have hkeeps : callerMask _ = callerMask _ :=
      Kernel.ensureUserRange_caller (fun _ _ _ => rfl) m.kernel addr len writing
    rw [hensure] at hkeeps
    exact hkeeps

/-! ### Calls -/

/-- The word task `t` has at `addr`, its low byte first. -/
def wordAt (k : Kernel) (t addr : Nat) : BitVec 64 :=
  BitVec.ofNat 64 (((List.range 8).map fun i => k.byteAt t (addr + i)).foldr (fun byte n => byte.toNat + 256 * n) 0)

/-- A call whose addresses the checks accept. -/
structure MaskCall where
  before : Machine
  how : Fin 3
  setAddr : Nat
  oldsetAddr : Nat
  running : before.kernel.running.isSome
  accepted : (checkSets setAddr oldsetAddr before).1 = .ok ()

namespace MaskCall

def caller (c : MaskCall) : Nat × Task := c.before.kernel.running.get c.running

/-- The machine when the checks are done. -/
def checked (c : MaskCall) : Machine := (checkSets c.setAddr c.oldsetAddr c.before).2

def after (c : MaskCall) : Machine := (sysSigprocmask c.how c.setAddr c.oldsetAddr c.before).2

/-- The caller's mask before the call. -/
def oldMask (c : MaskCall) : BitVec 64 := BitVec.ofNat 64 c.caller.2.sigMask

/-- The caller's mask after the call. -/
def newMask (c : MaskCall) : Option (BitVec 64) :=
  c.after.kernel.tasks.heap[c.caller.1]?.map fun task => BitVec.ofNat 64 task.sigMask

/-- The set the caller has stored. -/
def set (c : MaskCall) : BitVec 64 := wordAt c.before.kernel c.caller.1 c.setAddr

/-- The new mask is made from the stored set, and the old mask is stored. -/
structure Right (c : MaskCall) : Prop where
  mask : c.setAddr ≠ 0 → c.newMask = some (combine c.how c.oldMask c.set)
  saved : c.oldsetAddr ≠ 0 → wordAt c.after.kernel c.caller.1 c.oldsetAddr = c.oldMask

/-- Two calls with the same set, stored at whatever addresses. -/
structure Twins (c d : MaskCall) : Prop where
  how : c.how = d.how
  mask : c.oldMask = d.oldMask
  set : c.set = d.set
  given : c.setAddr ≠ 0 ∧ d.setAddr ≠ 0

/-- The address does what the set would do, and the old mask is in its place already. -/
structure Lucky (c : MaskCall) : Prop where
  mask : c.setAddr ≠ 0 → Serves c.how c.oldMask (BitVec.ofNat 64 c.setAddr) c.set
  saved : c.oldsetAddr ≠ 0 → wordAt c.checked.kernel c.caller.1 c.oldsetAddr = c.oldMask

variable (c : MaskCall)

/-- The call after its checks: the caller gets a new mask, and nothing else changes. -/
theorem call_eq : ∃ task, c.checked.kernel.running = some (c.caller.1, task) ∧
    c.checked.kernel.tasks.heap[c.caller.1]? = some task ∧
    ∃ new, BitVec.ofNat 64 new = taken c.how c.oldMask (BitVec.ofNat 64 c.setAddr) ∧
      c.after = if c.setAddr = 0 then c.checked else
        c.checked.withTasks (c.checked.kernel.tasks.modify c.caller.1 fun task => {task with sigMask := new}) := by
  have hchecks : checkSets c.setAddr c.oldsetAddr c.before = (.ok (), c.checked) := Prod.ext c.accepted rfl
  obtain ⟨u, m₁, hset, holdset⟩ := bind_eq_ok.mp hchecks
  have hrun : c.before.kernel.running = some c.caller := (Option.some_get c.running).symm
  have hmask : callerMask c.checked.kernel = some (c.caller.1, c.caller.2.sigMask) := by
    rw [userRangeOpt_callerMask holdset, userRangeOpt_callerMask hset, callerMask, hrun, Option.map_some]
  obtain ⟨⟨t, task⟩, hcur, heq⟩ := Option.map_eq_some_iff.mp hmask
  obtain ⟨ht, hsig⟩ := Prod.mk.inj heq
  dsimp only at ht hsig
  subst ht
  obtain ⟨new, hnew, hbits⟩ := newMask?_bits c.how task.sigMask c.setAddr
  refine ⟨task, hcur, (Kernel.running_eq_some hcur).2, new, ?_, ?_⟩
  · rw [hbits, hsig]
    rfl
  · rw [after, sysSigprocmask, bind_ok hset, bind_ok holdset, curTask_bind, hcur]
    dsimp only
    split
    · rfl
    · rw [hnew]
      rfl

theorem newMask_eq (hset : c.setAddr ≠ 0) :
    c.newMask = some (taken c.how c.oldMask (BitVec.ofNat 64 c.setAddr)) := by
  obtain ⟨task, _, htask, new, hbits, hafter⟩ := c.call_eq
  rw [if_neg hset] at hafter
  rw [newMask, hafter]
  show ((c.checked.kernel.tasks.modify c.caller.1 _).heap[c.caller.1]?).map _ = _
  rw [TaskTable.heap_modify, if_pos rfl, htask, ← hbits]
  rfl

theorem wordAt_after (addr : Nat) :
    wordAt c.after.kernel c.caller.1 addr = wordAt c.checked.kernel c.caller.1 addr := by
  obtain ⟨task, _, htask, new, _, hafter⟩ := c.call_eq
  split_ifs at hafter with hset
  · rw [hafter]
  · have hentry : c.after.kernel.entry c.caller.1 = c.checked.kernel.entry c.caller.1 := by
      funext p
      rw [Kernel.entry_of_get htask, hafter]
      show ((c.checked.kernel.tasks.modify c.caller.1 _).heap[c.caller.1]?).bind _ = _
      rw [TaskTable.heap_modify, if_pos rfl, htask]
      rfl
    have hpool : c.after.kernel.pool = c.checked.kernel.pool := by
      rw [hafter]
      rfl
    simp only [wordAt, Kernel.byteAt, hentry, hpool]

theorem right_iff_lucky : c.Right ↔ c.Lucky := by
  have hmask (hset : c.setAddr ≠ 0) : c.newMask = some (combine c.how c.oldMask c.set) ↔
      Serves c.how c.oldMask (BitVec.ofNat 64 c.setAddr) c.set := by
    rw [c.newMask_eq hset, Option.some.injEq, taken_eq_combine_iff]
  constructor
  · intro h
    exact ⟨fun hset => (hmask hset).mp (h.mask hset), fun hold => (c.wordAt_after _).symm.trans (h.saved hold)⟩
  · intro h
    exact ⟨fun hset => (hmask hset).mpr (h.mask hset), fun hold => (c.wordAt_after _).trans (h.saved hold)⟩

end MaskCall

/-- **The mask is made from the caller's memory exactly when the addresses happen to fit it.** For any two
accepted calls: each makes the new mask from the stored set and stores the old mask, and the same
set gives the same mask, if and only if in each call the address has the effect of the set and the old mask
stands where it is to be stored. -/
theorem mask_right_iff (c d : MaskCall) :
    (c.Right ∧ d.Right ∧ (c.Twins d → c.newMask = d.newMask)) ↔ c.Lucky ∧ d.Lucky := by
  rw [← c.right_iff_lucky, ← d.right_iff_lucky]
  refine ⟨fun h => ⟨h.1, h.2.1⟩, fun h => ⟨h.1, h.2, fun htwins => ?_⟩⟩
  rw [h.1.mask htwins.given.1, h.2.mask htwins.given.2, htwins.how, htwins.mask, htwins.set]

/-- A page of memory with the set 5 stored at `addr` and the word 9 behind it. -/
def withSet (addr : Nat) : Machine :=
  Prod.snd <| (do
    mapRegion 1 (VmRegion.new 4096 4096 3)
    storeBytes addr [5, 0, 0, 0, 0, 0, 0, 0]
    storeBytes 4112 [9, 0, 0, 0, 0, 0, 0, 0] : SysM Unit) (Machine.boot 2)

/-- The set 5 at 4096 and at 4104: the new masks are 4096 and 4104, and the old mask 0 is stored nowhere. -/
theorem same_set_two_masks : ∃ c d : MaskCall, c.before = withSet 4096 ∧ d.before = withSet 4104 ∧ c.Twins d ∧
    combine c.how c.oldMask c.set = 5 ∧ c.newMask = some 4096 ∧ d.newMask = some 4104 ∧
    wordAt c.after.kernel c.caller.1 c.oldsetAddr = 9 ∧ ¬c.Right ∧ ¬d.Right ∧ c.newMask ≠ d.newMask := by
  let c : MaskCall := ⟨withSet 4096, 2, 4096, 4112, by decide +kernel, by decide +kernel⟩
  let d : MaskCall := ⟨withSet 4104, 2, 4104, 4112, by decide +kernel, by decide +kernel⟩
  have hc : c.newMask = some 4096 := by decide +kernel
  have hd : d.newMask = some 4104 := by decide +kernel
  refine ⟨c, d, rfl, rfl, ⟨rfl, ?_, ?_, ?_⟩, ?_, hc, hd, ?_, fun h => ?_, fun h => ?_, ?_⟩
  · decide +kernel
  · decide +kernel
  · decide
  · decide +kernel
  · decide +kernel
  · have hmask := hc.symm.trans (h.mask (by decide))
    revert hmask
    decide +kernel
  · have hmask := hd.symm.trans (h.mask (by decide))
    revert hmask
    decide +kernel
  · rw [hc, hd]
    decide

end ChaosKernel.Sys
