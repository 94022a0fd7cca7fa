import ChaosKernel.Base.Outcomes
import ChaosKernel.Sys.MemoryCalls

/-! The break of a task.

`SYS_BRK` keeps the break in the task and takes a frame from the pool for every page
that it grows by. It gives no frame back, so that the frames match the pages exactly as
long as the break never falls, and it answers a null break with a constant, whatever the
break is (`brk_consistent_iff`). -/
namespace ChaosKernel.Sys
open Base Memory Proc Call

/-! ### Frames -/

variable {pool : FramePool} {m : Machine} {t i oldBrk aligned n : Nat} {task : Task}

theorem freeCount_take (hfree : pool.slots[i]? = some true) :
    (pool.take i).freeCount + 1 = pool.freeCount :=
  (Takes.one hfree).count

/-- A frame is taken whenever there is one, also where its address overflows. -/
theorem frameAlloc_freeCount (h : 0 < pool.freeCount) (clk : Nat) :
    (frameAlloc pool clk).2.freeCount + 1 = pool.freeCount := by
  obtain ⟨f, hmem, hf⟩ := List.countP_pos_iff.mp h
  obtain ⟨i, hi⟩ := List.mem_iff_getElem?.mp hmem
  subst hf
  obtain ⟨j, hj⟩ := Option.isSome_iff_exists.mp (scanFrom_isSome hi (clk % max pool.slots.length 1))
  have htake : (frameAlloc pool clk).2 = pool.take j := by
    unfold frameAlloc FramePool.takeFrom
    rw [hj]
    dsimp only
    split <;> rfl
  rw [htake]
  exact freeCount_take (scanFrom_free hj)

/-! ### One call -/

def Machine.withPool (m : Machine) (pool : FramePool) : Machine := {m with kernel := {m.kernel with pool := pool}}

/-- The break of the running task. -/
def curBrk (m : Machine) : Nat := (m.kernel.running.map fun cur => cur.2.vmToken).getD 0

/-- The machine with another break of task `t`. -/
def Machine.setBrk (m : Machine) (t brk : Nat) : Machine :=
  m.withTasks (m.kernel.tasks.modify t fun task => {task with vmToken := brk})

theorem setBrk_running (hrun : m.kernel.running = some (t, task)) (brk : Nat) :
    (m.setBrk t brk).kernel.running = some (t, {task with vmToken := brk}) := by
  obtain ⟨t', hcur, hmap⟩ := Option.bind_eq_some_iff.mp hrun
  obtain ⟨task', htask, heq⟩ := Option.map_eq_some_iff.mp hmap
  cases heq
  refine Option.bind_eq_some_iff.mpr ⟨t, hcur, ?_⟩
  show Option.map _ (m.kernel.tasks.modify t _).heap[t]? = _
  rw [TaskTable.heap_modify, if_pos rfl, htask]
  rfl

theorem growBrk_eq (oldBrk pages p : Nat) (m : Machine) (hfree : pages ≤ m.kernel.pool.freeCount)
    (hword : oldBrk + (p + pages) * pageSz < wordSize) :
    ∃ pool, growBrk oldBrk pages p m = (.ok (), m.withPool pool) ∧ pool.freeCount + pages = m.kernel.pool.freeCount := by
  induction pages generalizing p m with
  | zero => exact ⟨m.kernel.pool, rfl, rfl⟩
  | succ pages ih =>
    have hlt : oldBrk + p * pageSz < wordSize := by
      rw [Nat.add_mul] at hword
      omega
    have hpage : (mul? p pageSz).bind (add? oldBrk) = some (oldBrk + p * pageSz) := by
      rw [mul?, if_pos (by omega), Option.bind_some, add?_of_lt hlt]
    have halloc : (frameAlloc m.kernel.pool m.clk).2.freeCount + 1 = m.kernel.pool.freeCount :=
      frameAlloc_freeCount (by omega) m.clk
    obtain ⟨pool, hgrow, hcount⟩ := ih (p + 1) (m.withPool (frameAlloc m.kernel.pool m.clk).2)
      (by show _ ≤ (frameAlloc _ _).2.freeCount; omega) (by rw [Nat.add_right_comm, Nat.add_assoc]; exact hword)
    refine ⟨pool, ?_, ?_⟩
    · rw [growBrk, hpage, own_some_bind]
      exact hgrow
    · have hcount : pool.freeCount + pages = (frameAlloc m.kernel.pool m.clk).2.freeCount := hcount
      omega

/-- A task runs, and its break is at the start of a page. -/
structure BrkFits (m : Machine) (t : Nat) (task : Task) : Prop where
  running : m.kernel.running = some (t, task)
  aligned : task.vmToken % pageSz = 0
  word : task.vmToken < wordSize

/-- The number of frames that the pool `pool'` has less than `pool`, where the break moves up. -/
theorem moveBrk_eq (hold : oldBrk < wordSize) (hnew : aligned < wordSize) (holdPage : oldBrk % pageSz = 0)
    (hnewPage : aligned % pageSz = 0) :
    (oldBrk < aligned ∧ moveBrk oldBrk aligned m = (.error (.err .enomem), m)) ∨
      ∃ pool, moveBrk oldBrk aligned m = (.ok (), m.withPool pool) ∧
        pool.freeCount + (aligned - oldBrk) / pageSz = m.kernel.pool.freeCount := by
  unfold moveBrk
  split
  · next hlt =>
    refine .inr ⟨m.kernel.pool, ?_, by simp [Nat.sub_eq_zero_of_le hlt.le]⟩
    have hwalk : walkPages? aligned ((oldBrk - aligned) >>> 12) 0 = some () := by
      rw [walkPages?_eq_some]
      intro p hp
      rw [Nat.shiftRight_eq_div_pow] at hp
      simp only [pageSz] at *
      omega
    rw [hwalk]
    rfl
  · split
    · next hgrow =>
      by_cases hfree : m.kernel.pool.freeCount < (aligned - oldBrk) / pageSz
      · refine .inl ⟨hgrow, ?_⟩
        rw [get_bind, failIf, if_pos hfree]
        rfl
      · obtain ⟨pool, heq, hcount⟩ := growBrk_eq oldBrk ((aligned - oldBrk) / pageSz) 0 m (by omega)
          (by simp only [pageSz] at *; omega)
        refine .inr ⟨pool, ?_, hcount⟩
        rw [get_bind, failIf, if_neg hfree]
        exact heq
    · next hle hge =>
      have hsame : aligned = oldBrk := by omega
      exact .inr ⟨m.kernel.pool, rfl, by simp [hsame]⟩

theorem BrkFits.sysBrk_eq (h : BrkFits m t task) (hzero : n ≠ 0) (hkern : n < kernBase) :
    sysBrk n m = (moveBrk task.vmToken (pageUp n) >>= fun _ => do
      modifyTasks fun tasks => tasks.modify t fun task => {task with vmToken := pageUp n}
      pure (pageUp n)) m := by
  have hword := kernBase_lt
  have haligned : alignUp? n = some (pageUp n) := alignUp?_eq_some.mpr ⟨by omega, rfl⟩
  rw [sysBrk, if_neg hzero, failIf, if_neg (by omega), haligned]
  refine (bind_ok (rfl : (pure () : SysM Unit) m = (.ok (), m))).trans ?_
  rw [own_some_bind, curTask_bind, h.running]

theorem BrkFits.sysBrk_cases (h : BrkFits m t task) (n : Nat) :
    (n = 0 ∧ sysBrk n m = (.ok initialBrk, m)) ∨
    (n ≠ 0 ∧ (n < kernBase → task.vmToken < pageUp n) ∧ sysBrk n m = (.error (.err .enomem), m)) ∨
    (n ≠ 0 ∧ n < kernBase ∧ ∃ pool, sysBrk n m = (.ok (pageUp n), (m.withPool pool).setBrk t (pageUp n)) ∧
      pool.freeCount + (pageUp n - task.vmToken) / pageSz = m.kernel.pool.freeCount) := by
  by_cases hzero : n = 0
  · refine .inl ⟨hzero, ?_⟩
    rw [sysBrk, if_pos hzero]
    rfl
  · refine .inr ?_
    by_cases hkern : n < kernBase
    · have hlt := pageUp_lt n
      have hword := kernBase_lt
      rw [h.sysBrk_eq hzero hkern]
      rcases moveBrk_eq (m := m) h.word (by omega) h.aligned (pageUp_mod n) with ⟨hgrow, herr⟩ | ⟨pool, hok, hcount⟩
      · exact .inl ⟨hzero, fun _ => hgrow, bind_error herr⟩
      · exact .inr ⟨hzero, hkern, pool, bind_ok hok, hcount⟩
    · refine .inl ⟨hzero, fun hlt => absurd hlt hkern, ?_⟩
      rw [sysBrk, if_neg hzero, failIf, if_pos (by omega)]
      rfl

/-! ### Runs -/

/-- A machine, with the break that the last successful call has set. -/
structure BrkWorld where
  machine : Machine
  last : Option Nat

inductive BrkStep where
  | tick
  | brk (newBrk : Nat)

def brks : System BrkWorld BrkStep where
  step w
    | .tick => some {w with machine := {w.machine with clk := w.machine.clk + 1}}
    | .brk n => settle (sysBrk n w.machine) (fun b m => ⟨m, if n = 0 then w.last else some b⟩) fun m => ⟨m, w.last⟩

/-- As many frames have been taken as there are pages between the break at the start and the break. -/
def FramesMatch (start : Machine) (w : BrkWorld) : Prop :=
  (start.kernel.pool.freeCount : Int) - w.machine.kernel.pool.freeCount =
    ((curBrk w.machine : Int) - curBrk start) / pageSz

/-- A null break is answered with the last one, and a call that fails changes neither break nor pool. -/
def AnswersRight (w : BrkWorld) : BrkStep → Prop
  | .tick => True
  | .brk n => (n = 0 → ∀ b, w.last = some b → ∃ m, sysBrk n w.machine = (.ok b, m)) ∧
    ∀ e m, sysBrk n w.machine = (.error e, m) → curBrk m = curBrk w.machine ∧ m.kernel.pool = w.machine.kernel.pool

def BrkConsistent (m : Machine) (steps : List BrkStep) : Prop :=
  brks.Always (FramesMatch m) ⟨m, none⟩ steps ∧ brks.Asks AnswersRight ⟨m, none⟩ steps

/-- The break does not fall. -/
def NeverShrinks (w : BrkWorld) : BrkStep → Prop
  | .tick => True
  | .brk n => n ≠ 0 → n < kernBase → curBrk w.machine ≤ pageUp n

instance (w : BrkWorld) : (a : BrkStep) → Decidable (NeverShrinks w a)
  | .tick => .isTrue trivial
  | .brk _ => inferInstanceAs (Decidable (_ → _ → _))

/-- The break is asked for while none is set, or while the constant is. -/
def AskedAtInitial (w : BrkWorld) : BrkStep → Prop
  | .tick => True
  | .brk n => n = 0 → ∀ b, w.last = some b → b = initialBrk

namespace BrkFits
variable {w w' : BrkWorld} {t n : Nat} {task : Task}

theorem curBrk_eq (h : BrkFits m t task) : curBrk m = task.vmToken := by
  rw [curBrk, h.running]
  rfl

theorem step_brk (h : BrkFits w.machine t task) (hstep : brks.step w (.brk n) = some w') :
    (w'.machine = w.machine ∧ (n ≠ 0 → n < kernBase → task.vmToken < pageUp n)) ∨
    (n ≠ 0 ∧ n < kernBase ∧ BrkFits w'.machine t {task with vmToken := pageUp n} ∧
      w'.machine.kernel.pool.freeCount + (pageUp n - task.vmToken) / pageSz = w.machine.kernel.pool.freeCount) := by
  have hsettle : settle (sysBrk n w.machine) (fun b m => (⟨m, if n = 0 then w.last else some b⟩ : BrkWorld))
      (fun m => ⟨m, w.last⟩) = some w' := hstep
  rcases h.sysBrk_cases n with ⟨hzero, heq⟩ | ⟨_, hgrows, heq⟩ | ⟨hpos, hkern, pool, heq, hcount⟩
  · rw [heq] at hsettle
    cases hsettle
    exact .inl ⟨rfl, fun hn => absurd hzero hn⟩
  · rw [heq] at hsettle
    cases hsettle
    exact .inl ⟨rfl, fun _ => hgrows⟩
  · rw [heq] at hsettle
    cases hsettle
    have hlt := pageUp_lt n
    have hword := kernBase_lt
    have hrun : (w.machine.withPool pool).kernel.running = some (t, task) := h.running
    exact .inr ⟨hpos, hkern, ⟨setBrk_running hrun (pageUp n), pageUp_mod n, by show pageUp n < _; omega⟩, hcount⟩

variable {a : BrkStep}

theorem step (h : BrkFits w.machine t task) (hstep : brks.step w a = some w') :
    ∃ task', BrkFits w'.machine t task' := by
  cases a with
  | tick =>
    cases hstep
    exact ⟨task, h.running, h.aligned, h.word⟩
  | brk n =>
    rcases h.step_brk hstep with ⟨hsame, _⟩ | ⟨_, _, hfits, _⟩
    · exact ⟨task, by rw [hsame]; exact h⟩
    · exact ⟨_, hfits⟩

variable {start : Machine}

/-- Frames and pages part when the break falls, and only then. -/
theorem step_framesMatch_iff (h : BrkFits w.machine t task) (hmatch : FramesMatch start w)
    (hstep : brks.step w a = some w') : FramesMatch start w' ↔ NeverShrinks w a := by
  cases a with
  | tick =>
    cases hstep
    exact iff_of_true hmatch trivial
  | brk n =>
    have hold := h.curBrk_eq
    rcases h.step_brk hstep with ⟨hsame, hgrows⟩ | ⟨hpos, hkern, hfits, hcount⟩
    · refine iff_of_true ?_ fun hn hlt => ?_
      · rw [FramesMatch, hsame]
        exact hmatch
      · rw [hold]
        exact (hgrows hn hlt).le
    · have hnew : curBrk w'.machine = pageUp n := hfits.curBrk_eq
      have hnewPage := pageUp_mod n
      have holdPage := h.aligned
      unfold FramesMatch at hmatch ⊢
      show _ ↔ (n ≠ 0 → n < kernBase → _)
      rw [hold] at hmatch
      rw [hnew, hold]
      simp only [hpos, hkern, ne_eq, not_false_eq_true, forall_const]
      simp only [pageSz] at *
      omega

theorem answersRight_iff (h : BrkFits w.machine t task) (a : BrkStep) : AnswersRight w a ↔ AskedAtInitial w a := by
  cases a with
  | tick => exact Iff.rfl
  | brk n =>
    have hclean : ∀ e m, sysBrk n w.machine = (.error e, m) →
        curBrk m = curBrk w.machine ∧ m.kernel.pool = w.machine.kernel.pool := by
      intro e m herr
      rcases h.sysBrk_cases n with ⟨_, heq⟩ | ⟨_, _, heq⟩ | ⟨_, _, pool, heq, _⟩
      · rw [heq] at herr
        cases herr
      · rw [heq] at herr
        cases herr
        exact ⟨rfl, rfl⟩
      · rw [heq] at herr
        cases herr
    refine (and_iff_left hclean).trans (forall_congr' fun hzero => forall_congr' fun b => forall_congr' fun _ => ?_)
    subst hzero
    constructor
    · intro hanswer
      obtain ⟨m, hanswer⟩ := hanswer
      cases hanswer
      rfl
    · intro hb
      exact ⟨w.machine, by rw [hb]; rfl⟩

end BrkFits

/-- **Along every run of calls of one task, and whatever the pool, the frames taken match the break and a null
break is answered with the last one set exactly when the break never falls and is only asked for while none is
set or the constant is.** -/
theorem brk_consistent_iff {m : Machine} {t : Nat} {task : Task} (h : BrkFits m t task) (steps : List BrkStep) :
    BrkConsistent m steps ↔ brks.Guarded NeverShrinks ⟨m, none⟩ steps ∧ brks.Asks AskedAtInitial ⟨m, none⟩ steps := by
  have hfits : ∀ w a w', (∃ task, BrkFits w.machine t task) → brks.step w a = some w' →
      ∃ task', BrkFits w'.machine t task' := by
    intro w a w' hw hstep
    obtain ⟨task, hw⟩ := hw
    exact hw.step hstep
  refine and_congr ?_ ?_
  · refine System.always_iff_guarded hfits (fun w a w' hw hmatch hstep => ?_) ⟨task, h⟩ ?_
    · obtain ⟨task, hw⟩ := hw
      exact hw.step_framesMatch_iff hmatch hstep
    · simp [FramesMatch]
  · refine System.asks_iff hfits (fun w a hw => ?_) ⟨task, h⟩ steps
    obtain ⟨task, hw⟩ := hw
    exact hw.answersRight_iff a

theorem brk_consistent_growing : BrkConsistent (Machine.boot 8) [.brk 4096, .tick, .brk 12288] := by
  have hboot : ((Machine.boot 8).kernel.running.any fun cur => cur.1 = 1 ∧ cur.2.vmToken = 0) = true := by
    decide +kernel
  simp only [Option.any_eq_true, decide_eq_true_eq] at hboot
  obtain ⟨⟨t, task⟩, hrun, _, hzero⟩ := hboot
  have hzero : task.vmToken = 0 := hzero
  have hfits : BrkFits (Machine.boot 8) t task := ⟨hrun, by rw [hzero]; rfl, by rw [hzero]; decide⟩
  refine (brk_consistent_iff hfits _).mpr ⟨by decide +kernel, fun done a w hpre _ => ?_⟩
  have ha : a ∈ [BrkStep.brk 4096, .tick, .brk 12288] := hpre.subset (by simp)
  simp only [List.mem_cons, List.not_mem_nil, or_false] at ha
  rcases ha with rfl | rfl | rfl
  · exact fun hzero => absurd hzero (by decide)
  · trivial
  · exact fun hzero => absurd hzero (by decide)

/-- Three pages are taken, two are given up, and three frames stay taken. -/
theorem brk_keeps_frames : ¬BrkConsistent (Machine.boot 8) [.brk 12288, .brk 4096] := by
  intro h
  have hrun : ((brks.run ⟨Machine.boot 8, none⟩ [.brk 12288, .brk 4096]).any fun w =>
      curBrk w.machine = 4096 ∧ w.machine.kernel.pool.freeCount = 5 ∧ curBrk (Machine.boot 8) = 0 ∧
        (Machine.boot 8).kernel.pool.freeCount = 8) = true := by
    decide +kernel
  obtain ⟨w, hw, hbrk, hfree, hbrk₀, hfree₀⟩ := System.exists_of_run_any hrun
  have hmatch := h.1 _ w (List.prefix_refl _) hw
  rw [FramesMatch, hbrk, hfree, hbrk₀, hfree₀] at hmatch
  exact absurd hmatch (by decide)

end ChaosKernel.Sys
