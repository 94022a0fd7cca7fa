import ChaosKernel.Sys.Tables

/-! The stack an exec builds.

An exec lays out the stack with `ProcInit::push_at`, whose subtractions wrap, and
stores the pointer in the context of the task. Nothing compares what is pushed with
the size of the stack, so the stored pointer is in it only while everything fits there
(`execStack_iff`). -/
namespace ChaosKernel.Sys
open Base Memory Fs Proc Ipc Call

variable {init : ProcInit} {id t : Nat} {path : String} {m m' : Machine} {task : Task}

/-- The context an exec stores in the task. -/
def execCtx (sp : Nat) : ThdCtx := {ThdCtx.default with uctx := (ThdCtx.default.uctx.setSp sp).setIp 0x400000}

/-- An exec that returns has laid out the stack, and changes the task in its path and its context. -/
theorem doExec_ok (hauxv : init.auxv = ∅) (hfind : m.kernel.tasks.find id = some t)
    (htask : m.kernel.tasks.heap[t]? = some task) (hok : doExec id path init.args init.envs m = (.ok (), m')) :
    ∃ sp, init.pushAt (usrStkOff + usrStkSz) = some sp ∧
      m'.kernel.tasks.heap[t]? = some {task with execPath := path, thdCtx := some (execCtx sp)} := by
  obtain ⟨args, envs, auxv⟩ := init
  subst hauxv
  rw [doExec, get_bind, hfind] at hok
  obtain ⟨_, m₁, hpath, hok⟩ := bind_eq_ok.mp hok
  cases hpath
  obtain ⟨_, m₂, hfiles, hok⟩ := bind_eq_ok.mp hok
  obtain ⟨files, _, rfl⟩ := onFiles_eq_ok.mp hfiles
  obtain ⟨sp, m₃, hpush, hok⟩ := bind_eq_ok.mp hok
  rw [callee_eq_ok] at hpush
  obtain ⟨sp', hsp, heq⟩ := Option.map_eq_some_iff.mp hpush
  cases heq
  cases hok
  refine ⟨sp, hsp, ?_⟩
  simp only [Machine.withTasks, TaskTable.heap_modify, if_true, htask, Option.map_some]
  rfl

theorem usrStk_top : usrStkOff + usrStkSz < wordSize := by decide

/-- **Where exec lays out a well-formed stack.** `push_at` ends at the address `total_size` promises
when the second copy of the first argument is lost in the alignment. An exec that returns changes the path and
the context of its task and nothing else of it, and the stack pointer it stores there is in the stack when what
is pushed, that copy included, is no larger than the stack. -/
theorem execStack_iff (init : ProcInit) (hfits : init.Fits) :
    (∀ top n : Nat, init.totalSize = some n → n + 16 ≤ top → top < wordSize →
      ((∃ sp, init.pushAt top = some sp ∧ IsGreatest {m | 16 ∣ m ∧ m ≤ top - n} sp) ↔
        init.a0l + 1 ≤ (top - n) % 16)) ∧
    (init.auxv = ∅ → ∀ (id : Nat) (path : String) (m m' : Machine) (t : Nat) (task : Task),
      m.kernel.tasks.find id = some t → m.kernel.tasks.heap[t]? = some task →
      doExec id path init.args init.envs m = (.ok (), m') →
      ∃ ctx, m'.kernel.tasks.heap[t]? = some {task with execPath := path, thdCtx := some ctx} ∧
        (usrStkOff ≤ ctx.uctx.sp ∧ ctx.uctx.sp < usrStkOff + usrStkSz ↔
          1 ≤ init.pushed % wordSize ∧ init.pushed % wordSize ≤ usrStkSz)) := by
  constructor
  · intro top n hn hroom htop
    rw [ProcInit.totalSize_eq hn] at hroom ⊢
    exact ProcInit.pushAt_agrees_iff hfits hroom htop
  · intro hauxv id path m m' t task hfind htask hok
    obtain ⟨sp, hpush, hstored⟩ := doExec_ok hauxv hfind htask hok
    refine ⟨execCtx sp, hstored, ?_⟩
    rw [show (execCtx sp).uctx.sp = sp from Context.sp_setSp _ sp]
    exact ProcInit.pushAt_mem_iff hfits usrStk_top (by decide) (by decide) hpush

/-- One short argument. -/
def shellInit : ProcInit := ⟨["sh"], [], ∅⟩

/-- The context that the first task has after an exec on a fresh kernel. -/
def storedCtx (init : ProcInit) : Option ThdCtx :=
  (doExec 1 "/bin/sh" init.args init.envs (Machine.boot 4)).2.kernel.tasks.heap[1]?.bind Task.thdCtx

/-- Both pointers are right. -/
theorem execStack_shell : shellInit.Fits ∧
    (∃ sp, shellInit.pushAt 0x80000000 = some sp ∧ IsGreatest {m | 16 ∣ m ∧ m ≤ 0x80000000 - 51} sp) ∧
    ∃ ctx, storedCtx shellInit = some ctx ∧ usrStkOff ≤ ctx.uctx.sp ∧ ctx.uctx.sp < usrStkOff + usrStkSz := by
  have hfits : ∀ s ∈ ["sh"] ++ [], s.utf8ByteSize < 2 ^ 63 := by decide
  have hsize : shellInit.totalSize = some 51 := by decide +kernel
  have hok : (doExec 1 "/bin/sh" shellInit.args shellInit.envs (Machine.boot 4)).1 = .ok () := by
    decide +kernel
  obtain ⟨hpush, hexec⟩ := execStack_iff shellInit hfits
  rcases hres : doExec 1 "/bin/sh" shellInit.args shellInit.envs (Machine.boot 4) with ⟨res, m'⟩
  rw [hres] at hok
  obtain ⟨ctx, hctx, hiff⟩ := hexec rfl 1 "/bin/sh" (Machine.boot 4) m' 1 _ rfl rfl (hres.trans (by rw [← hok]))
  refine ⟨hfits, (hpush 0x80000000 51 hsize (by decide) (by decide)).mpr (by decide +kernel), ctx, ?_,
    hiff.mpr (by decide +kernel)⟩
  rw [storedCtx, hres, hctx]
  rfl

/-- A first argument of 16 bytes. -/
def pythonInit : ProcInit := ⟨["/usr/bin/python3"], [], ∅⟩

/-- Eight thousand empty arguments. -/
def wideInit : ProcInit := ⟨List.replicate 8000 "", [], ∅⟩

/-- The pointer is 16 bytes below the sum, and eight thousand arguments go through the stack's floor. -/
theorem execStack_slips :
    (pythonInit.totalSize = some 65 ∧ pythonInit.pushAt 0x80000000 = some 0x7FFFFFA0 ∧
      (0x80000000 - 65) / 16 * 16 = 0x7FFFFFB0) ∧
    (doExec 1 "/bin/sh" wideInit.args wideInit.envs (Machine.boot 4)).1 = .ok () ∧
      ∃ ctx, storedCtx wideInit = some ctx ∧ ctx.uctx.sp < usrStkOff := by
  have hlow : ((storedCtx wideInit).any fun ctx => ctx.uctx.sp < usrStkOff) = true := by decide +kernel
  obtain ⟨ctx, hctx, hlt⟩ := (Option.any_eq_true ..).mp hlow
  exact ⟨by decide +kernel, by decide +kernel, ctx, hctx, of_decide_eq_true hlt⟩

end ChaosKernel.Sys
