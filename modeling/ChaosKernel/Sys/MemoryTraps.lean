import ChaosKernel.Sys.Quiet

/-! What makes the calls on memory and descriptors trap.

For each call that computes on its argument words, the exact condition under which
its text traps. `Proper` is what every kernel has: a cache with as many chains as
its width says, a break that is a word, and tables that fit into memory. -/
namespace ChaosKernel.Sys
open Base Memory Fs Proc Ipc Call

/-- Every entry of a table holds a word of its own, so that eight times their number is a number
of bytes. -/
structure Machine.Proper (m : Machine) : Prop where
  width : 0 < m.st.cache.width
  chains : m.st.cache.chains.length = m.st.cache.width
  token : ∀ t task, m.kernel.running = some (t, task) → task.vmToken < wordSize
  tasks : 8 * m.kernel.tasks.count ≤ wordSize
  fds : ∀ t, 8 * m.files.fdCount t ≤ wordSize

theorem eq_none_iff_of_eq_some {α : Type} {o : Option α} {P : Prop} (h : (∃ a, o = some a) ↔ P) : o = none ↔ ¬P := by
  rw [← h]
  cases o <;> simp

/-! ### Memory -/

def MmapSafe (clk addr len flags fd : Nat) : Prop :=
  len = 0 ∨ len + pageSz < wordSize ∧
    (FixedAddr addr flags ∨ (clk + fd) * pageSz < wordSize ∧ pageUp len < kernBase - mmapBase)

variable {addr pages oldBrk clk flags fd alignedLen len aligned fuel : Nat} {m : Machine}

theorem mmapAddr?_eq_none : mmapAddr? clk addr flags fd alignedLen = none ↔
    ¬(FixedAddr addr flags ∨ (clk + fd) * pageSz < wordSize ∧ alignedLen < kernBase - mmapBase) := by
  apply eq_none_iff_of_eq_some
  unfold mmapAddr?
  by_cases hfixed : addr ≠ 0 ∧ flags &&& mapFixed ≠ 0
  · rw [if_pos hfixed]
    exact iff_of_true ⟨_, rfl⟩ (.inl hfixed)
  · rw [if_neg hfixed]
    simp only [mmapSlot?_eq_some, show ¬FixedAddr addr flags from hfixed, false_or]
    exact ⟨fun ⟨_, hseed, hroom, _⟩ => ⟨hseed, hroom⟩, fun h => ⟨_, h.1, h.2, rfl⟩⟩

theorem traps_alignUp {f : Nat → SysM Nat} :
    (own (alignUp? len) >>= f).Traps m ↔ (len + pageSz < wordSize → (f (pageUp len)).Traps m) := by
  have hnone : alignUp? len = none ↔ ¬len + pageSz < wordSize := by
    apply eq_none_iff_of_eq_some
    simp only [alignUp?_eq_some, exists_and_left, exists_eq, and_true]
  simp only [traps_own_bind, hnone, alignUp?_eq_some]
  grind

theorem sysMmap_traps (m : Machine) (addr len prot flags fd offset : Nat) :
    (sysMmap addr len prot flags fd offset).Traps m ↔ ¬MmapSafe m.clk addr len flags fd := by
  rw [sysMmap, traps_failIf_bind, traps_alignUp]
  simp only [traps_get_bind, traps_own_bind, traps_failIf_bind, traps_pure, and_false, exists_false, or_false,
    mmapAddr?_eq_none, MmapSafe]
  grind

def MunmapSafe (addr len : Nat) : Prop :=
  addr % pageSz ≠ 0 ∨ len = 0 ∨ len + pageSz < wordSize ∧ addr + pageUp len ≤ wordSize

theorem walkPages?_eq_none :
    walkPages? addr pages 0 = none ↔ 0 < pages ∧ wordSize ≤ addr + (pages - 1) * pageSz := by
  have hsome : (∃ u, walkPages? addr pages 0 = some u) ↔ walkPages? addr pages 0 = some () :=
    ⟨fun ⟨_, h⟩ => h, fun h => ⟨(), h⟩⟩
  rw [eq_none_iff_of_eq_some hsome, walkPages?_eq_some]
  constructor
  · intro h
    simp only [not_forall, Nat.zero_add, Nat.not_lt] at h
    obtain ⟨p, hp, hle⟩ := h
    have hmul : p * pageSz ≤ (pages - 1) * pageSz := Nat.mul_le_mul_right pageSz (by omega)
    exact ⟨by omega, by omega⟩
  · intro h hall
    have := hall (pages - 1) (by omega)
    rw [Nat.zero_add] at this
    omega

/-- The last page of a range starts past the words exactly when the range ends past them. -/
theorem lastPage_past (haddr : addr % pageSz = 0) (hlen : len ≠ 0) :
    0 < pageUp len / pageSz ∧ wordSize ≤ addr + (pageUp len / pageSz - 1) * pageSz ↔
      ¬addr + pageUp len ≤ wordSize := by
  have hmod := pageUp_mod len
  have hle := le_pageUp len
  generalize pageUp len = up at *
  simp only [pageSz, wordSize] at *
  omega

theorem sysMunmap_traps (m : Machine) (addr len : Nat) : (sysMunmap addr len).Traps m ↔ ¬MunmapSafe addr len := by
  rw [sysMunmap, traps_failIf_bind, traps_alignUp]
  simp only [traps_own_bind, traps_pure, and_false, exists_false, or_false, walkPages?_eq_none, MunmapSafe, not_not]
  by_cases haddr : addr % pageSz = 0
  · by_cases hlen : len = 0
    · subst hlen
      have hzero : pageUp 0 / pageSz = 0 := by decide
      have hword : pageSz < wordSize := by decide
      simp [hzero, hword]
    · rw [lastPage_past haddr hlen]
      simp [haddr, hlen]
  · simp [haddr]

theorem growBrk_quiet (p : Nat) (h : oldBrk + (p + pages) * pageSz ≤ wordSize) :
    (growBrk oldBrk pages p).Quiet := by
  induction pages generalizing p with
  | zero => exact quiet_pure ()
  | succ pages ih =>
    have hstep : (p + (pages + 1)) * pageSz = (p + 1 + pages) * pageSz := by ring
    have hpage : p * pageSz + pageSz ≤ (p + 1 + pages) * pageSz := by
      rw [← Nat.succ_mul]
      exact Nat.mul_le_mul_right pageSz (by omega)
    have hpos : 0 < pageSz := by decide
    have hva : ((mul? p pageSz).bind (add? oldBrk)).isSome := by
      rw [mul?, if_pos (by omega), Option.bind_some, add?_of_lt (by omega)]
      rfl
    exact (quiet_own hva).bind fun _ => Quiet.bind (fun _ h => by cases h) fun _ => ih (p + 1) (by omega)

/-- A break below the kernel's half moves without a trap from wherever it is. -/
theorem moveBrk_quiet (hold : oldBrk < wordSize) (hnew : aligned < wordSize) :
    (moveBrk oldBrk aligned).Quiet := by
  refine Quiet.ite (quiet_own ?_) (Quiet.ite ?_ (quiet_pure ()))
  · have hsafe : walkPages? aligned ((oldBrk - aligned) >>> 12) 0 = some () := by
      rw [walkPages?_eq_some]
      intro p hp
      rw [Nat.shiftRight_eq_div_pow] at hp
      simp only [pageSz] at *
      omega
    rw [hsafe]
    rfl
  · refine quiet_get.bind fun m => (quiet_failIf _ _).bind fun _ => growBrk_quiet 0 ?_
    simp only [pageSz] at *
    omega

theorem sysBrk_safe (hm : m.Proper) (newBrk : Nat) : ¬(sysBrk newBrk).Traps m := by
  unfold sysBrk
  split
  · exact traps_pure _ m
  · rw [traps_failIf_bind, traps_alignUp]
    intro h
    obtain ⟨hbelow, htraps⟩ := h
    have hkern := kernBase_lt
    have hup := pageUp_lt newBrk
    have htraps := htraps (by omega)
    obtain ⟨cur, m', hcur, htraps⟩ := quiet_curTask.traps_bind.mp htraps
    cases hcur
    cases hrun : m.kernel.running with
    | none =>
      rw [hrun] at htraps
      exact traps_pure _ m htraps
    | some cur =>
      rw [hrun] at htraps
      have htoken := hm.token cur.1 cur.2 hrun
      exact (moveBrk_quiet htoken (by omega)).bind (fun _ => (quiet_modifyTasks _).bind fun _ => quiet_pure _) m htraps

/-! ### Descriptors -/

theorem candidate?_isSome (table : BTreeMap FLike) (h : fd + fuel < wordSize) :
    (candidate? table fuel fd).isSome := by
  induction fuel generalizing fd with
  | zero => rfl
  | succ fuel ih =>
    unfold candidate?
    split
    · rw [add?_of_lt (by omega), Option.bind_some]
      exact ih (by omega)
    · rfl

theorem sysDup_safe (hm : m.Proper) (oldFd : Nat) : ¬(sysDup oldFd).Traps m := by
  rw [sysDup, traps_failIf_bind, current, traps_okOr_bind]
  intro h
  obtain ⟨hfd, cur, _, htraps⟩ := h
  rw [getFile, traps_okOr_bind] at htraps
  obtain ⟨fl, _, htraps⟩ := htraps
  have hsize := hm.fds cur.1
  have hcand : (candidate? (m.files.table cur.1) (m.files.fdCount cur.1) oldFd).isSome :=
    candidate?_isSome _ (by simp only [nProc, wordSize] at *; omega)
  exact (quiet_own hcand).bind (fun _ => (quiet_onFiles _).bind fun _ => (quiet_onFiles _).bind fun _ => quiet_pure _)
    m htraps

theorem sysPipe_safe (hm : m.Proper) (fdsAddr : Nat) : ¬(sysPipe fdsAddr).Traps m := by
  rw [sysPipe, traps_failIf_bind, (quiet_userRange _ _ _).traps_bind]
  intro h
  obtain ⟨_, u, m', hrange, htraps⟩ := h
  rw [current, traps_okOr_bind] at htraps
  obtain ⟨cur, _, htraps⟩ := htraps
  obtain ⟨_, k, _, rfl⟩ := userRange_eq_ok.mp hrange
  have hsize := hm.fds cur.1
  have hneeded : (add? (m.files.fdCount cur.1) 2).isSome := by
    rw [add?_of_lt (by simp only [wordSize] at *; omega)]
    rfl
  refine (quiet_own hneeded).bind (fun _ => (quiet_failIf _ _).bind fun _ => ?_) _ htraps
  exact (quiet_onFiles _).bind fun _ => (quiet_onFiles _).bind fun _ => (quiet_onFiles _).bind fun _ => quiet_pure _

/-- The number `F_DUPFD` and `F_DUPFD_CLOEXEC` compute is a word. -/
def FcntlSafe (clk fd cmd arg : Nat) : Prop :=
  nProc * 4 ≤ fd ∨
    match FcntlCmd.ofNat? cmd with
    | some .dupfd => dupBase fd arg + (clk &&& 0x3) < wordSize
    | some .dupfdCloexec => dupBase fd arg + 1 < wordSize
    | _ => True

theorem cachedDirty_safe (hm : m.Proper) (fd : Nat) : ¬(cachedDirty fd).Traps m := by
  have hwidth : m.st.cache.width ≠ 0 := hm.width.ne'
  have hlt : fd % m.st.cache.width < m.st.cache.chains.length := by
    rw [hm.chains]
    exact Nat.mod_lt fd hm.width
  simp [cachedDirty, rem?, hwidth, Nat.not_le.mpr hlt]

theorem sysFcntl_traps (hm : m.Proper) (fd cmd arg : Nat) :
    (sysFcntl fd cmd arg).Traps m ↔ ¬FcntlSafe m.clk fd cmd arg := by
  rw [sysFcntl, traps_failIf_bind, FcntlSafe, not_or]
  refine and_congr_right fun _ => ?_
  have hrange : ∀ writing, (userRange arg 32 writing >>= fun _ => pure 0 : SysM Nat).Traps m ↔ ¬True := fun writing =>
    iff_of_false ((quiet_userRange _ _ _).bind (fun _ => quiet_pure 0) m) (not_not_intro trivial)
  cases FcntlCmd.ofNat? cmd with
  | none => simp
  | some c =>
    cases c with
    | dupfd => simp [add?_eq_none]
    | dupfdCloexec => simp [add?_eq_none]
    | getfd =>
      exact iff_of_false (not_traps_bind (cachedDirty_safe hm fd) fun _ => quiet_pure _) (not_not_intro trivial)
    | setfd => simp
    | getfl => simp
    | setfl => simp
    | getlk => exact hrange true
    | setlk => exact hrange false
    | setlkw => exact hrange false

end ChaosKernel.Sys
