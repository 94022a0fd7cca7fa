import ChaosKernel.Sync.KernLock

/-! The kernel lock excludes, nests and never fails.

The invariant is a `OneHolder`: the holder is the thread between the exchange that
took the flag and the store that clears it. A waiting thread only knows that the
owner it read was not itself. The holder knows where it is in its operation and
what the lock looks like there (`Holder`): at rest, its id is the owner's, the
depth is its nesting and the stack holds its ids (`Rest`). -/
namespace ChaosKernel.Sync
open Base

/-- The stack holds the ids, the outermost at the bottom. -/
def Stacked (slots : Fin holderStackCap → Nat) : List Nat → Prop
  | [] => True
  | id :: rest => (∃ h : rest.length < holderStackCap, slots ⟨rest.length, h⟩ = id) ∧ Stacked slots rest

variable {slots : Fin holderStackCap → Nat}

theorem Stacked.store {held : List Nat} (h : Stacked slots held) {i : Fin holderStackCap}
    (hi : held.length ≤ i.val) (v : Nat) : Stacked (Function.update slots i v) held := by
  induction held with
  | nil => trivial
  | cons id rest ih =>
    obtain ⟨⟨hlt, hslot⟩, hrest⟩ := h
    rw [List.length_cons] at hi
    refine ⟨⟨hlt, ?_⟩, ih hrest (by omega)⟩
    have hne : (⟨rest.length, hlt⟩ : Fin holderStackCap) ≠ i := by
      intro heq
      rw [← heq] at hi
      simp only at hi
      omega
    rw [Function.update_of_ne hne]
    exact hslot

theorem Stacked.length_le {held : List Nat} (h : Stacked slots held) : held.length ≤ holderStackCap := by
  cases held with
  | nil => exact Nat.zero_le _
  | cons id rest => exact h.1.1

/-- The lock as its owner leaves it between operations. -/
structure Rest (tid : Nat) (lock : KernLock) (held : List Nat) : Prop where
  owner : lock.ownerTid = tid
  depth : lock.depth = held.length
  stacked : Stacked lock.holderStack held
  holds : held ≠ []

/-- What the holder knows at each of its accesses. -/
inductive Holder (tid : Nat) (lock : KernLock) : Pc → List Nat → Prop where
  | idle {held} (h : Rest tid lock held) : Holder tid lock .idle held
  | enterOwner {held id} (h : Rest tid lock held) (hid : id ≠ 0) (hlt : held.length < holderStackCap) :
    Holder tid lock (.enterOwner id) held
  | enterDepth {held id} (h : Rest tid lock held) (hid : id ≠ 0) (hlt : held.length < holderStackCap) :
    Holder tid lock (.enterDepth id tid) held
  | enterFlag {held id} (h : Rest tid lock held) (hid : id ≠ 0) (hlt : held.length < holderStackCap) :
    Holder tid lock (.enterFlag id tid held.length) held
  | tryOwner {held id} (h : Rest tid lock held) (hid : id ≠ 0) (hlt : held.length < holderStackCap) :
    Holder tid lock (.tryOwner id) held
  | tryDepth {held id} (h : Rest tid lock held) (hlt : held.length < holderStackCap) :
    Holder tid lock (.tryDepth id) held
  | pushSlot {held id} (h : Rest tid lock held) (hlt : held.length < holderStackCap) :
    Holder tid lock (.pushSlot id ⟨held.length, hlt⟩) held
  | pushDepth {held id} (h : Rest tid lock held) (hslot : Stacked lock.holderStack (id :: held)) :
    Holder tid lock (.pushDepth id) held
  | clear {id i} : Holder tid lock (.clear id i) []
  | setSlot {id} : Holder tid lock (.setSlot id) []
  | setDepth {id} (hslot : Stacked lock.holderStack [id]) : Holder tid lock (.setDepth id) []
  | setOwner {id} (hslot : Stacked lock.holderStack [id]) (hdepth : lock.depth = 1) :
    Holder tid lock (.setOwner id) []
  | leaveDepth {id rest} (h : Rest tid lock (id :: rest)) : Holder tid lock (.leaveDepth id) (id :: rest)
  | leaveTop {id rest} (h : Rest tid lock (id :: rest)) :
    Holder tid lock (.leaveTop id (id :: rest).length) (id :: rest)
  | popSlot {id rest top} (h : Rest tid lock (id :: rest)) (hrest : rest ≠ []) (htop : top.val = rest.length) :
    Holder tid lock (.popSlot (id :: rest).length top) (id :: rest)
  | popDepth {id rest} (howner : lock.ownerTid = tid) (hslots : Stacked lock.holderStack rest)
    (hrest : rest ≠ []) : Holder tid lock (.popDepth (id :: rest).length) (id :: rest)
  | releaseClear {id i} : Holder tid lock (.releaseClear i) [id]
  | releaseDepth {id} : Holder tid lock .releaseDepth [id]
  | releaseOwner {id} : Holder tid lock .releaseOwner [id]
  | releaseFlag {id} (howner : lock.ownerTid = 0) : Holder tid lock .releaseFlag [id]

/-- What a thread that does not hold knows. -/
inductive Waiter (tid : Nat) : Pc → Prop where
  | idle : Waiter tid .idle
  | enterOwner {id} : Waiter tid (.enterOwner id)
  | enterDepth {id owner} (h : owner ≠ tid) : Waiter tid (.enterDepth id owner)
  | enterFlag {id owner d} (h : owner ≠ tid) : Waiter tid (.enterFlag id owner d)
  | topDepth {id spinCnt} : Waiter tid (.topDepth id spinCnt)
  | topSlot {id spinCnt d} (h : d ≤ holderStackCap) : Waiter tid (.topSlot id spinCnt d)
  | swap {id spinCnt} : Waiter tid (.swap id spinCnt)
  | tryOwner {id} : Waiter tid (.tryOwner id)
  | trySwap {id} : Waiter tid (.trySwap id)

section Safety
variable {τ : Type*} (tid : τ → Nat)

/-- What the lock shows of its holder. -/
structure Shows (h : Option τ) (lock : KernLock) : Prop where
  flag : h ≠ none → lock.flag = true
  owner : ∀ t, h ≠ some t → lock.ownerTid ≠ tid t
  depth : lock.depth ≤ holderStackCap

def waits (t : τ) (th : LockThread) : Prop := th.mismatch = false ∧ th.held = [] ∧ Waiter (tid t) th.pc

def holds (t : τ) (lock : KernLock) (th : LockThread) : Prop :=
  th.mismatch = false ∧ Holder (tid t) lock th.pc th.held

def LockInv (w : LockWorld τ) (h : Option τ) : Prop := OneHolder (Shows tid) (waits tid) (holds tid) w h

variable {tid} {h : Option τ} {t : τ}

variable {lock lock' : KernLock} {th th' : LockThread} {pc : Pc}

/-- A thread that waits moves on, or takes the free flag. -/
theorem waiter_access (hshows : Shows tid h lock) (hne : h ≠ some t) (hwaits : waits tid t th)
    (hacc : access (tid t) lock th = some (lock', th')) :
    (lock' = lock ∧ waits tid t th') ∨
      (lock.flag = false ∧ lock' = {lock with flag := true} ∧ holds tid t lock' th') := by
  obtain ⟨pc, held, mismatch⟩ := th
  obtain ⟨hmis, hheld, hpc⟩ := hwaits
  simp only at hmis hheld hpc
  subst hmis hheld
  cases hpc with
  | idle => cases hacc
  | enterOwner =>
    cases hacc
    exact .inl ⟨rfl, rfl, rfl, .enterDepth (hshows.owner t hne)⟩
  | enterDepth howner =>
    cases hacc
    exact .inl ⟨rfl, rfl, rfl, .enterFlag howner⟩
  | enterFlag howner =>
    simp only [access, howner, false_and, if_false] at hacc
    split at hacc
    · cases hacc
      exact .inl ⟨rfl, rfl, rfl, .topDepth⟩
    · cases hacc
      exact .inl ⟨rfl, rfl, rfl, .swap⟩
  | topDepth =>
    simp only [access] at hacc
    split at hacc
    · cases hacc
      exact .inl ⟨rfl, rfl, rfl, .swap⟩
    · cases hacc
      exact .inl ⟨rfl, rfl, rfl, .topSlot hshows.depth⟩
  | topSlot hle =>
    simp only [access] at hacc
    split at hacc
    · cases hacc
      exact .inl ⟨rfl, rfl, rfl, .swap⟩
    · rename_i hover
      exact absurd (Nat.lt_of_lt_of_le (Nat.lt_succ_self _) (by simp only [holderStackCap] at *; omega)) hover
  | swap =>
    simp only [access] at hacc
    split at hacc
    · split at hacc
      · cases hacc
        exact .inl ⟨rfl, rfl, rfl, .topDepth⟩
      · cases hacc
        exact .inl ⟨rfl, rfl, rfl, .swap⟩
    · rename_i hflag
      cases hacc
      exact .inr ⟨Bool.eq_false_iff.mpr hflag, rfl, rfl, .clear⟩
  | tryOwner =>
    simp only [access, hshows.owner t hne, false_and, if_false] at hacc
    cases hacc
    exact .inl ⟨rfl, rfl, rfl, .trySwap⟩
  | trySwap =>
    simp only [access] at hacc
    split at hacc
    · cases hacc
      exact .inl ⟨rfl, rfl, rfl, .idle⟩
    · rename_i hflag
      cases hacc
      exact .inr ⟨Bool.eq_false_iff.mpr hflag, rfl, rfl, .clear⟩

/-- The stores of the holder to the stack, and to the depth within the stack's size. -/
theorem Shows.stack (hshows : Shows tid h lock) (slots : Fin holderStackCap → Nat) {d : Nat}
    (hd : d ≤ holderStackCap) : Shows tid h ⟨lock.flag, slots, d, lock.ownerTid⟩ :=
  ⟨hshows.flag, hshows.owner, hd⟩

/-- The holder moves on, or clears the flag. -/
theorem holder_access (hinj : Function.Injective tid) (hzero : ∀ t, tid t ≠ 0)
    (hshows : Shows tid (some t) lock) (hholds : holds tid t lock th)
    (hacc : access (tid t) lock th = some (lock', th')) :
    (Shows tid (some t) lock' ∧ holds tid t lock' th') ∨ (Shows tid none lock' ∧ waits tid t th') := by
  obtain ⟨pc, held, mismatch⟩ := th
  obtain ⟨hmis, hpc⟩ := hholds
  simp only at hmis hpc
  subst hmis
  cases hpc with
  | idle h => cases hacc
  | enterOwner h hid hlt =>
    cases hacc
    rw [h.owner]
    exact .inl ⟨hshows, rfl, .enterDepth h hid hlt⟩
  | enterDepth h hid hlt =>
    cases hacc
    rw [h.depth]
    exact .inl ⟨hshows, rfl, .enterFlag h hid hlt⟩
  | enterFlag h hid hlt =>
    simp only [access, hid, ne_eq, not_false_eq_true, and_self, if_true, hlt, dif_pos] at hacc
    cases hacc
    exact .inl ⟨hshows, rfl, .pushSlot h hlt⟩
  | tryOwner h hid hlt =>
    simp only [access, h.owner, hid, ne_eq, not_false_eq_true, and_self, if_true] at hacc
    cases hacc
    exact .inl ⟨hshows, rfl, .tryDepth h hlt⟩
  | tryDepth h hlt =>
    simp only [access, h.depth, hlt, dif_pos] at hacc
    cases hacc
    exact .inl ⟨hshows, rfl, .pushSlot h hlt⟩
  | pushSlot h hlt =>
    cases hacc
    have hkeep := h.stacked.store (i := ⟨held.length, hlt⟩) le_rfl
    refine .inl ⟨hshows.stack _ hshows.depth, rfl, .pushDepth ⟨h.owner, h.depth, hkeep _, h.holds⟩ ?_⟩
    exact ⟨⟨hlt, Function.update_self ..⟩, hkeep _⟩
  | pushDepth h hslot =>
    cases hacc
    have hdepth : lock.depth + 1 ≤ holderStackCap := by
      rw [h.depth]
      exact hslot.1.1
    refine .inl ⟨hshows.stack _ hdepth, rfl, .idle ⟨h.owner, ?_, hslot, List.cons_ne_nil _ _⟩⟩
    rw [h.depth]
    rfl
  | clear =>
    simp only [access] at hacc
    split at hacc
    · cases hacc
      exact .inl ⟨hshows.stack _ hshows.depth, rfl, .clear⟩
    · cases hacc
      exact .inl ⟨hshows.stack _ hshows.depth, rfl, .setSlot⟩
  | @setSlot id =>
    cases hacc
    have hpos : 0 < holderStackCap := by decide
    have hslot : Function.update lock.holderStack ⟨0, hpos⟩ id ⟨0, hpos⟩ = id := Function.update_self ..
    exact .inl ⟨hshows.stack _ hshows.depth, rfl, .setDepth ⟨⟨hpos, hslot⟩, trivial⟩⟩
  | setDepth hslot =>
    cases hacc
    exact .inl ⟨hshows.stack _ (by decide), rfl, .setOwner hslot rfl⟩
  | setOwner hslot hdepth =>
    cases hacc
    refine .inl ⟨⟨hshows.flag, fun u hu => ?_, hshows.depth⟩, rfl,
      .idle ⟨rfl, hdepth, hslot, List.cons_ne_nil _ _⟩⟩
    exact fun heq => hu (congrArg some (hinj heq))
  | leaveDepth h =>
    have hpos : 0 < lock.depth := by
      rw [h.depth]
      exact Nat.succ_pos _
    simp only [access, hpos, if_true] at hacc
    cases hacc
    rw [h.depth]
    exact .inl ⟨hshows, rfl, .leaveTop h⟩
  | @leaveTop id rest h =>
    obtain ⟨⟨hlt, hslot⟩, hrest⟩ := h.stacked
    have htop : (id :: rest).length - 1 < holderStackCap := hlt
    have hmatch : lock.holderStack ⟨(id :: rest).length - 1, htop⟩ = id := hslot
    simp only [access, htop, dif_pos, hmatch, bne_self_eq_false, Bool.or_self] at hacc
    cases rest with
    | nil =>
      cases hacc
      exact .inl ⟨hshows, rfl, .releaseClear⟩
    | cons next rest =>
      rw [if_pos (by simp only [List.length_cons]; omega)] at hacc
      cases hacc
      exact .inl ⟨hshows, rfl, .popSlot h (List.cons_ne_nil _ _) rfl⟩
  | popSlot h hrest htop =>
    cases hacc
    exact .inl ⟨hshows.stack _ hshows.depth, rfl,
      .popDepth h.owner (h.stacked.2.store htop.ge 0) hrest⟩
  | popDepth howner hslots hrest =>
    cases hacc
    exact .inl ⟨hshows.stack _ hslots.length_le, rfl, .idle ⟨howner, rfl, hslots, hrest⟩⟩
  | releaseClear =>
    simp only [access] at hacc
    split at hacc
    · cases hacc
      exact .inl ⟨hshows.stack _ hshows.depth, rfl, .releaseClear⟩
    · cases hacc
      exact .inl ⟨hshows.stack _ hshows.depth, rfl, .releaseDepth⟩
  | releaseDepth =>
    cases hacc
    exact .inl ⟨hshows.stack _ (Nat.zero_le _), rfl, .releaseOwner⟩
  | releaseOwner =>
    cases hacc
    exact .inl ⟨⟨hshows.flag, fun u _ heq => hzero u heq.symm, hshows.depth⟩, rfl, .releaseFlag rfl⟩
  | releaseFlag howner =>
    cases hacc
    refine .inr ⟨⟨fun hne => absurd rfl hne, fun u _ heq => ?_, hshows.depth⟩, rfl, rfl, .idle⟩
    exact hzero u (heq.symm.trans howner)

/-! ### Runs -/

theorem LockInv.new (hzero : ∀ t, tid t ≠ 0) : LockInv tid LockWorld.new none :=
  ⟨⟨fun hne => absurd rfl hne, fun t _ heq => hzero t heq.symm, Nat.zero_le _⟩,
    fun _ _ => ⟨rfl, rfl, .idle⟩, nofun⟩

variable [DecidableEq τ] {w w' : LockWorld τ}

theorem LockInv.begin (hinv : LockInv tid w h) {allowed : Prop} [Decidable allowed]
    (hstep : w.begin t pc allowed = some w') (hwait : allowed → (w.locals t).held = [] → Waiter (tid t) pc)
    (hhold : allowed → Rest (tid t) w.shared (w.locals t).held →
      Holder (tid t) w.shared pc (w.locals t).held) : LockInv tid w' h := by
  simp only [LockWorld.begin, Option.ite_none_right_eq_some, Option.some.injEq] at hstep
  obtain ⟨⟨hidle, hallowed⟩, rfl⟩ := hstep
  by_cases ht : h = some t
  · subst ht
    obtain ⟨hmis, hpc⟩ := hinv.holds t rfl
    rw [hidle] at hpc
    cases hpc with
    | idle hrest => exact hinv.work hinv.shared ⟨hmis, hhold hallowed hrest⟩
  · obtain ⟨hmis, hheld, _⟩ := hinv.waits t ht
    exact hinv.wait ht ⟨hmis, hheld, hwait hallowed hheld⟩

theorem LockInv.tick (hinj : Function.Injective tid) (hzero : ∀ t, tid t ≠ 0) (hinv : LockInv tid w h)
    (hacc : access (tid t) w.shared (w.locals t) = some (lock, th)) :
    ∃ h', LockInv tid (w.set t lock th) h' := by
  by_cases ht : h = some t
  · subst ht
    rcases holder_access hinj hzero hinv.shared (hinv.holds t rfl) hacc with ⟨hs, hl⟩ | ⟨hs, hl⟩
    · exact ⟨some t, hinv.work hs hl⟩
    · exact ⟨none, hinv.release hs hl⟩
  · rcases waiter_access hinv.shared ht (hinv.waits t ht) hacc with ⟨rfl, hl⟩ | ⟨hflag, rfl, hl⟩
    · exact ⟨h, hinv.wait ht hl⟩
    · -- A holder would have the flag set.
      have hnone : h = none := by
        by_contra hsome
        rw [hinv.shared.flag hsome] at hflag
        cases hflag
      subst hnone
      have hshows := hinv.shared
      exact ⟨some t, hinv.acquire ⟨fun _ => rfl, fun u _ => hshows.owner u nofun, hshows.depth⟩ hl⟩

theorem LockInv.step (hinj : Function.Injective tid) (hzero : ∀ t, tid t ≠ 0) (hinv : LockInv tid w h)
    {a : LockStep τ} (hstep : w.step tid a = some w') : ∃ h', LockInv tid w' h' := by
  cases a with
  | enter t id =>
    exact ⟨h, hinv.begin hstep (fun _ _ => .enterOwner) fun hok hrest => .enterOwner hrest hok.1 hok.2⟩
  | tryEnter t id =>
    exact ⟨h, hinv.begin hstep (fun _ _ => .tryOwner) fun hok hrest => .tryOwner hrest hok.1 hok.2⟩
  | leave t id =>
    refine ⟨h, hinv.begin hstep (fun hok hnil => ?_) fun hok hrest => ?_⟩
    · rw [hnil] at hok
      cases hok
    · obtain ⟨rest, heq⟩ := List.head?_eq_some_iff.mp hok
      rw [heq] at hrest ⊢
      exact .leaveDepth hrest
  | tick t =>
    obtain ⟨⟨lock, th⟩, hacc, rfl⟩ := Option.map_eq_some_iff.mp hstep
    exact hinv.tick hinj hzero hacc

theorem lockInv_run (hinj : Function.Injective tid) (hzero : ∀ t, tid t ≠ 0) {steps : List (LockStep τ)}
    (hrun : (kernLocks tid).run LockWorld.new steps = some w) : ∃ h, LockInv tid w h :=
  System.invariant_run (M := kernLocks tid) (I := fun w => ∃ h, LockInv tid w h)
    (fun _ _ _ hs hstep => hs.elim fun _ hinv => hinv.step hinj hzero hstep)
    ⟨none, LockInv.new hzero⟩ hrun

/-! ### Safety -/

/-- The stores of an acquisition after the flag was taken. -/
def Pc.acquiring : Pc → Bool
  | .clear _ _ | .setSlot _ | .setDepth _ | .setOwner _ => true
  | _ => false

/-- From the exchange that took the flag to the store that clears it. -/
def LockThread.Inside (th : LockThread) : Prop := th.held ≠ [] ∨ th.pc.acquiring = true

omit [DecidableEq τ] in
theorem waits_outside (h : waits tid t th) : ¬th.Inside := by
  intro hin
  obtain ⟨_, hheld, hpc⟩ := h
  rcases hin with hne | hacq
  · exact hne hheld
  · cases hpc' : th.pc <;> rw [hpc'] at hpc hacq <;> cases hpc <;> cases hacq

theorem Holder.not_panicked {id : Nat} {held : List Nat} (h : Holder id lock pc held) : pc ≠ .panicked := by
  intro heq
  subst heq
  cases h

theorem Waiter.not_panicked {id : Nat} (h : Waiter id pc) : pc ≠ .panicked := by
  intro heq
  subst heq
  cases h

/-- At rest the lock shows the nesting of its owner and the id of the innermost level. -/
theorem Rest.level_owner {id : Nat} {held : List Nat} (h : Rest id lock held) :
    lock.level = held.length ∧ held.head? = some lock.owner := by
  refine ⟨h.depth, ?_⟩
  cases held with
  | nil => exact absurd rfl h.holds
  | cons top rest =>
    obtain ⟨⟨hlt, hslot⟩, _⟩ := h.stacked
    have hdepth : lock.depth = rest.length + 1 := h.depth
    have hin : 0 < lock.depth ∧ lock.depth - 1 < holderStackCap := by
      rw [hdepth]
      exact ⟨Nat.succ_pos _, hlt⟩
    have hidx : (⟨lock.depth - 1, hin.2⟩ : Fin holderStackCap) = ⟨rest.length, hlt⟩ :=
      Fin.ext (show lock.depth - 1 = rest.length by omega)
    rw [KernLock.owner, dif_pos hin, hidx, hslot]
    rfl

/-- **The kernel lock is a re-entrant lock.** However the accesses of any threads interleave: at most one
thread is between its acquisition and its outermost `leave`, no access panics, no `leave` reports a
mismatch, and while the owner is not inside an operation the lock shows its nesting depth and the id of
its innermost `enter`. -/
theorem kernLock_safe (hinj : Function.Injective tid) (hzero : ∀ t, tid t ≠ 0) {steps : List (LockStep τ)}
    (hrun : (kernLocks tid).run LockWorld.new steps = some w) :
    (∀ t u, (w.locals t).Inside → (w.locals u).Inside → t = u) ∧
    (∀ t, (w.locals t).pc ≠ .panicked ∧ (w.locals t).mismatch = false) ∧
    ∀ t, (w.locals t).held ≠ [] → (w.locals t).pc = .idle →
      w.shared.level = (w.locals t).held.length ∧ (w.locals t).held.head? = some w.shared.owner := by
  obtain ⟨h, hinv⟩ := lockInv_run hinj hzero hrun
  have hholder : ∀ t, (w.locals t).Inside → h = some t := by
    intro t hin
    by_contra hne
    exact waits_outside (hinv.waits t hne) hin
  refine ⟨fun t u ht hu => ?_, fun t => ?_, fun t hheld hidle => ?_⟩
  · exact Option.some.inj ((hholder t ht).symm.trans (hholder u hu))
  · by_cases ht : h = some t
    · obtain ⟨hmis, hpc⟩ := hinv.holds t ht
      exact ⟨hpc.not_panicked, hmis⟩
    · obtain ⟨hmis, _, hpc⟩ := hinv.waits t ht
      exact ⟨hpc.not_panicked, hmis⟩
  · obtain ⟨_, hpc⟩ := hinv.holds t (hholder t (.inl hheld))
    rw [hidle] at hpc
    cases hpc with
    | idle hrest => exact hrest.level_owner

end Safety

/-- Two threads: one holds two levels while the other has lost the race for the flag. -/
theorem kernLock_safe_two : ∃ w : LockWorld Bool,
    (kernLocks fun t => if t then 1 else 2).run LockWorld.new
      ([LockStep.enter true 7, .enter false 8] ++ List.replicate 3 (LockStep.tick false) ++
        List.replicate 23 (LockStep.tick true) ++ List.replicate 3 (LockStep.tick false) ++
        [LockStep.tryEnter true 9] ++ List.replicate 4 (LockStep.tick true)) = some w ∧
    (w.locals true).held = [9, 7] ∧ w.shared.level = 2 ∧ w.shared.owner = 9 ∧
    (w.locals false).pc ≠ .panicked := by
  have hrun : (((kernLocks fun t => if t then 1 else 2).run LockWorld.new
      ([LockStep.enter true 7, .enter false 8] ++ List.replicate 3 (LockStep.tick false) ++
        List.replicate 23 (LockStep.tick true) ++ List.replicate 3 (LockStep.tick false) ++
        [LockStep.tryEnter true 9] ++ List.replicate 4 (LockStep.tick true))).any
      fun w => (w.locals true).held = [9, 7] ∧ (w.locals true).pc = .idle) = true := by
    decide +kernel
  obtain ⟨w, hrun, hheld, hidle⟩ := System.exists_of_run_any hrun
  obtain ⟨_, hok, hrest⟩ := kernLock_safe (by decide) (by decide) hrun
  obtain ⟨hlevel, howner⟩ := hrest true (by rw [hheld]; exact List.cons_ne_nil _ _) hidle
  rw [hheld] at hlevel howner
  exact ⟨w, hrun, hheld, hlevel, (Option.some.inj howner).symm, (hok false).1⟩

end ChaosKernel.Sync
