import ChaosKernel.Base.Rust

/-! The two futexes.

`FutexBucket` marks the waiters it wakes and filters the queue afterwards;
`FutexTable` walks the queue with an index and removes as it goes. What either does
to a queue is a fate for each entry (`Fates`), and `futexes_agree` says that it is the
same. The threads a section unparks are listed in the order in which it does. -/
namespace ChaosKernel.Sync
open List
variable {τ : Type}

/-- What a section under the mutex does: the queue it leaves, whom it unparks, what it returns. -/
structure Woke (ε τ : Type) where
  left : List ε
  unparked : List τ
  count : Nat
  deriving DecidableEq, Repr

/-- The effect on a queue that has `e` in front of it, which stays. -/
def Woke.keep {ε : Type} (e : ε) (w : Woke ε τ) : Woke ε τ := {w with left := e :: w.left}

/-- The effect with `t` unparked first. -/
def Woke.unpark {ε : Type} (t : τ) (w : Woke ε τ) : Woke ε τ := {w with unparked := t :: w.unparked}

/-! ### The bucket -/

structure FutexWaiter (τ : Type) where
  addr : Nat
  thread : τ
  flag : Bool
  deriving DecidableEq, Repr

namespace FutexBucket

/-- The pass of `wake` over the queue, after `woken` waiters. -/
def wakeLoop (addr count woken : Nat) : List (FutexWaiter τ) → Woke (FutexWaiter τ) τ
  | [] => ⟨[], [], woken⟩
  | e :: rest =>
    if e.addr = addr ∧ woken < count then (wakeLoop addr count (woken + 1) rest).unpark e.thread
    else (wakeLoop addr count woken rest).keep e

def wake (waiters : List (FutexWaiter τ)) (addr count : Nat) : Woke (FutexWaiter τ) τ :=
  wakeLoop addr count 0 waiters

/-- The first pass of `requeue`, which sets the flags and the addresses. -/
def requeueLoop (src dst wakeN moveN wk mv : Nat) : List (FutexWaiter τ) → Woke (FutexWaiter τ) τ
  | [] => ⟨[], [], wk⟩
  | e :: rest =>
    if e.addr = src then
      if wk < wakeN then
        ((requeueLoop src dst wakeN moveN (wk + 1) mv rest).keep {e with flag := true}).unpark e.thread
      else if mv < moveN then (requeueLoop src dst wakeN moveN wk (mv + 1) rest).keep {e with addr := dst}
      else (requeueLoop src dst wakeN moveN wk mv rest).keep e
    else (requeueLoop src dst wakeN moveN wk mv rest).keep e

/-- The second pass of `requeue`. -/
def retainUnflagged (w : Woke (FutexWaiter τ) τ) : Woke (FutexWaiter τ) τ :=
  {w with left := w.left.filter fun e => !e.flag}

def requeue (waiters : List (FutexWaiter τ)) (src dst wakeN moveN : Nat) : Woke (FutexWaiter τ) τ :=
  retainUnflagged (requeueLoop src dst wakeN moveN 0 0 waiters)

def pendingAt (waiters : List (FutexWaiter τ)) (addr : Nat) : Nat :=
  (waiters.filter fun e => e.addr = addr).length

end FutexBucket

/-! ### The table -/

namespace FutexTable

/-- The loop of `ftx_wake`; `none` where it does not end within `fuel` rounds. -/
def ftxWakeLoop (target limit : Nat) : Nat → List (Nat × τ) → Nat → Nat → List τ → Option (Woke (Nat × τ) τ)
  | 0, _, _, _, _ => none
  | fuel + 1, wq, cursor, wk, unparked =>
    if cursor < wq.length ∧ wk < limit then
      match wq[cursor]? with
      | none => none
      | some entry =>
        if entry.1 = target then
          ftxWakeLoop target limit fuel (wq.eraseIdx cursor) cursor (wk + 1) (unparked ++ [entry.2])
        else ftxWakeLoop target limit fuel wq (cursor + 1) wk unparked
    else some ⟨wq, unparked, wk⟩

def ftxWake (wq : List (Nat × τ)) (addr count : Nat) : Option (Woke (Nat × τ) τ) :=
  ftxWakeLoop addr count (wq.length + 1) wq 0 0 []

/-- The loop of `ftx_requeue`. -/
def ftxRequeueLoop (src dst wakeN moveN : Nat) :
    Nat → List (Nat × τ) → Nat → Nat → Nat → List τ → Option (Woke (Nat × τ) τ)
  | 0, _, _, _, _, _ => none
  | fuel + 1, wq, i, wk, mv, unparked =>
    if i < wq.length then
      match wq[i]? with
      | none => none
      | some entry =>
        if entry.1 = src then
          if wk < wakeN then
            ftxRequeueLoop src dst wakeN moveN fuel (wq.eraseIdx i) i (wk + 1) mv (unparked ++ [entry.2])
          else if mv < moveN then
            ftxRequeueLoop src dst wakeN moveN fuel (wq.set i (dst, entry.2)) (i + 1) wk (mv + 1) unparked
          else ftxRequeueLoop src dst wakeN moveN fuel wq (i + 1) wk mv unparked
        else ftxRequeueLoop src dst wakeN moveN fuel wq (i + 1) wk mv unparked
    else some ⟨wq, unparked, wk⟩

def ftxRequeue (wq : List (Nat × τ)) (src dst wakeN moveN : Nat) : Option (Woke (Nat × τ) τ) :=
  ftxRequeueLoop src dst wakeN moveN (wq.length + 1) wq 0 0 0 []

end FutexTable

/-! ### What can happen to an entry -/

inductive Fate where
  | kept
  | woken
  | moved
  deriving DecidableEq, Repr

/-- The entry that is left of one with this fate. -/
def Fate.left (dst : Nat) : (Nat × τ) × Fate → Option (Nat × τ)
  | (e, .kept) => some e
  | (_, .woken) => none
  | (e, .moved) => some (dst, e.2)

/-- The thread that is unparked for an entry with this fate. -/
def Fate.unparked : (Nat × τ) × Fate → Option τ
  | (e, .woken) => some e.2
  | _ => none

/-- What a section does that gives the entries these fates, after `wk` were woken. -/
def Woke.of (dst wk : Nat) (fated : List ((Nat × τ) × Fate)) : Woke (Nat × τ) τ :=
  ⟨fated.filterMap (Fate.left dst), fated.filterMap Fate.unparked, wk + fated.countP fun p => p.2 = .woken⟩

/-- Entries at `src` only are woken, at most `wakeN`, or moved, at most `moveN`. -/
structure Fates (src wakeN moveN : Nat) (q : List (Nat × τ)) (fated : List ((Nat × τ) × Fate)) : Prop where
  entries : fated.map Prod.fst = q
  atSrc : ∀ p ∈ fated, p.2 ≠ .kept → p.1.1 = src
  woken : fated.countP (fun p => p.2 = .woken) ≤ wakeN
  moved : fated.countP (fun p => p.2 = .moved) ≤ moveN

/-- The first `wakeN` entries at `src` are woken and the next `moveN` are moved; `wk` and `mv` were before. -/
def fates (src wakeN moveN wk mv : Nat) : List (Nat × τ) → List ((Nat × τ) × Fate)
  | [] => []
  | e :: rest =>
    if e.1 = src then
      if wk < wakeN then (e, .woken) :: fates src wakeN moveN (wk + 1) mv rest
      else if mv < moveN then (e, .moved) :: fates src wakeN moveN wk (mv + 1) rest
      else (e, .kept) :: fates src wakeN moveN wk mv rest
    else (e, .kept) :: fates src wakeN moveN wk mv rest

section Walk
variable {src wakeN moveN wakeN' moveN' wk mv : Nat}

theorem Fates.cons {q : List (Nat × τ)} {fated : List ((Nat × τ) × Fate)}
    (h : Fates src wakeN moveN q fated) {e : Nat × τ} {fate : Fate} (hsrc : fate ≠ .kept → e.1 = src)
    (hwakeN : wakeN + (if fate = .woken then 1 else 0) ≤ wakeN')
    (hmoveN : moveN + (if fate = .moved then 1 else 0) ≤ moveN') :
    Fates src wakeN' moveN' (e :: q) ((e, fate) :: fated) := by
  refine ⟨by rw [map_cons, h.entries], fun p hp => ?_, ?_, ?_⟩
  · rcases mem_cons.mp hp with hp | hp
    · rw [hp]
      exact hsrc
    · exact h.atSrc p hp
  · have := h.woken
    simp only [countP_cons, decide_eq_true_eq]
    omega
  · have := h.moved
    simp only [countP_cons, decide_eq_true_eq]
    omega

theorem fates_spec (wk mv : Nat) (q : List (Nat × τ)) :
    Fates src (wakeN - wk) (moveN - mv) q (fates src wakeN moveN wk mv q) := by
  induction q generalizing wk mv with
  | nil => exact ⟨rfl, fun p hp => absurd hp not_mem_nil, Nat.zero_le _, Nat.zero_le _⟩
  | cons e rest ih =>
    unfold fates
    split
    · next he =>
      split
      · exact (ih _ _).cons (fun _ => he) (by simp only [if_true]; omega) (by simp)
      · split
        · exact (ih _ _).cons (fun _ => he) (by simp) (by simp only [if_true]; omega)
        · exact (ih _ _).cons (fun _ => he) (by simp) (by simp)
    · exact (ih _ _).cons (fun h => absurd rfl h) (by simp) (by simp)

/-- Where nobody is to be woken or moved any more, all stay. -/
theorem fates_kept (hwk : ¬wk < wakeN) (hmv : ¬mv < moveN) (q : List (Nat × τ)) :
    fates src wakeN moveN wk mv q = q.map fun e => (e, .kept) := by
  induction q with
  | nil => rfl
  | cons e rest ih => rw [fates, if_neg hwk, if_neg hmv, ite_self, ih, map_cons]

end Walk

namespace Woke
variable {dst wk : Nat} {e : Nat × τ} {fated : List ((Nat × τ) × Fate)}

theorem of_kept : of dst wk ((e, .kept) :: fated) = (of dst wk fated).keep e := rfl

theorem of_moved : of dst wk ((e, .moved) :: fated) = (of dst wk fated).keep (dst, e.2) := rfl

theorem of_woken : of dst wk ((e, .woken) :: fated) = (of dst (wk + 1) fated).unpark e.2 := by
  simp only [of, unpark, filterMap_cons, Fate.left, Fate.unparked, countP_cons, decide_true, if_true]
  rw [Nat.add_comm _ 1, Nat.add_assoc]

theorem of_all_kept (q : List (Nat × τ)) : of dst wk (q.map fun e => (e, .kept)) = ⟨q, [], wk⟩ := by
  induction q with
  | nil => rfl
  | cons e rest ih => rw [map_cons, of_kept, ih, keep]

end Woke

/-! ### The passes of the bucket -/

/-- The queue with flags that are not set. -/
def unflagged (q : List (Nat × τ)) : List (FutexWaiter τ) := q.map fun e => ⟨e.1, e.2, false⟩

def Woke.unflagged (w : Woke (Nat × τ) τ) : Woke (FutexWaiter τ) τ := ⟨Sync.unflagged w.left, w.unparked, w.count⟩

namespace FutexBucket

theorem wakeLoop_eq (addr count woken : Nat) (q : List (Nat × τ)) :
    wakeLoop addr count woken (unflagged q) = (Woke.of addr woken (fates addr count 0 woken 0 q)).unflagged := by
  induction q generalizing woken with
  | nil => rfl
  | cons e rest ih =>
    show wakeLoop addr count woken (⟨e.1, e.2, false⟩ :: unflagged rest) = _
    rw [wakeLoop, fates]
    by_cases he : e.1 = addr
    · by_cases hwk : woken < count
      · rw [if_pos ⟨he, hwk⟩, if_pos he, if_pos hwk, Woke.of_woken, ih]
        rfl
      · rw [if_neg (fun h => hwk h.2), if_pos he, if_neg hwk, if_neg (Nat.lt_irrefl 0), Woke.of_kept, ih]
        rfl
    · rw [if_neg (fun h => he h.1), if_neg he, Woke.of_kept, ih]
      rfl

theorem requeueLoop_eq (src dst wakeN moveN wk mv : Nat) (q : List (Nat × τ)) :
    retainUnflagged (requeueLoop src dst wakeN moveN wk mv (unflagged q)) =
      (Woke.of dst wk (fates src wakeN moveN wk mv q)).unflagged := by
  induction q generalizing wk mv with
  | nil => rfl
  | cons e rest ih =>
    show retainUnflagged (requeueLoop src dst wakeN moveN wk mv (⟨e.1, e.2, false⟩ :: unflagged rest)) = _
    rw [requeueLoop, fates]
    by_cases he : e.1 = src
    · rw [if_pos he, if_pos he]
      by_cases hwk : wk < wakeN
      · rw [if_pos hwk, if_pos hwk, Woke.of_woken]
        exact congrArg (Woke.unpark e.2) (ih (wk + 1) mv)
      · rw [if_neg hwk, if_neg hwk]
        by_cases hmv : mv < moveN
        · rw [if_pos hmv, if_pos hmv, Woke.of_moved]
          exact congrArg (Woke.keep ⟨dst, e.2, false⟩) (ih wk (mv + 1))
        · rw [if_neg hmv, if_neg hmv, Woke.of_kept]
          exact congrArg (Woke.keep ⟨e.1, e.2, false⟩) (ih wk mv)
    · rw [if_neg he, if_neg he, Woke.of_kept]
      exact congrArg (Woke.keep ⟨e.1, e.2, false⟩) (ih wk mv)

end FutexBucket

/-! ### The loops of the table -/

section Cursor
variable {α : Type} (seen rest : List α) (e : α)

theorem getElem?_cursor : (seen ++ e :: rest)[seen.length]? = some e := by
  rw [getElem?_append_right (Nat.le_refl _), Nat.sub_self, getElem?_cons_zero]

theorem eraseIdx_cursor : (seen ++ e :: rest).eraseIdx seen.length = seen ++ rest := by
  rw [eraseIdx_append_of_length_le (Nat.le_refl _), Nat.sub_self, eraseIdx_cons_zero]

theorem set_cursor (e' : α) : (seen ++ e :: rest).set seen.length e' = seen ++ e' :: rest := by
  rw [set_append_right _ _ (Nat.le_refl _), Nat.sub_self, set_cons_zero]

theorem cursor_lt : seen.length < (seen ++ e :: rest).length := by
  rw [length_append, length_cons]
  omega

end Cursor

/-- The section's effect on the rest of a queue, behind what was walked over. -/
def Woke.behind (seen : List (Nat × τ)) (unparked : List τ) (w : Woke (Nat × τ) τ) : Woke (Nat × τ) τ :=
  ⟨seen ++ w.left, unparked ++ w.unparked, w.count⟩

theorem Woke.behind_keep (seen : List (Nat × τ)) (unparked : List τ) (e : Nat × τ) (w : Woke (Nat × τ) τ) :
    behind seen unparked (w.keep e) = behind (seen ++ [e]) unparked w := by
  simp only [behind, keep, append_assoc, singleton_append]

theorem Woke.behind_unpark (seen : List (Nat × τ)) (unparked : List τ) (t : τ) (w : Woke (Nat × τ) τ) :
    behind seen unparked (w.unpark t) = behind seen (unparked ++ [t]) w := by
  simp only [behind, unpark, append_assoc, singleton_append]

theorem Woke.behind_end (seen : List (Nat × τ)) (unparked : List τ) (wk : Nat) :
    behind seen unparked ⟨[], [], wk⟩ = ⟨seen ++ [], unparked, wk⟩ := by
  simp only [behind, append_nil]

namespace FutexTable

variable {fuel : Nat}

theorem ftxWakeLoop_eq (target limit : Nat) (wk : Nat) (seen q : List (Nat × τ)) (unparked : List τ)
    (hfuel : q.length < fuel) :
    ftxWakeLoop target limit fuel (seen ++ q) seen.length wk unparked =
      some ((Woke.of target wk (fates target limit 0 wk 0 q)).behind seen unparked) := by
  induction fuel generalizing wk seen q unparked with
  | zero => omega
  | succ fuel ih =>
    rw [ftxWakeLoop]
    by_cases hwk : wk < limit
    · cases q with
      | nil =>
        rw [if_neg (by simp), ← Woke.behind_end]
        rfl
      | cons e rest =>
        have hrest : rest.length < fuel := Nat.lt_of_succ_lt_succ hfuel
        rw [if_pos ⟨cursor_lt seen rest e, hwk⟩, getElem?_cursor, fates]
        by_cases he : e.1 = target
        · simp only [he, if_true, if_pos hwk, eraseIdx_cursor]
          rw [ih _ _ _ _ hrest, Woke.of_woken, Woke.behind_unpark]
        · simp only [he, if_false]
          have := ih wk (seen ++ [e]) rest unparked hrest
          rw [append_assoc, singleton_append, length_append] at this
          rw [Woke.of_kept, Woke.behind_keep, ← this]
          rfl
    · rw [if_neg fun h => hwk h.2, fates_kept hwk (Nat.lt_irrefl 0), Woke.of_all_kept]
      simp only [Woke.behind, append_nil]

theorem ftxRequeueLoop_eq (src dst wakeN moveN : Nat) (wk mv : Nat) (seen q : List (Nat × τ))
    (unparked : List τ) (hfuel : q.length < fuel) :
    ftxRequeueLoop src dst wakeN moveN fuel (seen ++ q) seen.length wk mv unparked =
      some ((Woke.of dst wk (fates src wakeN moveN wk mv q)).behind seen unparked) := by
  induction fuel generalizing wk mv seen q unparked with
  | zero => omega
  | succ fuel ih =>
    rw [ftxRequeueLoop]
    cases q with
    | nil =>
      rw [if_neg (by simp), ← Woke.behind_end]
      rfl
    | cons e rest =>
      have hrest : rest.length < fuel := Nat.lt_of_succ_lt_succ hfuel
      have hnext : ∀ (e' : Nat × τ) mv,
          ftxRequeueLoop src dst wakeN moveN fuel (seen ++ e' :: rest) (seen.length + 1) wk mv unparked =
            some ((Woke.of dst wk (fates src wakeN moveN wk mv rest)).behind (seen ++ [e']) unparked) := by
        intro e' mv
        have := ih wk mv (seen ++ [e']) rest unparked hrest
        rw [append_assoc, singleton_append, length_append] at this
        exact this
      rw [if_pos (cursor_lt seen rest e), getElem?_cursor, fates]
      by_cases he : e.1 = src
      · simp only [he, if_true]
        by_cases hwk : wk < wakeN
        · simp only [if_pos hwk, eraseIdx_cursor]
          rw [ih _ _ _ _ _ hrest, Woke.of_woken, Woke.behind_unpark]
        · simp only [if_neg hwk]
          by_cases hmv : mv < moveN
          · simp only [if_pos hmv, set_cursor]
            rw [hnext, Woke.of_moved, Woke.behind_keep]
          · simp only [if_neg hmv]
            rw [hnext, Woke.of_kept, Woke.behind_keep]
      · simp only [he, if_false]
        rw [hnext, Woke.of_kept, Woke.behind_keep]

end FutexTable

/-- **The two futexes do the same to every queue: they wake the same threads in the same order, return how many
and leave the same queue, and they wake and move no more entries than they may and touch no others.** -/
theorem futexes_agree (q : List (Nat × τ)) :
    (∀ addr count, ∃ fated, Fates addr count 0 q fated ∧
      FutexTable.ftxWake q addr count = some (Woke.of addr 0 fated) ∧
      FutexBucket.wake (unflagged q) addr count = (Woke.of addr 0 fated).unflagged) ∧
    ∀ src dst wakeN moveN, ∃ fated, Fates src wakeN moveN q fated ∧
      FutexTable.ftxRequeue q src dst wakeN moveN = some (Woke.of dst 0 fated) ∧
      FutexBucket.requeue (unflagged q) src dst wakeN moveN = (Woke.of dst 0 fated).unflagged :=
  ⟨fun addr count => ⟨fates addr count 0 0 0 q, fates_spec 0 0 q,
      FutexTable.ftxWakeLoop_eq addr count 0 [] q [] (Nat.lt_succ_self _), FutexBucket.wakeLoop_eq addr count 0 q⟩,
    fun src dst wakeN moveN => ⟨fates src wakeN moveN 0 0 q, fates_spec 0 0 q,
      FutexTable.ftxRequeueLoop_eq src dst wakeN moveN 0 0 [] q [] (Nat.lt_succ_self _),
      FutexBucket.requeueLoop_eq src dst wakeN moveN 0 0 q⟩⟩

end ChaosKernel.Sync
