import ChaosKernel.Base.Run
import ChaosKernel.Base.Words
import ChaosKernel.Memory.CircBuf

/-! The circular buffer as a bounded queue, from any position of its counters on.

The counters are words and wrap round, and the cell of a counter is its remainder
by the capacity. Unless the capacity divides `2^64`, the cells do not go on in
their order where a counter wraps, and two bytes of the queue may fall into one
cell. `RingWorld` keeps the queue that the calls ask for beside the buffer; the
buffer gives the answers of that queue exactly as long as no byte is written over
a different one (`RingWorld.fifo_iff`). -/
namespace ChaosKernel.Memory
open Base List

namespace CircBuf

/-- `c - r` panics where the positions are further apart than the capacity. -/
def withPos (c r w : Nat) : Option CircBuf :=
  if r ≤ w then some ⟨List.replicate c 0, r, w, c, w - r⟩
  else (sub? c r).map fun d => ⟨List.replicate c 0, r, w, c, d + w⟩

def peek (ring : CircBuf) : Option UInt8 :=
  if 0 < ring.n then ring.data[wrappingAdd ring.rd 1 % ring.cap]? else none

def drainLoop : Nat → Bytes → CircBuf → Bytes × CircBuf
  | 0, dst, ring => (dst, ring)
  | take + 1, dst, ring =>
    match ring.pop with
    | (some b, ring) => drainLoop take (dst ++ [b]) ring
    | (none, ring) => drainLoop take dst ring

/-- The number of bytes, and the destination with them. -/
def drainTo (ring : CircBuf) (dst : Bytes) (max : Nat) : Nat × Bytes × CircBuf :=
  let take := min max ring.n
  (take, drainLoop take dst ring)

def fillFrom (ring : CircBuf) (src : Bytes) : Nat × CircBuf := pushAll src ring

/-! ### Calls and answers -/

inductive RingCall where
  | push (v : UInt8)
  | pop
  | peek
  | drainTo (dst : Bytes) (max : Nat)
  | fillFrom (src : Bytes)
  deriving DecidableEq, Repr

inductive RingAnswer where
  | accepted (ok : Bool)
  | byte (v : Option UInt8)
  | drained (take : Nat) (dst : Bytes)
  | written (count : Nat)
  deriving DecidableEq, Repr

def call (ring : CircBuf) : RingCall → RingAnswer × CircBuf
  | .push v => (.accepted (ring.push v).1, (ring.push v).2)
  | .pop => (.byte ring.pop.1, ring.pop.2)
  | .peek => (.byte ring.peek, ring)
  | .drainTo dst max =>
    (.drained (ring.drainTo dst max).1 (ring.drainTo dst max).2.1, (ring.drainTo dst max).2.2)
  | .fillFrom src => (.written (ring.fillFrom src).1, (ring.fillFrom src).2)

/-- The same call on a queue of bytes that holds at most `cap` of them. -/
def queueCall (cap : Nat) (q : Bytes) : RingCall → RingAnswer × Bytes
  | .push v => (.accepted (decide (q.length < cap)), q ++ [v].take (cap - q.length))
  | .pop => (.byte q.head?, q.tail)
  | .peek => (.byte q.head?, q)
  | .drainTo dst max => (.drained (min max q.length) (dst ++ q.take max), q.drop max)
  | .fillFrom src => (.written (min src.length (cap - q.length)), q ++ src.take (cap - q.length))

/-- The bytes that a call offers. -/
def RingCall.offers : RingCall → Bytes
  | .push v => [v]
  | .fillFrom src => src
  | _ => []

/-- The cell of a counter. -/
def cell (cap counter : Nat) : Nat := counter % wordSize % cap

/-! ### The counters -/

/-- The counters are words, `n` apart. -/
structure Counts (ring : CircBuf) : Prop where
  sized : ring.Sized
  rd : ring.rd < wordSize
  wr : ring.wr = (ring.rd + ring.n) % wordSize

theorem cell_mod_add (cap a i : Nat) : cell cap (a % wordSize + i) = cell cap (a + i) := by
  rw [cell, cell, Nat.mod_add_mod]

variable {ring : CircBuf} {q : Bytes}

theorem Counts.cell_lt (h : ring.Counts) (k : Nat) : cell ring.cap k < ring.data.length := by
  rw [h.sized.length]
  exact Nat.mod_lt _ h.sized.pos

theorem Counts.push_eq (h : ring.Counts) (v : UInt8) :
    ring.push v = if ring.n < ring.cap then
      (true, {ring with data := ring.data.set (cell ring.cap (ring.rd + 1 + ring.n)) v
                        wr := (ring.rd + (ring.n + 1)) % wordSize
                        n := ring.n + 1})
      else (false, ring) := by
  have hwr : wrappingAdd ring.wr 1 = (ring.rd + (ring.n + 1)) % wordSize := by
    rw [wrappingAdd, h.wr, Nat.mod_add_mod, Nat.add_assoc]
  have hcell : (ring.rd + (ring.n + 1)) % wordSize % ring.cap = cell ring.cap (ring.rd + 1 + ring.n) := by
    rw [cell, Nat.add_assoc, Nat.add_comm 1]
  have hlt := h.cell_lt (ring.rd + 1 + ring.n)
  unfold push
  by_cases hroom : ring.n < ring.cap
  · rw [if_pos hroom, if_neg (by omega)]
    simp only [hwr, hcell]
    rw [if_neg (by omega)]
  · rw [if_neg hroom, if_pos (by omega)]

theorem Counts.push (h : ring.Counts) (v : UInt8) : (ring.push v).2.Counts := by
  rw [h.push_eq]
  split
  · next hroom =>
    refine ⟨⟨h.sized.pos, ?_, hroom⟩, h.rd, rfl⟩
    rw [length_set]
    exact h.sized.length
  · exact h

theorem Counts.pop_pos (h : ring.Counts) (hpos : 0 < ring.n) :
    ring.pop = (ring.data[cell ring.cap (ring.rd + 1)]?,
      {ring with rd := (ring.rd + 1) % wordSize, n := ring.n - 1}) := by
  have hlt := h.cell_lt (ring.rd + 1)
  have hidx : wrappingAdd ring.rd 1 % ring.cap = cell ring.cap (ring.rd + 1) := rfl
  unfold CircBuf.pop
  rw [if_pos hpos]
  simp only [hidx, getElem?_eq_getElem hlt]
  rfl

theorem pop_zero (h : ring.n = 0) : ring.pop = (none, ring) := by
  unfold CircBuf.pop
  rw [if_neg (by omega)]

theorem pop_cap (ring : CircBuf) : ring.pop.2.cap = ring.cap := by
  unfold CircBuf.pop
  by_cases hpos : 0 < ring.n
  · rw [if_pos hpos]
    cases hcell : ring.data[wrappingAdd ring.rd 1 % ring.cap]? <;> simp only [hcell]
  · rw [if_neg hpos]

theorem Counts.pop (h : ring.Counts) : ring.pop.2.Counts := by
  by_cases hpos : 0 < ring.n
  · have hle := h.sized.le
    rw [h.pop_pos hpos]
    refine ⟨⟨h.sized.pos, h.sized.length, by simp only; omega⟩, Nat.mod_lt _ (by decide), ?_⟩
    rw [Nat.mod_add_mod, h.wr, Nat.add_assoc, Nat.add_sub_cancel' hpos]
  · rw [pop_zero (by omega)]
    exact h

/-! ### What the cells hold -/

/-- The bytes in the cells, in the order in which they come out. -/
structure Holds (ring : CircBuf) (q : Bytes) : Prop where
  counts : ring.Counts
  n : ring.n = q.length
  cells : InCells (cell ring.cap) ring.data (ring.rd + 1) q

theorem Counts.holds (h : ring.Counts) : ∃ q, ring.Holds q := by
  obtain ⟨q, hlength, hcells⟩ := exists_inCells h.cell_lt (ring.rd + 1) ring.n
  exact ⟨q, h, hlength.symm, hcells⟩

theorem Holds.pop_cons {b : UInt8} (h : ring.Holds (b :: q)) :
    ring.pop.1 = some b ∧ ring.pop.2.Holds q := by
  have hn := h.n
  rw [length_cons] at hn
  obtain ⟨hcell, hrest⟩ := h.cells.pop
  have hcounts := h.counts.pop
  rw [h.counts.pop_pos (by omega)] at hcounts ⊢
  refine ⟨hcell, hcounts, Nat.sub_eq_of_eq_add hn, fun i hi => ?_⟩
  rw [Nat.add_assoc, cell_mod_add, ← hrest i hi]
  congr 2
  omega

theorem Holds.pop_nil (h : ring.Holds []) : ring.pop = (none, ring) := pop_zero h.n

theorem Holds.peek_eq (h : ring.Holds q) : ring.peek = q.head? := by
  have hn := h.n
  cases q with
  | nil => exact if_neg (by rw [hn]; exact Nat.lt_irrefl 0)
  | cons b q =>
    rw [length_cons] at hn
    rw [peek, if_pos (by omega)]
    exact h.cells.pop.1

theorem Holds.drainLoop (h : ring.Holds q) (dst : Bytes) {take : Nat} (hle : take ≤ q.length) :
    (CircBuf.drainLoop take dst ring).1 = dst ++ q.take take ∧
      (CircBuf.drainLoop take dst ring).2.Holds (q.drop take) := by
  induction take generalizing ring q dst with
  | zero => exact ⟨by rw [take_zero, append_nil]; rfl, h⟩
  | succ take ih =>
    cases q with
    | nil => exact absurd hle (Nat.not_succ_le_zero take)
    | cons b q =>
      obtain ⟨hbyte, hrest⟩ := h.pop_cons
      have hpop : ring.pop = (some b, ring.pop.2) := Prod.ext hbyte rfl
      obtain ⟨hdst, hleft⟩ := ih hrest (dst ++ [b]) (Nat.le_of_succ_le_succ hle)
      rw [CircBuf.drainLoop, hpop]
      exact ⟨by rw [hdst, append_assoc]; rfl, hleft⟩

theorem Holds.drainTo (h : ring.Holds q) (dst : Bytes) (max : Nat) :
    (ring.drainTo dst max).1 = min max q.length ∧ (ring.drainTo dst max).2.1 = dst ++ q.take max ∧
      (ring.drainTo dst max).2.2.Holds (q.drop max) := by
  have hle : min max ring.n ≤ q.length := by
    rw [h.n]
    exact Nat.min_le_right _ _
  obtain ⟨hdst, hleft⟩ := h.drainLoop dst hle
  refine ⟨by rw [CircBuf.drainTo, h.n], ?_, ?_⟩
  · rw [CircBuf.drainTo, hdst, h.n, ← take_eq_take_min]
  · rw [CircBuf.drainTo]
    rw [h.n] at hleft ⊢
    by_cases hmax : max ≤ q.length
    · rwa [Nat.min_eq_left hmax] at hleft ⊢
    · rw [Nat.min_eq_right (by omega), drop_length] at hleft
      rwa [Nat.min_eq_right (by omega), drop_eq_nil_of_le (by omega)]

/-- A byte that falls on an equal one, or on none of the queue, joins the queue. -/
theorem Holds.push (h : ring.Holds q) (hroom : q.length < ring.cap) {v : UInt8}
    (hclash : NoClash (cell ring.cap) (ring.rd + 1) (q ++ [v])) : (ring.push v).2.Holds (q ++ [v]) := by
  have hcounts := h.counts.push v
  rw [h.counts.push_eq, if_pos (by rw [h.n]; exact hroom)] at hcounts ⊢
  refine ⟨hcounts, by rw [length_append, length_singleton, ← h.n], ?_⟩
  simp only [h.n]
  exact h.cells.push (h.counts.cell_lt _) hclash

/-! ### Filling -/

theorem push_frame (ring : CircBuf) (v : UInt8) : (ring.push v).2.cap = ring.cap ∧ (ring.push v).2.rd = ring.rd := by
  unfold push
  by_cases hfull : ring.cap ≤ ring.n
  · rw [if_pos hfull]
    exact ⟨rfl, rfl⟩
  · rw [if_neg hfull]
    simp only [apply_ite Prod.snd, apply_ite CircBuf.cap, apply_ite CircBuf.rd, ite_self, and_self]

theorem pushAll_frame (vs : Bytes) (ring : CircBuf) :
    (pushAll vs ring).2.cap = ring.cap ∧ (pushAll vs ring).2.rd = ring.rd := by
  induction vs generalizing ring with
  | nil => exact ⟨rfl, rfl⟩
  | cons v rest ih =>
    obtain ⟨hcap, hrd⟩ := push_frame ring v
    rw [pushAll]
    rcases hpush : ring.push v with ⟨_ | _, next⟩
    · rw [hpush] at hcap hrd
      exact ⟨hcap, hrd⟩
    · rw [hpush] at hcap hrd
      exact ⟨(ih next).1.trans hcap, (ih next).2.trans hrd⟩

theorem Counts.pushAll (h : ring.Counts) (vs : Bytes) :
    (CircBuf.pushAll vs ring).2.Counts ∧ (CircBuf.pushAll vs ring).1 = min vs.length (ring.cap - ring.n) ∧
      (CircBuf.pushAll vs ring).2.n = ring.n + min vs.length (ring.cap - ring.n) := by
  have hle := h.sized.le
  induction vs generalizing ring with
  | nil => exact ⟨h, (Nat.zero_min _).symm, by rw [length_nil, Nat.zero_min]; rfl⟩
  | cons v rest ih =>
    have hnext := h.push v
    rw [CircBuf.pushAll]
    rw [h.push_eq] at hnext ⊢
    by_cases hroom : ring.n < ring.cap
    · rw [if_pos hroom] at hnext ⊢
      obtain ⟨hcounts, hwritten, hn⟩ := ih hnext hnext.sized.le
      simp only [length_cons] at hwritten hn ⊢
      exact ⟨hcounts, by omega, by omega⟩
    · have hzero : min (v :: rest).length (ring.cap - ring.n) = 0 := by omega
      rw [if_neg hroom, hzero]
      exact ⟨h, rfl, rfl⟩

theorem Holds.pushAll (h : ring.Holds q) (vs : Bytes)
    (hclash : NoClash (cell ring.cap) (ring.rd + 1) (q ++ vs.take (ring.cap - q.length))) :
    (CircBuf.pushAll vs ring).2.Holds (q ++ vs.take (ring.cap - q.length)) := by
  induction vs generalizing ring q with
  | nil =>
    rw [take_nil, append_nil]
    exact h
  | cons v rest ih =>
    rw [CircBuf.pushAll]
    by_cases hroom : q.length < ring.cap
    · have htake : (v :: rest).take (ring.cap - q.length) = v :: rest.take (ring.cap - (q ++ [v]).length) := by
        rw [take_cons (by omega), length_append, length_singleton, Nat.sub_sub]
      rw [htake, append_cons] at hclash ⊢
      obtain ⟨hcap, hrd⟩ := push_frame ring v
      have hnext := h.push hroom hclash.of_append
      have hpush : ring.push v = (true, (ring.push v).2) := by
        rw [h.counts.push_eq, if_pos (by rw [h.n]; exact hroom)]
      rw [← hcap, ← hrd] at hclash
      have hrest := ih hnext hclash
      rw [hcap] at hrest
      rw [hpush]
      exact hrest
    · rw [h.counts.push_eq, if_neg (by rw [h.n]; exact hroom), Nat.sub_eq_zero_of_le (by omega), take_zero,
        append_nil]
      exact h

/-! ### One call -/

theorem drainLoop_cap (take : Nat) (dst : Bytes) (ring : CircBuf) : (drainLoop take dst ring).2.cap = ring.cap := by
  induction take generalizing dst ring with
  | zero => rfl
  | succ take ih =>
    have hcap := pop_cap ring
    rw [drainLoop]
    rcases hpop : ring.pop with ⟨_ | b, next⟩
    · rw [hpop] at hcap
      exact (ih dst next).trans hcap
    · rw [hpop] at hcap
      exact (ih _ next).trans hcap

theorem call_cap (ring : CircBuf) (c : RingCall) : (ring.call c).2.cap = ring.cap := by
  cases c with
  | push v => exact (push_frame ring v).1
  | pop => exact pop_cap ring
  | peek => rfl
  | drainTo dst max => exact drainLoop_cap _ dst ring
  | fillFrom src => exact (pushAll_frame src ring).1

theorem Counts.call (h : ring.Counts) (hn : ring.n = q.length) (c : RingCall) :
    (ring.call c).2.Counts ∧ (ring.call c).2.n = (queueCall ring.cap q c).2.length := by
  obtain ⟨held, hheld⟩ := h.holds
  have hlength : held.length = q.length := hheld.n.symm.trans hn
  cases c with
  | push v =>
    refine ⟨h.push v, ?_⟩
    rw [CircBuf.call, h.push_eq, queueCall, length_append, length_take, length_singleton, ← hn]
    split
    · simp only
      omega
    · simp only
      omega
  | pop =>
    refine ⟨h.pop, ?_⟩
    rw [CircBuf.call, queueCall, length_tail, ← hlength]
    cases held with
    | nil => rw [hheld.pop_nil]; exact hheld.n
    | cons b held => exact hheld.pop_cons.2.n
  | peek => exact ⟨h, hn⟩
  | drainTo dst max =>
    have hleft := (hheld.drainTo dst max).2.2
    refine ⟨hleft.counts, ?_⟩
    rw [CircBuf.call, queueCall, length_drop, hleft.n, length_drop, hlength]
  | fillFrom src =>
    obtain ⟨hcounts, _, hcount⟩ := h.pushAll src
    refine ⟨hcounts, ?_⟩
    rw [CircBuf.call, fillFrom, queueCall, length_append, length_take, hcount, hn, Nat.min_comm]

theorem Holds.answer (h : ring.Holds q) (c : RingCall) : (ring.call c).1 = (queueCall ring.cap q c).1 := by
  cases c with
  | push v =>
    rw [CircBuf.call, h.counts.push_eq, queueCall, h.n]
    split
    · next hroom => rw [decide_eq_true hroom]
    · next hfull => rw [decide_eq_false hfull]
  | pop =>
    cases q with
    | nil => rw [CircBuf.call, h.pop_nil]; rfl
    | cons b q => rw [CircBuf.call, h.pop_cons.1]; rfl
  | peek => rw [CircBuf.call, h.peek_eq]; rfl
  | drainTo dst max =>
    obtain ⟨htake, hdst, _⟩ := h.drainTo dst max
    rw [CircBuf.call, htake, hdst]
    rfl
  | fillFrom src =>
    rw [CircBuf.call, fillFrom, (h.counts.pushAll src).2.1, h.n]
    rfl

theorem Holds.call (h : ring.Holds q) {c : RingCall}
    (hclash : NoClash (cell ring.cap) (ring.rd + 1) (q ++ c.offers.take (ring.cap - q.length))) :
    (ring.call c).2.Holds (queueCall ring.cap q c).2 := by
  cases c with
  | push v =>
    have hall := h.pushAll [v] hclash
    have hone : (CircBuf.pushAll [v] ring).2 = (ring.push v).2 := by
      rw [CircBuf.pushAll]
      rcases ring.push v with ⟨_ | _, next⟩ <;> rfl
    rwa [hone] at hall
  | pop =>
    cases q with
    | nil => rw [CircBuf.call, h.pop_nil]; exact h
    | cons b q => exact h.pop_cons.2
  | peek => exact h
  | drainTo dst max => exact (h.drainTo dst max).2.2
  | fillFrom src => exact h.pushAll src hclash

end CircBuf

/-! ### Runs -/

/-- The buffer, and the queue that the calls ask for. -/
structure RingWorld where
  ring : CircBuf
  q : Bytes

namespace RingWorld
open CircBuf

def step (w : RingWorld) (c : RingCall) : RingWorld := ⟨(w.ring.call c).2, (queueCall w.ring.cap w.q c).2⟩

def system : System RingWorld RingCall := ⟨fun w c => some (w.step c)⟩

/-- `len` and the answer of any call are the queue's. -/
def Agrees (w : RingWorld) : Prop :=
  w.ring.n = w.q.length ∧ ∀ c, (w.ring.call c).1 = (queueCall w.ring.cap w.q c).1

/-- No byte that the call adds falls into the cell of a different byte that is still in the queue. -/
def Free (w : RingWorld) (c : RingCall) : Prop :=
  NoClash (cell w.ring.cap) (w.ring.rd + 1) (w.q ++ c.offers.take (w.ring.cap - w.q.length))

/-- What a run keeps in any case. -/
def Counted (w : RingWorld) : Prop := w.ring.Counts ∧ w.ring.n = w.q.length

variable {w t : RingWorld} {c : RingCall}

theorem Counted.step (h : w.Counted) (c : RingCall) : (w.step c).Counted := h.1.call h.2 c

/-- A buffer that answers like the queue holds it: draining shows all of it. -/
theorem Counted.agrees_iff (h : w.Counted) : w.Agrees ↔ w.ring.Holds w.q := by
  constructor
  · intro hagrees
    obtain ⟨held, hheld⟩ := h.1.holds
    have hlength : held.length = w.q.length := hheld.n.symm.trans h.2
    have hall := hagrees.2 (.drainTo [] w.q.length)
    rw [hheld.answer] at hall
    simp only [queueCall, nil_append, RingAnswer.drained.injEq] at hall
    have heq := hall.2
    rw [take_length, ← hlength, take_length] at heq
    rwa [← heq]
  · intro hholds
    exact ⟨h.2, hholds.answer⟩

theorem free_of_holds (h : w.ring.Holds w.q) (hnext : (w.step c).ring.Holds (w.step c).q) : w.Free c := by
  have hstays : NoClash (cell w.ring.cap) (w.ring.rd + 1) (w.q ++ [].take (w.ring.cap - w.q.length)) := by
    rw [take_nil, append_nil]
    exact h.cells.noClash
  cases c with
  | push v =>
    obtain ⟨hcap, hrd⟩ := push_frame w.ring v
    have hclash := hnext.cells.noClash
    rwa [show (w.step (.push v)).ring.cap = w.ring.cap from hcap,
      show (w.step (.push v)).ring.rd = w.ring.rd from hrd] at hclash
  | pop => exact hstays
  | peek => exact hstays
  | drainTo dst max => exact hstays
  | fillFrom src =>
    obtain ⟨hcap, hrd⟩ := pushAll_frame src w.ring
    have hclash := hnext.cells.noClash
    rwa [show (w.step (.fillFrom src)).ring.cap = w.ring.cap from hcap,
      show (w.step (.fillFrom src)).ring.rd = w.ring.rd from hrd] at hclash

theorem step_eq (h : system.step w c = some t) : t = w.step c :=
  (Option.some.inj h).symm

variable {cap p : Nat}

theorem holds_withPos (hcap : 1 ≤ cap) (hp : p < wordSize) :
    ∃ ring, withPos cap p p = some ring ∧ ring.Holds [] := by
  refine ⟨⟨List.replicate cap 0, p, p, cap, p - p⟩, if_pos le_rfl, ⟨⟨hcap, length_replicate, ?_⟩, hp, ?_⟩, ?_,
    fun i hi => absurd hi (Nat.not_lt_zero i)⟩
  · rw [Nat.sub_self]
    exact Nat.zero_le _
  · rw [Nat.sub_self, Nat.add_zero, Nat.mod_eq_of_lt hp]
  · exact Nat.sub_self p

theorem always_iff_free {ring : CircBuf} (hholds : ring.Holds []) (calls : List RingCall) :
    system.Always Agrees ⟨ring, []⟩ calls ↔ system.Guarded Free ⟨ring, []⟩ calls := by
  refine System.always_iff_guarded_of_keeps (J := Counted) (I := fun w => w.ring.Holds w.q)
    ?_ ?_ ?_ ?_ ⟨hholds.counts, hholds.n⟩ hholds
  · intro w c t h hstep
    rw [step_eq hstep]
    exact h.step c
  · intro w c t h hfree hstep
    rw [step_eq hstep]
    exact h.call hfree
  · intro w h
    exact (Counted.agrees_iff ⟨h.counts, h.n⟩).mpr h
  · intro w c t h hagrees hstep hnext
    have hcounted := h.step c
    rw [step_eq hstep] at hnext
    exact free_of_holds (h.agrees_iff.mp hagrees) (hcounted.agrees_iff.mp hnext)

/-- **From any position of the counters, the buffer is a bounded queue as long as no byte falls into the
cell of a different byte that is still in the queue, and only as long.** -/
theorem fifo_iff (cap p : Nat) (hcap : 1 ≤ cap) (hp : p < wordSize) (calls : List RingCall) :
    ∃ ring, withPos cap p p = some ring ∧
      (system.Always Agrees ⟨ring, []⟩ calls ↔ system.Guarded Free ⟨ring, []⟩ calls) := by
  obtain ⟨ring, hring, hholds⟩ := holds_withPos hcap hp
  exact ⟨ring, hring, always_iff_free hholds calls⟩

theorem fifo_iff_wrapping : ∃ ring, withPos 4 (2 ^ 64 - 2) (2 ^ 64 - 2) = some ring ∧
    (system.Always Agrees ⟨ring, []⟩ [.push 1, .fillFrom [2, 3], .pop] ↔
      system.Guarded Free ⟨ring, []⟩ [.push 1, .fillFrom [2, 3], .pop]) :=
  fifo_iff 4 (2 ^ 64 - 2) (by decide) (by decide) _

/-- With three cells, the bytes before and after the counter wraps have the same one. -/
theorem byte_overwritten : ∃ ring w, withPos 3 (2 ^ 64 - 2) (2 ^ 64 - 2) = some ring ∧
    system.run ⟨ring, []⟩ [.push 1, .push 2] = some w ∧ w.q = [1, 2] ∧ w.ring.n = 2 ∧
      (w.ring.call .pop).1 = .byte (some 2) ∧ ¬w.Agrees := by
  refine ⟨_, _, rfl, rfl, rfl, rfl, by decide +kernel, fun hagrees => ?_⟩
  exact absurd (hagrees.2 .pop) (by decide +kernel)

/-! ### Where no two places share a cell -/

theorem free_of_inj (h : w.Counted)
    (hinj : ∀ i j, i < j → j < w.ring.cap →
    cell w.ring.cap (w.ring.rd + 1 + i) ≠ cell w.ring.cap (w.ring.rd + 1 + j)) (c : RingCall) : w.Free c := by
  have hle := h.1.sized.le
  rw [h.2] at hle
  intro i hi j hj hcell
  rw [length_append, length_take] at hi hj
  rcases Nat.lt_trichotomy i j with hlt | heq | hlt
  · exact absurd hcell (hinj i j hlt (by omega))
  · rw [heq]
  · exact absurd hcell.symm (hinj j i hlt (by omega))

/-- With a capacity that divides `2^64`, in particular a power of two, the wrap does no harm. -/
theorem fifo_of_dvd (hcap : 1 ≤ cap) (hp : p < wordSize) (hdvd : cap ∣ wordSize) (calls : List RingCall) :
    ∃ ring, withPos cap p p = some ring ∧ system.Always Agrees ⟨ring, []⟩ calls := by
  obtain ⟨ring, hring, hholds⟩ := holds_withPos hcap hp
  have hstart : ring.cap = cap := by
    rw [withPos, if_pos le_rfl] at hring
    exact (congrArg CircBuf.cap (Option.some.inj hring)).symm
  refine ⟨ring, hring, (always_iff_free hholds calls).mpr fun done c w u _ hrun _ => ?_⟩
  have hkept : w.Counted ∧ w.ring.cap = cap := by
    refine System.invariant_run (I := fun w => w.Counted ∧ w.ring.cap = cap) ?_ ⟨⟨hholds.counts, hholds.n⟩, hstart⟩ hrun
    intro s a t hs hstep
    rw [step_eq hstep]
    exact ⟨hs.1.step a, (call_cap s.ring a).trans hs.2⟩
  refine free_of_inj hkept.1 (fun i j hij hj => ?_) c
  rw [cell, cell, hkept.2, Nat.mod_mod_of_dvd _ hdvd, Nat.mod_mod_of_dvd _ hdvd]
  rw [hkept.2] at hj
  exact InRing.index_ne hij (by omega)

theorem fifo_of_dvd_wrapping : ∃ ring, withPos 4 (2 ^ 64 - 2) (2 ^ 64 - 2) = some ring ∧
    system.Always Agrees ⟨ring, []⟩ [.push 1, .fillFrom [2, 3], .pop] :=
  fifo_of_dvd (by decide) (by decide) (by decide) _

end RingWorld
end ChaosKernel.Memory
