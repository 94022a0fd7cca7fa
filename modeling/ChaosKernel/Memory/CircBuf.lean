import ChaosKernel.Base.Ring
import ChaosKernel.Base.Rust

/-! The circular byte buffer.

`wr` and `rd` count the bytes that were pushed and popped, as words that wrap
round, and `n` is the number in between. As long as fewer than `2^64` bytes were
pushed the buffer is a queue (`CircBuf.Queue`); how many bytes it holds is right
even beyond that (`CircBuf.Sized`). -/
namespace ChaosKernel.Memory
open Base List

structure CircBuf where
  data : Bytes
  rd : Nat
  wr : Nat
  cap : Nat
  n : Nat

namespace CircBuf

def new (c : Nat) : CircBuf := ⟨List.replicate c 0, 0, 0, c, 0⟩

/-- An index outside the data is taken back; the capacity is never zero there. -/
def push (ring : CircBuf) (v : UInt8) : Bool × CircBuf :=
  if ring.cap ≤ ring.n then (false, ring)
  else
    let wr := wrappingAdd ring.wr 1
    let idx := wr % ring.cap
    if ring.data.length ≤ idx then (false, {ring with wr := wrappingSub wr 1})
    else (true, {ring with data := ring.data.set idx v, wr := wr, n := ring.n + 1})

def pop (ring : CircBuf) : Option UInt8 × CircBuf :=
  if 0 < ring.n then
    let rd := wrappingAdd ring.rd 1
    let idx := rd % ring.cap
    match ring.data[idx]? with
    | some v => (some v, {ring with rd := rd, n := ring.n - 1})
    | none => (none, {ring with rd := wrappingSub rd 1})
  else (none, ring)

/-- Pushed until the first byte that is refused; also the number of bytes pushed. -/
def pushAll : Bytes → CircBuf → Nat × CircBuf
  | [], ring => (0, ring)
  | v :: rest, ring =>
    match ring.push v with
    | (false, ring) => (0, ring)
    | (true, ring) =>
      let (written, ring) := pushAll rest ring
      (written + 1, ring)

/-- Popped until nothing comes out. `fuel` bounds the number of bytes. -/
def popAll : Nat → CircBuf → Bytes × CircBuf
  | 0, ring => ([], ring)
  | fuel + 1, ring =>
    match ring.pop with
    | (none, ring) => ([], ring)
    | (some v, ring) =>
      let (result, ring) := popAll fuel ring
      (v :: result, ring)

/-! ### How many bytes it holds -/

structure Sized (ring : CircBuf) : Prop where
  pos : 0 < ring.cap
  length : ring.data.length = ring.cap
  le : ring.n ≤ ring.cap

variable {ring : CircBuf} {taken q : Bytes}

theorem Sized.push_cases (h : ring.Sized) (v : UInt8) :
    (ring.push v = (false, ring) ∧ ring.n = ring.cap) ∨
      ∃ ring', ring.push v = (true, ring') ∧ ring'.Sized ∧ ring'.cap = ring.cap ∧ ring'.n = ring.n + 1 := by
  have hle := h.le
  unfold push
  by_cases hfull : ring.cap ≤ ring.n
  · rw [if_pos hfull]
    exact .inl ⟨rfl, by omega⟩
  · have hidx : wrappingAdd ring.wr 1 % ring.cap < ring.data.length := by
      rw [h.length]
      exact Nat.mod_lt _ h.pos
    rw [if_neg hfull, if_neg (by omega)]
    refine .inr ⟨_, rfl, ⟨h.pos, ?_, ?_⟩, rfl, rfl⟩
    · rw [length_set]
      exact h.length
    · simp only
      omega

theorem Sized.pop_cases (h : ring.Sized) :
    (ring.pop = (none, ring) ∧ ring.n = 0) ∨
      ∃ v ring', ring.pop = (some v, ring') ∧ ring'.Sized ∧ ring'.cap = ring.cap ∧ ring'.n + 1 = ring.n := by
  have hle := h.le
  unfold pop
  by_cases hpos : 0 < ring.n
  · have hidx : wrappingAdd ring.rd 1 % ring.cap < ring.data.length := by
      rw [h.length]
      exact Nat.mod_lt _ h.pos
    rw [if_pos hpos]
    simp only [getElem?_eq_getElem hidx]
    refine .inr ⟨_, _, rfl, ⟨h.pos, h.length, ?_⟩, rfl, ?_⟩
    · simp only
      omega
    · exact Nat.sub_add_cancel hpos
  · rw [if_neg hpos]
    exact .inl ⟨rfl, by omega⟩

theorem Sized.pushAll (h : ring.Sized) (vs : Bytes) :
    (CircBuf.pushAll vs ring).2.Sized ∧
      (CircBuf.pushAll vs ring).2.n = ring.n + (CircBuf.pushAll vs ring).1 := by
  induction vs generalizing ring with
  | nil => exact ⟨h, rfl⟩
  | cons v rest ih =>
    rw [CircBuf.pushAll]
    rcases h.push_cases v with ⟨hpush, _⟩ | ⟨ring', hpush, hsized, _, hn⟩
    · rw [hpush]
      exact ⟨h, rfl⟩
    · obtain ⟨hrest, hn'⟩ := ih hsized
      rw [hpush]
      exact ⟨hrest, by simp only; omega⟩

theorem Sized.popAll (h : ring.Sized) (fuel : Nat) :
    (CircBuf.popAll fuel ring).2.Sized ∧
      (CircBuf.popAll fuel ring).2.n + (CircBuf.popAll fuel ring).1.length = ring.n := by
  induction fuel generalizing ring with
  | zero => exact ⟨h, rfl⟩
  | succ fuel ih =>
    rw [CircBuf.popAll]
    rcases h.pop_cases with ⟨hpop, _⟩ | ⟨v, ring', hpop, hsized, _, hn⟩
    · rw [hpop]
      exact ⟨h, rfl⟩
    · obtain ⟨hrest, hn'⟩ := ih hsized
      rw [hpop]
      exact ⟨hrest, by simp only [length_cons]; omega⟩

/-! ### The queue -/

/-- After `taken` was popped, the buffer holds `q`. -/
structure Queue (ring : CircBuf) (taken q : Bytes) : Prop where
  pos : 0 < ring.cap
  rd : ring.rd = taken.length
  wr : ring.wr = taken.length + q.length
  n : ring.n = q.length
  cells : InRing ring.data ring.cap ring.rd q

theorem Queue.new {c : Nat} (hc : 0 < c) : (new c).Queue [] [] :=
  ⟨hc, rfl, rfl, rfl, by
    have := InRing.empty (List.replicate c (0 : UInt8)) 0
    rwa [length_replicate] at this⟩

theorem Queue.sized (h : ring.Queue taken q) : ring.Sized :=
  ⟨h.pos, h.cells.length, by rw [h.n]; exact h.cells.le⟩

theorem Queue.push_full (h : ring.Queue taken q) (hfull : ring.cap ≤ q.length) (v : UInt8) :
    ring.push v = (false, ring) := by
  rw [push, if_pos (by rw [h.n]; exact hfull)]

theorem Queue.push_room (h : ring.Queue taken q) (hroom : q.length < ring.cap)
    (hword : taken.length + q.length + 1 < wordSize) (v : UInt8) :
    ∃ ring', ring.push v = (true, ring') ∧ ring'.cap = ring.cap ∧ ring'.Queue taken (q ++ [v]) := by
  have hwr : wrappingAdd ring.wr 1 = ring.rd + q.length + 1 := by
    rw [wrappingAdd, h.wr, Nat.mod_eq_of_lt hword, h.rd]
  have hidx : (ring.rd + q.length + 1) % ring.cap < ring.data.length := by
    rw [h.cells.length]
    exact Nat.mod_lt _ h.pos
  rw [push, if_neg (by rw [h.n]; omega), hwr, if_neg (by omega)]
  refine ⟨_, rfl, rfl, h.pos, h.rd, ?_, ?_, h.cells.push hroom v⟩
  · rw [length_append, h.rd]
    rfl
  · rw [length_append, h.n]
    rfl

theorem Queue.pop_nil (h : ring.Queue taken []) : ring.pop = (none, ring) := by
  rw [pop, h.n]
  rfl

theorem Queue.pop_cons {v : UInt8} (h : ring.Queue taken (v :: q)) (hword : taken.length + 1 < wordSize) :
    ∃ ring', ring.pop = (some v, ring') ∧ ring'.cap = ring.cap ∧ ring'.Queue (taken ++ [v]) q := by
  have hrd : wrappingAdd ring.rd 1 = ring.rd + 1 := by
    rw [wrappingAdd, h.rd, Nat.mod_eq_of_lt hword]
  obtain ⟨hcell, hrest⟩ := h.cells.pop
  have hn := h.n
  rw [length_cons] at hn
  rw [pop, if_pos (by omega)]
  simp only [hrd, hcell]
  refine ⟨_, rfl, rfl, h.pos, ?_, ?_, ?_, hrest⟩
  · rw [length_append, h.rd]
    rfl
  · simp only [h.wr, length_append, length_cons, length_nil]
    omega
  · exact Nat.sub_eq_of_eq_add hn

theorem pushAll_le (vs : Bytes) (ring : CircBuf) : (pushAll vs ring).1 ≤ vs.length := by
  induction vs generalizing ring with
  | nil => exact Nat.zero_le _
  | cons v rest ih =>
    rw [pushAll]
    rcases ring.push v with ⟨_ | _, ring'⟩
    · exact Nat.zero_le _
    · exact Nat.succ_le_succ (ih ring')

theorem Queue.pushAll (h : ring.Queue taken q) (vs : Bytes)
    (hword : taken.length + q.length + (CircBuf.pushAll vs ring).1 < wordSize) :
    (CircBuf.pushAll vs ring).2.cap = ring.cap ∧
      (CircBuf.pushAll vs ring).2.Queue taken (q ++ vs.take (CircBuf.pushAll vs ring).1) := by
  induction vs generalizing ring q with
  | nil => exact ⟨rfl, by rw [take_nil, append_nil]; exact h⟩
  | cons v rest ih =>
    rw [CircBuf.pushAll] at hword ⊢
    rcases h.sized.push_cases v with ⟨hpush, _⟩ | ⟨ring₁, hpush, _⟩
    · rw [hpush, take_zero, append_nil]
      exact ⟨rfl, h⟩
    · rw [hpush] at hword ⊢
      simp only [take_succ_cons] at hword ⊢
      have hroom : q.length < ring.cap := by
        by_contra hfull
        rw [h.push_full (by omega)] at hpush
        cases hpush
      obtain ⟨ring', hpush', hcap, hqueue⟩ := h.push_room hroom (by omega) v
      have heq : ring' = ring₁ := by
        rw [hpush'] at hpush
        exact congrArg Prod.snd hpush
      subst heq
      obtain ⟨hcap', hqueue'⟩ := ih hqueue (by rw [length_append, length_singleton]; omega)
      refine ⟨hcap'.trans hcap, ?_⟩
      rwa [append_assoc, singleton_append] at hqueue'

theorem Queue.popAll (h : ring.Queue taken q) {fuel : Nat} (hfuel : q.length ≤ fuel)
    (hword : taken.length + q.length < wordSize) :
    ∃ ring', CircBuf.popAll fuel ring = (q, ring') ∧ ring'.cap = ring.cap ∧ ring'.Queue (taken ++ q) [] := by
  induction fuel generalizing ring taken q with
  | zero =>
    have hnil : q = [] := length_eq_zero_iff.mp (by omega)
    subst hnil
    exact ⟨ring, rfl, rfl, by rw [append_nil]; exact h⟩
  | succ fuel ih =>
    cases q with
    | nil =>
      rw [CircBuf.popAll, h.pop_nil]
      exact ⟨ring, rfl, rfl, by rw [append_nil]; exact h⟩
    | cons v q =>
      rw [length_cons] at hfuel hword
      obtain ⟨ring', hpop, hcap, hqueue⟩ := h.pop_cons (by omega)
      obtain ⟨ring'', hrest, hcap', hdone⟩ := ih hqueue (by omega)
        (by rw [length_append, length_singleton]; omega)
      rw [CircBuf.popAll, hpop]
      simp only [hrest]
      refine ⟨ring'', rfl, hcap'.trans hcap, ?_⟩
      rwa [append_assoc, singleton_append] at hdone

end CircBuf
end ChaosKernel.Memory
