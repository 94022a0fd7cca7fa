import ChaosKernel.Base.Recency
import ChaosKernel.Base.Rust
import ChaosKernel.Base.Scan
import ChaosKernel.Base.Utf8

/-! The mount table.

An entry sends the paths that start with its prefix to a device. `bind` keeps the
entries with long prefixes first, and `resolve` looks for the longest prefix of a
path, puts the device in its place and goes on with the rest of the path.

`resolve` and `find_mount` look for the entry in loops of their own; `selected`
is the entry the first finds, and `selected_eq` says that it is the one the second
finds. `Bound` is what a caller knows: the pairs bound and not unmounted since. -/
namespace ChaosKernel.Fs
open Base

/-- `pfx` is the entry's `prefix`. -/
structure MountEntry where
  pfx : String
  target : String
  deriving DecidableEq, Repr

structure MountTable where
  entries : List MountEntry
  deriving DecidableEq, Repr

/-- The length of the prefix of `m` where it is not empty and starts `path`. -/
def MountEntry.matchLen (path : String) (m : MountEntry) : Option Nat :=
  if m.pfx = "" then none
  else if byteLen path < byteLen m.pfx then none
  else if agreeUpTo (byteLen m.pfx) (textBytes m.pfx) (textBytes path) then some (byteLen m.pfx)
  else none

/-- The loop of `resolve` over a path that no entry matches. -/
def squeezeLoop (prevSlash : Bool) : List Char → List Char
  | [] => []
  | ch :: rest =>
    if ch = '/' then
      if prevSlash then squeezeLoop true rest else ch :: squeezeLoop true rest
    else ch :: squeezeLoop false rest

def canonical (path : String) : String :=
  let canonical := String.ofList (squeezeLoop false path.toList)
  if canonical = "" then path else canonical

namespace MountTable

def new : MountTable := ⟨[]⟩

def bind (t : MountTable) (pfx tgt : String) : MountTable :=
  if t.entries.any fun m => m.pfx == pfx && m.target == tgt then t
  else ⟨(t.entries ++ [MountEntry.mk pfx tgt]).insertionSort fun a b => byteLen b.pfx ≤ byteLen a.pfx⟩

/-- The table, and whether an entry was removed. -/
def unmount (t : MountTable) (pfx : String) : MountTable × Bool :=
  let left := t.entries.filter fun m => m.pfx ≠ pfx
  (⟨left⟩, left.length < t.entries.length)

/-- The index `resolve` finds. -/
def bestMatchIdx (t : MountTable) (path : String) : Option Nat :=
  scanIdx (· > ·) (MountEntry.matchLen path) 0 t.entries

def findMount (t : MountTable) (path : String) : Option MountEntry :=
  (scan (· > ·) (MountEntry.matchLen path) 0 t.entries).1

/-- One more call of `resolve` than `fuel` allows is a call that never returns. -/
def resolveLoop (t : MountTable) : Nat → String → Except (Stop String) String
  | 0, _ => .error .hang
  | fuel + 1, path =>
    match t.bestMatchIdx path with
    | some idx =>
      match t.entries[idx]? with
      | none => .error .panic
      | some m =>
        match sliceFrom? path (byteLen m.pfx) with
        | none => .error .panic
        | some rest => do
          let sub ← resolveLoop t fuel rest
          .ok (m.target ++ ":" ++ sub)
    | none => .ok (canonical path)

def resolve (t : MountTable) (path : String) : Except (Stop String) String :=
  t.resolveLoop (byteLen path + 1) path

end MountTable

/-! ### Histories -/

inductive MountOp where
  | bind (pfx tgt : String)
  | unmount (pfx : String)
  deriving DecidableEq, Repr

def MountTable.step (t : MountTable) : MountOp → MountTable
  | .bind pfx tgt => t.bind pfx tgt
  | .unmount pfx => (t.unmount pfx).1

/-- The table after the calls `ops`. -/
def MountTable.built (ops : List MountOp) : MountTable := ops.foldl step new

/-- `pfx` was bound to `tgt` and has not been unmounted since. -/
def Bound (ops : List MountOp) (pfx tgt : String) : Prop := Since (.bind pfx tgt) (.unmount pfx) ops

namespace MountTable
variable {t : MountTable} {path : String}

variable {pfx : String} {m : MountEntry} {ops : List MountOp}

theorem mem_bind {tgt : String} : m ∈ (t.bind pfx tgt).entries ↔ m = ⟨pfx, tgt⟩ ∨ m ∈ t.entries := by
  unfold bind
  split
  · next h =>
    obtain ⟨e, he, heq⟩ := List.any_eq_true.mp h
    rw [Bool.and_eq_true, beq_iff_eq, beq_iff_eq] at heq
    have : (⟨pfx, tgt⟩ : MountEntry) ∈ t.entries := by
      rw [← heq.1, ← heq.2]
      exact he
    exact ⟨.inr, fun h => h.elim (fun h => h ▸ this) id⟩
  · rw [List.mem_insertionSort, List.mem_append, List.mem_singleton]
    exact or_comm

theorem mem_unmount : m ∈ (t.unmount pfx).1.entries ↔ m ∈ t.entries ∧ m.pfx ≠ pfx := by
  simp only [unmount, List.mem_filter, decide_eq_true_eq]

theorem built_concat {op : MountOp} : built (ops ++ [op]) = (built ops).step op :=
  List.foldl_concat ..

theorem mem_built : m ∈ (built ops).entries ↔ Bound ops m.pfx m.target := by
  induction ops using List.reverseRecOn with
  | nil => exact ⟨fun h => absurd h List.not_mem_nil, fun h => absurd h (since_nil _ _)⟩
  | append_singleton ops op ih =>
    rw [built_concat, Bound, since_concat, ← Bound, ← ih]
    cases op with
    | bind pfx tgt =>
      cases m
      simp only [step, mem_bind, MountEntry.mk.injEq, MountOp.bind.injEq, ne_eq, reduceCtorEq, not_false_eq_true,
        and_true, eq_comm]
    | unmount pfx =>
      simp only [step, mem_unmount, MountOp.unmount.injEq, ne_eq, reduceCtorEq, false_or, eq_comm]

theorem exists_built : (∃ m ∈ (built ops).entries, m.pfx = pfx) ↔ ∃ tgt, Bound ops pfx tgt := by
  constructor
  · intro h
    obtain ⟨m, hm, hpfx⟩ := h
    exact ⟨m.target, hpfx ▸ mem_built.mp hm⟩
  · intro h
    obtain ⟨tgt, h⟩ := h
    exact ⟨⟨pfx, tgt⟩, mem_built.mpr h, rfl⟩

/-- `unmount` reports whether the prefix was bound. -/
theorem unmount_built : ((built ops).unmount pfx).2 = true ↔ ∃ tgt, Bound ops pfx tgt := by
  simp only [unmount, decide_eq_true_eq, List.length_filter_lt_length_iff_exists, ne_eq, not_not]
  exact exists_built

end MountTable

/-! ### The entry that is selected -/

theorem MountEntry.matchLen_eq_some {path : String} {m : MountEntry} {k : Nat} :
    m.matchLen path = some k ↔ m.pfx ≠ "" ∧ Starts m.pfx path ∧ byteLen m.pfx = k := by
  have hagree : agreeUpTo (byteLen m.pfx) (textBytes m.pfx) (textBytes path) = true ↔ Starts m.pfx path :=
    agreeUpTo_iff.trans textBytes_prefix_iff
  unfold matchLen
  split
  · next h => exact iff_of_false (fun hk => by cases hk) fun hk => hk.1 h
  · next hne =>
    split
    · next h => exact iff_of_false (fun hk => by cases hk) fun hk => absurd hk.2.1.byteLen_le (by omega)
    · split
      · next h => simp only [Option.some.injEq, ne_eq, hne, not_false_eq_true, hagree.mp h, true_and]
      · next h => exact iff_of_false (fun hk => by cases hk) fun hk => h (hagree.mpr hk.2.1)

namespace MountTable
variable {t : MountTable} {path : String}

/-- The entry `resolve` goes by. -/
def selected (t : MountTable) (path : String) : Option MountEntry :=
  (t.bestMatchIdx path).bind fun idx => t.entries[idx]?

theorem selected_eq : t.selected path = t.findMount path := by
  unfold selected
  cases h : t.bestMatchIdx path with
  | none => exact (scanIdx_none h).symm
  | some idx =>
    obtain ⟨m, hm, hfind⟩ := scanIdx_some h
    rw [findMount, hfind, Option.bind_some, hm]

theorem findMount_none : t.findMount path = none ↔ ∀ m ∈ t.entries, m.pfx ≠ "" → ¬Starts m.pfx path := by
  unfold findMount
  rw [scan_eq_none]
  constructor
  · intro h m hm hne hstarts
    exact h m hm _ (MountEntry.matchLen_eq_some.mpr ⟨hne, hstarts, rfl⟩) (byteLen_pos hne)
  · intro h m hm k hk _
    obtain ⟨hne, hstarts, _⟩ := MountEntry.matchLen_eq_some.mp hk
    exact h m hm hne hstarts

theorem findMount_some {m : MountEntry} (h : t.findMount path = some m) :
    m ∈ t.entries ∧ m.pfx ≠ "" ∧ Starts m.pfx path ∧
      ∀ m' ∈ t.entries, Starts m'.pfx path → byteLen m'.pfx ≤ byteLen m.pfx := by
  unfold findMount at h
  obtain ⟨_, _, k, _, hk, _⟩ := scan_eq_some h
  obtain ⟨hne, hstarts, hlen⟩ := MountEntry.matchLen_eq_some.mp hk
  refine ⟨mem_of_scan h, hne, hstarts, fun m' hm' hstarts' => ?_⟩
  by_cases hne' : m'.pfx = ""
  · rw [hne']
    exact Nat.zero_le _
  · have := not_beaten_of_scan h hk hm' (MountEntry.matchLen_eq_some.mpr ⟨hne', hstarts', rfl⟩)
    omega

end MountTable

end ChaosKernel.Fs
