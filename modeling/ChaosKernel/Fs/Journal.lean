import ChaosKernel.Fs.Attempts
import ChaosKernel.Fs.BlockCache

/-! Reads of a disk with a journal.

A journal is a disk of its own, attached to serve the reads that the disk fails. No
loop of the source looks at it: with or without one a read is the read without a limit
of `read_block_n` (`readLoop_eq_readLoopN`), and over a disk whose faults never end it
never returns, nor does the fetch that waits for it (`reads_end_iff`). -/
namespace ChaosKernel.Fs
open Base

/-! ### Loops that return -/

section Returns
variable {α σ : Type*} {run : Nat → Except (Stop Errno) α × σ}

/-- From some number of rounds on the result is the same. -/
def Returns (run : Nat → Except (Stop Errno) α × σ) (a : α) (s : σ) : Prop :=
  ∃ rounds, ∀ fuel, rounds ≤ fuel → run fuel = (.ok a, s)

def Terminates (run : Nat → Except (Stop Errno) α × σ) : Prop := ∃ a s, Returns run a s

theorem not_terminates {e : Nat → Stop Errno} (h : ∀ fuel, (run fuel).1 = .error (e fuel)) : ¬Terminates run := by
  intro hends
  obtain ⟨a, s, rounds, hrun⟩ := hends
  have hok := h rounds
  rw [hrun rounds le_rfl] at hok
  cases hok

end Returns

/-! ### The device -/

/-- A disk with its journal, the journal of that one after it, and so on. -/
structure Device where
  disk : Disk
  journals : List Disk

namespace Device

def attachJournal (v j : Device) : Device := {v with journals := j.disk :: j.journals}

/-- `read_block`, as far as `fuel` rounds take it. -/
def readWithin (v : Device) (blk len fuel : Nat) : Except (Stop Errno) Bytes × Device :=
  let (result, d) := Disk.readLoop blk len fuel v.disk
  (result, {v with disk := d})

end Device

/-- `fetch`, as far as `fuel` rounds of its read take it. -/
def BlockCache.fetchWithin (c : BlockCache) (v : Device) (k fuel : Nat) :
    Except (Stop Errno) (Option Bytes) × BlockCache × Device :=
  let ci := c.chainOf k
  match c.chains[ci]? with
  | none => (.error .panic, c, v)
  | some items =>
    match Storage.lookup items k with
    | some slot => (.ok (some slot.payload), c, v)
    | none =>
      match v.readWithin k blockSz fuel with
      | (.ok data, v) => (.ok (some data), {c with chains := c.chains.set ci (items ++ [⟨k, data, false⟩])}, v)
      | (.error (.err _), v) => (.ok none, c, v)
      | (.error e, v) => (.error e, c, v)

/-- `Storage.fetch` gives the read as many rounds as it can use. -/
theorem fetchWithin_eq_fetch (c : BlockCache) (v : Device) (k : Nat) :
    c.fetchWithin v k (v.disk.errs + 1) = ((Storage.fetch ⟨c, v.disk⟩ k).1,
      (Storage.fetch ⟨c, v.disk⟩ k).2.cache, {v with disk := (Storage.fetch ⟨c, v.disk⟩ k).2.disk}) := by
  have hread : v.readWithin k blockSz (v.disk.errs + 1) =
      ((v.disk.readBlock k blockSz).1, {v with disk := (v.disk.readBlock k blockSz).2}) := rfl
  unfold BlockCache.fetchWithin Storage.fetch
  dsimp only
  cases c.chains[c.chainOf k]? with
  | none => rfl
  | some items =>
    dsimp only
    cases Storage.lookup items k with
    | some slot => rfl
    | none =>
      dsimp only
      rw [hread]
      generalize v.disk.readBlock k blockSz = result
      obtain ⟨result, d⟩ := result
      cases result with
      | ok data => rfl
      | error e => cases e <;> rfl

/-! ### The reads -/

namespace Disk
variable {d : Disk}

/-- Round by round the read is the one with no limit. -/
theorem readLoop_eq_readLoopN (blk fuel attempt : Nat) (out : Bytes) (d : Disk) :
    readLoop blk out.length fuel d = ((readLoopN blk 0 fuel attempt out d).1.map fun _ =>
      (readLoopN blk 0 fuel attempt out d).2.1, (readLoopN blk 0 fuel attempt out d).2.2) := by
  induction fuel generalizing attempt d with
  | zero => rfl
  | succ fuel ih =>
    rw [readLoop, readLoopN]
    dsimp only
    split
    · rfl
    · have hlim : ¬(0 < 0 ∧ 0 ≤ attempt + 1) := fun hlim => Nat.lt_irrefl 0 hlim.1
      rw [if_neg hlim]
      exact ih (attempt + 1) _

theorem readLoop_persistent (hmax : d.errs = usizeMax) (blk len fuel : Nat) :
    (readLoop blk len fuel d).1 = .error .hang := by
  induction fuel generalizing d with
  | zero => rfl
  | succ fuel ih =>
    rw [readLoop]
    dsimp only
    rw [if_neg (by rw [hmax]; decide), if_pos hmax]
    exact ih hmax

end Disk

section Ends
variable {c : BlockCache} {k : Nat} {v : Device}

theorem readWithin_returns (hfinite : v.disk.errs < usizeMax) (out : Bytes) :
    Returns (v.readWithin k out.length) (v.disk.readBlockN k out 0).2.1
      {v with disk := (v.disk.readBlockN k out 0).2.2} := by
  refine ⟨v.disk.errs + 1, fun fuel hfuel => ?_⟩
  rw [Device.readWithin, Disk.readLoop_eq_readLoopN k fuel 0 out,
    Disk.readLoopN_succeeds rfl hfinite hfuel (.inl rfl), Disk.readBlockN_unlimited hfinite]
  rfl

theorem readWithin_persistent (hmax : v.disk.errs = usizeMax) (len fuel : Nat) :
    (v.readWithin k len fuel).1 = .error .hang :=
  Disk.readLoop_persistent hmax k len fuel

variable {items : List CacheSlot} {fuel : Nat}

theorem fetchWithin_miss (hitems : c.chains[c.chainOf k]? = some items)
    (hmiss : Storage.lookup items k = none) {data : Bytes} {v' : Device}
    (hread : v.readWithin k blockSz fuel = (.ok data, v')) : c.fetchWithin v k fuel =
      (.ok (some data), {c with chains := c.chains.set (c.chainOf k) (items ++ [⟨k, data, false⟩])}, v') := by
  simp only [BlockCache.fetchWithin, hitems, hmiss, hread]

theorem fetchWithin_hangs (hitems : c.chains[c.chainOf k]? = some items)
    (hmiss : Storage.lookup items k = none) (hread : (v.readWithin k blockSz fuel).1 = .error .hang) :
    (c.fetchWithin v k fuel).1 = .error .hang := by
  simp only [BlockCache.fetchWithin, hitems, hmiss]
  generalize v.readWithin k blockSz fuel = result at hread
  obtain ⟨result, v'⟩ := result
  cases hread
  rfl

theorem fetchWithin_returns (hfinite : v.disk.errs < usizeMax)
    (hitems : c.chains[c.chainOf k]? = some items) (hmiss : Storage.lookup items k = none) :
    ∃ c', Returns (c.fetchWithin v k) (some (v.disk.readBlockN k (List.replicate blockSz 0) 0).2.1)
      (c', {v with disk := (v.disk.readBlockN k (List.replicate blockSz 0) 0).2.2}) := by
  obtain ⟨rounds, hread⟩ := readWithin_returns (k := k) hfinite (List.replicate blockSz 0)
  rw [List.length_replicate] at hread
  exact ⟨_, rounds, fun fuel hfuel => fetchWithin_miss hitems hmiss (hread fuel hfuel)⟩

theorem not_terminates_fetch (hwidth : c.width = 0) (hchains : c.chains.length = c.width) :
    ¬Terminates (c.fetchWithin v k) := by
  have hnone : c.chains[c.chainOf k]? = none := List.getElem?_eq_none (by omega)
  refine not_terminates (e := fun _ => .panic) fun fuel => ?_
  simp only [BlockCache.fetchWithin, hnone]

theorem readWithin_terminates_iff (hword : v.disk.errs < wordSize) (len : Nat) :
    Terminates (v.readWithin k len) ↔ v.disk.errs ≠ usizeMax := by
  refine ⟨fun hends hmax => not_terminates (fun fuel => readWithin_persistent hmax len fuel) hends, fun hne => ?_⟩
  have hreturns := readWithin_returns (k := k) (Disk.finite_of_ne hword hne) (List.replicate len 0)
  rw [List.length_replicate] at hreturns
  exact ⟨_, _, hreturns⟩

theorem fetchWithin_terminates_iff (hword : v.disk.errs < wordSize)
    (hitems : c.chains[c.chainOf k]? = some items) (hmiss : Storage.lookup items k = none) :
    Terminates (c.fetchWithin v k) ↔ v.disk.errs ≠ usizeMax := by
  refine ⟨fun hends hmax => ?_, fun hne => ?_⟩
  · have hhangs (fuel : Nat) : (c.fetchWithin v k fuel).1 = .error .hang :=
      fetchWithin_hangs hitems hmiss (readWithin_persistent hmax blockSz fuel)
    exact not_terminates hhangs hends
  · obtain ⟨c', hreturns⟩ := fetchWithin_returns (Disk.finite_of_ne hword hne) hitems hmiss
    exact ⟨_, _, hreturns⟩

end Ends

/-! ### When they end -/

/-- Without a journal: both return unless the faults never end, and what `read_block_n` returns with no limit. -/
structure EndsAlone (c : BlockCache) (k : Nat) (v : Device) : Prop where
  read : ∀ len, Terminates (v.readWithin k len) ↔ v.disk.errs ≠ usizeMax
  fetch : Terminates (c.fetchWithin v k) ↔ v.disk.errs ≠ usizeMax
  readSame : v.disk.errs ≠ usizeMax → ∀ out, ∃ attempts buffer d,
    v.disk.readBlockN k out 0 = (.ok attempts, buffer, d) ∧
      Returns (v.readWithin k out.length) buffer {v with disk := d}
  fetchSame : v.disk.errs ≠ usizeMax → ∃ attempts buffer d c',
    v.disk.readBlockN k (List.replicate blockSz 0) 0 = (.ok attempts, buffer, d) ∧
      Returns (c.fetchWithin v k) (some buffer) (c', {v with disk := d})

/-- With journal `j`: both return, and what the journal holds if the faults never end. -/
structure EndsByJournal (c : BlockCache) (k : Nat) (v : Device) (j : Disk) : Prop where
  read : ∀ len, Terminates (v.readWithin k len)
  fetch : Terminates (c.fetchWithin v k)
  readJournal : v.disk.errs = usizeMax → ∀ len, ∃ v', Returns (v.readWithin k len) (j.contents k len) v'
  fetchJournal : v.disk.errs = usizeMax → ∃ c' v',
    Returns (c.fetchWithin v k) (some (j.contents k blockSz)) (c', v')

/-- **Reads end when the disk can serve them**: for a block that is not cached, without a journal they do so as
they should over every cache that has a chain. An attached journal is no help: then they do exactly when the
faults end. -/
theorem reads_end_iff (c : BlockCache) (k : Nat) (v : Device) (hword : v.disk.errs < wordSize)
    (hchains : c.chains.length = c.width)
    (hmiss : ∀ items, c.chains[c.chainOf k]? = some items → Storage.lookup items k = none) :
    (v.journals = [] → (EndsAlone c k v ↔ 0 < c.width ∨ v.disk.errs = usizeMax)) ∧
      ∀ j rest, v.journals = j :: rest → j.errs = 0 →
        (EndsByJournal c k v j ↔ 0 < c.width ∧ v.disk.errs ≠ usizeMax) := by
  rcases Nat.eq_zero_or_pos c.width with hwidth | hwidth
  · have hnever : ¬Terminates (c.fetchWithin v k) := not_terminates_fetch hwidth hchains
    refine ⟨fun _ => ⟨fun hends => ?_, fun hmax => ?_⟩, fun j rest _ _ => iff_of_false ?_ ?_⟩
    · exact .inr (not_not.mp fun hne => hnever (hends.fetch.mpr hne))
    · have hmax := hmax.resolve_left (Nat.not_lt_of_le (Nat.le_of_eq hwidth))
      exact ⟨readWithin_terminates_iff hword, iff_of_false hnever (not_not_intro hmax), fun hne => absurd hmax hne,
        fun hne => absurd hmax hne⟩
    · exact fun hends => hnever hends.fetch
    · exact fun hboth => Nat.ne_of_gt hboth.1 hwidth
  · have hlt : c.chainOf k < c.chains.length := by
      rw [hchains]
      exact Nat.mod_lt _ hwidth
    have hitems := List.getElem?_eq_getElem hlt
    have hfetch := fetchWithin_terminates_iff hword hitems (hmiss _ hitems)
    have hread := readWithin_terminates_iff (k := k) hword
    refine ⟨fun _ => iff_of_true ⟨hread, hfetch, fun hne out => ?_, fun hne => ?_⟩ (.inl hwidth),
      fun j rest _ _ => ⟨fun hends => ⟨hwidth, hfetch.mp hends.fetch⟩, fun hboth => ?_⟩⟩
    · have hfinite := Disk.finite_of_ne hword hne
      refine ⟨_, _, _, Disk.readBlockN_unlimited hfinite k out, ?_⟩
      have hreturns := readWithin_returns (k := k) hfinite out
      rw [Disk.readBlockN_unlimited hfinite] at hreturns
      exact hreturns
    · have hfinite := Disk.finite_of_ne hword hne
      obtain ⟨c', hreturns⟩ := fetchWithin_returns hfinite hitems (hmiss _ hitems)
      rw [Disk.readBlockN_unlimited hfinite] at hreturns
      exact ⟨_, _, _, c', Disk.readBlockN_unlimited hfinite k _, hreturns⟩
    · exact ⟨fun len => (hread len).mpr hboth.2, hfetch.mpr hboth.2, fun hmax => absurd hmax hboth.2,
        fun hmax => absurd hmax hboth.2⟩

/-- Five faults and a cache of one chain. -/
theorem reads_end_five : (∀ items, (BlockCache.new 1).chains[(BlockCache.new 1).chainOf 0]? = some items →
      Storage.lookup items 0 = none) ∧ EndsAlone (BlockCache.new 1) 0 ⟨Disk.failing 5, []⟩ := by
  have hmiss : ∀ items, (BlockCache.new 1).chains[(BlockCache.new 1).chainOf 0]? = some items →
      Storage.lookup items 0 = none := by
    intro items hitems
    cases hitems
    rfl
  have hends := reads_end_iff (BlockCache.new 1) 0 ⟨Disk.failing 5, []⟩ (by decide) rfl hmiss
  exact ⟨hmiss, (hends.1 rfl).mpr (.inl Nat.one_pos)⟩

/-- A disk that always fails, with a healthy journal attached: the read never returns. -/
theorem journal_not_read : ((Device.mk (Disk.failing usizeMax) []).attachJournal ⟨Disk.new, []⟩).journals =
      [Disk.new] ∧ Disk.new.errs = 0 ∧
    ¬EndsByJournal (BlockCache.new 1) 0 ((Device.mk (Disk.failing usizeMax) []).attachJournal ⟨Disk.new, []⟩)
      Disk.new := by
  refine ⟨rfl, rfl, fun hends => ?_⟩
  exact (readWithin_terminates_iff (v := (Device.mk (Disk.failing usizeMax) []).attachJournal ⟨Disk.new, []⟩)
    (by decide) blockSz).mp (hends.read blockSz) rfl

end ChaosKernel.Fs
