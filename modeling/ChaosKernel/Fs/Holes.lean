import ChaosKernel.Fs.FileSys
import ChaosKernel.Fs.SparseFile

/-! Files with holes.

A write behind the end of a file and a truncation that grows it leave bytes that nobody
has written. For a reader they should be zero; the code leaves in them what the last
block of the file happens to hold, the `0xAA` of a block that was never written, or no
block at all, and then a read ends early. So the holes read as zero exactly when every
gap lies in the last block of the file, over bytes that are zero (`holes_along_iff`). -/
namespace ChaosKernel.Fs
open Base List Option

/-! ### Calls -/

/-- The files and the arrays with holes that they stand for. -/
structure HoleSys where
  sys : FileSys
  bytes : Nat → List (Option UInt8)

namespace HoleSys

def new (w : Nat) : HoleSys := ⟨FileSys.new w Disk.new, fun _ => []⟩

def isFile (s : FileSys) (ino : Nat) : Bool := s.fs.inodes[ino]?.any fun inode => inode.inodeType = .file

/-- What a call does to the array of file `i`. -/
def arrayStep (s : FileSys) (i : Nat) (bytes : List (Option UInt8)) : Op → List (Option UInt8)
  | .writeData ino offset buf => if i = ino ∧ isFile s ino then writeAt bytes offset buf else bytes
  | .truncate ino size => if i = ino ∧ (s.fs.inodes[ino]?).isSome then fit bytes size else bytes
  | _ => bytes

/-- The call comes back to its caller: no sum it makes is beyond the largest word, and nothing else
panics. -/
def returns (s : FileSys) : Op → Bool
  | .writeData ino offset buf => returned (s.fs.writeData ino offset buf s.st).1 &&
      (!isFile s ino || decide (offset + buf.length < wordSize))
  | .truncate ino size => (s.fs.inodes[ino]?).isNone || decide (size + blockSz - 1 < wordSize)
  | .readData ino offset maxLen => returned (s.fs.readData ino offset maxLen s.st).1
  | _ => true

def step (w : HoleSys) (op : Op) : Option HoleSys :=
  if returns w.sys op then some ⟨w.sys.apply op, fun i => arrayStep w.sys i (w.bytes i) op⟩ else none

/-- Every read returns the bytes asked for, with zeros in the holes; only a read of nothing at the
start of the file is not asked for. -/
def ReadsZeros (w : HoleSys) : Prop :=
  ∀ ino inode, w.sys.fs.inodes[ino]? = some inode → inode.inodeType = .file →
    (w.bytes ino).length = inode.size ∧ ∀ offset maxLen, offset < inode.size → offset + maxLen ≠ 0 →
      (w.sys.fs.readData ino offset maxLen w.sys.st).1 =
        .ok (((w.bytes ino).extract offset (offset + min maxLen (inode.size - offset))).map fun b => b.getD 0)

/-- The gap that a call leaves lies over zeros in the blocks that the file has. -/
def GapsAreZero (w : HoleSys) : Op → Prop
  | .writeData ino offset _ => ∀ inode, w.sys.fs.inodes[ino]? = some inode → inode.inodeType = .file →
      GapIsZero w.sys.st.view inode offset
  | .truncate ino size => ∀ inode, w.sys.fs.inodes[ino]? = some inode → inode.inodeType = .file →
      GapIsZero w.sys.st.view inode size
  | _ => True

instance (w : HoleSys) (op : Op) : Decidable (w.GapsAreZero op) := by
  unfold GapsAreZero GapIsZero
  cases op <;> infer_instance

/-- What holds of the files whatever is in their holes. -/
structure Sparse (w : HoleSys) : Prop where
  laid : Laid w.sys
  fits : ∀ ino inode, w.sys.fs.inodes[ino]? = some inode → inode.inodeType = .file →
    Fits w.sys.st.view inode (w.bytes ino)
  fresh : ∀ k, w.sys.fs.nextBlk ≤ k → w.sys.st.view k = List.replicate blockSz 0xAA
  unborn : ∀ ino, w.sys.fs.nextIno ≤ ino → w.bytes ino = []

def AllFull (w : HoleSys) : Prop :=
  ∀ ino inode, w.sys.fs.inodes[ino]? = some inode → inode.inodeType = .file →
    Full w.sys.st.view inode (w.bytes ino)

variable {w : HoleSys}

/-! ### Reads -/

variable {fs : SimpleFS} {ino last p offset : Nat} {inode old : Inode} {st : Storage} {s : FileSys}

/-- A read of one byte. -/
theorem readData_one (hst : st.Healthy) (hino : fs.inodes[ino]? = some inode)
    (hfile : inode.inodeType = .file) (hp : p < inode.size) :
    (fs.readData ino p 1 st).1 = .ok (byteAt st.view inode.blocks p).toList := by
  have hn : min 1 (inode.size - p) = 1 := by omega
  simp only [SimpleFS.readData, hino, hfile, ne_eq, not_true_eq_false, if_false, Nat.not_le.mpr hp, hn,
    Nat.succ_ne_zero, Nat.add_sub_cancel, Nat.add_sub_cancel_left, range'_one, SimpleFS.readLoop, byteAt]
  cases hblk : inode.blocks[p / blockSz]? with
  | none => rfl
  | some k =>
    obtain ⟨st', hfetch, _, _⟩ := Storage.fetch_view hst k
    have hlt : p % blockSz < (st.view k).length := by
      rw [hst.view_length]
      exact Nat.mod_lt _ (by decide)
    have hslice := slice?_eq_some (Nat.le_succ (p % blockSz)) hlt
    rw [Nat.succ_eq_add_one, Nat.add_sub_cancel_left, drop_eq_getElem_cons hlt, take_succ_cons,
      take_zero] at hslice
    simp only [hfetch, SimpleFS.blkRange, if_true, hslice, bind_some, getElem?_eq_getElem hlt,
      nil_append, toList_some]

theorem readData_zero (hst : st.Healthy) (hino : fs.inodes[ino]? = some inode)
    (hfile : inode.inodeType = .file) (hp : last + 1 < inode.size) :
    (fs.readData ino (last + 1) 0 st).1 = .ok [] := by
  simp only [SimpleFS.readData, hino, hfile, ne_eq, not_true_eq_false, if_false, Nat.not_le.mpr hp, Nat.zero_min,
    Nat.add_zero, Nat.succ_ne_zero, Nat.add_sub_cancel]
  rcases place_succ last with hnext | ⟨hsame, hmod⟩
  · rw [hnext, Nat.sub_self]
    rfl
  · rw [hsame, Nat.add_sub_cancel_left]
    simp only [range'_one, SimpleFS.readLoop]
    cases hblk : inode.blocks[last / blockSz]? with
    | none => rfl
    | some k =>
      obtain ⟨st', hfetch, _, _⟩ := Storage.fetch_view hst k
      have hle : (last + 1) % blockSz ≤ (st.view k).length := by
        rw [hst.view_length]
        exact (Nat.mod_lt _ (by decide)).le
      have hslice := slice?_eq_some (Nat.le_refl _) hle
      rw [Nat.sub_self, take_zero] at hslice
      simp only [hfetch, SimpleFS.blkRange, if_true, hmod, hslice, nil_append]

/-- A read of nothing at the start of a file that is not empty stops: the last byte it asks for is
before the first. -/
theorem readData_nothing (hino : fs.inodes[ino]? = some inode) (hfile : inode.inodeType = .file)
    (hsize : 0 < inode.size) (st : Storage) : (fs.readData ino 0 0 st).1 = .error .panic := by
  simp only [SimpleFS.readData, hino, hfile, ne_eq, not_true_eq_false, if_false, Nat.not_le.mpr hsize, Nat.zero_min,
    Nat.add_zero, if_true]

theorem Sparse.readsZeros_iff (h : w.Sparse) : w.ReadsZeros ↔ w.AllFull := by
  constructor
  · intro hreads ino inode hino hfile p hp
    have hfits := h.fits ino inode hino hfile
    obtain ⟨hlen, hhole⟩ := List.getElem?_eq_some_iff.mp hp
    have hlt : p < inode.size := by
      rw [← hfits.size]
      exact hlen
    have hread := (hreads ino inode hino hfile).2 p 1 hlt (Nat.succ_ne_zero p)
    have hone : min 1 (inode.size - p) = 1 := by omega
    rw [readData_one h.laid.healthy hino hfile hlt, hone, List.extract, Nat.add_sub_cancel_left,
      drop_eq_getElem_cons hlen, hhole] at hread
    cases hbyte : byteAt w.sys.st.view inode.blocks p with
    | none =>
      rw [hbyte] at hread
      cases hread
    | some b =>
      rw [hbyte] at hread
      cases hread
      rfl
  · intro hfull ino inode hino hfile
    have hfits := h.fits ino inode hino hfile
    have hholds := hfits.holds (hfull ino inode hino hfile)
    refine ⟨hfits.size, fun offset maxLen hoffset hsome => ?_⟩
    by_cases hmax : 1 ≤ maxLen
    · have hmin : min (offset + maxLen) inode.size = offset + min maxLen (inode.size - offset) := by omega
      rw [readData_holds hino hfile h.laid.healthy hholds offset hmax, hholds.size, hmin, List.extract, List.extract,
        map_take, map_drop]
    · obtain ⟨last, rfl⟩ : ∃ last, offset = last + 1 := ⟨offset - 1, by omega⟩
      have hzero : maxLen = 0 := by omega
      subst hzero
      rw [readData_zero h.laid.healthy hino hfile hoffset, Nat.zero_min, Nat.add_zero, List.extract, Nat.sub_self,
        take_zero]
      rfl

/-! ### One call -/

theorem Sparse.setInode (h : w.Sparse) (bytes : Nat → List (Option UInt8)) (new : Inode) (nextBlk : Nat)
    (hold : w.sys.fs.inodes[ino]? = some old) (hst : st.Healthy)
    (hbytes : ∀ i, i ≠ ino → bytes i = w.bytes i) (hnext : w.sys.fs.nextBlk ≤ nextBlk)
    (hnodup : new.blocks.Nodup)
    (hblocks : ∀ k ∈ new.blocks, k ∈ old.blocks ∨ (w.sys.fs.nextBlk ≤ k ∧ k < nextBlk))
    (hview : ∀ k, k ∉ old.blocks → k < w.sys.fs.nextBlk ∨ nextBlk ≤ k → st.view k = w.sys.st.view k)
    (hfits : new.inodeType = .file → Fits st.view new (bytes ino)) :
    Sparse ⟨⟨{w.sys.fs.setInode ino new with nextBlk := nextBlk}, st⟩, bytes⟩ ∧
      (w.AllFull → (AllFull ⟨⟨{w.sys.fs.setInode ino new with nextBlk := nextBlk}, st⟩, bytes⟩ ↔
        (new.inodeType = .file → Full st.view new (bytes ino)))) := by
  have hother (i : Nat) (a : Inode) (hne : i ≠ ino) (ha : w.sys.fs.inodes[i]? = some a) :
      ∀ k ∈ a.blocks, st.view k = w.sys.st.view k := fun k hk => by
    obtain ⟨hnot, hlt⟩ := h.laid.other hold hne ha hk
    exact hview k hnot (.inl hlt)
  refine ⟨⟨h.laid.setInode new hold hst hnext hnodup hblocks, fun i a ha hfile => ?_, fun k hk => ?_, fun i hi => ?_⟩,
    fun hfull => ⟨fun hafter hfile => ?_, fun hnew i a ha hfile => ?_⟩⟩
  · rcases setInode_get ha with ⟨rfl, rfl⟩ | ⟨hne, ha⟩
    · exact hfits hfile
    · dsimp only
      rw [hbytes i hne]
      exact (h.fits i a ha hfile).congr (hother i a hne ha)
  · have hle : nextBlk ≤ k := hk
    have hnot : k ∉ old.blocks := fun hmem => by
      have := h.laid.used ino old hold k hmem
      omega
    exact (hview k hnot (.inr hle)).trans (h.fresh k (hnext.trans hle))
  · have hne : i ≠ ino := (lt_of_lt_of_le (h.laid.known ino old hold) hi).ne'
    exact (hbytes i hne).trans (h.unborn i hi)
  · refine hafter ino new ?_ hfile
    simp only [SimpleFS.setInode, get_insert, if_true]
  · rcases setInode_get ha with ⟨rfl, rfl⟩ | ⟨hne, ha⟩
    · exact hnew hfile
    · dsimp only
      rw [hbytes i hne, full_congr (hother i a hne ha)]
      exact hfull i a ha hfile

theorem Sparse.sameView (h : w.Sparse) (hst : st.Healthy) (hview : st.view = w.sys.st.view) :
    Sparse ⟨{w.sys with st := st}, w.bytes⟩ ∧ (AllFull ⟨{w.sys with st := st}, w.bytes⟩ ↔ w.AllFull) := by
  refine ⟨⟨h.laid.withStorage hst, fun i a ha hfile => ?_, fun k hk => ?_, h.unborn⟩, ?_⟩
  · dsimp only
    rw [hview]
    exact h.fits i a ha hfile
  · dsimp only
    rw [hview]
    exact h.fresh k hk
  · simp only [AllFull, hview]

theorem Sparse.skipIno (h : w.Sparse) :
    Sparse {w with sys := {w.sys with fs := {w.sys.fs with nextIno := w.sys.fs.nextIno + 1}}} :=
  ⟨h.laid.skipIno, h.fits, h.fresh, fun i hi => h.unborn i (Nat.le_of_succ_le hi)⟩

theorem Sparse.addFile (h : w.Sparse) :
    Sparse {w with sys := {w.sys with fs := {w.sys.fs.setInode w.sys.fs.nextIno (Inode.newFile w.sys.fs.nextIno) with
        nextIno := w.sys.fs.nextIno + 1}}} ∧
      (w.AllFull → AllFull {w with sys := {w.sys with fs := {w.sys.fs.setInode w.sys.fs.nextIno
        (Inode.newFile w.sys.fs.nextIno) with nextIno := w.sys.fs.nextIno + 1}}}) := by
  have hempty := h.unborn _ (le_refl _)
  refine ⟨⟨h.laid.addFile, fun i a ha hfile => ?_, h.fresh, fun i hi => h.unborn i (Nat.le_of_succ_le hi)⟩,
    fun hfull i a ha hfile => ?_⟩
  · rcases setInode_get ha with ⟨rfl, rfl⟩ | ⟨_, ha⟩
    · dsimp only
      rw [hempty]
      exact ⟨rfl, Nat.zero_le _, nofun⟩
    · exact h.fits i a ha hfile
  · rcases setInode_get ha with ⟨rfl, rfl⟩ | ⟨_, ha⟩
    · dsimp only
      rw [hempty]
      exact nofun
    · exact hfull i a ha hfile

theorem Sparse.createFile (h : w.Sparse) (dirIno : Nat) (name : String) :
    Sparse {w with sys := w.sys.apply (.createFile dirIno name)} ∧
      (w.AllFull → AllFull {w with sys := w.sys.apply (.createFile dirIno name)}) := by
  simp only [FileSys.apply, SimpleFS.createFile]
  cases hdir : w.sys.fs.inodes[dirIno]? with
  | none => exact ⟨h.skipIno, id⟩
  | some dir =>
    dsimp only
    by_cases htype : dir.inodeType = .directory
    · rw [if_neg (not_not_intro htype)]
      have hfile : ¬(dir.inodeType = .file) := fun hfile => by
        rw [htype] at hfile
        cases hfile
      obtain ⟨hset, hfull⟩ := h.setInode w.bytes
        {dir with children := dir.children.insert name w.sys.fs.nextIno} w.sys.fs.nextBlk hdir h.laid.healthy
        (fun _ _ => rfl) (le_refl _) (h.laid.nodup dirIno dir hdir) (fun k hk => .inl hk) (fun _ _ _ => rfl)
        (fun hf => absurd hf hfile)
      obtain ⟨hadd, hadds⟩ := hset.addFile
      exact ⟨hadd, fun hall => hadds ((hfull hall).mpr fun hf => absurd hf hfile)⟩
    · rw [if_pos htype]
      exact ⟨h.skipIno, id⟩

theorem Sparse.truncate (h : w.Sparse) (ino size : Nat) :
    Sparse ⟨w.sys.apply (.truncate ino size), fun i => arrayStep w.sys i (w.bytes i) (.truncate ino size)⟩ ∧
      (w.AllFull → (AllFull ⟨w.sys.apply (.truncate ino size),
        fun i => arrayStep w.sys i (w.bytes i) (.truncate ino size)⟩ ↔ w.GapsAreZero (.truncate ino size))) := by
  simp only [FileSys.apply, SimpleFS.truncate, arrayStep, GapsAreZero]
  cases hino : w.sys.fs.inodes[ino]? with
  | none =>
    simp only [isSome_none, Bool.false_eq_true, and_false, if_false]
    exact ⟨h, fun hfull => iff_of_true hfull fun _ hsome => absurd hsome.symm (some_ne_none _)⟩
  | some inode =>
    simp only [isSome_some, and_true]
    obtain ⟨hset, hfull⟩ := h.setInode (fun i => if i = ino then fit (w.bytes i) size else w.bytes i)
      (cutTo inode size) w.sys.fs.nextBlk hino h.laid.healthy (fun i hi => if_neg hi) (le_refl _)
      ((h.laid.nodup ino inode hino).sublist (take_sublist _ _)) (fun k hk => .inl (mem_of_mem_take hk))
      (fun _ _ _ => rfl) fun hfile => by
        rw [if_pos rfl]
        exact (h.fits ino inode hino hfile).cutTo size
    refine ⟨hset, fun hall => (hfull hall).trans ?_⟩
    rw [if_pos rfl]
    constructor
    · intro hafter found heq hfile
      cases heq
      exact ((h.fits ino inode hino hfile).full_cutTo_iff (hall ino inode hino hfile) size).mp (hafter hfile)
    · intro hgap hfile
      exact ((h.fits ino inode hino hfile).full_cutTo_iff (hall ino inode hino hfile) size).mpr (hgap inode rfl hfile)

/-- A write of nothing at the start of a file stops: it copies one byte from an empty buffer. -/
theorem writeData_nothing (hst : s.st.Healthy) (hino : s.fs.inodes[ino]? = some inode)
    (hfile : inode.inodeType = .file) : (s.fs.writeData ino 0 [] s.st).1 = .error .panic := by
  obtain ⟨k, hk⟩ : ∃ k, (List.take 1 (inode.blocks ++ List.range' s.fs.nextBlk (1 - inode.blocks.length)))[0]? =
      some k := by
    refine ⟨_, getElem?_eq_getElem ?_⟩
    rw [length_take, length_append, length_range']
    omega
  obtain ⟨st', hfetch, _, _⟩ := Storage.fetch_view hst k
  simp only [SimpleFS.writeData, hino, hfile, ne_eq, not_true_eq_false, if_false, SimpleFS.growBlocks, length_nil,
    Nat.add_zero, Nat.zero_sub, Nat.zero_div, Nat.zero_add, Nat.sub_zero, drop_zero, range'_one,
    SimpleFS.writeLoop, hk, hfetch, SimpleFS.blkRange, Nat.zero_mod, if_true]
  rfl

theorem Sparse.writeData (h : w.Sparse) {buf : Bytes} (hino : w.sys.fs.inodes[ino]? = some inode)
    (hfile : inode.inodeType = .file) (hlast : last + 1 = offset + buf.length) :
    Sparse ⟨w.sys.apply (.writeData ino offset buf), fun i => if i = ino then writeAt (w.bytes i) offset buf
        else w.bytes i⟩ ∧
      (w.AllFull → (AllFull ⟨w.sys.apply (.writeData ino offset buf), fun i => if i = ino then
        writeAt (w.bytes i) offset buf else w.bytes i⟩ ↔ GapIsZero w.sys.st.view inode offset)) := by
  obtain ⟨st', hwrite, hst', hnodup, hwritten⟩ := h.laid.writeData hino hfile hlast
  have hfits := h.fits ino inode hino hfile
  simp only [FileSys.apply, hwrite]
  obtain ⟨hset, hfull⟩ := h.setInode (fun i => if i = ino then writeAt (w.bytes i) offset buf else w.bytes i)
    (grown inode (List.range' w.sys.fs.nextBlk (last / blockSz + 1 - inode.blocks.length)) (offset + buf.length))
    (w.sys.fs.nextBlk + (last / blockSz + 1 - inode.blocks.length)) hino hst' (fun i hi => if_neg hi)
    (Nat.le_add_right ..) hnodup
    (fun k hk => by
      rcases mem_append.mp hk with hk | hk
      · exact .inl hk
      · exact .inr (mem_range'_1.mp hk))
    (fun k hk hrange => by
      refine hwritten.others k fun j _ _ hsame => ?_
      rcases mem_append.mp (mem_of_getElem? hsame) with hin | hin
      · exact hk hin
      · have := mem_range'_1.mp hin
        omega)
    (fun _ => by
      rw [if_pos rfl]
      refine hfits.write hlast hnodup ?_ hwritten
      rw [length_append, length_range']
      omega)
  refine ⟨hset, fun hall => (hfull hall).trans ?_⟩
  rw [if_pos rfl]
  refine Iff.trans ⟨fun hafter => hafter hfile, fun hafter _ => hafter⟩
    (hfits.full_write_iff (hall ino inode hino hfile) hlast hnodup (fun k hk => ?_) hwritten)
  exact h.fresh k (mem_range'_1.mp hk).1

theorem writeData_refused (hfile : isFile s ino = false) (offset : Nat) (buf : Bytes) :
    s.apply (.writeData ino offset buf) = s := by
  simp only [FileSys.apply, SimpleFS.writeData]
  cases hino : s.fs.inodes[ino]? with
  | none => rfl
  | some inode =>
    have htype : ¬inode.inodeType = .file := by
      rw [isFile, hino] at hfile
      exact of_decide_eq_false hfile
    simp only [ne_eq, htype, not_false_eq_true, if_true]

end HoleSys

def holeSys : System HoleSys Op := ⟨HoleSys.step⟩

namespace HoleSys
variable {w w' : HoleSys}

/-- A call keeps the holes full exactly when it leaves no gap but over zeros. -/
theorem Sparse.step (h : w.Sparse) {op : Op} (hstep : holeSys.step w op = some w') :
    w'.Sparse ∧ (w.AllFull → (w'.AllFull ↔ w.GapsAreZero op)) := by
  simp only [holeSys, HoleSys.step, ite_none_right_eq_some, some.injEq] at hstep
  obtain ⟨hreturns, rfl⟩ := hstep
  cases op with
  | createFile dirIno name =>
    obtain ⟨hsparse, hfull⟩ := h.createFile dirIno name
    exact ⟨hsparse, fun hall => iff_of_true (hfull hall) trivial⟩
  | truncate ino size => exact h.truncate ino size
  | writeData ino offset buf =>
    simp only [arrayStep, GapsAreZero]
    cases hfile : isFile w.sys ino with
    | false =>
      rw [writeData_refused hfile]
      simp only [Bool.false_eq_true, and_false, if_false]
      refine ⟨h, fun hall => iff_of_true hall fun inode hino htype => ?_⟩
      rw [isFile, hino] at hfile
      exact absurd htype (of_decide_eq_false hfile)
    | true =>
      simp only [isFile, Option.any_eq_true, decide_eq_true_eq] at hfile
      obtain ⟨inode, hino, htype⟩ := hfile
      have hsome : offset + buf.length ≠ 0 := fun hzero => by
        have hoffset : offset = 0 := by omega
        have hbuf : buf = [] := eq_nil_of_length_eq_zero (by omega)
        subst hoffset hbuf
        simp only [returns, writeData_nothing h.laid.healthy hino htype, returned, Bool.false_and] at hreturns
        cases hreturns
      obtain ⟨last, hlast⟩ : ∃ last, last + 1 = offset + buf.length := ⟨offset + buf.length - 1, by omega⟩
      obtain ⟨hsparse, hfull⟩ := h.writeData hino htype hlast
      simp only [and_true]
      refine ⟨hsparse, fun hall => (hfull hall).trans ⟨fun hgap found hfound _ => ?_, fun hgap => hgap inode hino htype⟩⟩
      rw [hino] at hfound
      cases hfound
      exact hgap
  | readData ino offset maxLen =>
    obtain ⟨hst, hview⟩ := readData_view ino offset maxLen h.laid.healthy
    obtain ⟨hsparse, hfull⟩ := h.sameView hst hview
    exact ⟨hsparse, fun hall => iff_of_true (hfull.mpr hall) trivial⟩
  | syncAll id =>
    obtain ⟨hst, hview⟩ := Storage.writeBack_view h.laid.healthy
    obtain ⟨hsparse, hfull⟩ := h.sameView hst hview
    exact ⟨hsparse, fun hall => iff_of_true (hfull.mpr hall) trivial⟩
  | tick id =>
    obtain ⟨hst, hview⟩ := Storage.writeBack_view h.laid.healthy
    obtain ⟨hsparse, hfull⟩ := h.sameView hst hview
    exact ⟨hsparse, fun hall => iff_of_true (hfull.mpr hall) trivial⟩

theorem new_view (n k : Nat) : (new n).sys.st.view k = List.replicate blockSz 0xAA := by
  have hchain : ((new n).sys.st.cache.chains.getD ((new n).sys.st.cache.chainOf k) []) = [] := by
    show (List.replicate n ([] : List CacheSlot)).getD _ [] = []
    rw [getD_eq_getElem?_getD, getElem?_replicate]
    split <;> rfl
  have hdisk : (new n).sys.st.disk.blocks[k]? = none := Std.ExtTreeMap.getElem?_empty
  rw [Storage.view, hchain]
  show Disk.contents _ k blockSz = _
  rw [Disk.contents, hdisk]

theorem new_sparse {n : Nat} (hn : 0 < n) : (new n).Sparse := by
  refine ⟨laid_new hn rfl, fun ino inode hget hfile => ?_, fun k _ => new_view n k, fun _ _ => rfl⟩
  rw [(new_inode hget).2] at hfile
  cases hfile

theorem new_allFull (n : Nat) : (new n).AllFull := by
  intro ino inode hget hfile
  rw [(new_inode hget).2] at hfile
  cases hfile

end HoleSys

/-- **Holes read as zeros**, and reads are as long as asked for, in all states of a run exactly when
every gap that a write or a truncation of the run leaves lies over zeros in the blocks the file has.
A read of nothing at the start of a file that is not empty never returns. -/
theorem holes_along_iff (n : Nat) (hn : 0 < n) (ops : List Op) :
    (holeSys.Always HoleSys.ReadsZeros (HoleSys.new n) ops ↔
        holeSys.Guarded HoleSys.GapsAreZero (HoleSys.new n) ops) ∧
      ∀ (fs : SimpleFS) (ino : Nat) (inode : Inode) (st : Storage), fs.inodes[ino]? = some inode →
        inode.inodeType = .file → 0 < inode.size → (fs.readData ino 0 0 st).1 = .error .panic := by
  have hsparse : ∀ w op w', w.Sparse → holeSys.step w op = some w' → w'.Sparse :=
    fun w op w' h hstep => (h.step hstep).1
  refine ⟨?_, fun fs ino inode st hino hfile hsize => HoleSys.readData_nothing hino hfile hsize st⟩
  have hnew := HoleSys.new_sparse hn
  refine System.always_iff_guarded hsparse (fun w op w' h hreads hstep => ?_) hnew
    (hnew.readsZeros_iff.mpr (HoleSys.new_allFull n))
  rw [(hsparse w op w' h hstep).readsZeros_iff]
  exact (h.step hstep).2 (h.readsZeros_iff.mp hreads)

/-- A file is cut behind its first byte, and a byte written two places further on. -/
def regrown : List Op := [.createFile 0 "a", .writeData 1 0 [7, 0, 0, 0], .truncate 1 1, .writeData 1 3 [9]]

theorem holes_along_iff_regrown : (holeSys.run (HoleSys.new 1) regrown).any (fun w =>
      w.bytes 1 = [some 7, none, none, some 9] ∧ (w.sys.fs.readData 1 0 4 w.sys.st).1.toOption = some [7, 0, 0, 9]) ∧
    holeSys.Always HoleSys.ReadsZeros (HoleSys.new 1) regrown :=
  ⟨by decide +kernel, (holes_along_iff 1 (by decide) regrown).1.mpr (by decide +kernel)⟩

/-- One byte written at offset 1: the byte before it reads as `0xAA`. -/
theorem hole_reads_fill : ¬holeSys.Always HoleSys.ReadsZeros (HoleSys.new 64)
    [.createFile 0 "a", .writeData 1 1 [7]] := by
  intro hall
  have hrun : ((holeSys.run (HoleSys.new 64) [.createFile 0 "a", .writeData 1 1 [7]]).any fun w =>
      w.sys.fs.inodes[1]?.any (fun inode => inode.inodeType = .file ∧ inode.size = 2) ∧
        w.bytes 1 = [none, some 7] ∧
        (w.sys.fs.readData 1 0 2 w.sys.st).1.toOption = some [0xAA, 7]) = true := by
    decide +kernel
  simp only [Option.any_eq_true, decide_eq_true_eq] at hrun
  obtain ⟨w, hrun, ⟨inode, hino, hfile, hsize⟩, hbytes, hread⟩ := hrun
  have hzeros := (hall _ w prefix_rfl hrun 1 inode hino hfile).2 0 2 (by omega) (by decide)
  rw [hzeros, hbytes, hsize] at hread
  revert hread
  decide

end ChaosKernel.Fs
