import ChaosKernel.Fs.Layout

/-! Files are arrays of bytes.

The file system, the cache and the disk together, driven by any sequence of
calls, show each file as one array of bytes: `ownBytes` applies to the empty
array the writes and truncations of that file alone, and every read returns the
bytes asked for (`readData_returns`), whatever the other files did and wherever
the blocks are. What keeps files apart is that no block number is used twice. -/
namespace ChaosKernel.Fs
open Base List

/-! ### The calls -/

/-- Writes are of at least one byte, to a file, and start at most at its end;
truncations do not grow a file. -/
def FileSys.allowed (s : FileSys) : Op → Bool
  | .writeData ino offset buf => s.fs.inodes[ino]?.any fun inode =>
      inode.inodeType = .file ∧ buf ≠ [] ∧ offset ≤ inode.size
  | .truncate ino size => s.fs.inodes[ino]?.all fun inode => size ≤ inode.size
  | _ => true

def fileSys : System FileSys Op where
  step s op := if s.allowed op then some (s.apply op) else none

/-! ### One array of bytes for each file -/

/-- What a call does to the bytes of file `ino`: only its own writes and truncations count. -/
def ownStep (ino : Nat) (bytes : Bytes) : Op → Bytes
  | .writeData i offset buf =>
    if i = ino then bytes.take offset ++ buf ++ bytes.drop (offset + buf.length) else bytes
  | .truncate i size => if i = ino then bytes.take size else bytes
  | _ => bytes

/-- The bytes of file `ino` after the calls `ops`. -/
def ownBytes (ino : Nat) (ops : List Op) : Bytes := ops.foldl (ownStep ino) []

theorem ownBytes_concat (ino : Nat) (ops : List Op) (op : Op) :
    ownBytes ino (ops ++ [op]) = ownStep ino (ownBytes ino ops) op := by
  simp only [ownBytes, foldl_append, foldl_cons, foldl_nil]

/-- The file system shows the arrays `bytes`. -/
structure Represents (bytes : Nat → Bytes) (s : FileSys) : Prop extends laid : Laid s where
  holds : ∀ (ino : Nat) (inode : Inode), s.fs.inodes[ino]? = some inode → inode.inodeType = .file →
    Holds s.st.view inode (bytes ino)
  unborn : ∀ ino, s.fs.nextIno ≤ ino → bytes ino = []

variable {bytes view view' bytes' : Nat → Bytes} {s : FileSys} {inode old : Inode} {content buf : Bytes} {st : Storage}

theorem Holds.congr (h : Holds view inode content) (hview : ∀ k ∈ inode.blocks, view' k = view k) :
    Holds view' inode content :=
  ⟨h.size, h.blocks, fun p hp => (byteAt_congr hview p).trans (h.bytes p hp)⟩

theorem Represents.sameView (h : Represents bytes s) (hst : st.Healthy) (hview : st.view = s.st.view) :
    Represents bytes {s with st := st} := by
  refine ⟨h.laid.withStorage hst, fun ino inode hget hfile => ?_, h.unborn⟩
  dsimp only
  rw [hview]
  exact h.holds ino inode hget hfile

variable {w ino nextBlk size offset last maxLen : Nat} {d : Disk}

theorem represents_new (hw : 0 < w) (hd : d.errs = 0) : Represents (fun _ => []) (FileSys.new w d) := by
  refine ⟨laid_new hw hd, fun ino inode hget hfile => ?_, fun _ _ => rfl⟩
  rw [(new_inode hget).2] at hfile
  cases hfile

/-! ### One call -/

theorem Represents.setInode (h : Represents bytes s) (new : Inode) (hold : s.fs.inodes[ino]? = some old)
    (hst : st.Healthy) (hbytes : ∀ i, i ≠ ino → bytes' i = bytes i) (hnext : s.fs.nextBlk ≤ nextBlk)
    (hnodup : new.blocks.Nodup)
    (hblocks : ∀ k ∈ new.blocks, k ∈ old.blocks ∨ (s.fs.nextBlk ≤ k ∧ k < nextBlk))
    (hview : ∀ k, k ∉ old.blocks → k < s.fs.nextBlk → st.view k = s.st.view k)
    (hholds : new.inodeType = .file → Holds st.view new (bytes' ino)) :
    Represents bytes' ⟨{s.fs.setInode ino new with nextBlk := nextBlk}, st⟩ := by
  refine ⟨h.laid.setInode new hold hst hnext hnodup hblocks, fun i a ha hfile => ?_, fun i hi => ?_⟩
  · rcases setInode_get ha with ⟨rfl, rfl⟩ | ⟨hne, ha⟩
    · exact hholds hfile
    · rw [hbytes i hne]
      refine (h.holds i a ha hfile).congr fun k hk => ?_
      obtain ⟨hnot, hlt⟩ := h.laid.other hold hne ha hk
      exact hview k hnot hlt
  · have hne : i ≠ ino := (lt_of_lt_of_le (h.known ino old hold) hi).ne'
    rw [hbytes i hne]
    exact h.unborn i hi

theorem holds_newFile (view : Nat → Bytes) (ino : Nat) : Holds view (Inode.newFile ino) [] := by
  refine ⟨rfl, ?_, fun p hp => absurd hp (Nat.not_lt_zero p)⟩
  show 0 = (0 + blockSz - 1) / blockSz
  decide

theorem Represents.addFile (h : Represents bytes s) :
    Represents bytes {s with fs := {s.fs.setInode s.fs.nextIno (Inode.newFile s.fs.nextIno) with
      nextIno := s.fs.nextIno + 1}} := by
  refine ⟨h.laid.addFile, fun i a ha hfile => ?_, fun i hi => h.unborn i (Nat.le_of_succ_le hi)⟩
  rcases setInode_get ha with ⟨rfl, rfl⟩ | ⟨_, ha⟩
  · rw [h.unborn _ (le_refl _)]
    exact holds_newFile _ _
  · exact h.holds i a ha hfile

theorem Represents.skipIno (h : Represents bytes s) :
    Represents bytes {s with fs := {s.fs with nextIno := s.fs.nextIno + 1}} :=
  ⟨h.laid.skipIno, h.holds, fun i hi => h.unborn i (Nat.le_of_succ_le hi)⟩

theorem represents_createFile (h : Represents bytes s) (dirIno : Nat) (name : String) :
    Represents bytes (s.apply (.createFile dirIno name)) := by
  simp only [FileSys.apply, SimpleFS.createFile]
  split
  · exact h.skipIno
  · rename_i dir hdir
    split
    · exact h.skipIno
    · rename_i htype
      have hdirectory : dir.inodeType = .directory := not_not.mp htype
      have hset := h.setInode {dir with children := dir.children.insert name s.fs.nextIno}
        hdir h.healthy (fun _ _ => rfl) (le_refl _) (h.nodup dirIno dir hdir)
        (fun k hk => .inl hk) (fun _ _ _ => rfl)
        (fun hfile => by rw [hdirectory] at hfile; cases hfile)
      exact hset.addFile

theorem Holds.take (h : Holds view inode content) (hsize : size ≤ inode.size) :
    Holds view {inode with
      blocks := inode.blocks.take ((size + blockSz - 1) / blockSz), size := size}
      (content.take size) := by
  refine ⟨?_, ?_, fun p hp => ?_⟩
  · rw [length_take, h.size]
    exact min_eq_left hsize
  · show (inode.blocks.take _).length = _
    rw [length_take, h.blocks]
    simp only [blockSz]
    omega
  · have hp' : p < size := hp
    have hblk : p / blockSz < (size + blockSz - 1) / blockSz := by
      simp only [blockSz]
      omega
    rw [getElem?_take_of_lt hp', ← h.bytes p (hp'.trans_le hsize)]
    show byteAt view (inode.blocks.take _) p = _
    unfold byteAt
    rw [getElem?_take_of_lt hblk]

theorem represents_truncate (h : Represents bytes s) (ino size : Nat)
    (hallowed : s.allowed (.truncate ino size) = true) :
    Represents (fun i => ownStep i (bytes i) (.truncate ino size))
      (s.apply (.truncate ino size)) := by
  have hother : ∀ i, i ≠ ino → ownStep i (bytes i) (.truncate ino size) = bytes i :=
    fun i hi => if_neg (Ne.symm hi)
  simp only [FileSys.apply, SimpleFS.truncate]
  cases hino : s.fs.inodes[ino]? with
  | none =>
    refine ⟨h.laid, fun i inode hget hfile => ?_, fun i hi => ?_⟩
    · have hne : i ≠ ino := by
        rintro rfl
        rw [hino] at hget
        cases hget
      rw [hother i hne]
      exact h.holds i inode hget hfile
    · simp [ownStep, h.unborn i hi]
  | some inode =>
    simp only [FileSys.allowed, hino, Option.all_some, decide_eq_true_eq] at hallowed
    apply h.setInode _ hino h.healthy hother (le_refl _)
    · exact (h.nodup ino inode hino).sublist (take_sublist _ _)
    · exact fun k hk => .inl (mem_of_mem_take hk)
    · exact fun _ _ _ => rfl
    · intro hfile
      have hown : ownStep ino (bytes ino) (.truncate ino size) = (bytes ino).take size := if_pos rfl
      rw [hown]
      exact (h.holds ino inode hino hfile).take hallowed

/-- A file after a write that starts inside it or at its end, with the blocks it needed
added at the end of its list. -/
theorem Holds.write (h : Holds view inode content) {extra : List Nat} (hle : offset ≤ inode.size)
    (hbuf : last + 1 = offset + buf.length) (hpos : offset ≤ last) (hnodup : (inode.blocks ++ extra).Nodup)
    (hlen : (inode.blocks ++ extra).length = max inode.blocks.length (last / blockSz + 1))
    (hwritten : Written (inode.blocks ++ extra) offset last buf (offset / blockSz) view view') :
    Holds view' {inode with
      blocks := inode.blocks ++ extra
      size := if inode.size < offset + buf.length then offset + buf.length else inode.size}
      (content.take offset ++ buf ++ content.drop (offset + buf.length)) := by
  have hsize : (if inode.size < offset + buf.length then offset + buf.length else inode.size) =
      max inode.size (last + 1) := by
    split <;> omega
  simp only [hsize]
  refine ⟨?_, ?_, fun p hp => ?_⟩
  · simp only [length_append, length_take, length_drop, h.size]
    omega
  · show (inode.blocks ++ extra).length = _
    rw [hlen, h.blocks]
    simp only [blockSz]
    omega
  · have hp' : p < max inode.size (last + 1) := hp
    rw [getElem?_splice (by rw [h.size]; exact hle) (by omega) (by omega)]
    show byteAt view' (inode.blocks ++ extra) p = _
    have hblk : p / blockSz < (inode.blocks ++ extra).length := by
      rw [hlen, h.blocks]
      simp only [blockSz]
      omega
    rw [hwritten.byteAt hnodup hblk]
    by_cases hin : offset ≤ p ∧ p ≤ last
    · rw [if_pos hin, if_pos (by omega)]
    · have hold : p / blockSz < inode.blocks.length := h.block (by omega)
      rw [if_neg hin, if_neg (by omega), ← h.bytes p (by omega)]
      simp only [byteAt, getElem?_append_left hold]

theorem represents_writeData (h : Represents bytes s) (ino offset : Nat) (buf : Bytes)
    (hallowed : s.allowed (.writeData ino offset buf) = true) :
    Represents (fun i => ownStep i (bytes i) (.writeData ino offset buf))
      (s.apply (.writeData ino offset buf)) := by
  simp only [FileSys.allowed, Option.any_eq_true, decide_eq_true_eq] at hallowed
  obtain ⟨inode, hino, hfile, hne, hle⟩ := hallowed
  have hlen : 0 < buf.length := length_pos_iff.mpr hne
  obtain ⟨last, hlast⟩ : ∃ last, last + 1 = offset + buf.length :=
    ⟨offset + buf.length - 1, by omega⟩
  have hgrown : (inode.blocks ++
      List.range' s.fs.nextBlk (last / blockSz + 1 - inode.blocks.length)).length =
        max inode.blocks.length (last / blockSz + 1) := by
    rw [length_append, length_range']
    omega
  obtain ⟨st', hwrite, hst', hnodup, hwritten⟩ := h.laid.writeData hino hfile hlast
  simp only [FileSys.apply, hwrite]
  apply h.setInode _ hino hst'
  · exact fun i hi => if_neg (Ne.symm hi)
  · omega
  · exact hnodup
  · intro k hk
    rcases mem_append.mp hk with hk | hk
    · exact .inl hk
    · exact .inr (mem_range'_1.mp hk)
  · intro k hk hlt
    apply hwritten.others
    intro j _ _ hsame
    rcases mem_append.mp (mem_of_getElem? hsame) with hin | hin
    · exact hk hin
    · have := mem_range'_1.mp hin
      omega
  · intro _
    have hown : ownStep ino (bytes ino) (.writeData ino offset buf) =
        (bytes ino).take offset ++ buf ++ (bytes ino).drop (offset + buf.length) := if_pos rfl
    rw [hown]
    exact (h.holds ino inode hino hfile).write hle hlast (by omega) hnodup hgrown hwritten

/-- Every allowed call does to each file what it does to that file's array. -/
theorem represents_apply (h : Represents bytes s) (op : Op) (hallowed : s.allowed op = true) :
    Represents (fun i => ownStep i (bytes i) op) (s.apply op) := by
  cases op with
  | createFile dirIno name => exact represents_createFile h dirIno name
  | writeData ino offset buf => exact represents_writeData h ino offset buf hallowed
  | truncate ino size => exact represents_truncate h ino size hallowed
  | readData ino offset maxLen =>
    obtain ⟨hst, hview⟩ := readData_view ino offset maxLen h.healthy
    exact h.sameView hst hview
  | syncAll id =>
    obtain ⟨hst, hview⟩ := Storage.writeBack_view h.healthy
    exact h.sameView hst hview
  | tick id =>
    obtain ⟨hst, hview⟩ := Storage.writeBack_view h.healthy
    exact h.sameView hst hview

/-! ### Whole runs -/

theorem represents_run (hw : 0 < w) (hd : d.errs = 0) {ops : List Op}
    (hrun : fileSys.run (FileSys.new w d) ops = some s) : Represents (fun ino => ownBytes ino ops) s := by
  apply System.history_run (I := fun ops s => Represents (fun ino => ownBytes ino ops) s) _
    (represents_new hw hd) hrun
  intro done s op t h hop
  simp only [fileSys, Option.ite_none_right_eq_some, Option.some.injEq] at hop
  obtain ⟨hallowed, rfl⟩ := hop
  simp only [ownBytes_concat]
  exact represents_apply h op hallowed

theorem readData_holds {fs : SimpleFS} (hino : fs.inodes[ino]? = some inode)
    (hfile : inode.inodeType = .file) (hst : st.Healthy) (hholds : Holds st.view inode content)
    (offset : Nat) (hmax : 1 ≤ maxLen) :
    (fs.readData ino offset maxLen st).1 =
      .ok (content.extract offset (min (offset + maxLen) content.length)) := by
  simp only [SimpleFS.readData, hino, hfile, ne_eq, not_true_eq_false, if_false]
  by_cases hend : inode.size ≤ offset
  · rw [if_pos hend, hholds.size, extract_eq_take_drop,
      drop_eq_nil_of_le (by rw [hholds.size]; exact hend), take_nil]
  · have hlast : offset + min maxLen (inode.size - offset) - 1 + 1 =
        min (offset + maxLen) content.length := by
      rw [hholds.size]
      omega
    rw [if_neg hend, if_neg (by omega), ← hlast]
    have hdiv : offset / blockSz ≤ (offset + min maxLen (inode.size - offset) - 1) / blockSz :=
      Nat.div_le_div_right (by omega)
    have hbase := Nat.div_mul_le_self offset blockSz
    apply readLoop_holds (by omega) (by omega) _ _ [] hst hholds (le_refl _) (by omega)
    rw [max_eq_left hbase, min_eq_left (by omega)]
    simp

/-- **Files are arrays of bytes.** After any calls on any files, a read returns
the bytes asked for of the array its file's own writes and truncations made. -/
theorem readData_returns {w : Nat} (hw : 0 < w) {d : Disk} (hd : d.errs = 0) {ops : List Op}
    {s : FileSys} (hrun : fileSys.run (FileSys.new w d) ops = some s) {ino : Nat} {inode : Inode}
    (hino : s.fs.inodes[ino]? = some inode) (hfile : inode.inodeType = .file) (offset : Nat)
    {maxLen : Nat} (hmax : 1 ≤ maxLen) :
    inode.size = (ownBytes ino ops).length ∧
      (s.fs.readData ino offset maxLen s.st).1 =
        .ok ((ownBytes ino ops).extract offset (min (offset + maxLen) inode.size)) := by
  have h := represents_run hw hd hrun
  have hholds := h.holds ino inode hino hfile
  refine ⟨hholds.size.symm, ?_⟩
  rw [← hholds.size]
  exact readData_holds hino hfile h.healthy hholds offset hmax

/-- Two files: the other file's write and the write-back in between change nothing. -/
theorem readData_returns_twoFiles :
    ∃ s, fileSys.run (FileSys.new 1 Disk.new)
        [.createFile 0 "a", .createFile 0 "b", .writeData 1 0 [7, 8, 9], .writeData 2 0 [1],
          .syncAll 0, .truncate 1 2] = some s ∧
      (s.fs.readData 1 1 8 s.st).1 = .ok [8] := by
  have hrun : ((fileSys.run (FileSys.new 1 Disk.new)
      [.createFile 0 "a", .createFile 0 "b", .writeData 1 0 [7, 8, 9], .writeData 2 0 [1],
        .syncAll 0, .truncate 1 2]).bind fun s => s.fs.inodes[1]?).any
          (fun inode => inode.inodeType = .file ∧ inode.size = 2) = true := by
    decide +kernel
  simp only [Option.any_eq_true, Option.bind_eq_some_iff, decide_eq_true_eq] at hrun
  obtain ⟨inode, ⟨s, hs, hino⟩, hfile, hsize⟩ := hrun
  have hread := (readData_returns Nat.one_pos rfl hs hino hfile 1 (by decide : 1 ≤ 8)).2
  rw [hsize] at hread
  exact ⟨s, hs, hread⟩

end ChaosKernel.Fs
