import ChaosKernel.Fs.FileBytes

/-! The files over the store of blocks.

The calls on the file system, the cache and the disk together, and what keeps the files
apart under any of them: every block number is used once (`Laid`). A write that returns
adds the blocks it needs and changes exactly the bytes it covers (`Laid.writeData`). -/
namespace ChaosKernel.Fs
open Base List

/-! ### The calls -/

structure FileSys where
  fs : SimpleFS
  st : Storage

inductive Op where
  | createFile (dirIno : Nat) (name : String)
  | writeData (ino offset : Nat) (buf : Bytes)
  | truncate (ino size : Nat)
  | readData (ino offset maxLen : Nat)
  | syncAll (id : Nat)
  | tick (id : Nat)

def FileSys.apply (s : FileSys) : Op → FileSys
  | .createFile dirIno name => {s with fs := (s.fs.createFile dirIno name).2}
  | .writeData ino offset buf =>
    let (_, fs, st) := s.fs.writeData ino offset buf s.st
    ⟨fs, st⟩
  | .truncate ino size => {s with fs := (s.fs.truncate ino size).2}
  | .readData ino offset maxLen => {s with st := (s.fs.readData ino offset maxLen s.st).2}
  | .syncAll id => {s with st := s.st.syncAll id}
  | .tick id => {s with st := s.st.tick id}

def FileSys.new (w : Nat) (d : Disk) : FileSys := ⟨SimpleFS.new, BlockCache.new w, d⟩

/-! ### Files apart -/

/-- The blocks of the inodes are different ones, all handed out, over a healthy store. -/
structure Laid (s : FileSys) : Prop where
  healthy : s.st.Healthy
  nodup : ∀ (ino : Nat) (inode : Inode), s.fs.inodes[ino]? = some inode → inode.blocks.Nodup
  apart : ∀ (i j : Nat) (a b : Inode), i ≠ j → s.fs.inodes[i]? = some a → s.fs.inodes[j]? = some b →
    ∀ k ∈ a.blocks, k ∉ b.blocks
  used : ∀ (ino : Nat) (inode : Inode), s.fs.inodes[ino]? = some inode →
    ∀ k ∈ inode.blocks, k < s.fs.nextBlk
  known : ∀ (ino : Nat) (inode : Inode), s.fs.inodes[ino]? = some inode → ino < s.fs.nextIno

variable {s : FileSys}
variable {st : Storage} {ino offset last w i j k nextBlk startBlk endBlk : Nat} {inode old new a b : Inode} {fs : SimpleFS} {blocks : List Nat}

theorem Laid.withStorage (h : Laid s) (hst : st.Healthy) : Laid {s with st := st} :=
  ⟨hst, h.nodup, h.apart, h.used, h.known⟩

variable {d : Disk}

theorem new_inode (hget : (FileSys.new w d).fs.inodes[ino]? = some inode) :
    ino = 0 ∧ inode = Inode.newDir 0 := by
  simp only [FileSys.new, SimpleFS.new, get_insert, Std.ExtTreeMap.getElem?_empty] at hget
  split at hget
  · next heq =>
    cases hget
    exact ⟨heq.symm, rfl⟩
  · cases hget

theorem laid_new (hw : 0 < w) (hd : d.errs = 0) : Laid (FileSys.new w d) := by
  refine ⟨Storage.Healthy.new hw hd, fun ino inode hget => ?_, fun i j a b hij ha hb => ?_,
    fun ino inode hget k hk => ?_, fun ino inode hget => ?_⟩
  · rw [(new_inode hget).2]
    exact nodup_nil
  · exact absurd ((new_inode ha).1.trans (new_inode hb).1.symm) hij
  · rw [(new_inode hget).2] at hk
    cases hk
  · rw [(new_inode hget).1]
    exact Nat.one_pos

theorem setInode_get (ha : (fs.setInode ino new).inodes[i]? = some a) :
    (i = ino ∧ a = new) ∨ (i ≠ ino ∧ fs.inodes[i]? = some a) := by
  simp only [SimpleFS.setInode, get_insert] at ha
  split at ha
  · next heq => exact .inl ⟨heq.symm, (Option.some.inj ha).symm⟩
  · next hne => exact .inr ⟨Ne.symm hne, ha⟩

theorem Laid.other (h : Laid s) (hold : s.fs.inodes[ino]? = some old) (hj : j ≠ ino)
    (hb : s.fs.inodes[j]? = some b) (hk : k ∈ b.blocks) : k ∉ old.blocks ∧ k < s.fs.nextBlk :=
  ⟨h.apart j ino b old hj hb hold k hk, h.used j b hb k hk⟩

/-- One inode replaced, with the store and the block counter after it. Its blocks are
blocks it had or new ones. -/
theorem Laid.setInode (h : Laid s) (new : Inode) (hold : s.fs.inodes[ino]? = some old) (hst : st.Healthy)
    (hnext : s.fs.nextBlk ≤ nextBlk) (hnodup : new.blocks.Nodup)
    (hblocks : ∀ k ∈ new.blocks, k ∈ old.blocks ∨ (s.fs.nextBlk ≤ k ∧ k < nextBlk)) :
    Laid ⟨{s.fs.setInode ino new with nextBlk := nextBlk}, st⟩ := by
  have hout (j : Nat) (b : Inode) (hj : j ≠ ino) (hb : s.fs.inodes[j]? = some b) (k : Nat) (hk : k ∈ b.blocks) :
      k ∉ new.blocks := by
    obtain ⟨hnot, hlt⟩ := h.other hold hj hb hk
    intro hnew
    rcases hblocks k hnew with hin | ⟨hge, _⟩
    · exact hnot hin
    · omega
  refine ⟨hst, fun i a ha => ?_, fun i j a b hij ha hb k hka hkb => ?_, fun i a ha k hk => ?_, fun i a ha => ?_⟩
  · rcases setInode_get ha with ⟨_, rfl⟩ | ⟨_, ha⟩
    · exact hnodup
    · exact h.nodup i a ha
  · rcases setInode_get ha with ⟨hi, hanew⟩ | ⟨hi, haold⟩
    · rcases setInode_get hb with ⟨hj, _⟩ | ⟨hj, hbold⟩
      · exact hij (hi.trans hj.symm)
      · exact hout j b hj hbold k hkb (hanew ▸ hka)
    · rcases setInode_get hb with ⟨hj, hbnew⟩ | ⟨hj, hbold⟩
      · exact hout i a hi haold k hka (hbnew ▸ hkb)
      · exact h.apart i j a b hij haold hbold k hka hkb
  · rcases setInode_get ha with ⟨_, rfl⟩ | ⟨_, ha⟩
    · rcases hblocks k hk with hin | ⟨_, hlt⟩
      · exact (h.used ino old hold k hin).trans_le hnext
      · exact hlt
    · exact (h.used i a ha k hk).trans_le hnext
  · rcases setInode_get ha with ⟨rfl, _⟩ | ⟨_, ha⟩
    · exact h.known i old hold
    · exact h.known i a ha

theorem Laid.addFile (h : Laid s) :
    Laid {s with fs := {s.fs.setInode s.fs.nextIno (Inode.newFile s.fs.nextIno) with
      nextIno := s.fs.nextIno + 1}} := by
  refine ⟨h.healthy, fun i a ha => ?_, fun i j a b hij ha hb k hka hkb => ?_, fun i a ha k hk => ?_,
    fun i a ha => ?_⟩
  · rcases setInode_get ha with ⟨_, rfl⟩ | ⟨_, ha⟩
    · exact nodup_nil
    · exact h.nodup i a ha
  · rcases setInode_get ha with ⟨_, rfl⟩ | ⟨_, ha⟩
    · cases hka
    · rcases setInode_get hb with ⟨_, rfl⟩ | ⟨_, hb⟩
      · cases hkb
      · exact h.apart i j a b hij ha hb k hka hkb
  · rcases setInode_get ha with ⟨_, rfl⟩ | ⟨_, ha⟩
    · cases hk
    · exact h.used i a ha k hk
  · rcases setInode_get ha with ⟨rfl, _⟩ | ⟨_, ha⟩
    · exact Nat.lt_succ_self _
    · exact (h.known i a ha).trans (Nat.lt_succ_self _)

theorem Laid.skipIno (h : Laid s) : Laid {s with fs := {s.fs with nextIno := s.fs.nextIno + 1}} :=
  ⟨h.healthy, h.nodup, h.apart, h.used, fun i a ha => (h.known i a ha).trans (Nat.lt_succ_self _)⟩

/-! ### Reads and writes -/

theorem readLoop_view (bis : List Nat) (result : Bytes) (hst : st.Healthy) :
    (SimpleFS.readLoop blocks startBlk endBlk offset last bis result st).2.Healthy ∧
      (SimpleFS.readLoop blocks startBlk endBlk offset last bis result st).2.view = st.view := by
  induction bis generalizing result st with
  | nil => exact ⟨hst, rfl⟩
  | cons bi rest ih =>
    unfold SimpleFS.readLoop
    split
    · exact ⟨hst, rfl⟩
    · rename_i blkNo _
      obtain ⟨st', hfetch, hst', hview⟩ := Storage.fetch_view hst blkNo
      rw [hfetch]
      dsimp only
      split
      · exact ⟨hst', hview⟩
      · obtain ⟨h, hv⟩ := ih _ hst'
        exact ⟨h, hv.trans hview⟩

theorem readData_view (ino offset maxLen : Nat) (hst : st.Healthy) :
    (fs.readData ino offset maxLen st).2.Healthy ∧
      (fs.readData ino offset maxLen st).2.view = st.view := by
  unfold SimpleFS.readData
  split
  · exact ⟨hst, rfl⟩
  · split
    · exact ⟨hst, rfl⟩
    · split
      · exact ⟨hst, rfl⟩
      · dsimp only
        split
        · exact ⟨hst, rfl⟩
        · exact readLoop_view _ _ hst

theorem writeLoop_nil (hend : last / blockSz < blocks.length) (hst : st.Healthy) :
    ∃ st', SimpleFS.writeLoop
        ((blocks.drop ((last + 1) / blockSz)).take (last / blockSz + 1 - (last + 1) / blockSz))
        ((last + 1) / blockSz) (last / blockSz) (last + 1) last []
        (List.range' ((last + 1) / blockSz) (last / blockSz + 1 - (last + 1) / blockSz)) 0 st = (.ok (), st') ∧
      st'.Healthy ∧ st'.view = st.view := by
  rcases place_succ last with hnext | ⟨hsame, hmod⟩
  · rw [hnext, Nat.sub_self]
    exact ⟨st, rfl, hst, rfl⟩
  · have hblk : ((blocks.drop (last / blockSz)).take 1)[0]? = some blocks[last / blockSz] := by
      rw [getElem?_take_of_lt Nat.one_pos, getElem?_drop]
      exact getElem?_eq_getElem hend
    have hrange : SimpleFS.blkRange (last / blockSz) (last / blockSz) (last + 1) last (last / blockSz) =
        ((last + 1) % blockSz, (last + 1) % blockSz) := by
      simp only [SimpleFS.blkRange, if_true, hmod]
    obtain ⟨st₁, hfetch, hst₁, hview₁⟩ := Storage.fetch_view hst blocks[last / blockSz]
    have hlen := hst.view_length blocks[last / blockSz]
    have hslice : slice? ([] : Bytes) 0 (0 + 0) = some [] := rfl
    have hover : overwrite? (st.view blocks[last / blockSz]) ((last + 1) % blockSz)
        ((last + 1) % blockSz + 0) [] = some (st.view blocks[last / blockSz]) := by
      have hle : (last + 1) % blockSz ≤ (st.view blocks[last / blockSz]).length := by
        rw [hlen]
        exact (Nat.mod_lt _ (by decide)).le
      have hnil : ([] : Bytes).length = (last + 1) % blockSz - (last + 1) % blockSz := (Nat.sub_self _).symm
      refine (overwrite?_eq_some (Nat.le_refl _) hle hnil).trans ?_
      rw [append_nil, take_append_drop]
    obtain ⟨st₂, hput, hst₂, hview₂⟩ := Storage.put_view hst₁ blocks[last / blockSz] hlen
    refine ⟨st₂, ?_, hst₂, ?_⟩
    · rw [hsame, Nat.add_sub_cancel_left]
      simp only [range'_one, SimpleFS.writeLoop, hblk, hfetch, hrange, Nat.sub_self, hslice, hover, hput]
    · rw [hview₂, hview₁, Function.update_eq_self]

theorem Laid.writeData (h : Laid s) {buf : Bytes} (hino : s.fs.inodes[ino]? = some inode)
    (hfile : inode.inodeType = .file) (hlast : last + 1 = offset + buf.length) :
    ∃ st', s.fs.writeData ino offset buf s.st = (.ok buf.length,
        {s.fs.setInode ino {inode with
            blocks := inode.blocks ++ List.range' s.fs.nextBlk (last / blockSz + 1 - inode.blocks.length)
            size := if inode.size < offset + buf.length then offset + buf.length else inode.size} with
          nextBlk := s.fs.nextBlk + (last / blockSz + 1 - inode.blocks.length)}, st') ∧
      st'.Healthy ∧
      (inode.blocks ++ List.range' s.fs.nextBlk (last / blockSz + 1 - inode.blocks.length)).Nodup ∧
      Written (inode.blocks ++ List.range' s.fs.nextBlk (last / blockSz + 1 - inode.blocks.length))
        offset last buf (offset / blockSz) s.st.view st'.view := by
  have hneeded : offset + buf.length - 1 = last := by omega
  have hnodup : (inode.blocks ++
      List.range' s.fs.nextBlk (last / blockSz + 1 - inode.blocks.length)).Nodup := by
    rw [nodup_append]
    refine ⟨h.nodup ino inode hino, nodup_range', fun a ha b hb hab => ?_⟩
    have := h.used ino inode hino a ha
    have := mem_range'_1.mp hb
    omega
  have hend : last / blockSz < (inode.blocks ++
      List.range' s.fs.nextBlk (last / blockSz + 1 - inode.blocks.length)).length := by
    rw [length_append, length_range']
    omega
  have hloop : ∃ st', SimpleFS.writeLoop (((inode.blocks ++
        List.range' s.fs.nextBlk (last / blockSz + 1 - inode.blocks.length)).drop (offset / blockSz)).take
          (last / blockSz + 1 - offset / blockSz))
        (offset / blockSz) (last / blockSz) offset last buf
        (List.range' (offset / blockSz) (last / blockSz + 1 - offset / blockSz)) 0 s.st = (.ok (), st') ∧
      st'.Healthy ∧ Written (inode.blocks ++
        List.range' s.fs.nextBlk (last / blockSz + 1 - inode.blocks.length))
          offset last buf (offset / blockSz) s.st.view st'.view := by
    by_cases hle : offset ≤ last
    · have hdiv : offset / blockSz ≤ last / blockSz := Nat.div_le_div_right hle
      exact writeLoop_view hnodup hlast hle hend _ _ 0 h.healthy (le_refl _) (by omega)
        (by have := Nat.div_mul_le_self offset blockSz; omega)
    · have hbuf : buf = [] := eq_nil_of_length_eq_zero (by omega)
      have hoffset : offset = last + 1 := by omega
      subst hbuf hoffset
      obtain ⟨st', hloop, hst', hview⟩ := writeLoop_nil hend h.healthy
      refine ⟨st', hloop, hst', fun _ _ => by rw [hview], fun j k _ _ _ q _ => ?_⟩
      rw [if_neg (by omega), hview]
  obtain ⟨st', hloop, hst', hwritten⟩ := hloop
  refine ⟨st', ?_, hst', hnodup, hwritten⟩
  simp only [SimpleFS.writeData, hino, hfile, ne_eq, not_true_eq_false, if_false, SimpleFS.growBlocks, hneeded,
    hloop, SimpleFS.setInode, insert_insert]

end ChaosKernel.Fs
