import ChaosKernel.Fs.BlockCache
import ChaosKernel.Base.Run

/-! The in-memory file system.

Inodes are numbered; inode 0 is the root directory. A file is a list of block
numbers and a size, and its bytes live in the block store. Inode and block
numbers are handed out in increasing order and never again. -/
namespace ChaosKernel.Fs
open Base

inductive InodeType where
  | file
  | directory
  deriving DecidableEq

structure Inode where
  ino : Nat
  inodeType : InodeType
  blocks : List Nat
  size : Nat
  children : Std.ExtTreeMap String Nat

def Inode.newFile (ino : Nat) : Inode := ⟨ino, .file, [], 0, ∅⟩
def Inode.newDir (ino : Nat) : Inode := ⟨ino, .directory, [], 0, ∅⟩

structure SimpleFS where
  inodes : BTreeMap Inode
  nextIno : Nat
  nextBlk : Nat

namespace SimpleFS

def new : SimpleFS := ⟨(∅ : BTreeMap Inode).insert 0 (Inode.newDir 0), 1, 0⟩

def setInode (fs : SimpleFS) (ino : Nat) (inode : Inode) : SimpleFS :=
  {fs with inodes := fs.inodes.insert ino inode}

/-- The inode number is taken before the directory is looked at, so a failed call uses it up. -/
def createFile (fs : SimpleFS) (dirIno : Nat) (name : String) :
    Except (Stop Errno) Nat × SimpleFS :=
  let ino := fs.nextIno
  let fs := {fs with nextIno := fs.nextIno + 1}
  match fs.inodes[dirIno]? with
  | none => (.error (.err .enoent), fs)
  | some dir =>
    if dir.inodeType ≠ .directory then (.error (.err .enotdir), fs)
    else
      let dir := {dir with children := dir.children.insert name ino}
      (.ok ino, (fs.setInode dirIno dir).setInode ino (Inode.newFile ino))

/-- A name that is taken is refused, which `createFile` does not do. -/
def createDir (fs : SimpleFS) (dirIno : Nat) (name : String) :
    Except (Stop Errno) Nat × SimpleFS :=
  let ino := fs.nextIno
  let fs := {fs with nextIno := fs.nextIno + 1}
  match fs.inodes[dirIno]? with
  | none => (.error (.err .enoent), fs)
  | some dir =>
    if dir.inodeType ≠ .directory then (.error (.err .enotdir), fs)
    else if dir.children.contains name then (.error (.err .eexist), fs)
    else
      let dir := {dir with children := dir.children.insert name ino}
      (.ok ino, (fs.setInode dirIno dir).setInode ino (Inode.newDir ino))

/-- The inode goes whatever it is. -/
def unlink (fs : SimpleFS) (dirIno : Nat) (name : String) : Except (Stop Errno) Unit × SimpleFS :=
  match fs.inodes[dirIno]? with
  | none => (.error (.err .enoent), fs)
  | some dir =>
    if dir.inodeType ≠ .directory then (.error (.err .enotdir), fs)
    else
      match dir.children[name]? with
      | none => (.error (.err .enoent), fs)
      | some targetIno =>
        let fs := fs.setInode dirIno {dir with children := dir.children.erase name}
        (.ok (), {fs with inodes := fs.inodes.erase targetIno})

/-- `while blocks.len() < count { blocks.push(self.alloc_block()) }`, with the next free
block number after it. -/
def growBlocks (blocks : List Nat) (nextBlk count : Nat) : List Nat × Nat :=
  let missing := count - blocks.length
  (blocks ++ List.range' nextBlk missing, nextBlk + missing)

/-! ### Reading -/

/-- The part of block `bi` an access to `[offset, offset + n)` touches, when the access
starts in block `startBlk` and ends in block `endBlk`. -/
def blkRange (startBlk endBlk offset last bi : Nat) : Nat × Nat :=
  (if bi = startBlk then offset % blockSz else 0, if bi = endBlk then last % blockSz + 1 else blockSz)

/-- The loop of `read_data` over the block indices still to read. -/
def readLoop (blocks : List Nat) (startBlk endBlk offset last : Nat) :
    List Nat → Bytes → Storage → Except (Stop Errno) Bytes × Storage
  | [], result, st => (.ok result, st)
  | bi :: rest, result, st =>
    match blocks[bi]? with
    | none => (.ok result, st)
    | some blkNo =>
      match st.fetch blkNo with
      | (.error e, st) => (.error e, st)
      | (.ok none, st) => (.error (.err .ioError), st)
      | (.ok (some blkData), st) =>
        let (blkOff, blkEnd) := blkRange startBlk endBlk offset last bi
        match slice? blkData blkOff blkEnd with
        | none => (.error .panic, st)
        | some part => readLoop blocks startBlk endBlk offset last rest (result ++ part) st

def readData (fs : SimpleFS) (ino offset maxLen : Nat) (st : Storage) :
    Except (Stop Errno) Bytes × Storage :=
  match fs.inodes[ino]? with
  | none => (.error (.err .enoent), st)
  | some inode =>
    if inode.inodeType ≠ .file then (.error (.err .eisdir), st)
    else if inode.size ≤ offset then (.ok [], st)
    else
      let n := min maxLen (inode.size - offset)
      -- `offset + n - 1` underflows when both are zero
      if offset + n = 0 then (.error .panic, st)
      else
        let startBlk := offset / blockSz
        let last := offset + n - 1
        let endBlk := last / blockSz
        readLoop inode.blocks startBlk endBlk offset last
          (List.range' startBlk (endBlk + 1 - startBlk)) [] st

/-! ### Writing -/

/-- The loop of `write_data` over the block indices still to write. -/
def writeLoop (blockList : List Nat) (startBlk endBlk offset last : Nat) (buf : Bytes) :
    List Nat → Nat → Storage → Except (Stop Errno) Unit × Storage
  | [], _, st => (.ok (), st)
  | bi :: rest, total, st =>
    match blockList[bi - startBlk]? with
    | none => (.error .panic, st)
    | some blkNo =>
      match st.fetch blkNo with
      | (.error e, st) => (.error e, st)
      | (.ok none, st) => (.error (.err .ioError), st)
      | (.ok (some blkData), st) =>
        let (blkOff, blkEnd) := blkRange startBlk endBlk offset last bi
        let copyLen := blkEnd - blkOff
        match slice? buf total (total + copyLen) with
        | none => (.error .panic, st)
        | some part =>
          match overwrite? blkData blkOff (blkOff + copyLen) part with
          | none => (.error .panic, st)
          | some blkData =>
            match st.put blkNo blkData with
            | (.error e, st) => (.error e, st)
            | (.ok (), st) =>
              writeLoop blockList startBlk endBlk offset last buf rest (total + copyLen) st

def writeData (fs : SimpleFS) (ino offset : Nat) (buf : Bytes) (st : Storage) :
    Except (Stop Errno) Nat × SimpleFS × Storage :=
  match fs.inodes[ino]? with
  | none => (.error (.err .enoent), fs, st)
  | some inode =>
    if inode.inodeType ≠ .file then (.error (.err .eisdir), fs, st)
    else
      let needed := offset + buf.length
      let startBlk := offset / blockSz
      let endBlk := (needed - 1) / blockSz
      let (blocks, nextBlk) := growBlocks inode.blocks fs.nextBlk (endBlk + 1)
      let inode := {inode with blocks := blocks}
      let fs := {fs.setInode ino inode with nextBlk := nextBlk}
      let blockList := (blocks.drop startBlk).take (endBlk + 1 - startBlk)
      match writeLoop blockList startBlk endBlk offset (needed - 1) buf
          (List.range' startBlk (endBlk + 1 - startBlk)) 0 st with
      | (.error e, st) => (.error e, fs, st)
      | (.ok (), st) =>
        (.ok buf.length,
          fs.setInode ino {inode with size := if inode.size < needed then needed else inode.size}, st)

/-- The type of the inode is not looked at. -/
def truncate (fs : SimpleFS) (ino size : Nat) : Except (Stop Errno) Unit × SimpleFS :=
  match fs.inodes[ino]? with
  | none => (.error (.err .enoent), fs)
  | some inode =>
    let needed := (size + blockSz - 1) / blockSz
    (.ok (), fs.setInode ino {inode with blocks := inode.blocks.take needed, size := size})

end SimpleFS
end ChaosKernel.Fs
