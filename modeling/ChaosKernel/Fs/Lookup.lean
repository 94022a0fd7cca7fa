import ChaosKernel.Fs.SimpleFS

/-! Paths.

A path is bytes of user memory up to the first zero. Bytes that are no UTF-8 are
replaced as the standard library's lossy decoding does it: each longest part of
them that begins a character becomes one replacement character. `lookup` walks
the names between the slashes from the root. -/
namespace ChaosKernel.Fs
open Base

/-! ### Bytes to text -/

def isContinuation (b : UInt8) : Bool := 0x80 ≤ b ∧ b < 0xC0

/-- Whether `b` may follow the first byte of a character of three bytes. -/
def second3 (first b : UInt8) : Bool :=
  if first = 0xE0 then 0xA0 ≤ b ∧ b < 0xC0
  else if first = 0xED then 0x80 ≤ b ∧ b < 0xA0
  else isContinuation b

/-- Whether `b` may follow the first byte of a character of four bytes. -/
def second4 (first b : UInt8) : Bool :=
  if first = 0xF0 then 0x90 ≤ b ∧ b < 0xC0
  else if first = 0xF4 then 0x80 ≤ b ∧ b < 0x90
  else isContinuation b

def replacement : Char := Char.ofNat 0xFFFD

/-- The low six bits. -/
def payload (b : UInt8) : Nat := b.toNat % 64

/-- The first character of `first :: rest`, and how many bytes of `rest` go into it. A byte that is
missing reads as zero, which continues nothing. -/
def firstChar (first : UInt8) (rest : Bytes) : Char × Nat :=
  let b1 := rest.getD 0 0
  let b2 := rest.getD 1 0
  let b3 := rest.getD 2 0
  if first < 0x80 then (Char.ofNat first.toNat, 0)
  else if 0xC2 ≤ first ∧ first < 0xE0 then
    if isContinuation b1 then (Char.ofNat (first.toNat % 32 * 64 + payload b1), 1) else (replacement, 0)
  else if 0xE0 ≤ first ∧ first < 0xF0 then
    if second3 first b1 then
      if isContinuation b2 then
        (Char.ofNat (first.toNat % 16 * 4096 + payload b1 * 64 + payload b2), 2)
      else (replacement, 1)
    else (replacement, 0)
  else if 0xF0 ≤ first ∧ first < 0xF5 then
    if second4 first b1 then
      if isContinuation b2 then
        if isContinuation b3 then
          (Char.ofNat (first.toNat % 8 * 262144 + payload b1 * 4096 + payload b2 * 64 + payload b3), 3)
        else (replacement, 2)
      else (replacement, 1)
    else (replacement, 0)
  else (replacement, 0)

/-- Every round takes a byte, so a fuel of the length lasts. -/
def decodeLoop : Nat → Bytes → List Char
  | _, [] => []
  | 0, _ => []
  | fuel + 1, first :: rest =>
    let (c, n) := firstChar first rest
    c :: decodeLoop fuel (rest.drop n)

def fromUtf8Lossy (bytes : Bytes) : String := String.ofList (decodeLoop bytes.length bytes)

/-- The path at the start of a buffer; an empty one is named after the address it was read from. -/
def pathOf (pathBytes : Bytes) (stem : String) (addr : Nat) : String :=
  let pathLen := pathBytes.findIdx fun b => b == 0
  if 0 < pathLen then fromUtf8Lossy (pathBytes.take pathLen) else stem ++ toString (addr % 256)

/-! ### The walk -/

/-- `ino` is `usizeMax` for a last name that is not there. -/
structure PathLookup where
  ino : Nat
  parentIno : Nat
  name : String

namespace SimpleFS

def components (path : String) : List String :=
  ((path.toList.splitOn '/').filter fun name => name ≠ []).map String.ofList

/-- The loop of `lookup` from directory `currentIno` on. -/
def lookupLoop (fs : SimpleFS) (currentIno : Nat) : List String → Except (Stop Errno) PathLookup
  | [] => .ok ⟨currentIno, currentIno, ""⟩
  | name :: rest =>
    match fs.inodes[currentIno]? with
    | none => .error (.err .enoent)
    | some inode =>
      if inode.inodeType ≠ .directory then .error (.err .enotdir)
      else if rest = [] then .ok ⟨inode.children[name]?.getD usizeMax, currentIno, name⟩
      else
        match inode.children[name]? with
        | none => .error (.err .enoent)
        | some ino => lookupLoop fs ino rest

def lookup (fs : SimpleFS) (path : String) : Except (Stop Errno) PathLookup :=
  if path = "" then .error (.err .enoent)
  else if components path = [] then .ok ⟨0, 0, ""⟩
  else fs.lookupLoop 0 (components path)

end SimpleFS
end ChaosKernel.Fs
