import Mcsos.Base.Bitmap
import Mcsos.Base.CString
import Mcsos.Mcsfs1j.Journal

/-!
# The journalling file system

`m16_format`, `m16_mount`, `m16_write_file_ex`, `m16_read_file` and `m16_fsck`, with the helpers
they use. The inode table is the 2048 bytes of its four blocks, the root directory the 512 bytes of
its block; records inside them are addressed by their byte offset, as the casts of the source do.

A loop that looks for the first index with a property is `List.find?` over the range it runs
through. A loop that returns the same error at the first bad index is one test over the range.
-/

namespace Mcsos

namespace M16

/-! ## Structures -/

/-! `struct m16_super` -/

namespace Super

def magic (sb : Block) : ℕ := sb.load 8 0
def version (sb : Block) : ℕ := sb.load 4 8
def blockSize (sb : Block) : ℕ := sb.load 4 12
def rootDirLba (sb : Block) : ℕ := sb.load 4 44
def dataStartLba (sb : Block) : ℕ := sb.load 4 48
def cleanGeneration (sb : Block) : ℕ := sb.load 4 52

end Super

/-- `struct m16_inode inodes[M16_MAX_INODES]`, as raw bytes. -/
abbrev InodeTable := Buf 2048

/-! `struct m16_inode`, the inode number `i` of a table -/

namespace Inode

def used (t : InodeTable) (i : ℕ) : ℕ := t.load 4 (128 * i)
def kind (t : InodeTable) (i : ℕ) : ℕ := t.load 4 (128 * i + 4)
def size (t : InodeTable) (i : ℕ) : ℕ := t.load 4 (128 * i + 8)
/-- `direct[0]`, the only one of the four direct blocks that is ever used. -/
def direct0 (t : InodeTable) (i : ℕ) : ℕ := t.load 4 (128 * i + 12)

/-- The four assignments that make inode `i` a file, in the order of the source. -/
def setFile (t : InodeTable) (i size block : ℕ) : InodeTable :=
  (((t.store 4 (128 * i) 1).store 4 (128 * i + 4) 1).store 4 (128 * i + 8) size).store 4
    (128 * i + 12) block

end Inode

/-! `struct m16_dirent`, the entry number `i` of a directory block -/

namespace Dirent

def used (dir : Block) (i : ℕ) : ℕ := dir.load 4 (40 * i)
def ino (dir : Block) (i : ℕ) : ℕ := dir.load 4 (40 * i + 4)
/-- The 32 name bytes, with their index counted from the start of the name. -/
def name (dir : Block) (i : ℕ) : Mem := fun j ↦ dir.byte (40 * i + 8 + j)

/-- The assignments that fill entry `i`: the name field is zeroed and the name copied into it. -/
def fill (dir : Block) (i ino : ℕ) (name : CStr) : Block :=
  ((dir.store 4 (40 * i) 1).store 4 (40 * i + 4) ino).patch (40 * i + 8)
    ((Buf.zero 32).copyIn name.char (name.char.strlen maxName 0))

end Dirent

/-- The number of entries of a directory block. -/
def dirCount : ℕ := blockSize / 40

/-! ## Bitmaps, strings and searches -/

def bitmapSet (bm : Block) (bit : ℕ) : Block := Buf.ofFn 512 (Bitmap.set bm.byte bit)

def bitmapGet (bm : Block) (bit : ℕ) : Bool := Bitmap.test bm.byte bit

/-- `m16_streq` from character `i` on, with `k` characters left. -/
def streqFrom (a b : Mem) : ℕ → ℕ → Bool
  | 0, _ => true
  | k + 1, i =>
    if a i ≠ b i then false else if a i = 0 then true else streqFrom a b k (i + 1)

def streq (a b : Mem) : Bool := streqFrom a b maxName 0

def findFreeInode (ib : Block) : Option ℕ :=
  (List.range' 1 (maxInodes - 1)).find? fun i ↦ !bitmapGet ib i

def findFreeBlock (bb : Block) : Option ℕ :=
  (List.range' dataStartLba (maxBlocks - dataStartLba)).find? fun i ↦ !bitmapGet bb i

def findDirent (dir : Block) (name : CStr) : Option ℕ :=
  (List.range' 0 dirCount).find? fun i ↦
    decide (Dirent.used dir i ≠ 0) && streq (Dirent.name dir i) name.char

def findFreeDirent (dir : Block) : Option ℕ :=
  (List.range' 0 dirCount).find? fun i ↦ decide (Dirent.used dir i = 0)

/-! ## Transactions -/

/-- `m16_load_inode_table` from block `i` on, with `k` blocks left. -/
def loadInodeTableFrom : ℕ → ℕ → InodeTable → DevM InodeTable
  | _, 0, raw => pure raw
  | i, k + 1, raw => do
    let b ← readBlock (inodeTableLba + i)
    loadInodeTableFrom (i + 1) k (raw.patch (i * blockSize) b)

def loadInodeTable : DevM InodeTable := loadInodeTableFrom 0 inodeTableBlocks (Buf.zero 2048)

def storeInodeTable (tx : Tx) (inodes : InodeTable) : DevM Tx := do
  failIf (tx.length + inodeTableBlocks > journalMaxRecords) .nospc
  return tx ++ (List.range inodeTableBlocks).map fun i ↦
    (inodeTableLba + i, inodes.slice (i * blockSize) 512)

def txAdd (tx : Tx) (lba : ℕ) (payload : Block) : DevM Tx := do
  failIf (tx.length ≥ journalMaxRecords) .nospc
  return tx ++ [(lba, payload)]

/-! ## The operations -/

/-- The superblock that `m16_format` writes. -/
def formatSuper (totalBlocks : ℕ) : Block :=
  (Buf.zero 512).store 8 0 magic
    |>.store 4 8 version
    |>.store 4 12 blockSize
    |>.store 4 16 totalBlocks
    |>.store 4 20 journalStart
    |>.store 4 24 journalBlocks
    |>.store 4 28 inodeBitmapLba
    |>.store 4 32 blockBitmapLba
    |>.store 4 36 inodeTableLba
    |>.store 4 40 inodeTableBlocks
    |>.store 4 44 rootDirLba
    |>.store 4 48 dataStartLba
    |>.store 4 52 1

/-- The inode table that `m16_format` writes: only the root directory, inode 0. -/
def formatInodes : InodeTable :=
  ((((Buf.zero 2048).store 4 0 1).store 4 4 2).store 4 8 0).store 4 12 rootDirLba

def format : DevM Unit := do
  modify fun dev ↦ { dev with blocks := fun _ ↦ Buf.zero 512 }
  let dev ← get
  writeBlock 0 (formatSuper dev.totalBlocks)
  writeBlock inodeBitmapLba (bitmapSet (Buf.zero 512) 0)
  writeBlock blockBitmapLba ((List.range dataStartLba).foldl bitmapSet (Buf.zero 512))
  writeAll ((List.range inodeTableBlocks).map fun i ↦
    (inodeTableLba + i, formatInodes.slice (i * blockSize) 512))
  writeBlock rootDirLba (Buf.zero 512)
  journalClear

/-- `m16_mount`, returning the superblock. -/
def mount : DevM Block := do
  journalRecover
  let sb ← readBlock 0
  failIf (Super.magic sb ≠ magic ∨ Super.version sb ≠ version ∨
    Super.blockSize sb ≠ blockSize) .corrupt
  failIf (Super.dataStartLba sb ≠ dataStartLba ∨ Super.rootDirLba sb ≠ rootDirLba) .corrupt
  return sb

/-- A search that has to succeed: its negative result is returned as the error `e`. -/
def orFail (r : Option ℕ) (e : Err) : DevM ℕ :=
  match r with
  | some i => pure i
  | none => throw e

/-- `m16_write_file_ex`. A null pointer is `none`; `data` is the memory from the pointer on. -/
def writeFileEx (name : Option CStr) (data : Option Mem) (size : ℕ)
    (stopAfterCommitRecord : Bool) : DevM Unit :=
  match name, data with
  | some name, some data => do
    let nameLen := name.char.strlen maxName 0
    failIf (nameLen = 0 ∨ nameLen ≥ maxName) .toolong
    failIf (size > blockSize) .inval
    let sb ← mount
    let ib ← readBlock inodeBitmapLba
    let bb ← readBlock blockBitmapLba
    let inodes ← loadInodeTable
    let dir ← readBlock rootDirLba
    failIf (findDirent dir name).isSome .exists
    let ino ← orFail (findFreeInode ib) .nospc
    let dataBlock ← orFail (findFreeBlock bb) .nospc
    let slot ← orFail (findFreeDirent dir) .nospc
    let dataBlk := (Buf.zero 512).copyIn data size
    let ib := bitmapSet ib ino
    let bb := bitmapSet bb dataBlock
    let inodes := Inode.setFile inodes ino size dataBlock
    let dir := Dirent.fill dir slot ino name
    let tx ← txAdd [] inodeBitmapLba ib
    let tx ← txAdd tx blockBitmapLba bb
    let tx ← storeInodeTable tx inodes
    journalCommit tx ((Super.cleanGeneration sb + 1) % 2 ^ 32) false
    let tx ← txAdd [] rootDirLba dir
    let tx ← txAdd tx dataBlock dataBlk
    journalCommit tx ((Super.cleanGeneration sb + 2) % 2 ^ 32) stopAfterCommitRecord
  | _, _ => throw .inval

def writeFile (name : Option CStr) (data : Option Mem) (size : ℕ) : DevM Unit :=
  writeFileEx name data size false

/-- The bytes that `m16_copy(out, blk, size)` reads: those of the local block, then whatever
follows it on the stack. -/
def copyOut (past : Mem) (blk : Block) (size : ℕ) : List UInt8 :=
  (List.range size).map fun i ↦ if i < blockSize then blk.byte i else past i

/-- `m16_read_file`, returning the bytes copied to `out`; their number is `*out_size`. The memory
after the local buffer `blk` is the parameter `past`. -/
def readFile (past : Mem) (name : Option CStr) (outCap : ℕ) : DevM (List UInt8) :=
  match name with
  | some name => do
    let _ ← mount
    let inodes ← loadInodeTable
    let dir ← readBlock rootDirLba
    let slot ← orFail (findDirent dir name) .noent
    let ino := Dirent.ino dir slot
    failIf (ino ≥ maxInodes ∨ Inode.used inodes ino = 0 ∨ Inode.kind inodes ino ≠ 1) .corrupt
    let dev ← get
    failIf (Inode.size inodes ino > outCap ∨ Inode.direct0 inodes ino ≥ dev.totalBlocks) .inval
    let blk ← readBlock (Inode.direct0 inodes ino)
    return copyOut past blk (Inode.size inodes ino)
  | none => throw .inval

/-- The checks of `m16_fsck` on directory entry `i`. -/
def direntOk (totalBlocks : ℕ) (ib bb : Block) (inodes : InodeTable) (dir : Block) (i : ℕ) :
    Prop :=
  Dirent.used dir i ≠ 0 →
    (Dirent.ino dir i < maxInodes ∧ bitmapGet ib (Dirent.ino dir i) = true) ∧
    (Inode.used inodes (Dirent.ino dir i) ≠ 0 ∧ Inode.kind inodes (Dirent.ino dir i) = 1 ∧
      Inode.size inodes (Dirent.ino dir i) ≤ blockSize) ∧
    dataStartLba ≤ Inode.direct0 inodes (Dirent.ino dir i) ∧
    Inode.direct0 inodes (Dirent.ino dir i) < totalBlocks ∧
    bitmapGet bb (Inode.direct0 inodes (Dirent.ino dir i)) = true

instance (totalBlocks : ℕ) (ib bb : Block) (inodes : InodeTable) (dir : Block) :
    DecidablePred (direntOk totalBlocks ib bb inodes dir) := fun _ ↦
  inferInstanceAs (Decidable (_ → _))

def fsck : DevM Unit := do
  let _ ← mount
  let ib ← readBlock inodeBitmapLba
  let bb ← readBlock blockBitmapLba
  let inodes ← loadInodeTable
  let dir ← readBlock rootDirLba
  failIf (bitmapGet ib 0 = false ∨ Inode.used inodes 0 ≠ 1 ∨ Inode.kind inodes 0 ≠ 2 ∨
    Inode.direct0 inodes 0 ≠ rootDirLba) .corrupt
  failIf (¬∀ b < dataStartLba, bitmapGet bb b = true) .corrupt
  let dev ← get
  failIf (¬∀ i < dirCount, direntOk dev.totalBlocks ib bb inodes dir i) .corrupt

end M16

end Mcsos
