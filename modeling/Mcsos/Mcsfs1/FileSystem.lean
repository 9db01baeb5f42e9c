import Mcsos.Base.Bitmap
import Mcsos.Base.CString
import Mcsos.Base.FaultyDisk

/-!
# The file system

`mcsfs1.c`: a superblock, two bitmap blocks, four blocks of inodes, a root directory of one block
and data blocks, with `mcsfs1_format`, `mcsfs1_mount`, `mcsfs1_create`, `mcsfs1_write`,
`mcsfs1_read`, `mcsfs1_unlink` and `mcsfs1_fsck`. A structure on the disk is its bytes, and its
fields are read from them.

A loop that looks for the first index with a property is `List.find?` over the range it runs
through. Every callback of the device may fail at every call.
-/

namespace Mcsos

namespace Mcsfs1

open FaultyDisk

/-! ## Constants -/

def blockSize : ℕ := 512
def magic : ℕ := 0x31465343
def version : ℕ := 1
def maxInodes : ℕ := 32
def directBlocks : ℕ := 8
def maxName : ℕ := 27
def rootIno : ℕ := 1
def modeFile : ℕ := 1
def modeDir : ℕ := 2
def sbLba : ℕ := 0
def inodeBmapLba : ℕ := 1
def blockBmapLba : ℕ := 2
def inodeTableLba : ℕ := 3
def inodeTableBlocks : ℕ := 4
def rootDirLba : ℕ := 7
def dataStartLba : ℕ := 8
def minBlocks : ℕ := 16
def direntCount : ℕ := 16

/-- The error codes `MCSFS1_ERR_*` other than `MCSFS1_ERR_OK`. -/
inductive Err where
  | inval
  | io
  | nospc
  | exist
  | noent
  | nametoolong
  | corrupt
  | isdir
  | range
  deriving DecidableEq, Repr

/-! ## Structures on the disk -/

/-- One block. -/
abbrev Block := Buf 512

/-! `struct mcsfs1_super_disk` -/

namespace Super

def magic (sb : Block) : ℕ := sb.load 4 0
def version (sb : Block) : ℕ := sb.load 4 4
def blockSize (sb : Block) : ℕ := sb.load 4 8
def blockCount (sb : Block) : ℕ := sb.load 4 12
def inodeCount (sb : Block) : ℕ := sb.load 4 16
def inodeBmapLba (sb : Block) : ℕ := sb.load 4 20
def blockBmapLba (sb : Block) : ℕ := sb.load 4 24
def inodeTableLba (sb : Block) : ℕ := sb.load 4 28
def rootIno (sb : Block) : ℕ := sb.load 4 36
def rootDirLba (sb : Block) : ℕ := sb.load 4 40
def dataStartLba (sb : Block) : ℕ := sb.load 4 44

end Super

/-- `struct mcsfs1_inode_disk` -/
abbrev Inode := Buf 60

namespace Inode

def mode (x : Inode) : ℕ := x.load 2 0
def size (x : Inode) : ℕ := x.load 4 4
/-- `direct[i]`. The index is not checked: at and above `MCSFS1_DIRECT_BLOCKS` the access leaves the
array. -/
def direct (x : Inode) (i : ℕ) : ℕ := x.load 4 (8 + 4 * i)

def setSize (x : Inode) (v : ℕ) : Inode := x.store 4 4 v
def setDirect (x : Inode) (i v : ℕ) : Inode := x.store 4 (8 + 4 * i) v

/-- An inode with one link and one direct block. -/
def make (mode size direct0 : ℕ) : Inode :=
  (Buf.zero 60).store 2 0 mode |>.store 2 2 1 |>.store 4 4 size |>.store 4 8 direct0

end Inode

/-- `struct mcsfs1_dirent_disk` -/
abbrev Dirent := Buf 32

namespace Dirent

def ino (e : Dirent) : ℕ := e.load 4 0
def type (e : Dirent) : ℕ := e.load 1 4
/-- The first byte of the name is byte 5 of the entry. -/
def nameOffset : ℕ := 5

/-- The entry that `mcsfs1_create` fills in: the name field is zeroed, the name copied into it. -/
def make (ino type : ℕ) (name : Mem) (nameLen : ℕ) : Dirent :=
  ((Buf.zero 32).store 4 0 ino |>.store 1 4 type).patch nameOffset
    ((Buf.zero 27).copyIn name nameLen)

end Dirent

/-- The entry number `i` of a directory block. -/
def direntAt (dir : Block) (i : ℕ) : Dirent := dir.slice (32 * i) 32

/-! ## Device -/

/-- `struct mcsfs1_blkdev`: the size, which callbacks are not `NULL`, and what they answer. -/
structure Blkdev where
  blockCount : ℕ
  read : Bool
  write : Bool
  flush : Bool
  /-- Whether the callback call with this number fails, counting all of them. -/
  fails : ℕ → Bool
  /-- The byte after the block that `find_dirent` has on its stack, after so many callback calls. -/
  past : ℕ → UInt8

/-- A function of the source on the device: an error code or a result, and the disk after it. -/
abbrev FsM := EStateM Err (Disk Block)

variable (dev : Blkdev)

def devRead (lba : ℕ) : FsM Block := do
  failIf (dev.read = false ∨ lba ≥ dev.blockCount) .inval
  FaultyDisk.read dev.fails .io lba

def devWrite (lba : ℕ) (buf : Block) : FsM Unit := do
  failIf (dev.write = false ∨ lba ≥ dev.blockCount) .inval
  FaultyDisk.write dev.fails .io lba buf

def devFlush : FsM Unit := do
  failIf (dev.flush = false) .inval
  FaultyDisk.flush dev.fails .io

def bitSet (b : Block) (bit : ℕ) : Block := Buf.ofFn 512 (Bitmap.set b.byte bit)

def bitClear (b : Block) (bit : ℕ) : Block := Buf.ofFn 512 (Bitmap.clear b.byte bit)

def bitTest (b : Block) (bit : ℕ) : Bool := Bitmap.test b.byte bit

/-! ## Names -/

/-- The bytes that a pointer points to; the bytes behind `NULL` are never read. -/
def bytesAt (p : Option Mem) : Mem := p.getD fun _ ↦ 0

def strlenBound (s : Option Mem) (maxPlusOne : ℕ) : ℕ :=
  match s with
  | none => maxPlusOne
  | some m => m.strlen maxPlusOne 0

def validName (name : Option Mem) : Except Err ℕ :=
  let n := strlenBound name (maxName + 1)
  if n = 0 then .error .inval
  else if n > maxName then .error .nametoolong
  else if ∃ i < n, bytesAt name i = '/'.toUInt8 then .error .inval
  else .ok n

/-! ## Superblock, inodes and bitmaps -/

def loadSuper : FsM Block := do
  let sb ← devRead dev sbLba
  failIf (Super.magic sb ≠ magic ∨ Super.version sb ≠ version ∨ Super.blockSize sb ≠ blockSize)
    .corrupt
  failIf (Super.blockCount sb ≠ dev.blockCount ∨ Super.inodeCount sb ≠ maxInodes) .corrupt
  failIf (Super.inodeBmapLba sb ≠ inodeBmapLba ∨ Super.blockBmapLba sb ≠ blockBmapLba ∨
    Super.inodeTableLba sb ≠ inodeTableLba) .corrupt
  failIf (Super.rootIno sb ≠ rootIno ∨ Super.rootDirLba sb ≠ rootDirLba ∨
    Super.dataStartLba sb ≠ dataStartLba) .corrupt
  failIf (Super.dataStartLba sb ≥ Super.blockCount sb) .corrupt
  pure sb

/-- The number of inodes in a block. -/
def inodesPerBlock : ℕ := blockSize / 60

/-- The block that holds an inode. -/
def inodeLba (ino : ℕ) : ℕ := inodeTableLba + (ino - 1) / inodesPerBlock

/-- The offset of an inode in its block. -/
def inodeOff (ino : ℕ) : ℕ := (ino - 1) % inodesPerBlock * 60

def readInode (ino : ℕ) : FsM Inode := do
  failIf (ino = 0 ∨ ino > maxInodes) .inval
  failIf (inodeLba ino ≥ dataStartLba) .corrupt
  let block ← devRead dev (inodeLba ino)
  pure (block.slice (inodeOff ino) 60)

def writeInode (ino : ℕ) (inode : Inode) : FsM Unit := do
  failIf (ino = 0 ∨ ino > maxInodes) .inval
  failIf (inodeLba ino ≥ dataStartLba) .corrupt
  let block ← devRead dev (inodeLba ino)
  devWrite dev (inodeLba ino) (block.patch (inodeOff ino) inode)

def loadBmaps : FsM (Block × Block) := do
  let ib ← devRead dev inodeBmapLba
  let bb ← devRead dev blockBmapLba
  pure (ib, bb)

def storeBmaps (ib bb : Block) : FsM Unit := do
  devWrite dev inodeBmapLba ib
  devWrite dev blockBmapLba bb

/-! ## Directory -/

/-- The bytes at the name of entry `i`: after the last entry of the block comes the byte `past`. -/
def nameAt (dir : Block) (past : UInt8) (i : ℕ) : Mem := fun j ↦
  if 32 * i + Dirent.nameOffset + j < 512 then dir.byte (32 * i + Dirent.nameOffset + j) else past

/-- The first used entry whose name is the first `nameLen` bytes of `name`. -/
def findName (dir : Block) (past : UInt8) (name : Mem) (nameLen : ℕ) : Option ℕ :=
  (List.range direntCount).find? fun i ↦
    decide ((direntAt dir i).ino ≠ 0 ∧ (nameAt dir past i).strlen (maxName + 1) 0 = nameLen ∧
      ∀ j < nameLen, nameAt dir past i j = name j)

/-- `find_dirent`: the slot and the inode number. -/
def findDirent (name : Option Mem) : FsM (ℕ × ℕ) := do
  let nameLen ← ofExcept (validName name)
  let block ← devRead dev rootDirLba
  let past ← observe dev.past
  match findName block past (bytesAt name) nameLen with
  | some i => pure (i, (direntAt block i).ino)
  | none => throw .noent

/-! ## Allocation -/

/-- The first inode number from 2 on that is not in use. -/
def findFreeInode (ib : Block) : Option ℕ :=
  (List.range' 2 (maxInodes - 1)).find? fun i ↦ !bitTest ib i

/-- The first data block that is not in use. -/
def findFreeBlock (bb : Block) : Option ℕ :=
  (List.range' dataStartLba (dev.blockCount - dataStartLba)).find? fun b ↦ !bitTest bb b

def allocInodeBlock : FsM (ℕ × ℕ) := do
  let (ib, bb) ← loadBmaps dev
  match findFreeInode ib with
  | none => throw .nospc
  | some ino =>
    match findFreeBlock dev bb with
    | none => throw .nospc
    | some lba => do
      storeBmaps dev (bitSet ib ino) (bitSet bb lba)
      pure (ino, lba)

def allocDataBlock : FsM ℕ := do
  let (ib, bb) ← loadBmaps dev
  match findFreeBlock dev bb with
  | none => throw .nospc
  | some b => do
    storeBmaps dev ib (bitSet bb b)
    pure b

/-- The block bitmap without the blocks of an inode. -/
def clearDirect (inode : Inode) (bb : Block) : Block :=
  (List.range directBlocks).foldl (fun bb i ↦
    if inode.direct i ≠ 0 ∧ inode.direct i < dev.blockCount then bitClear bb (inode.direct i)
    else bb) bb

def freeInodeAndBlocks (ino : ℕ) (inode : Inode) : FsM Unit := do
  let (ib, bb) ← loadBmaps dev
  storeBmaps dev (bitClear ib ino) (clearDirect dev inode bb)

/-! ## `mcsfs1_format` and `mcsfs1_mount` -/

/-- The superblock that `mcsfs1_format` writes. -/
def formatSuper : Block :=
  (Buf.zero 512).store 4 0 magic
    |>.store 4 4 version
    |>.store 4 8 blockSize
    |>.store 4 12 dev.blockCount
    |>.store 4 16 maxInodes
    |>.store 4 20 inodeBmapLba
    |>.store 4 24 blockBmapLba
    |>.store 4 28 inodeTableLba
    |>.store 4 32 inodeTableBlocks
    |>.store 4 36 rootIno
    |>.store 4 40 rootDirLba
    |>.store 4 44 dataStartLba
    |>.store 4 48 1

/-- The inode bitmap that `mcsfs1_format` writes. -/
def formatIb : Block := bitSet (bitSet (Buf.zero 512) 0) rootIno

/-- The block bitmap that `mcsfs1_format` writes. -/
def formatBb : Block :=
  bitSet ((List.range dataStartLba).foldl bitSet (Buf.zero 512)) rootDirLba

/-- The loop of `mcsfs1_format` over the blocks listed. -/
def zeroBlocks : List ℕ → FsM Unit
  | [] => pure ()
  | lba :: lbas => do
    devWrite dev lba (Buf.zero 512)
    zeroBlocks lbas

/-- `mcsfs1_format`; `dev` is `none` for `NULL`. -/
def mcsfs1Format : Option Blkdev → FsM Unit
  | none => throw .inval
  | some dev => do
    failIf (dev.blockCount < minBlocks ∨ dev.blockCount > blockSize * 8) .inval
    zeroBlocks dev (List.range dev.blockCount)
    devWrite dev sbLba (formatSuper dev)
    storeBmaps dev formatIb formatBb
    writeInode dev rootIno (Inode.make modeDir blockSize rootDirLba)
    devFlush dev

structure Mount where
  dev : Blkdev
  blockCount : ℕ
  dataStart : ℕ

/-- `mcsfs1_mount`; `dev` is `none` for `NULL`, and `mnt` is not `NULL`. -/
def mcsfs1Mount : Option Blkdev → FsM Mount
  | none => throw .inval
  | some dev => do
    let sb ← loadSuper dev
    let root ← readInode dev rootIno
    failIf (root.mode ≠ modeDir ∨ root.direct 0 ≠ rootDirLba) .corrupt
    pure ⟨dev, Super.blockCount sb, Super.dataStartLba sb⟩

/-! ## The operations

The mount is `none` when `mnt` or `mnt->dev` is `NULL`. -/

def mcsfs1Create (mnt : Option Mount) (name : Option Mem) : FsM Unit :=
  match mnt with
  | none => throw .inval
  | some ⟨dev, _, _⟩ => do
    let nameLen ← ofExcept (validName name)
    -- every failure of `find_dirent` counts as "not found"
    let found ← succeeds (findDirent dev name)
    failIf (found = true) .exist
    let dirBlock ← devRead dev rootDirLba
    match (List.range direntCount).find? fun i ↦ (direntAt dirBlock i).ino == 0 with
    | none => throw .nospc
    | some freeSlot => do
      let (ino, firstData) ← allocInodeBlock dev
      writeInode dev ino (Inode.make modeFile 0 firstData)
      devWrite dev rootDirLba
        (dirBlock.patch (32 * freeSlot) (Dirent.make ino modeFile (bytesAt name) nameLen))
      devFlush dev

/-- The number of blocks for `len` bytes, computed in 32 bits. -/
def blocksFor (len : ℕ) : ℕ := (len + blockSize - 1) % 2 ^ 32 / blockSize

/-- The first loop of `mcsfs1_write`, from `direct[i]` on with `k` entries left. -/
def allocDirect : ℕ → ℕ → Inode → FsM Inode
  | _, 0, inode => pure inode
  | i, k + 1, inode => do
    if inode.direct i = 0 then
      let b ← allocDataBlock dev
      allocDirect (i + 1) k (inode.setDirect i b)
    else allocDirect (i + 1) k inode

/-- The second loop of `mcsfs1_write`, from `direct[i]` on with `k` blocks left. -/
def writeBlocks (inode : Inode) (buf : Mem) (len : ℕ) : ℕ → ℕ → ℕ → FsM Unit
  | _, 0, _ => pure ()
  | i, k + 1, written => do
    let chunk := min (len - written) blockSize
    devWrite dev (inode.direct i) ((Buf.zero 512).copyIn (fun j ↦ buf (written + j)) chunk)
    writeBlocks inode buf len (i + 1) k (written + chunk)

/-- `mcsfs1_write`; `buf` is `none` for `NULL`. -/
def mcsfs1Write (mnt : Option Mount) (name : Option Mem) (buf : Option Mem) (len : ℕ) : FsM Unit :=
  match mnt with
  | none => throw .inval
  | some ⟨dev, _, _⟩ => do
    failIf (buf.isNone ∧ len ≠ 0) .inval
    failIf (len > directBlocks * blockSize) .range
    let (_, ino) ← findDirent dev name
    let inode ← readInode dev ino
    failIf (inode.mode ≠ modeFile) .isdir
    let blocksNeeded := if blocksFor len = 0 then 1 else blocksFor len
    let inode ← allocDirect dev 0 blocksNeeded inode
    writeBlocks dev inode (bytesAt buf) len 0 blocksNeeded 0
    writeInode dev ino (inode.setSize len)
    devFlush dev

/-- The loop of `mcsfs1_read`, from `direct[i]` on with `k` blocks left; `acc` is what `buf` has
received. -/
def readBlocks (blockCount : ℕ) (inode : Inode) : ℕ → ℕ → List UInt8 → FsM (List UInt8)
  | _, 0, acc => pure acc
  | i, k + 1, acc => do
    failIf (inode.direct i = 0 ∨ inode.direct i ≥ blockCount) .corrupt
    let block ← devRead dev (inode.direct i)
    let chunk := min (inode.size - acc.length) blockSize
    readBlocks blockCount inode (i + 1) k (acc ++ (List.range chunk).map block.byte)

/-- `mcsfs1_read`: `*out_len` and the bytes that `buf` receives. The flags say whether `buf` and
`out_len` are not `NULL`. -/
def mcsfs1Read (mnt : Option Mount) (name : Option Mem) (buf : Bool) (cap : ℕ) (outLen : Bool) :
    FsM (ℕ × List UInt8) :=
  match mnt with
  | none => throw .inval
  | some ⟨dev, blockCount, _⟩ => do
    failIf (buf = false ∨ outLen = false) .inval
    let (_, ino) ← findDirent dev name
    let inode ← readInode dev ino
    failIf (inode.mode ≠ modeFile) .isdir
    failIf (cap < inode.size) .range
    let bytes ← readBlocks dev blockCount inode 0 (blocksFor inode.size) []
    pure (inode.size, bytes)

def mcsfs1Unlink (mnt : Option Mount) (name : Option Mem) : FsM Unit :=
  match mnt with
  | none => throw .inval
  | some ⟨dev, _, _⟩ => do
    let (slot, ino) ← findDirent dev name
    let inode ← readInode dev ino
    failIf (inode.mode ≠ modeFile) .isdir
    let dirBlock ← devRead dev rootDirLba
    devWrite dev rootDirLba (dirBlock.patch (32 * slot) (Buf.zero 32))
    freeInodeAndBlocks dev ino inode
    writeInode dev ino (Buf.zero 60)
    devFlush dev

/-! ## `mcsfs1_fsck` -/

/-- The checks of `mcsfs1_fsck` on one directory entry. -/
def fsckEntry (ib bb : Block) (e : Dirent) : FsM Unit :=
  if e.ino = 0 then pure ()
  else do
    failIf (e.ino > maxInodes ∨ e.type ≠ modeFile ∨ bitTest ib e.ino = false) .corrupt
    let inode ← readInode dev e.ino
    failIf (inode.mode ≠ modeFile ∨ inode.size > directBlocks * blockSize) .corrupt
    let needed := if blocksFor inode.size = 0 then 1 else blocksFor inode.size
    failIf (∃ j < needed, inode.direct j < dataStartLba ∨ inode.direct j ≥ dev.blockCount ∨
      bitTest bb (inode.direct j) = false) .corrupt

/-- The loop of `mcsfs1_fsck` over the entries listed. -/
def fsckEntries (ib bb dirBlock : Block) : List ℕ → FsM Unit
  | [] => pure ()
  | i :: is => do
    fsckEntry dev ib bb (direntAt dirBlock i)
    fsckEntries ib bb dirBlock is

def mcsfs1Fsck : Option Blkdev → FsM Unit
  | none => throw .inval
  | some dev => do
    let _ ← loadSuper dev
    let (ib, bb) ← loadBmaps dev
    failIf (bitTest ib rootIno = false ∨ bitTest bb rootDirLba = false) .corrupt
    failIf (∃ b < dataStartLba, bitTest bb b = false) .corrupt
    let root ← readInode dev rootIno
    failIf (root.mode ≠ modeDir ∨ root.direct 0 ≠ rootDirLba) .corrupt
    let dirBlock ← devRead dev rootDirLba
    fsckEntries dev ib bb dirBlock (List.range direntCount)

/-! ## The mounted file system as a machine -/

inductive Call
  | create (name : Option Mem)
  | write (name : Option Mem) (buf : Option Mem) (len : ℕ)
  | read (name : Option Mem) (buf : Bool) (cap : ℕ) (outLen : Bool)
  | unlink (name : Option Mem)

inductive Ret
  | status (r : Except Err Unit)
  | bytes (r : Except Err (ℕ × List UInt8))
  deriving DecidableEq

def step (mnt : Option Mount) : Call → Disk Block → Ret × Disk Block
  | .create name, s =>
    let r := (mcsfs1Create mnt name).run s
    (.status (returned r), finalState r)
  | .write name buf len, s =>
    let r := (mcsfs1Write mnt name buf len).run s
    (.status (returned r), finalState r)
  | .read name buf cap outLen, s =>
    let r := (mcsfs1Read mnt name buf cap outLen).run s
    (.bytes (returned r), finalState r)
  | .unlink name, s =>
    let r := (mcsfs1Unlink mnt name).run s
    (.status (returned r), finalState r)

end Mcsfs1

end Mcsos
