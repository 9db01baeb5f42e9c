import Mcsos.Base.Bounded
import Mcsos.Mcsfs1.Images

/-!
# Reading volumes of unknown origin

What `mcsfs1_read` does on an image that may hold anything. The inode that it reads is as the image
says: the size is compared with the capacity of the caller, and `direct[]` has eight entries, but
the number of rounds follows from the size. `mcsfs1ReadIn` is `mcsfs1_read` with a check in front of
each access to `direct[]`, and does the same where no check fails (`agrees_mcsfs1Read`).

* If `mcsfs1_fsck` has accepted the image, every file can be read (`fsck_clean_readable`).
* If `mcsfs1_mount` has accepted it, the read stays inside and returns bytes of the blocks in
  `direct[]`, unless the inode `Escapes`: its size is above 4096 and the eight entries are blocks of
  the volume, or its size is so close to `2 ^ 32` that the number of rounds is zero
  (`read_contained_iff`).
-/

namespace Mcsos

namespace Mcsfs1

open FaultyDisk Bounded

variable {dev : Blkdev} {d : ℕ → Block} {x : Inode}

/-! ## The read with checks -/

/-- The calls of `find_dirent` and `read_inode` in `mcsfs1_read`. -/
def openInode (dev : Blkdev) (name : Option Mem) : FsM Inode := do
  let (_, ino) ← findDirent dev name
  readInode dev ino

/-- The loop of `mcsfs1_read` with checked accesses to `direct[]`; see `readBlocks`. -/
def readBlocksIn (dev : Blkdev) (blockCount : ℕ) (inode : Inode) :
    ℕ → ℕ → List UInt8 → EStateM (Stop Err) (Disk Block) (List UInt8)
  | _, 0, acc => pure acc
  | i, k + 1, acc => do
    inside i directBlocks
    failIf (inode.direct i = 0 ∨ inode.direct i ≥ blockCount) (.code .corrupt)
    let block ← lift (devRead dev (inode.direct i))
    let chunk := min (inode.size - acc.length) blockSize
    readBlocksIn dev blockCount inode (i + 1) k (acc ++ (List.range chunk).map block.byte)

/-- `mcsfs1_read` after the inode has been read. -/
def readInodeIn (dev : Blkdev) (blockCount cap : ℕ) (inode : Inode) :
    EStateM (Stop Err) (Disk Block) (ℕ × List UInt8) := do
  failIf (inode.mode ≠ modeFile) (.code .isdir)
  failIf (cap < inode.size) (.code .range)
  let bytes ← readBlocksIn dev blockCount inode 0 (blocksFor inode.size) []
  pure (inode.size, bytes)

/-- `mcsfs1_read` with checked accesses to `direct[]`; see `mcsfs1Read`. -/
def mcsfs1ReadIn (mnt : Option Mount) (name : Option Mem) (buf : Bool) (cap : ℕ) (outLen : Bool) :
    EStateM (Stop Err) (Disk Block) (ℕ × List UInt8) :=
  match mnt with
  | none => throw (.code .inval)
  | some ⟨dev, blockCount, _⟩ => do
    failIf (buf = false ∨ outLen = false) (.code .inval)
    let inode ← lift (openInode dev name)
    readInodeIn dev blockCount cap inode

theorem agrees_readBlocks (dev : Blkdev) (blockCount : ℕ) (inode : Inode) (i k : ℕ)
    (acc : List UInt8) : Agrees (readBlocks dev blockCount inode i k acc)
      (readBlocksIn dev blockCount inode i k acc) := by
  induction k generalizing i acc with
  | zero => exact agrees_pure acc
  | succ k ih =>
    refine Agrees.inside_bind ?_ i directBlocks
    refine (agrees_failIf _ _).bind fun _ ↦ (agrees_lift _).bind fun block ↦ ?_
    exact ih (i + 1) _

/-- The checks change nothing where none of them fails. -/
theorem agrees_mcsfs1Read (mnt : Option Mount) (name : Option Mem) (buf : Bool) (cap : ℕ)
    (outLen : Bool) :
    Agrees (mcsfs1Read mnt name buf cap outLen) (mcsfs1ReadIn mnt name buf cap outLen) := by
  cases mnt with
  | none => exact agrees_throw _
  | some mnt =>
    obtain ⟨dev, blockCount, dataStart⟩ := mnt
    have hopen : mcsfs1Read (some ⟨dev, blockCount, dataStart⟩) name buf cap outLen = (do
        failIf (buf = false ∨ outLen = false) .inval
        let inode ← openInode dev name
        failIf (inode.mode ≠ modeFile) .isdir
        failIf (cap < inode.size) .range
        let bytes ← readBlocks dev blockCount inode 0 (blocksFor inode.size) []
        pure (inode.size, bytes)) := by
      simp only [mcsfs1Read, openInode, bind_assoc]
    rw [hopen]
    refine (agrees_failIf _ _).bind fun _ ↦ (agrees_lift _).bind fun inode ↦ ?_
    refine (agrees_failIf _ _).bind fun _ ↦ (agrees_failIf _ _).bind fun _ ↦ ?_
    exact (agrees_readBlocks dev blockCount inode 0 _ []).bind fun bytes ↦ agrees_pure _

/-! ## The loop -/

/-- Entry `k` of `direct[]` is a block number that `mcsfs1_read` accepts. -/
def Inode.Direct (x : Inode) (blockCount k : ℕ) : Prop := x.direct k ≠ 0 ∧ x.direct k < blockCount

/-- The volume with every block of the disk as a data block. -/
def rawVolume (d : ℕ → Block) : Volume := { volumeOf d with data := d }

theorem Inode.size_lt (x : Inode) : x.size < 2 ^ 32 := Mem.load_lt _ 4 4

/-- The number of rounds is exact up to the size at which the sum wraps. -/
theorem blocksFor_of_le {len : ℕ} (h : len ≤ 2 ^ 32 - 512) : blocksFor len = (len + 511) / 512 := by
  rw [blocksFor, blockSize, Nat.mod_eq_of_lt (by omega)]
  rfl

theorem blocksFor_of_gt {len : ℕ} (h : 2 ^ 32 - 512 < len) (hlt : len < 2 ^ 32) :
    blocksFor len = 0 := by
  have hmod : (len + 512 - 1) % 2 ^ 32 = len + 511 - 2 ^ 32 := by omega
  rw [blocksFor, blockSize, hmod]
  omega

theorem wp_readBlocksIn {C : (ℕ → Block) → Prop} {ok : List UInt8 → (ℕ → Block) → Prop}
    {err : Stop Err → (ℕ → Block) → Prop} (hread : dev.read = true) (hsize : x.size ≤ 2 ^ 32 - 512)
    (hok : x.size ≤ directBlocks * blockSize → ok ((rawVolume d).bytesOf x) d)
    (hcorrupt : (∃ k < directBlocks, (k < blocksFor x.size) ∧ ¬x.Direct dev.blockCount k) →
      err (.code .corrupt) d)
    (houtside : directBlocks * blockSize < x.size →
      (∀ k < directBlocks, x.Direct dev.blockCount k) → err (.outside directBlocks) d)
    (hio : Faulty dev.fails → err (.code .io) d) {i k : ℕ} (hik : i + k = blocksFor x.size)
    (hi : i ≤ directBlocks) (hprev : ∀ j < i, x.Direct dev.blockCount j) {acc : List UInt8}
    (hacc : acc = (List.range (min x.size (512 * i))).map ((rawVolume d).byteAt x)) :
    wp C (readBlocksIn dev dev.blockCount x i k acc) ok err d := by
  have hblocks := blocksFor_of_le hsize
  rw [directBlocks, blockSize] at hok houtside
  induction k generalizing i acc with
  | zero =>
    have hall : x.size ≤ 512 * i := by omega
    rw [directBlocks] at hi
    refine wp_pure ?_
    rw [hacc, min_eq_left hall]
    exact hok (by omega)
  | succ k ih =>
    refine wp_bind (wp_inside (fun hout ↦ ?_) fun hin ↦ ?_)
    · obtain rfl : i = directBlocks := Nat.le_antisymm hi hout
      rw [directBlocks] at hik
      exact houtside (by omega) hprev
    refine wp_bind (wp_failIf (fun hbad ↦ hcorrupt ⟨i, hin, by omega, ?_⟩) fun hgood ↦ ?_)
    · rintro ⟨hne, hlt⟩
      omega
    have hdirect : x.Direct dev.blockCount i := ⟨by omega, by omega⟩
    refine wp_bind (wp_lift (wp_devRead_of (fun _ _ ↦ ?_) (fun hbad ↦ ?_) hio))
    · refine ih (by omega) hin (fun j hj ↦ ?_) ?_
      · rcases Nat.lt_succ_iff_lt_or_eq.mp hj with hlt | rfl
        · exact hprev j hlt
        · exact hdirect
      · have hle : 512 * i ≤ x.size := by omega
        rw [hacc, List.length_map, List.length_range, min_eq_right hle, blockSize,
          ← map_byteAt_append (rawVolume d) x hle]
        rfl
    · exact absurd ⟨hread, hdirect.2⟩ hbad

/-! ## Damaged inodes -/

/-- The read of the inode leaves `direct[]`, or returns bytes that it has not read. -/
def Escapes (blockCount cap : ℕ) (x : Inode) : Prop :=
  x.mode = modeFile ∧ x.size ≤ cap ∧ (2 ^ 32 - 512 < x.size ∨
    directBlocks * blockSize < x.size ∧ ∀ k < directBlocks, x.Direct blockCount k)

/-- The read of the inode stays in `direct[]`, and returns the bytes of the blocks in it or an error
code. -/
structure Contained (d : ℕ → Block) (x : Inode) (r : Except (Stop Err) (ℕ × List UInt8)) :
    Prop where
  inside : ∀ i, r ≠ .error (.outside i)
  bytes : ∀ len bytes, r = .ok (len, bytes) → bytes.length = len ∧ ∀ p < len,
    p / 512 < directBlocks ∧ bytes[p]? = some ((d (x.direct (p / 512))).byte (p % 512))
  large : directBlocks * blockSize < x.size → ∃ e, r = .error (.code e)

theorem contained_code {e : Err} : Contained d x (.error (.code e)) where
  inside _ h := nomatch h
  bytes _ _ h := nomatch h
  large _ := ⟨e, rfl⟩

/-- The ways in which `mcsfs1_read` ends after it has read the inode. -/
inductive InodeEnds (dev : Blkdev) (cap : ℕ) (x : Inode) (d : ℕ → Block) :
    Except (Stop Err) (ℕ × List UInt8) → (ℕ → Block) → Prop
  | isdir (h : x.mode ≠ modeFile) : InodeEnds dev cap x d (.error (.code .isdir)) d
  | range (h : cap < x.size) : InodeEnds dev cap x d (.error (.code .range)) d
  | corrupt (hsize : x.size ≤ 2 ^ 32 - 512)
    (h : ∃ k < directBlocks, k < blocksFor x.size ∧ ¬x.Direct dev.blockCount k) :
    InodeEnds dev cap x d (.error (.code .corrupt)) d
  | io (h : Faulty dev.fails) : InodeEnds dev cap x d (.error (.code .io)) d
  | outside (h : Escapes dev.blockCount cap x) :
    InodeEnds dev cap x d (.error (.outside directBlocks)) d
  | wrapped (h : 2 ^ 32 - 512 < x.size) (hescapes : Escapes dev.blockCount cap x) :
    InodeEnds dev cap x d (.ok (x.size, [])) d
  | ok (hsize : x.size ≤ directBlocks * blockSize) :
    InodeEnds dev cap x d (.ok (x.size, (rawVolume d).bytesOf x)) d

theorem meets_readInodeIn {C : (ℕ → Block) → Prop} (hread : dev.read = true) (cap : ℕ) :
    Meets C (readInodeIn dev dev.blockCount cap x) (InodeEnds dev cap x d) d := by
  refine wp_bind (wp_failIf (fun hmode ↦ .isdir hmode) fun hmode ↦ ?_)
  refine wp_bind (wp_failIf (fun hcap ↦ .range hcap) fun hcap ↦ wp_bind ?_)
  rw [not_not] at hmode
  by_cases hsize : x.size ≤ 2 ^ 32 - 512
  · refine wp_readBlocksIn hread hsize (fun hle ↦ wp_pure (.ok hle)) (fun h ↦ .corrupt hsize h)
      (fun hlarge hdirect ↦ .outside ⟨hmode, not_lt.mp hcap, .inr ⟨hlarge, hdirect⟩⟩)
      (fun h ↦ .io h) (Nat.zero_add _) (Nat.zero_le _) (fun j hj ↦ absurd hj (Nat.not_lt_zero j)) ?_
    rw [Nat.mul_zero, Nat.min_zero, List.range_zero, List.map_nil]
  · have hgt := not_le.mp hsize
    rw [blocksFor_of_gt hgt x.size_lt]
    exact wp_pure (wp_pure (.wrapped hgt ⟨hmode, not_lt.mp hcap, .inl hgt⟩))

theorem InodeEnds.contained {cap : ℕ} {r : Except (Stop Err) (ℕ × List UInt8)} {d' : ℕ → Block}
    (h : InodeEnds dev cap x d r d') (hnot : ¬Escapes dev.blockCount cap x) : Contained d x r := by
  cases h with
  | isdir | range | corrupt | io => exact contained_code
  | outside hescapes => exact absurd hescapes hnot
  | wrapped _ hescapes => exact absurd hescapes hnot
  | ok hsize =>
    refine ⟨fun i hi ↦ (nomatch hi), fun len bytes heq ↦ ?_, fun hlarge ↦ absurd hlarge (by omega)⟩
    obtain ⟨rfl, rfl⟩ := Prod.mk.inj (Except.ok.inj heq)
    refine ⟨by rw [Volume.bytesOf, List.length_map, List.length_range], fun p hp ↦ ⟨?_, ?_⟩⟩
    · rw [directBlocks, blockSize] at hsize
      rw [directBlocks]
      omega
    · rw [Volume.bytesOf, List.getElem?_map, List.getElem?_range hp]
      rfl

theorem InodeEnds.not_contained {cap : ℕ} {r : Except (Stop Err) (ℕ × List UInt8)}
    {d' : ℕ → Block} (h : InodeEnds dev cap x d r d') (hescapes : Escapes dev.blockCount cap x)
    (hgood : ¬Faulty dev.fails) : ¬Contained d x r := by
  obtain ⟨hmode, hcap, hlarge⟩ := hescapes
  have hsize : directBlocks * blockSize < x.size := by
    rcases hlarge with hwraps | hlarge
    · exact Nat.lt_trans (by decide) hwraps
    · exact hlarge.1
  intro hcontained
  obtain ⟨e, he⟩ := hcontained.large hsize
  cases h with
  | isdir hdir => exact hdir hmode
  | range hrange => omega
  | corrupt hle hbad =>
    obtain ⟨k, hk, -, hbad⟩ := hbad
    exact hbad ((hlarge.resolve_left (not_lt.mpr hle)).2 k hk)
  | io hfaulty => exact hgood hfaulty
  | outside _ => cases he
  | wrapped _ _ => cases he
  | ok hle => omega

theorem wp_openInode {C : (ℕ → Block) → Prop} (name : Option Mem) :
    wp C (openInode dev name) (fun _ d' ↦ d' = d) (fun _ d' ↦ d' = d) d := by
  refine wp_bind (wp_bind (wp_ofExcept (fun nameLen _ ↦ ?_) fun _ _ ↦ rfl))
  refine wp_bind (wp_devRead_of (fun _ _ ↦ ?_) (fun _ ↦ rfl) fun _ ↦ rfl)
  refine wp_bind (wp_observe fun n ↦ ?_)
  cases findName (d rootDirLba) (dev.past n) (bytesAt name) nameLen with
  | none => exact wp_throw rfl
  | some i =>
    refine wp_pure (wp_bind (wp_failIf (fun _ ↦ rfl) fun _ ↦ ?_))
    refine wp_bind (wp_failIf (fun _ ↦ rfl) fun _ ↦ ?_)
    exact wp_bind (wp_devRead_of (fun _ _ ↦ wp_pure rfl) (fun _ ↦ rfl) fun _ ↦ rfl)

/-- **Reading a damaged inode.** On a mounted volume, whatever its directory and its inodes hold,
and on a device whose calls may fail: if no inode is found for the name, an error code is returned.
If one is found and it does not escape, the read is contained. If it escapes and no call of the
device fails, the read is not. -/
theorem read_contained_iff {s s₁ : Disk Block} {mnt : Mount}
    (hmount : (mcsfs1Mount (some dev)).run s = .ok mnt s₁) (name : Option Mem) (cap : ℕ) :
    ((∀ x, returned ((openInode dev name).run s₁) ≠ .ok x) → ∃ e,
      returned ((mcsfs1ReadIn (some mnt) name true cap true).run s₁) = .error (.code e)) ∧
      ∀ x, returned ((openInode dev name).run s₁) = .ok x →
        (¬Escapes dev.blockCount cap x → Contained s₁.block x
          (returned ((mcsfs1ReadIn (some mnt) name true cap true).run s₁))) ∧
        (Escapes dev.blockCount cap x → ¬Faulty dev.fails → ¬Contained s₁.block x
          (returned ((mcsfs1ReadIn (some mnt) name true cap true).run s₁))) := by
  obtain ⟨rfl, hread, -⟩ := mounted_of_run hmount
  have hwp : wp (fun _ ↦ True) (openInode dev name) _ _ s₁.block := wp_openInode name
  have hopened := hwp.ends s₁ rfl trivial
  rw [mcsfs1ReadIn, run_bind_of_ok (run_failIf_of_not (by simp))]
  cases hopen : (openInode dev name).run s₁ with
  | error e t =>
    rw [run_bind_of_error (run_lift_of_error hopen)]
    exact ⟨fun _ ↦ ⟨e, rfl⟩, fun x hx ↦ nomatch hx⟩
  | ok x t =>
    rw [hopen] at hopened
    obtain ⟨-, hsame⟩ := hopened
    rw [run_bind_of_ok (run_lift_of_ok hopen)]
    have hmeets : Meets (fun _ ↦ True) (readInodeIn dev dev.blockCount cap x)
        (InodeEnds dev cap x t.block) t.block := meets_readInodeIn hread cap
    have hinode := (hmeets.since trivial).2
    rw [hsame] at hinode
    refine ⟨fun hnone ↦ absurd rfl (hnone x), fun x' hx' ↦ ?_⟩
    obtain rfl := Except.ok.inj hx'
    exact ⟨hinode.contained, hinode.not_contained⟩

/-- The disk with another inode. -/
def withInode (s : Disk Block) (n : ℕ) (x : Inode) : Disk Block :=
  { s with
    block := Function.update s.block (inodeLba n)
      ((s.block (inodeLba n)).patch (inodeOff n) x) }

/-- A file of the given size all of whose blocks are block 8. -/
def longInode (size : ℕ) : Inode :=
  (List.range directBlocks).foldl (fun x k ↦ x.setDirect k 8) (Inode.make modeFile size 8)

/-- The image with one file, whose inode says that it has 4097 bytes. -/
def longDisk : Disk Block := withInode oneFileDisk 2 (longInode 4097)

/-- The same with `2 ^ 32 - 1` bytes. -/
def hugeDisk : Disk Block := withInode oneFileDisk 2 (longInode (2 ^ 32 - 1))

theorem exists_longInode (s : Disk Block) (size : ℕ)
    (hmount : (returned ((mcsfs1Mount (some plainDev)).run s)).isOk = true)
    (h : (returned ((openInode plainDev (some nameA)).run
      (finalState ((mcsfs1Mount (some plainDev)).run s)))).map (fun x ↦
        (x.mode, x.size, (List.range directBlocks).map x.direct)) =
          .ok (modeFile, size, List.replicate directBlocks 8)) :
    ∃ s₁ x, (mcsfs1Mount (some plainDev)).run s = .ok plainMount s₁ ∧
      returned ((openInode plainDev (some nameA)).run s₁) = .ok x ∧ x.mode = modeFile ∧
      x.size = size ∧ ∀ k < directBlocks, x.Direct plainDev.blockCount k := by
  generalize hs₁ : finalState ((mcsfs1Mount (some plainDev)).run s) = s₁ at h
  have hrun : (mcsfs1Mount (some plainDev)).run s = .ok plainMount s₁ :=
    hs₁ ▸ run_mcsfs1Mount_of_isOk hmount
  cases hopen : returned ((openInode plainDev (some nameA)).run s₁) with
  | error e =>
    rw [hopen] at h
    cases h
  | ok x =>
    rw [hopen] at h
    obtain ⟨hmode, hsize, hdirect⟩ : x.mode = modeFile ∧ x.size = size ∧
        (List.range directBlocks).map x.direct = List.replicate directBlocks 8 := by
      simpa only [Except.map, Except.ok.injEq, Prod.mk.injEq] using h
    refine ⟨s₁, x, hrun, hopen, hmode, hsize, fun k hk ↦ ?_⟩
    have height : x.direct k = 8 :=
      (List.eq_replicate_iff.mp hdirect).2 _ (List.mem_map_of_mem (List.mem_range.mpr hk))
    rw [Inode.Direct, height]
    decide

/-- A file of 600 bytes is read, and one of 4097 bytes with a capacity that is too small for it and
with one that is not. -/
theorem read_contained_iff_long :
    (∃ s₁ x, (mcsfs1Mount (some plainDev)).run (withInode oneFileDisk 2 (longInode 600)) =
        .ok plainMount s₁ ∧ returned ((openInode plainDev (some nameA)).run s₁) = .ok x ∧
      Contained s₁.block x
        (returned ((mcsfs1ReadIn (some plainMount) (some nameA) true 4096 true).run s₁))) ∧
    ∃ s₁ x, (mcsfs1Mount (some plainDev)).run longDisk = .ok plainMount s₁ ∧
      returned ((openInode plainDev (some nameA)).run s₁) = .ok x ∧
      Contained s₁.block x
        (returned ((mcsfs1ReadIn (some plainMount) (some nameA) true 4096 true).run s₁)) ∧
      ¬Contained s₁.block x
        (returned ((mcsfs1ReadIn (some plainMount) (some nameA) true 4097 true).run s₁)) := by
  constructor
  · obtain ⟨s₁, x, hmount, hopen, -, hsize, -⟩ := exists_longInode
      (withInode oneFileDisk 2 (longInode 600)) 600 (by decide +kernel) (by decide +kernel)
    have hread := (read_contained_iff hmount (some nameA) 4096).2 x hopen
    refine ⟨s₁, x, hmount, hopen, hread.1 ?_⟩
    rintro ⟨-, -, hlarge | ⟨hlarge, -⟩⟩
    · exact absurd hlarge (by rw [hsize]; decide)
    · exact absurd hlarge (by rw [hsize]; decide)
  · obtain ⟨s₁, x, hmount, hopen, hmode, hsize, hblocks⟩ :=
      exists_longInode longDisk 4097 (by decide +kernel) (by decide +kernel)
    have hread (cap : ℕ) := (read_contained_iff hmount (some nameA) cap).2 x hopen
    refine ⟨s₁, x, hmount, hopen, (hread 4096).1 fun hescapes ↦ ?_,
      (hread 4097).2 ⟨hmode, hsize.le, .inr ⟨by rw [hsize]; decide, hblocks⟩⟩ not_faulty_plainDev⟩
    exact absurd hescapes.2.1 (by rw [hsize]; decide)

/-- Both images can be mounted. On the first one `mcsfs1_read` accesses `direct[8]`. On the second
one it returns `MCSFS1_ERR_OK` with a length of `2 ^ 32 - 1`, and has written nothing. -/
theorem damaged_read_escapes :
    (∀ s ∈ [longDisk, hugeDisk], ∃ s₁, (mcsfs1Mount (some plainDev)).run s = .ok plainMount s₁) ∧
      returned ((mcsfs1ReadIn (some plainMount) (some nameA) true 4097 true).run longDisk) =
        .error (.outside 8) ∧
      returned ((mcsfs1ReadIn (some plainMount) (some nameA) true (2 ^ 32 - 1) true).run
        hugeDisk) = .ok (2 ^ 32 - 1, []) := by
  have hmount : ∀ s ∈ [longDisk, hugeDisk],
      (returned ((mcsfs1Mount (some plainDev)).run s)).isOk = true := by decide +kernel
  exact ⟨fun s hs ↦ ⟨_, run_mcsfs1Mount_of_isOk (hmount s hs)⟩, by decide +kernel,
    by decide +kernel⟩

/-! ## Volumes that `mcsfs1_fsck` accepts -/

/-- The device with all its callbacks. -/
def Blkdev.complete (dev : Blkdev) : Blkdev := { dev with write := true, flush := true }

theorem fsckEntries_complete (ib bb dirBlock : Block) (is : List ℕ) :
    fsckEntries dev.complete ib bb dirBlock is = fsckEntries dev ib bb dirBlock is := by
  induction is with
  | nil => rfl
  | cons i is ih =>
    rw [fsckEntries, fsckEntries, ih]
    rfl

/-- `mcsfs1_fsck` neither writes nor flushes. -/
theorem mcsfs1Fsck_complete (dev : Blkdev) :
    mcsfs1Fsck (some dev.complete) = mcsfs1Fsck (some dev) := by
  rw [mcsfs1Fsck, mcsfs1Fsck]
  simp only [fsckEntries_complete]
  rfl

theorem mcsfs1Mount_complete (dev : Blkdev) : mcsfs1Mount (some dev) = (do
    let mnt ← mcsfs1Mount (some dev.complete)
    pure { mnt with dev := dev }) := by
  simp only [mcsfs1Mount, bind_assoc, pure_bind]
  rfl

/-- A device on which `mcsfs1_fsck` succeeds can be read. -/
theorem read_of_fsck {s : Disk Block} (h : returned ((mcsfs1Fsck (some dev)).run s) = .ok ()) :
    dev.read = true := by
  by_contra hread
  have hinval : (devRead dev sbLba).run s = .error .inval s :=
    run_bind_of_error (run_failIf_of (.inl (Bool.eq_false_iff.mpr hread)))
  have hrun : (mcsfs1Fsck (some dev)).run s = .error .inval s :=
    run_bind_of_error (run_bind_of_error hinval)
  rw [hrun] at h
  cases h

/-- The file was read, or there is none of this name. -/
def Readable (d : ℕ → Block) (r : Except (Stop Err) (ℕ × List UInt8)) (d' : ℕ → Block) : Prop :=
  d' = d ∧ (r = .error (.code .noent) ∨ ∃ len bytes, r = .ok (len, bytes) ∧
    len ≤ directBlocks * blockSize ∧ bytes.length = len)

section Accepted

variable (hdev : dev.complete.Usable) (haccepted : Accepted dev.blockCount (volumeOf d))
include hdev haccepted

theorem wp_openInode_of_accepted {C : (ℕ → Block) → Prop} {ok : Inode → (ℕ → Block) → Prop}
    {err : Err → (ℕ → Block) → Prop} {name : Option Mem} {nameLen : ℕ}
    (hname : validName name = .ok nameLen)
    (hok : ∀ i, (volumeOf d).Live i → ok ((volumeOf d).file i) d) (hnoent : err .noent d)
    (hio : Faulty dev.fails → err .io d) : wp C (openInode dev name) ok err d := by
  refine wp_bind (@wp_findDirent dev.complete d C err _ name hdev (fun i hi ↦ ?_) (fun _ ↦ hnoent)
    (fun e he ↦ ?_) hio)
  · have hentry := haccepted.entry i hi.live
    exact @wp_readInode dev.complete d C err _ hdev (Nat.pos_of_ne_zero hi.live.2) hentry.ino_le _
      (hok i hi.live) hio
  · cases hname.symm.trans he

omit hdev in
theorem readable_of_accepted {cap i : ℕ} (hgood : ¬Faulty dev.fails) (hi : (volumeOf d).Live i)
    (hcap : directBlocks * blockSize ≤ cap) {r : Except (Stop Err) (ℕ × List UInt8)}
    {d' : ℕ → Block} (h : InodeEnds dev cap ((volumeOf d).file i) d r d') : Readable d r d' := by
  have hentry := haccepted.entry i hi
  have hsize := hentry.size
  cases h with
  | isdir hmode => exact absurd hentry.mode hmode
  | range hrange => omega
  | corrupt _ hbad =>
    obtain ⟨k, hk, hk', hbad⟩ := hbad
    rw [blocksFor_eq hsize] at hk'
    obtain ⟨hge, hlt, -⟩ := hentry.needed k (by rw [neededBlocks]; omega)
    rw [dataStartLba] at hge
    exact absurd ⟨by omega, hlt⟩ hbad
  | io hfaulty => exact absurd hfaulty hgood
  | outside hescapes =>
    obtain ⟨-, -, hlarge | hlarge⟩ := hescapes
    · rw [directBlocks, blockSize] at hsize
      omega
    · omega
  | wrapped hlarge _ =>
    rw [directBlocks, blockSize] at hsize
    omega
  | ok _ =>
    refine ⟨rfl, .inr ⟨_, _, rfl, hsize, ?_⟩⟩
    rw [Volume.bytesOf, List.length_map, List.length_range]

theorem meets_read_of_accepted {C : (ℕ → Block) → Prop} (hgood : ¬Faulty dev.fails)
    {name : Option Mem} {nameLen : ℕ} (hname : validName name = .ok nameLen) {cap : ℕ}
    (hcap : directBlocks * blockSize ≤ cap) {dataStart : ℕ} :
    Meets C (mcsfs1ReadIn (some ⟨dev, dev.blockCount, dataStart⟩) name true cap true)
      (Readable d) d := by
  have hargs : ¬(true = false ∨ true = false) := by simp
  have hread : dev.read = true := hdev.read
  refine wp_bind (wp_failIf (fun hbad ↦ absurd hbad hargs) fun _ ↦ ?_)
  refine wp_bind (wp_lift (wp_openInode_of_accepted hdev haccepted hname (fun i hi ↦ ?_)
    ⟨rfl, .inl rfl⟩ fun hfaulty ↦ absurd hfaulty hgood))
  exact (meets_readInodeIn hread cap).mono fun r d' hends ↦
    readable_of_accepted haccepted hgood hi hcap hends

end Accepted

/-- **A volume that `mcsfs1_fsck` accepts is readable.** Take an image of which only this is known,
on a device that does not fail. Then `mcsfs1_mount` succeeds, and `mcsfs1_read` of any valid name
with a buffer of at least 4096 bytes returns the file, which has at most 4096 bytes, or
`MCSFS1_ERR_NOENT`. -/
theorem fsck_clean_readable (hmin : minBlocks ≤ dev.blockCount)
    (hmax : dev.blockCount ≤ blockSize * 8) (hgood : ¬Faulty dev.fails) {s : Disk Block}
    (hfsck : returned ((mcsfs1Fsck (some dev)).run s) = .ok ()) {t : Disk Block}
    (ht : t.block = s.block) :
    ∃ mnt t', (mcsfs1Mount (some dev)).run t = .ok mnt t' ∧ t'.block = s.block ∧
      ∀ u : Disk Block, u.block = s.block → ∀ name nameLen, validName name = .ok nameLen →
        ∀ cap, directBlocks * blockSize ≤ cap →
          returned ((mcsfs1Read (some mnt) name true cap true).run u) = .error .noent ∨
            ∃ len bytes, returned ((mcsfs1Read (some mnt) name true cap true).run u) =
              .ok (len, bytes) ∧ len ≤ directBlocks * blockSize ∧ bytes.length = len := by
  have hdev : dev.complete.Usable := ⟨read_of_fsck hfsck, rfl, rfl, hmin, hmax⟩
  have haccepted : Accepted dev.blockCount (volumeOf s.block) := by
    rw [← mcsfs1Fsck_complete] at hfsck
    exact (fsck_ok_iff hdev hgood s).mp hfsck
  have hmount : wp (fun _ ↦ True) (mcsfs1Mount (some dev))
      (fun m d' ↦ m = ⟨dev, dev.blockCount, dataStartLba⟩ ∧ d' = s.block) (fun _ _ ↦ False)
      s.block := by
    rw [mcsfs1Mount_complete]
    exact wp_bind (wp_mcsfs1Mount hdev haccepted (wp_pure ⟨rfl, rfl⟩)
      fun hfaulty ↦ absurd hfaulty hgood)
  have hends := hmount.ends t ht trivial
  cases hrun : (mcsfs1Mount (some dev)).run t with
  | error e t' =>
    rw [hrun] at hends
    exact hends.2.elim
  | ok mnt t' =>
    rw [hrun] at hends
    obtain ⟨-, rfl, ht'⟩ := hends
    refine ⟨_, t', rfl, ht', fun u hu name nameLen hname cap hcap ↦ ?_⟩
    have hread : Meets (fun _ ↦ True)
        (mcsfs1ReadIn (some ⟨dev, dev.blockCount, dataStartLba⟩) name true cap true)
        (Readable u.block) u.block :=
      meets_read_of_accepted hdev (hu ▸ haccepted) hgood hname hcap
    obtain ⟨-, -, hnoent | ⟨len, bytes, hok, hlen⟩⟩ := hread.run ⟨trivial, fun _ _ ↦ trivial⟩
    · have hagrees := (agrees_mcsfs1Read _ _ _ _ _).of_code (eq_error_of_returned hnoent)
      exact .inl (congrArg returned hagrees)
    · have hagrees := (agrees_mcsfs1Read _ _ _ _ _).of_ok (eq_ok_of_returned hok)
      exact .inr ⟨len, bytes, congrArg returned hagrees, hlen⟩

/-- The image with one file. -/
theorem fsck_clean_readable_one :
    returned ((mcsfs1Fsck (some plainDev)).run oneFileDisk) = .ok () ∧
      ∃ mnt t', (mcsfs1Mount (some plainDev)).run oneFileDisk = .ok mnt t' ∧
        (returned ((mcsfs1Read (some mnt) (some nameA) true 4096 true).run t') = .error .noent ∨
          ∃ len bytes, returned ((mcsfs1Read (some mnt) (some nameA) true 4096 true).run t') =
            .ok (len, bytes) ∧ len ≤ 4096 ∧ bytes.length = len) := by
  have hfsck : returned ((mcsfs1Fsck (some plainDev)).run oneFileDisk) = .ok () := by decide +kernel
  have hname : validName (some nameA) = .ok 1 := by decide +kernel
  obtain ⟨mnt, t', hmount, ht', hread⟩ := @fsck_clean_readable plainDev (by decide) (by decide)
    not_faulty_plainDev oneFileDisk hfsck oneFileDisk rfl
  exact ⟨hfsck, mnt, t', hmount, hread t' ht' _ _ hname 4096 (by decide)⟩

end Mcsfs1

end Mcsos
