import Mcsos.Mcsfs1j.Damage
import Mcsos.Mcsfs1j.Format

/-!
# Reading through a damaged inode

`m16_mount` checks the journal and the superblock. The directory and the inode table of a volume
that it accepts may hold anything, and `m16_read_file` has to find its way through them.

The name leads to an inode that the read follows, or the read fails (`run_readFile_of_not_finds`).
The size of the inode is compared with the capacity of the caller's buffer, and the data is copied
from a buffer of one block (`run_readFile`). Where the caller has room for more than a block, a size
above `M16_BLOCK_SIZE` passes, and the copy runs past the block that was read: this is the one way
in which a read is not contained (`readFile_contained_iff`).
-/

namespace Mcsos

namespace M16

variable {dev dev₁ : Blockdev} {sb : Block} {name : CStr} {cap i ino k : ℕ}

/-! ## The inode of a name -/

/-- The first root directory entry of the name leads to the file inode `ino`. -/
structure Finds (dev : Blockdev) (name : CStr) (ino : ℕ) : Prop where
  total : rootDirLba < dev.totalBlocks
  entry : ∃ slot, findDirent (dev.blocks rootDirLba) name = some slot ∧
    Dirent.ino (dev.blocks rootDirLba) slot = ino
  file : ino < maxInodes ∧ Inode.used (tableOf dev.blocks) ino ≠ 0 ∧
    Inode.kind (tableOf dev.blocks) ino = 1

theorem Finds.unique {ino' : ℕ} (h : Finds dev name ino) (h' : Finds dev name ino') :
    ino = ino' := by
  obtain ⟨slot, hslot, rfl⟩ := h.entry
  obtain ⟨slot', hslot', rfl⟩ := h'.entry
  rw [hslot] at hslot'
  rw [Option.some.inj hslot']

/-! ## Runs -/

theorem finalState_run_loadInodeTableFrom (raw : InodeTable) :
    finalState ((loadInodeTableFrom i k raw).run dev) = dev := by
  induction k generalizing i raw with
  | zero => rfl
  | succ k ih =>
    rw [loadInodeTableFrom]
    by_cases hvalid : validLba dev (inodeTableLba + i)
    · rw [run_bind_of_ok (run_readBlock hvalid)]
      exact ih _
    · rw [run_bind_of_error (run_readBlock_fail hvalid)]
      rfl

variable (hmount : mount.run dev = .ok sb dev₁) (past : Mem)

include hmount

theorem run_readFile (hfinds : Finds dev₁ name ino) :
    (readFile past (some name) cap).run dev =
      if Inode.size (tableOf dev₁.blocks) ino ≤ cap ∧
          validLba dev₁ (Inode.direct0 (tableOf dev₁.blocks) ino) then
        .ok (copyOut past (dev₁.blocks (Inode.direct0 (tableOf dev₁.blocks) ino))
          (Inode.size (tableOf dev₁.blocks) ino)) dev₁
      else .error .inval dev₁ := by
  obtain ⟨htotal, ⟨slot, hslot, rfl⟩, hfile⟩ := hfinds
  rw [readFile, run_bind_of_ok hmount, run_bind_of_ok (run_loadInodeTable htotal.le),
    run_bind_of_ok (run_readBlock ⟨htotal, by decide⟩), hslot, orFail,
    run_bind_of_ok (EStateM.run_pure _ _),
    run_bind_of_ok (run_failIf_of_not (by
      simp only [not_or, not_not, ge_iff_le, not_le]
      exact hfile)),
    run_bind_of_ok (EStateM.run_get dev₁)]
  split_ifs with h
  · obtain ⟨hsize, hvalid⟩ := h
    rw [run_bind_of_ok (run_failIf_of_not (by
        simp only [not_or, ge_iff_le, not_le, gt_iff_lt, not_lt]
        exact ⟨hsize, hvalid.1⟩)),
      run_bind_of_ok (run_readBlock hvalid), EStateM.run_pure]
  · by_cases hargs : Inode.size (tableOf dev₁.blocks) (Dirent.ino (dev₁.blocks rootDirLba) slot) >
        cap ∨ Inode.direct0 (tableOf dev₁.blocks) (Dirent.ino (dev₁.blocks rootDirLba) slot) ≥
        dev₁.totalBlocks
    · rw [run_bind_of_error (run_failIf_of hargs)]
    -- the block number is below the length of the device and above that of the block array
    · rw [run_bind_of_ok (run_failIf_of_not hargs), run_bind_of_error (run_readBlock_fail ?_)]
      intro hvalid
      exact h ⟨by omega, hvalid⟩

theorem run_readFile_of_not_finds (hfinds : ∀ ino, ¬Finds dev₁ name ino) :
    ∃ e t, (readFile past (some name) cap).run dev = .error e t := by
  rw [readFile, run_bind_of_ok hmount]
  rcases Nat.lt_or_ge rootDirLba dev₁.totalBlocks with htotal | hsmall
  · rw [run_bind_of_ok (run_loadInodeTable htotal.le),
      run_bind_of_ok (run_readBlock ⟨htotal, by decide⟩)]
    cases hslot : findDirent (dev₁.blocks rootDirLba) name with
    | none => exact ⟨_, _, run_bind_of_error rfl⟩
    | some slot =>
      rw [orFail, run_bind_of_ok (EStateM.run_pure _ _)]
      refine ⟨_, _, run_bind_of_error (run_failIf_of ?_)⟩
      by_contra hfile
      simp only [not_or, not_not, ge_iff_le, not_le] at hfile
      exact hfinds _ ⟨htotal, ⟨slot, hslot, rfl⟩, hfile⟩
  -- the device ends before its root directory, or already within the inode table
  · have hkeep : finalState (loadInodeTable.run dev₁) = dev₁ := finalState_run_loadInodeTableFrom _
    cases htable : loadInodeTable.run dev₁ with
    | error e t => exact ⟨e, t, run_bind_of_error htable⟩
    | ok inodes t =>
      obtain rfl : t = dev₁ := by rwa [htable, finalState_ok] at hkeep
      rw [run_bind_of_ok htable]
      refine ⟨_, _, run_bind_of_error (run_readBlock_fail fun hvalid ↦ ?_)⟩
      exact absurd hvalid.1 (Nat.not_lt_of_ge hsmall)

omit hmount

/-! ## Contained reads -/

/-- What is returned comes from one block, the first one of the inode, and an inode that claims more
than a block is refused. -/
structure ReadContained (dev : Blockdev) (name : CStr) (r : Except Err (List UInt8)) : Prop where
  block : ∀ bytes, r = .ok bytes → bytes.length ≤ blockSize ∧ ∃ ino, Finds dev name ino ∧
    ∀ i < bytes.length,
      bytes[i]? = some ((dev.blocks (Inode.direct0 (tableOf dev.blocks) ino)).byte i)
  refused : ∀ ino, Finds dev name ino → blockSize < Inode.size (tableOf dev.blocks) ino →
    ∃ e, r = .error e

/-- The size of the inode lies above a block and within the caller's buffer, and its first block can
be read. -/
def Overreads (dev : Blockdev) (name : CStr) (cap : ℕ) : Prop :=
  ∃ ino, Finds dev name ino ∧ blockSize < Inode.size (tableOf dev.blocks) ino ∧
    Inode.size (tableOf dev.blocks) ino ≤ cap ∧
    validLba dev (Inode.direct0 (tableOf dev.blocks) ino)

theorem readContained_of_error {dev : Blockdev} {e : Err} :
    ReadContained dev name (.error e) :=
  ⟨fun _ h ↦ (nomatch h), fun _ _ _ ↦ ⟨e, rfl⟩⟩

theorem length_copyOut (blk : Block) (size : ℕ) : (copyOut past blk size).length = size := by
  rw [copyOut, List.length_map, List.length_range]

theorem getElem?_copyOut {blk : Block} {size : ℕ} (hi : i < size) :
    (copyOut past blk size)[i]? = some (if i < blockSize then blk.byte i else past i) := by
  rw [copyOut, List.getElem?_map, List.getElem?_range hi, Option.map_some]

/-- On a volume that `m16_mount` accepts, whatever its directory and its inode table hold, a read is
contained unless the inode claims more than a block and the caller's buffer has room for it. -/
theorem readFile_contained_iff (hmount : mount.run dev = .ok sb dev₁) (past : Mem) (name : CStr)
    (cap : ℕ) :
    ReadContained dev₁ name (returned ((readFile past (some name) cap).run dev)) ↔
      ¬Overreads dev₁ name cap := by
  by_cases hfinds : ∃ ino, Finds dev₁ name ino
  swap
  -- the read fails before it looks at an inode
  · obtain ⟨e, t, hrun⟩ := run_readFile_of_not_finds hmount past fun ino h ↦ hfinds ⟨ino, h⟩
    rw [hrun]
    exact iff_of_true readContained_of_error fun ⟨ino, h, _⟩ ↦ hfinds ⟨ino, h⟩
  obtain ⟨ino, hfinds⟩ := hfinds
  rw [run_readFile hmount past hfinds]
  split_ifs with hread
  swap
  · refine iff_of_true readContained_of_error fun ⟨ino', h', _, hcap, hvalid⟩ ↦ ?_
    obtain rfl := hfinds.unique h'
    exact hread ⟨hcap, hvalid⟩
  obtain ⟨hcap, hvalid⟩ := hread
  rcases Nat.lt_or_ge blockSize (Inode.size (tableOf dev₁.blocks) ino) with hlarge | hsize
  · refine iff_of_false (fun h ↦ ?_) (not_not.mpr ⟨ino, hfinds, hlarge, hcap, hvalid⟩)
    obtain ⟨e, he⟩ := h.refused ino hfinds hlarge
    exact nomatch he
  · refine iff_of_true ⟨fun bytes hbytes ↦ ?_, fun ino' h' hlarge ↦ ?_⟩
      fun ⟨ino', h', hlarge, _⟩ ↦ ?_
    · obtain rfl := Except.ok.inj hbytes
      rw [length_copyOut]
      refine ⟨hsize, ino, hfinds, fun i hi ↦ ?_⟩
      rw [getElem?_copyOut past hi, if_pos (by omega)]
    all_goals
      obtain rfl := hfinds.unique h'
      omega

def fileA : CStr := ⟨['a'.toUInt8], by decide⟩

/-- A volume with the file `a` of three bytes, on which one byte of the inode has been changed: its
size is now 515. -/
def overlong : Blockdev :=
  (finalState ((writeFile (some fileA) (some fun _ ↦ 7) 3).run
    (finalState (format.run devInit)))).damage inodeTableLba 137 2

theorem run_mount_overlong : mount.run overlong = .ok (overlong.blocks 0) overlong :=
  run_mount (by decide +kernel) (show HeaderEmpty _ by decide +kernel)
    (by constructor <;> decide +kernel)

theorem finds_overlong : Finds overlong fileA 1 :=
  ⟨by decide +kernel, ⟨0, by decide +kernel, by decide +kernel⟩, by decide +kernel⟩

theorem size_overlong : Inode.size (tableOf overlong.blocks) 1 = 515 := by decide +kernel

/-- A buffer of 514 bytes is too small for the file, and one of 515 bytes is not. -/
theorem readFile_contained_iff_overlong :
    mount.run overlong = .ok (overlong.blocks 0) overlong ∧ ∀ past,
      ReadContained overlong fileA (returned ((readFile past (some fileA) 514).run overlong)) ∧
      ¬ReadContained overlong fileA (returned ((readFile past (some fileA) 515).run overlong)) := by
  refine ⟨run_mount_overlong, fun past ↦ ?_⟩
  have hiff (cap : ℕ) := readFile_contained_iff run_mount_overlong past fileA cap
  refine ⟨(hiff 514).mpr ?_, fun hread ↦ (hiff 515).mp hread ?_⟩
  · rintro ⟨ino, hfinds, -, hcap, -⟩
    rw [← finds_overlong.unique hfinds, size_overlong] at hcap
    exact absurd hcap (by decide)
  · exact ⟨1, finds_overlong, by rw [size_overlong]; decide, size_overlong.le, by decide +kernel⟩

/-- The volume is mounted, and a caller with a buffer of 1024 bytes receives 515 bytes. The last
three come from whatever follows the block buffer on the stack. -/
theorem damaged_inode_overruns :
    mount.run overlong = .ok (overlong.blocks 0) overlong ∧
      Inode.size (tableOf overlong.blocks) 1 = 515 ∧
      ∀ past, ∃ bytes,
        returned ((readFile past (some fileA) 1024).run overlong) = .ok bytes ∧
          bytes.length = 515 ∧ bytes[512]? = some (past 512) := by
  refine ⟨run_mount_overlong, size_overlong, fun past ↦ ?_⟩
  rw [run_readFile run_mount_overlong past finds_overlong, size_overlong,
    if_pos ⟨by decide, by decide +kernel⟩]
  refine ⟨_, rfl, length_copyOut _ _ _, ?_⟩
  rw [getElem?_copyOut past (by decide), if_neg (by decide)]

end M16

end Mcsos
