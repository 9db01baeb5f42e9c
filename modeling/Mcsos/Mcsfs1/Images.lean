import Mcsos.Mcsfs1.Consistency

/-!
# Volumes of unknown origin

An image may come from anywhere. If `mcsfs1_fsck` accepts it and its files share nothing
(`Unshared`), it is consistent, and every operation keeps it so: `mcsfs1_fsck` accepts it after any
calls (`fsck_preserved`).

The second condition is not among the checks. `mcsfs1_unlink` gives back the inode of an entry and
all blocks in `direct[]`, as if they were no one else's. Where another entry has the same inode, or
an entry of `direct[]` beyond the size of the file is a block of the file system, the image is
accepted before the call and refused after it (`unlink_breaks_accepted`).
-/

namespace Mcsos

namespace Mcsfs1

open FaultyDisk

variable {dev : Blkdev}

/-- **What `mcsfs1_fsck` accepts, the operations preserve, unless files share inodes or blocks.** Of
the image only this is known: `mcsfs1_fsck` accepts it, and what it does not check is in order too.
It is mounted on a device that does not fail. -/
theorem fsck_preserved (hdev : dev.Usable) (hgood : ¬Faulty dev.fails) {s s₁ t : Disk Block}
    (hfsck : returned ((mcsfs1Fsck (some dev)).run s) = .ok ())
    (hunshared : Unshared dev.blockCount (volumeOf s.block)) {mnt : Mount}
    (hmount : (mcsfs1Mount (some dev)).run s.fresh = .ok mnt s₁) {es : List (Call × Ret)}
    (hrun : Run (step (some mnt)) (fun _ _ ↦ True) s₁ es t) :
    returned ((mcsfs1Fsck (some dev)).run t) = .ok () ∧
      Unshared dev.blockCount (volumeOf t.block) := by
  have hintact : Intact dev s.block :=
    consistent_iff.mpr ⟨(fsck_ok_iff hdev hgood s).mp hfsck, hunshared⟩
  obtain ⟨s', hrunMount, halways, -⟩ := run_mcsfs1Mount hdev hgood (.fresh hintact)
  rw [hrunMount] at hmount
  cases hmount
  have hmnt : ∀ m ∈ some (⟨dev, dev.blockCount, dataStartLba⟩ : Mount), m.dev = dev := by
    rintro m ⟨⟩
    rfl
  have hafter : Always (Intact dev) t :=
    hrun.invariant halways fun u c hu _ ↦ always_step hdev hu hmnt c
  obtain ⟨haccepted, hshared⟩ := consistent_iff.mp hafter.now
  exact ⟨(fsck_ok_iff hdev hgood t).mpr haccepted, hshared⟩

def oneFileDisk : Disk Block := (step (some plainMount) (.create (some nameA)) mountedDisk).2

/-- The image with one file is mounted. The file gets two blocks, its name is refused to another
file, and it is removed. -/
theorem fsck_preserved_unlink : ∃ s₁ es t,
    (mcsfs1Mount (some plainDev)).run oneFileDisk.fresh = .ok plainMount s₁ ∧
      Run (step (some plainMount)) (fun _ _ ↦ True) s₁ es t ∧
      es.map Prod.fst =
        [.write (some nameA) (some nameA) 600, .create (some nameA), .unlink (some nameA)] ∧
      es.map Prod.snd = [.status (.ok ()), .status (.error .exist), .status (.ok ())] ∧
      returned ((mcsfs1Fsck (some plainDev)).run t) = .ok () := by
  obtain ⟨hdev, hformatted⟩ := formatted_of_run run_mcsfs1Format_plainDev
  have hmounted : Always (Intact plainDev) mountedDisk :=
    (mounted_of_run run_mcsfs1Mount_plainDev).2.2.2 _ (.fresh hformatted.intact)
  have hintact : Always (Intact plainDev) oneFileDisk :=
    always_step hdev hmounted dev_of_mem_plainMount _
  obtain ⟨haccepted, hunshared⟩ := consistent_iff.mp hintact.now
  have hfsck := (fsck_ok_iff hdev not_faulty_plainDev oneFileDisk).mpr haccepted
  have hmount : (mcsfs1Mount (some plainDev)).run oneFileDisk.fresh = .ok plainMount _ :=
    run_mcsfs1Mount_of_isOk (by decide +kernel)
  have hrun : Run (step (some plainMount)) (fun _ _ ↦ True)
      (finalState ((mcsfs1Mount (some plainDev)).run oneFileDisk.fresh)) _ _ :=
    ((Run.nil.snoc (.write (some nameA) (some nameA) 600) trivial).snoc
      (.create (some nameA)) trivial).snoc (.unlink (some nameA)) trivial
  refine ⟨_, _, _, hmount, hrun, rfl, by decide +kernel, ?_⟩
  exact (fsck_preserved hdev not_faulty_plainDev hfsck hunshared hmount hrun).1

/-! ## Images that are accepted once -/

/-- The second block of the file is the first block of the inode table. Its size is 0, so that
`mcsfs1_fsck` looks at the first block only. -/
def strayBlockDisk : Disk Block :=
  { oneFileDisk with
    block := Function.update oneFileDisk.block (inodeLba 2)
      ((oneFileDisk.block (inodeLba 2)).patch (inodeOff 2)
        (((volumeOf oneFileDisk.block).inode 2).setDirect 1 inodeTableLba)) }

/-- The second entry of the directory has the inode of the first one. -/
def sharedInodeDisk : Disk Block :=
  { oneFileDisk with
    block := Function.update oneFileDisk.block rootDirLba
      ((oneFileDisk.block rootDirLba).patch 32
        (Dirent.make 2 modeFile (fun i ↦ if i = 0 then 98 else 0) 1)) }

/-- `mcsfs1_fsck`, `mcsfs1_mount` and the removal of the file succeed. After the removal
`mcsfs1_fsck` returns `MCSFS1_ERR_CORRUPT`. -/
def BrokenByUnlink (s : Disk Block) : Prop :=
  returned ((mcsfs1Fsck (some plainDev)).run s) = .ok () ∧
    ∃ s₁, (mcsfs1Mount (some plainDev)).run s = .ok plainMount s₁ ∧
      (step (some plainMount) (.unlink (some nameA)) s₁).1 = .status (.ok ()) ∧
      returned ((mcsfs1Fsck (some plainDev)).run
        (step (some plainMount) (.unlink (some nameA)) s₁).2) = .error .corrupt

theorem brokenByUnlink_of_eval {s : Disk Block}
    (h : returned ((mcsfs1Fsck (some plainDev)).run s) = .ok () ∧
      (returned ((mcsfs1Mount (some plainDev)).run s)).isOk = true ∧
      let s₁ := finalState ((mcsfs1Mount (some plainDev)).run s)
      (step (some plainMount) (.unlink (some nameA)) s₁).1 = .status (.ok ()) ∧
        returned ((mcsfs1Fsck (some plainDev)).run
          (step (some plainMount) (.unlink (some nameA)) s₁).2) = .error .corrupt) :
    BrokenByUnlink s :=
  ⟨h.1, _, run_mcsfs1Mount_of_isOk h.2.1, h.2.2⟩

/-- The removal marks the inode table as free, or the inode of the other entry. -/
theorem unlink_breaks_accepted : BrokenByUnlink strayBlockDisk ∧ BrokenByUnlink sharedInodeDisk :=
  ⟨brokenByUnlink_of_eval (by decide +kernel), brokenByUnlink_of_eval (by decide +kernel)⟩

end Mcsfs1

end Mcsos
