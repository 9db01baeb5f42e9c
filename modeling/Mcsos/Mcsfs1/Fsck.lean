import Mcsos.Mcsfs1.Access

/-!
# What `mcsfs1_fsck` checks

On a device that does not fail, `mcsfs1_fsck` accepts exactly the volumes that are `Accepted`
(`fsck_ok_iff`), whatever else the blocks hold. It looks at each entry by itself, and at the blocks
that the size of its file calls for. A consistent volume is an accepted one in which in addition no
inode and no block is shared, and in which the blocks beyond the size of a file are its own too
(`consistent_iff`).
-/

namespace Mcsos

namespace Mcsfs1

open FaultyDisk

variable {dev : Blkdev} {d : ℕ → Block} {bc i : ℕ} {v : Volume}

/-! ## Accepted volumes -/

/-- What `mcsfs1_fsck` checks for entry `i`. -/
structure CheckedEntry (bc : ℕ) (v : Volume) (i : ℕ) : Prop where
  ino_le : (v.entry i).ino ≤ maxInodes
  type : (v.entry i).type = modeFile
  used : v.inodeUsed (v.entry i).ino = true
  mode : (v.file i).mode = modeFile
  size : (v.file i).size ≤ directBlocks * blockSize
  needed : ∀ k < neededBlocks (v.file i).size, dataStartLba ≤ (v.file i).direct k ∧
    (v.file i).direct k < bc ∧ v.blockUsed ((v.file i).direct k) = true

/-- What `mcsfs1_fsck` checks. -/
structure Accepted (bc : ℕ) (v : Volume) : Prop where
  super : SuperOk bc v.super
  rootUsed : v.inodeUsed rootIno = true
  system : ∀ b < dataStartLba, v.blockUsed b = true
  rootMode : (v.inode rootIno).mode = modeDir
  rootDirect : (v.inode rootIno).direct 0 = rootDirLba
  entry : ∀ i, v.Live i → CheckedEntry bc v i

/-- What `mcsfs1_fsck` does not check: the files of a volume share neither inodes nor blocks, and
all their blocks are data blocks in use, also those beyond their sizes. -/
structure Unshared (bc : ℕ) (v : Volume) : Prop where
  linkedOnce : ∀ i j, v.Live i → v.Live j → (v.entry i).ino = (v.entry j).ino → i = j
  owns : ∀ i, v.Live i → OwnsBlocks bc v.blockUsed (v.file i)
  disjoint : ∀ i j, v.Live i → v.Live j → i ≠ j → ∀ b, (v.file i).Owns b → ¬(v.file j).Owns b

theorem CheckedEntry.two_le (h : CheckedEntry bc v i) (hroot : (v.inode rootIno).mode = modeDir)
    (hi : v.Live i) : 2 ≤ (v.entry i).ino := by
  have hne : (v.entry i).ino ≠ rootIno := by
    intro heq
    have hmode := h.mode
    rw [Volume.file, heq, hroot] at hmode
    exact absurd hmode (by decide)
  have hpos := hi.2
  rw [rootIno] at hne
  omega

theorem consistent_iff : Consistent bc v ↔ Accepted bc v ∧ Unshared bc v := by
  constructor
  · intro h
    refine ⟨⟨h.super, h.rootUsed, h.system, h.rootMode, h.rootDirect, fun i hi ↦ ?_⟩,
      ⟨h.linkedOnce, fun i hi ↦ (h.file i hi).toOwnsBlocks, h.disjoint⟩⟩
    have hentry := h.entry i hi
    have hfile := h.file i hi
    refine ⟨hentry.ino_le, hentry.type, hentry.used, hfile.mode, hfile.size, fun k hk ↦ ?_⟩
    have howns : (v.file i).Owns ((v.file i).direct k) :=
      ⟨hfile.needed k hk, k, hk.trans_le (neededBlocks_le hfile.size), rfl⟩
    exact ⟨(hfile.range _ howns).1, (hfile.range _ howns).2, hfile.used _ howns⟩
  · rintro ⟨h, hunshared⟩
    refine ⟨h.super, h.rootUsed, h.rootMode, h.rootDirect, h.system, fun i hi ↦ ?_,
      hunshared.linkedOnce, fun i hi ↦ ?_, hunshared.disjoint⟩
    · have hentry := h.entry i hi
      exact ⟨hentry.type, hentry.two_le h.rootMode hi, hentry.ino_le, hentry.used⟩
    · have hentry := h.entry i hi
      refine ⟨hunshared.owns i hi, hentry.mode, hentry.size, fun k hk ↦ ?_⟩
      have hge := (hentry.needed k hk).1
      rw [dataStartLba] at hge
      omega

/-! ## `load_super` -/

section Checks

variable {C : (ℕ → Block) → Prop} {err : Err → (ℕ → Block) → Prop} (hdev : dev.Usable)
include hdev

theorem wp_loadSuper {ok : Block → (ℕ → Block) → Prop}
    (hok : SuperOk dev.blockCount (d sbLba) → ok (d sbLba) d)
    (hcorrupt : ¬SuperOk dev.blockCount (d sbLba) → err .corrupt d)
    (hio : Faulty dev.fails → err .io d) : wp C (loadSuper dev) ok err d := by
  have hmin := hdev.min_le
  rw [minBlocks] at hmin
  refine wp_bind (wp_devRead hdev (hdev.lt_blockCount (by decide)) ?_ hio)
  refine wp_bind (wp_failIf (fun hbad ↦ hcorrupt fun h ↦ ?_) fun hids ↦ ?_)
  · simp [h.magic, h.version, h.blockSize] at hbad
  refine wp_bind (wp_failIf (fun hbad ↦ hcorrupt fun h ↦ ?_) fun hcounts ↦ ?_)
  · simp [h.blockCount, h.inodeCount] at hbad
  refine wp_bind (wp_failIf (fun hbad ↦ hcorrupt fun h ↦ ?_) fun hlbas ↦ ?_)
  · simp [h.inodeBmapLba, h.blockBmapLba, h.inodeTableLba] at hbad
  refine wp_bind (wp_failIf (fun hbad ↦ hcorrupt fun h ↦ ?_) fun hroot ↦ ?_)
  · simp [h.rootIno, h.rootDirLba, h.dataStartLba] at hbad
  simp only [not_or, ne_eq, not_not] at hids hcounts hlbas hroot
  refine wp_bind (wp_failIf (fun hbad ↦ ?_) fun _ ↦ wp_pure (hok ?_))
  · rw [hroot.2.2, hcounts.1, dataStartLba] at hbad
    omega
  · exact ⟨hids.1, hids.2.1, hids.2.2, hcounts.1, hcounts.2, hlbas.1, hlbas.2.1, hlbas.2.2, hroot.1,
      hroot.2.1, hroot.2.2⟩

/-! ## `mcsfs1_fsck` and `mcsfs1_mount` -/

theorem wp_fsckEntry {ok : Unit → (ℕ → Block) → Prop} (hi : i < direntCount)
    (hok : ((volumeOf d).Live i → CheckedEntry dev.blockCount (volumeOf d) i) → ok () d)
    (hcorrupt : ¬((volumeOf d).Live i → CheckedEntry dev.blockCount (volumeOf d) i) →
      err .corrupt d) (hio : Faulty dev.fails → err .io d) :
    wp C (fsckEntry dev (d inodeBmapLba) (d blockBmapLba) (direntAt (d rootDirLba) i))
      ok err d := by
  rw [fsckEntry]
  split_ifs with hino
  · exact wp_pure (hok fun hlive ↦ absurd hino hlive.2)
  have hlive : (volumeOf d).Live i := ⟨hi, hino⟩
  refine wp_bind (wp_failIf (fun hbad ↦ hcorrupt fun h ↦ ?_) fun hentry ↦ ?_)
  · have hchecked := h hlive
    rcases hbad with hle | htype | hused
    · exact absurd hchecked.ino_le (Nat.not_le_of_lt hle)
    · exact absurd hchecked.type htype
    · exact absurd hchecked.used (by rw [Bool.not_eq_true]; exact hused)
  simp only [not_or, ne_eq, not_not, Nat.not_lt, Bool.not_eq_false] at hentry
  obtain ⟨hle, htype, hused⟩ := hentry
  refine wp_bind (wp_readInode hdev (Nat.pos_of_ne_zero hino) hle ?_ hio)
  refine wp_bind (wp_failIf (fun hbad ↦ hcorrupt fun h ↦ ?_) fun hinode ↦ ?_)
  · rcases hbad with hmode | hsize
    · exact absurd (h hlive).mode hmode
    · exact absurd (h hlive).size (Nat.not_le_of_lt hsize)
  simp only [not_or, ne_eq, not_not, Nat.not_lt] at hinode
  obtain ⟨hmode, hsize⟩ := hinode
  dsimp only
  rw [neededBlocks_eq hsize]
  refine wp_failIf (fun hbad ↦ hcorrupt fun h ↦ ?_) fun hneeded ↦ hok fun _ ↦ ?_
  · obtain ⟨k, hk, hbad⟩ := hbad
    obtain ⟨hge, hlt, hmarked⟩ := (h hlive).needed k hk
    rcases hbad with hsmall | hlarge | hunused
    · exact absurd hge (Nat.not_le_of_lt hsmall)
    · exact absurd hlt (Nat.not_lt_of_le hlarge)
    · exact absurd hmarked (by rw [Bool.not_eq_true]; exact hunused)
  · refine ⟨hle, htype, hused, hmode, hsize, fun k hk ↦ ?_⟩
    have hgood : ¬_ := fun hbad ↦ hneeded ⟨k, hk, hbad⟩
    simp only [not_or, Nat.not_lt, Nat.not_le, Bool.not_eq_false] at hgood
    exact hgood

theorem wp_fsckEntries {ok : Unit → (ℕ → Block) → Prop} {is : List ℕ}
    (his : ∀ i ∈ is, i < direntCount)
    (hok : (∀ i ∈ is, (volumeOf d).Live i → CheckedEntry dev.blockCount (volumeOf d) i) → ok () d)
    (hcorrupt : ¬(∀ i ∈ is, (volumeOf d).Live i → CheckedEntry dev.blockCount (volumeOf d) i) →
      err .corrupt d) (hio : Faulty dev.fails → err .io d) :
    wp C (fsckEntries dev (d inodeBmapLba) (d blockBmapLba) (d rootDirLba) is) ok err d := by
  induction is with
  | nil => exact wp_pure (hok fun i hi ↦ absurd hi List.not_mem_nil)
  | cons i is ih =>
    rw [List.forall_mem_cons] at hok hcorrupt
    refine wp_bind (wp_fsckEntry hdev (his i List.mem_cons_self) (fun hhead ↦ ?_)
      (fun hbad ↦ hcorrupt fun h ↦ hbad h.1) hio)
    exact ih (fun j hj ↦ his j (List.mem_cons_of_mem i hj)) (fun htail ↦ hok ⟨hhead, htail⟩)
      fun hbad ↦ hcorrupt fun h ↦ hbad h.2

theorem wp_mcsfs1Fsck {ok : Unit → (ℕ → Block) → Prop}
    (hok : Accepted dev.blockCount (volumeOf d) → ok () d)
    (hcorrupt : ¬Accepted dev.blockCount (volumeOf d) → err .corrupt d)
    (hio : Faulty dev.fails → err .io d) : wp C (mcsfs1Fsck (some dev)) ok err d := by
  refine wp_bind (wp_loadSuper hdev (fun hsuper ↦ ?_)
    (fun hbad ↦ hcorrupt fun h ↦ hbad h.super) hio)
  refine wp_bind (wp_loadBmaps hdev ?_ hio)
  refine wp_bind (wp_failIf (fun hbad ↦ hcorrupt fun h ↦ ?_) fun hroot ↦ ?_)
  · rcases hbad with hino | hdir
    · exact absurd h.rootUsed (by rw [Bool.not_eq_true]; exact hino)
    · exact absurd (h.system rootDirLba (by decide)) (by rw [Bool.not_eq_true]; exact hdir)
  refine wp_bind (wp_failIf (fun hbad ↦ hcorrupt fun h ↦ ?_) fun hsystem ↦ ?_)
  · obtain ⟨b, hb, hunused⟩ := hbad
    exact absurd (h.system b hb) (by rw [Bool.not_eq_true]; exact hunused)
  refine wp_bind (wp_readInode hdev (by decide) (by decide) ?_ hio)
  refine wp_bind (wp_failIf (fun hbad ↦ hcorrupt fun h ↦ ?_) fun hinode ↦ ?_)
  · rcases hbad with hmode | hdirect
    · exact absurd h.rootMode hmode
    · exact absurd h.rootDirect hdirect
  refine wp_bind (wp_devRead hdev (hdev.lt_blockCount (by decide)) ?_ hio)
  simp only [not_or, ne_eq, not_not, Bool.not_eq_false] at hroot hinode
  refine wp_fsckEntries hdev (fun i hi ↦ List.mem_range.mp hi) (fun hentries ↦ hok ?_)
    (fun hbad ↦ hcorrupt fun h ↦ hbad fun i _ ↦ h.entry i) hio
  refine ⟨hsuper, hroot.1, fun b hb ↦ ?_, hinode.1, hinode.2,
    fun i hi ↦ hentries i (List.mem_range.mpr hi.1) hi⟩
  by_contra hunused
  exact hsystem ⟨b, hb, by rw [Bool.not_eq_true] at hunused; exact hunused⟩

/-- `mcsfs1_mount` checks less than `mcsfs1_fsck`. -/
theorem wp_mcsfs1Mount {ok : Mount → (ℕ → Block) → Prop}
    (haccepted : Accepted dev.blockCount (volumeOf d))
    (hok : ok ⟨dev, dev.blockCount, dataStartLba⟩ d) (hio : Faulty dev.fails → err .io d) :
    wp C (mcsfs1Mount (some dev)) ok err d := by
  refine wp_bind (wp_loadSuper hdev (fun hsuper ↦ ?_)
    (fun hbad ↦ absurd haccepted.super hbad) hio)
  refine wp_bind (wp_readInode hdev (by decide) (by decide) ?_ hio)
  refine wp_bind (wp_failIf (fun hbad ↦ ?_) fun _ ↦ wp_pure ?_)
  · rcases hbad with hmode | hdirect
    · exact absurd haccepted.rootMode hmode
    · exact absurd haccepted.rootDirect hdirect
  · rwa [hsuper.blockCount, hsuper.dataStartLba]

/-- On a device that does not fail, `mcsfs1_fsck` returns `MCSFS1_ERR_OK` exactly for the accepted
volumes. -/
theorem fsck_ok_iff (hgood : ¬Faulty dev.fails) (s : Disk Block) :
    returned ((mcsfs1Fsck (some dev)).run s) = .ok () ↔
      Accepted dev.blockCount (volumeOf s.block) := by
  have hmeets : Meets (fun _ ↦ True) (mcsfs1Fsck (some dev))
      (fun r _ ↦ r = .ok () ↔ Accepted dev.blockCount (volumeOf s.block)) s.block :=
    wp_mcsfs1Fsck hdev (fun h ↦ iff_of_true rfl h) (fun h ↦ iff_of_false nofun h)
      fun hfaulty ↦ absurd hfaulty hgood
  exact (hmeets.run ⟨trivial, fun _ _ ↦ trivial⟩).2

end Checks

end Mcsfs1

end Mcsos
