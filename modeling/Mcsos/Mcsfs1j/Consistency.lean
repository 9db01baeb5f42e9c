import Mcsos.Mcsfs1j.Layout
import Mcsos.Mcsfs1j.Recovery

/-!
# Consistent file systems

`Sound b` is what `m16_fsck` checks, as a property of the block array: on a device with an empty
journal the program returns `M16_E_OK` exactly when it holds (`run_fsck`, `sound_of_fsck`). On such
a device `m16_read_file` is the function `fileOf` of the block array, and neither depends on the
blocks of the journal (`Sound.congr`, `Sound.fileOf_congr`).
-/

namespace Mcsos

namespace M16

/-! ## What a successful call has done -/

theorem run_readBlock_bind_eq_ok {dev dev' : Blockdev} {lba : ℕ} {α : Type} {f : Block → DevM α}
    {a : α} (h : (readBlock lba >>= f).run dev = .ok a dev') :
    (f (dev.blocks lba)).run dev = .ok a dev' := by
  by_cases hvalid : validLba dev lba
  · rwa [run_bind_of_ok (run_readBlock hvalid)] at h
  · have hfail : (readBlock lba).run dev = .error .inval dev := by
      rw [readBlock, run_bind_of_ok (EStateM.run_get dev), run_bind_of_error (run_failIf_of hvalid)]
    rw [run_bind_of_error hfail] at h
    cases h

theorem run_writeBlock_eq_ok {dev dev' : Blockdev} {lba : ℕ} {b : Block}
    (h : (writeBlock lba b).run dev = .ok () dev') : dev' = dev.land (lba, b) := by
  by_cases hvalid : validLba dev lba
  · by_cases hf : dev.failAfter = 0
    · rw [run_writeBlock_fail hvalid hf] at h
      cases h
    · rw [run_writeBlock hvalid hf] at h
      cases h
      rfl
  · rw [writeBlock, run_bind_of_ok (EStateM.run_get dev),
      run_bind_of_error (run_failIf_of hvalid)] at h
    cases h

theorem totalBlocks_of_journalReplay {dev dev' : Blockdev} {i k : ℕ}
    (h : (journalReplay i k).run dev = .ok () dev') : dev'.totalBlocks = dev.totalBlocks := by
  induction k generalizing dev i with
  | zero =>
    rw [journalReplay, EStateM.run_pure] at h
    cases h
    rfl
  | succ k ih =>
    rw [journalReplay] at h
    replace h := run_readBlock_bind_eq_ok h
    rw [run_bind_of_ok (EStateM.run_get _)] at h
    replace h := run_readBlock_bind_eq_ok (run_failIf_bind_eq_ok h).2
    obtain ⟨_, t, hwrite, hrest⟩ := run_bind_eq_ok (run_failIf_bind_eq_ok h).2
    rw [ih hrest, run_writeBlock_eq_ok hwrite]
    rfl

/-- Whatever the journal held, a recovery that succeeds leaves it empty. -/
theorem clean_of_journalRecover {dev dev' : Blockdev} (h : journalRecover.run dev = .ok () dev') :
    Clean dev' ∧ dev'.totalBlocks = dev.totalBlocks := by
  rw [journalRecover] at h
  replace h := run_readBlock_bind_eq_ok h
  by_cases hempty : JournalHeader.magic (dev.blocks journalStart) = 0 ∧
      JournalHeader.state (dev.blocks journalStart) = jEmpty
  · rw [if_pos hempty, EStateM.run_pure] at h
    cases h
    exact ⟨hempty, rfl⟩
  · rw [if_neg hempty] at h
    replace h := (run_failIf_bind_eq_ok (run_failIf_bind_eq_ok h).2).2
    obtain ⟨_, t, hreplay, hclear⟩ := run_bind_eq_ok h
    -- the last write is the one that clears the header
    rw [journalClear] at hclear
    rw [run_writeBlock_eq_ok hclear, ← totalBlocks_of_journalReplay hreplay]
    refine ⟨?_, rfl⟩
    have hzero : (t.land (journalStart, Buf.zero 512)).blocks journalStart = Buf.zero 512 := by
      simp only [Blockdev.land, Function.update_self]
    rw [Clean, hzero]
    exact headerEmpty_zero

/-! ## Mount -/

/-- The fields of the superblock that `m16_mount` checks. -/
structure SuperOk (sb : Block) : Prop where
  magic : Super.magic sb = magic
  version : Super.version sb = version
  blockSize : Super.blockSize sb = blockSize
  dataStartLba : Super.dataStartLba sb = dataStartLba
  rootDirLba : Super.rootDirLba sb = rootDirLba

theorem run_mount {dev : Blockdev} (htotal : 18 ≤ dev.totalBlocks) (hclean : Clean dev)
    (hsb : SuperOk (dev.blocks 0)) : mount.run dev = .ok (dev.blocks 0) dev := by
  have hvalid : validLba dev 0 := by simp only [validLba, maxBlocks]; omega
  rw [mount, run_bind_of_ok (run_journalRecover_empty (validLba_journalStart htotal) hclean),
    run_bind_of_ok (run_readBlock hvalid),
    run_bind_of_ok (run_failIf_of_not (by
      simp only [hsb.magic, hsb.version, hsb.blockSize, ne_eq, not_true, or_self, not_false_iff])),
    run_bind_of_ok (run_failIf_of_not (by
      simp only [hsb.dataStartLba, hsb.rootDirLba, ne_eq, not_true, or_self, not_false_iff])),
    EStateM.run_pure]

theorem of_mount {dev dev' : Blockdev} {sb : Block} (h : mount.run dev = .ok sb dev') :
    Clean dev' ∧ dev'.totalBlocks = dev.totalBlocks ∧ SuperOk (dev'.blocks 0) := by
  rw [mount] at h
  obtain ⟨_, t, hrecover, hrest⟩ := run_bind_eq_ok h
  obtain ⟨hclean, htotal⟩ := clean_of_journalRecover hrecover
  obtain ⟨hid, hrest⟩ := run_failIf_bind_eq_ok (run_readBlock_bind_eq_ok hrest)
  obtain ⟨hlayout, hrest⟩ := run_failIf_bind_eq_ok hrest
  rw [EStateM.run_pure] at hrest
  cases hrest
  simp only [not_or, not_not] at hid hlayout
  exact ⟨hclean, htotal, hid.1, hid.2.1, hid.2.2, hlayout.1, hlayout.2⟩

/-! ## The checks of `m16_fsck` -/

/-- The block array passes `m16_fsck`. -/
structure Sound (b : ℕ → Block) : Prop where
  super : SuperOk (b 0)
  rootBit : bitmapGet (b inodeBitmapLba) 0 = true
  rootUsed : Inode.used (tableOf b) 0 = 1
  rootKind : Inode.kind (tableOf b) 0 = 2
  rootDirect : Inode.direct0 (tableOf b) 0 = rootDirLba
  reserved : ∀ x < dataStartLba, bitmapGet (b blockBitmapLba) x = true
  entries : ∀ i < dirCount,
    direntOk maxBlocks (b inodeBitmapLba) (b blockBitmapLba) (tableOf b) (b rootDirLba) i

theorem validLba_of_full {dev : Blockdev} (htotal : dev.totalBlocks = maxBlocks) {x : ℕ}
    (hx : x < maxBlocks) : validLba dev x := ⟨htotal ▸ hx, hx⟩

private theorem le_total {dev : Blockdev} (htotal : dev.totalBlocks = maxBlocks) :
    18 ≤ dev.totalBlocks ∧ rootDirLba ≤ dev.totalBlocks := by
  rw [htotal]
  decide

theorem validLba_of_lt {dev : Blockdev} (htotal : dataStartLba ≤ dev.totalBlocks) {x : ℕ}
    (hx : x < dataStartLba) : validLba dev x :=
  ⟨Nat.lt_of_lt_of_le hx htotal, Nat.lt_trans hx (by decide)⟩

/-- The reads that `m16_fsck` and `m16_write_file_ex` begin with, on a device of any size. -/
theorem run_readMetadata_of_le {dev : Blockdev} (htotal : dataStartLba ≤ dev.totalBlocks)
    {α : Type} (f : Block → Block → InodeTable → Block → DevM α) :
    (do
      let ib ← readBlock inodeBitmapLba
      let bb ← readBlock blockBitmapLba
      let inodes ← loadInodeTable
      let dir ← readBlock rootDirLba
      f ib bb inodes dir).run dev =
    (f (dev.blocks inodeBitmapLba) (dev.blocks blockBitmapLba) (tableOf dev.blocks)
      (dev.blocks rootDirLba)).run dev := by
  rw [run_bind_of_ok (run_readBlock (validLba_of_lt htotal (by decide))),
    run_bind_of_ok (run_readBlock (validLba_of_lt htotal (by decide))),
    run_bind_of_ok (run_loadInodeTable (Nat.le_of_succ_le htotal)),
    run_bind_of_ok (run_readBlock (validLba_of_lt htotal (by decide)))]

theorem run_readMetadata {dev : Blockdev} (htotal : dev.totalBlocks = maxBlocks) {α : Type}
    (f : Block → Block → InodeTable → Block → DevM α) :
    (do
      let ib ← readBlock inodeBitmapLba
      let bb ← readBlock blockBitmapLba
      let inodes ← loadInodeTable
      let dir ← readBlock rootDirLba
      f ib bb inodes dir).run dev =
    (f (dev.blocks inodeBitmapLba) (dev.blocks blockBitmapLba) (tableOf dev.blocks)
      (dev.blocks rootDirLba)).run dev :=
  run_readMetadata_of_le (by rw [htotal]; decide) f

/-- On a device of any size `m16_fsck` also wants the blocks of the files to be on it. -/
theorem run_fsck_of_le {dev : Blockdev} (htotal : dataStartLba ≤ dev.totalBlocks)
    (hclean : Clean dev) (h : Sound dev.blocks)
    (hfiles : ∀ i < dirCount, Dirent.used (dev.blocks rootDirLba) i ≠ 0 →
      Inode.direct0 (tableOf dev.blocks) (Dirent.ino (dev.blocks rootDirLba) i) < dev.totalBlocks) :
    fsck.run dev = .ok () dev := by
  have hle : 18 ≤ dev.totalBlocks := Nat.le_trans (by decide) htotal
  rw [fsck, run_bind_of_ok (run_mount hle hclean h.super), run_readMetadata_of_le htotal,
    run_bind_of_ok (run_failIf_of_not (by
      simp [h.rootBit, h.rootUsed, h.rootKind, h.rootDirect])),
    run_bind_of_ok (run_failIf_of_not (not_not.mpr h.reserved)),
    run_bind_of_ok (EStateM.run_get dev), run_failIf_of_not]
  rw [not_not]
  intro i hi hused
  obtain ⟨hino, hinode, hge, -, hbit⟩ := h.entries i hi hused
  exact ⟨hino, hinode, hge, hfiles i hi hused, hbit⟩

theorem run_fsck {dev : Blockdev} (htotal : dev.totalBlocks = maxBlocks) (hclean : Clean dev)
    (h : Sound dev.blocks) : fsck.run dev = .ok () dev := by
  refine run_fsck_of_le (by rw [htotal]; decide) hclean h fun i hi hused ↦ ?_
  rw [htotal]
  exact (h.entries i hi hused).2.2.2.1

theorem sound_of_fsck {dev dev' : Blockdev} (htotal : dev.totalBlocks = maxBlocks)
    (h : fsck.run dev = .ok () dev') :
    Clean dev' ∧ dev'.totalBlocks = maxBlocks ∧ Sound dev'.blocks := by
  rw [fsck] at h
  obtain ⟨sb, t, hmount, hrest⟩ := run_bind_eq_ok h
  obtain ⟨hclean, htotal', hsuper⟩ := of_mount hmount
  rw [htotal] at htotal'
  rw [run_readMetadata htotal'] at hrest
  obtain ⟨hroot, hrest⟩ := run_failIf_bind_eq_ok hrest
  obtain ⟨hreserved, hrest⟩ := run_failIf_bind_eq_ok hrest
  rw [run_bind_of_ok (EStateM.run_get _)] at hrest
  obtain ⟨hentries, rfl⟩ := run_failIf_eq_ok hrest
  rw [not_not] at hreserved hentries
  rw [htotal'] at hentries
  simp only [not_or, not_not, Bool.not_eq_false] at hroot
  exact ⟨hclean, htotal', hsuper, hroot.1, hroot.2.1, hroot.2.2.1, hroot.2.2.2, hreserved, hentries⟩

/-! ## Reading a file -/

/-- The bytes of the file with inode number `ino`. -/
def inodeBytes (b : ℕ → Block) (ino : ℕ) : List UInt8 :=
  (List.range (Inode.size (tableOf b) ino)).map (b (Inode.direct0 (tableOf b) ino)).byte

/-- The file of a given name, as a function of the block array. -/
def fileOf (b : ℕ → Block) (name : CStr) : Except Err (List UInt8) :=
  match findDirent (b rootDirLba) name with
  | none => .error .noent
  | some slot => .ok (inodeBytes b (Dirent.ino (b rootDirLba) slot))

theorem of_findDirent {dir : Block} {name : CStr} {slot : ℕ}
    (h : findDirent dir name = some slot) : slot < dirCount ∧ Dirent.used dir slot ≠ 0 := by
  rw [findDirent, List.find?_range'_eq_some, List.mem_range'_1, Bool.and_eq_true,
    decide_eq_true_iff] at h
  exact ⟨by omega, h.1.1⟩

theorem returned_readFile {dev : Blockdev} (htotal : dev.totalBlocks = maxBlocks)
    (hclean : Clean dev) (h : Sound dev.blocks) (past : Mem) (name : CStr) {cap : ℕ}
    (hcap : blockSize ≤ cap) :
    returned ((readFile past (some name) cap).run dev) = fileOf dev.blocks name := by
  rw [readFile, run_bind_of_ok (run_mount (le_total htotal).1 hclean h.super),
    run_bind_of_ok (run_loadInodeTable (le_total htotal).2),
    run_bind_of_ok (run_readBlock (validLba_of_full htotal (by decide))), fileOf]
  cases hfind : findDirent (dev.blocks rootDirLba) name with
  | none => rfl
  | some slot =>
    obtain ⟨hslot, hused⟩ := of_findDirent hfind
    obtain ⟨⟨hino, -⟩, ⟨hiused, hkind, hsize⟩, -, hlt, -⟩ := h.entries slot hslot hused
    rw [orFail, run_bind_of_ok (EStateM.run_pure _ _),
      run_bind_of_ok (run_failIf_of_not (by
        simp only [not_or, not_not, ge_iff_le, not_le]
        exact ⟨hino, hiused, hkind⟩)),
      run_bind_of_ok (EStateM.run_get dev),
      run_bind_of_ok (run_failIf_of_not (by
        simp only [not_or, ge_iff_le, not_le, gt_iff_lt, not_lt, htotal]
        exact ⟨hsize.trans hcap, hlt⟩)),
      run_bind_of_ok (run_readBlock (validLba_of_full htotal hlt)), EStateM.run_pure, returned_ok]
    -- the size is at most one block, so nothing past the buffer is copied
    refine congrArg Except.ok (List.map_congr_left fun i hi ↦ ?_)
    rw [List.mem_range] at hi
    exact if_pos (by omega)

/-! ## The journal does not matter -/

section Congr

variable {b b' : ℕ → Block} (heq : ∀ x, ¬InJournal x → b x = b' x)

include heq

theorem metadata_congr :
    b 0 = b' 0 ∧ b inodeBitmapLba = b' inodeBitmapLba ∧ b blockBitmapLba = b' blockBitmapLba ∧
      tableOf b = tableOf b' ∧ b rootDirLba = b' rootDirLba := by
  refine ⟨heq _ (by decide), heq _ (by decide), heq _ (by decide), tableOf_congr fun x hx _ ↦ ?_,
    heq _ (by decide)⟩
  refine heq x fun hj ↦ ?_
  have := inJournal_iff.mp hj
  simp only [inodeTableLba, blockBitmapLba, inodeBitmapLba, journalStart, journalBlocks,
    journalMaxRecords] at hx
  omega

theorem Sound.congr (h : Sound b) : Sound b' := by
  obtain ⟨hsuper, hib, hbb, htable, hdir⟩ := metadata_congr heq
  obtain ⟨h1, h2, h3, h4, h5, h6, h7⟩ := h
  rw [hsuper] at h1
  rw [hib] at h2 h7
  rw [htable] at h3 h4 h5 h7
  rw [hbb] at h6 h7
  rw [hdir] at h7
  exact ⟨h1, h2, h3, h4, h5, h6, h7⟩

theorem Sound.fileOf_congr (h : Sound b) (name : CStr) : fileOf b name = fileOf b' name := by
  obtain ⟨-, -, -, htable, hdir⟩ := metadata_congr heq
  rw [fileOf, fileOf, ← hdir]
  cases hfind : findDirent (b rootDirLba) name with
  | none => rfl
  | some slot =>
    obtain ⟨hslot, hused⟩ := of_findDirent hfind
    obtain ⟨-, -, hge, -, -⟩ := h.entries slot hslot hused
    -- the data blocks lie behind the journal
    have hout : ¬InJournal (Inode.direct0 (tableOf b) (Dirent.ino (b rootDirLba) slot)) := by
      rw [inJournal_iff]
      have : (25 : ℕ) ≤ _ := hge
      omega
    simp only [inodeBytes, ← htable, heq _ hout]

end Congr

end M16

end Mcsos
