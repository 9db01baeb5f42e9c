import Mcsos.Mcsfs1.Layout

/-!
# Access to the disk

What the functions below the operations do to a disk with a consistent volume: one rule for each of
them, on top of the rules for the calls of the device. The rules are for every property `C` of the
moments. A function that writes must have it after each of its writes, so its rule says which
volumes these are.

In the rules an error `io` is returned only when some call of the device fails.
-/

namespace Mcsos

namespace Mcsfs1

open FaultyDisk

/-- A device that has its callbacks and a size that `mcsfs1_format` accepts. -/
structure Blkdev.Usable (dev : Blkdev) : Prop where
  read : dev.read = true
  write : dev.write = true
  flush : dev.flush = true
  min_le : minBlocks ≤ dev.blockCount
  le_max : dev.blockCount ≤ blockSize * 8

/-- The disk holds a consistent volume. -/
def Intact (dev : Blkdev) (d : ℕ → Block) : Prop := Consistent dev.blockCount (volumeOf d)

variable {dev : Blkdev} {d : ℕ → Block} {C : (ℕ → Block) → Prop} {err : Err → (ℕ → Block) → Prop}

/-! ## Device -/

theorem Blkdev.Usable.lt_blockCount (hdev : dev.Usable) {lba : ℕ} (h : lba < minBlocks) :
    lba < dev.blockCount :=
  Nat.lt_of_lt_of_le h hdev.min_le

/-- The rules for a device of which nothing is known. -/
theorem wp_devRead_of {ok : Block → (ℕ → Block) → Prop} {lba : ℕ}
    (hok : dev.read = true → lba < dev.blockCount → ok (d lba) d)
    (hinval : ¬(dev.read = true ∧ lba < dev.blockCount) → err .inval d)
    (hio : Faulty dev.fails → err .io d) : wp C (devRead dev lba) ok err d := by
  refine wp_bind (wp_failIf (fun hbad ↦ hinval ?_) fun hgood ↦ wp_read ?_ hio)
  · rintro ⟨hread, hlba⟩
    rw [hread] at hbad
    rcases hbad with h | h
    · cases h
    · omega
  · rw [not_or, Bool.not_eq_false] at hgood
    exact hok hgood.1 (Nat.lt_of_not_le hgood.2)

theorem wp_devWrite_of {ok : Unit → (ℕ → Block) → Prop} {lba : ℕ} {b : Block}
    (hok : dev.write = true → lba < dev.blockCount →
      C (Function.update d lba b) ∧ ok () (Function.update d lba b))
    (hinval : ¬(dev.write = true ∧ lba < dev.blockCount) → err .inval d)
    (hio : Faulty dev.fails → err .io d) : wp C (devWrite dev lba b) ok err d := by
  refine wp_bind (wp_failIf (fun hbad ↦ hinval ?_) fun hgood ↦ ?_)
  · rintro ⟨hwrite, hlba⟩
    rw [hwrite] at hbad
    rcases hbad with h | h
    · cases h
    · omega
  · rw [not_or, Bool.not_eq_false] at hgood
    obtain ⟨hC, hend⟩ := hok hgood.1 (Nat.lt_of_not_le hgood.2)
    exact wp_write hC hend hio

theorem wp_devFlush_of {ok : Unit → (ℕ → Block) → Prop} (hok : dev.flush = true → ok () d)
    (hinval : ¬dev.flush = true → err .inval d) (hio : Faulty dev.fails → err .io d) :
    wp C (devFlush dev) ok err d := by
  refine wp_bind (wp_failIf (fun hbad ↦ hinval ?_) fun hgood ↦ wp_flush (hok ?_) hio)
  · rw [hbad]
    exact Bool.false_ne_true
  · rwa [Bool.not_eq_false] at hgood

theorem wp_devRead {ok : Block → (ℕ → Block) → Prop} {lba : ℕ} (hdev : dev.Usable)
    (hlba : lba < dev.blockCount) (hok : ok (d lba) d) (hio : Faulty dev.fails → err .io d) :
    wp C (devRead dev lba) ok err d :=
  wp_devRead_of (fun _ _ ↦ hok) (fun hbad ↦ absurd ⟨hdev.read, hlba⟩ hbad) hio

theorem wp_devWrite {ok : Unit → (ℕ → Block) → Prop} {lba : ℕ} {b : Block} (hdev : dev.Usable)
    (hlba : lba < dev.blockCount) (hC : C (Function.update d lba b))
    (hok : ok () (Function.update d lba b)) (hio : Faulty dev.fails → err .io d) :
    wp C (devWrite dev lba b) ok err d :=
  wp_devWrite_of (fun _ _ ↦ ⟨hC, hok⟩) (fun hbad ↦ absurd ⟨hdev.write, hlba⟩ hbad) hio

theorem wp_devFlush {ok : Unit → (ℕ → Block) → Prop} (hdev : dev.Usable) (hok : ok () d)
    (hio : Faulty dev.fails → err .io d) : wp C (devFlush dev) ok err d :=
  wp_devFlush_of (fun _ ↦ hok) (fun hbad ↦ absurd hdev.flush hbad) hio

theorem takes_devRead {Q : Block → (ℕ → Block) → Prop} {lba : ℕ} (hdev : dev.Usable)
    (hlba : lba < dev.blockCount) (h : Q (d lba) d) : Takes dev.fails 1 (devRead dev lba) Q d := by
  refine .failIf_bind ?_ (.read h)
  rw [hdev.read]
  rintro (hfalse | hge)
  · cases hfalse
  · omega

theorem takes_devWrite {Q : Unit → (ℕ → Block) → Prop} {lba : ℕ} {b : Block} (hdev : dev.Usable)
    (hlba : lba < dev.blockCount) (h : Q () (Function.update d lba b)) :
    Takes dev.fails 1 (devWrite dev lba b) Q d := by
  refine .failIf_bind ?_ (.write h)
  rw [hdev.write]
  rintro (hfalse | hge)
  · cases hfalse
  · omega

/-! ## Inodes -/

theorem wp_inodeChecks {β : Type} {x : FsM β} {ok : β → (ℕ → Block) → Prop} {n : ℕ} (h1 : 1 ≤ n)
    (hn : n ≤ maxInodes) (h : inodeLba n < minBlocks → wp C x ok err d) :
    wp C (do
      failIf (n = 0 ∨ n > maxInodes) .inval
      failIf (inodeLba n ≥ dataStartLba) .corrupt
      x) ok err d := by
  have hlt := inodeLba_lt hn
  rw [rootDirLba] at hlt
  refine wp_bind (wp_failIf (fun hbad ↦ ?_) fun _ ↦ wp_bind (wp_failIf (fun hbad ↦ ?_) fun _ ↦ ?_))
  · omega
  · rw [dataStartLba] at hbad
    omega
  · exact h (by rw [minBlocks]; omega)

section Inodes

variable {n : ℕ} (hdev : dev.Usable) (h1 : 1 ≤ n) (hn : n ≤ maxInodes)
include hdev h1 hn

theorem wp_readInode {ok : Inode → (ℕ → Block) → Prop} (hok : ok ((volumeOf d).inode n) d)
    (hio : Faulty dev.fails → err .io d) : wp C (readInode dev n) ok err d := by
  refine wp_inodeChecks h1 hn fun hlba ↦
    wp_bind (wp_devRead hdev (hdev.lt_blockCount hlba) (wp_pure ?_) hio)
  rwa [inode_volumeOf h1 hn] at hok

theorem wp_writeInode {ok : Unit → (ℕ → Block) → Prop} {x : Inode}
    (hC : ∀ d', volumeOf d' = (volumeOf d).setInode n x → C d')
    (hok : ∀ d', volumeOf d' = (volumeOf d).setInode n x → ok () d')
    (hio : Faulty dev.fails → err .io d) : wp C (writeInode dev n x) ok err d := by
  have hvol := volumeOf_update_inode d h1 hn x
  refine wp_inodeChecks h1 hn fun hlba ↦ wp_bind (wp_devRead hdev (hdev.lt_blockCount hlba) ?_ hio)
  exact wp_devWrite hdev (hdev.lt_blockCount hlba) (hC _ hvol) (hok _ hvol) hio

end Inodes

theorem wp_readFile {ok : Inode → (ℕ → Block) → Prop} {i : ℕ} (hdev : dev.Usable)
    (hd : Intact dev d) (hi : (volumeOf d).Live i) (hok : ok ((volumeOf d).file i) d)
    (hio : Faulty dev.fails → err .io d) :
    wp C (readInode dev ((volumeOf d).entry i).ino) ok err d :=
  wp_readInode hdev (Nat.le_of_succ_le (hd.entry i hi).ino_ge) (hd.entry i hi).ino_le hok hio

/-! ## Bitmaps -/

section Bitmaps

variable (hdev : dev.Usable)
include hdev

theorem wp_loadBmaps {ok : Block × Block → (ℕ → Block) → Prop}
    (hok : ok (d inodeBmapLba, d blockBmapLba) d) (hio : Faulty dev.fails → err .io d) :
    wp C (loadBmaps dev) ok err d := by
  refine wp_bind (wp_devRead hdev (hdev.lt_blockCount (by decide)) ?_ hio)
  refine wp_bind (wp_devRead hdev (hdev.lt_blockCount (by decide)) ?_ hio)
  exact wp_pure hok

theorem wp_storeBmaps {ok : Unit → (ℕ → Block) → Prop} {ib bb : Block}
    (hib : ∀ d', volumeOf d' = { volumeOf d with inodeUsed := bitTest ib } → C d')
    (hbb : ∀ d', volumeOf d' =
      { volumeOf d with inodeUsed := bitTest ib, blockUsed := bitTest bb } → C d')
    (hok : ∀ d', volumeOf d' =
      { volumeOf d with inodeUsed := bitTest ib, blockUsed := bitTest bb } → ok () d')
    (hio : ∀ d', Faulty dev.fails → err .io d') : wp C (storeBmaps dev ib bb) ok err d := by
  have hfirst := volumeOf_update_inodeBmap d ib
  have hboth := volumeOf_update_blockBmap (Function.update d inodeBmapLba ib) bb
  rw [hfirst] at hboth
  refine wp_bind (wp_devWrite hdev (hdev.lt_blockCount (by decide)) (hib _ hfirst) ?_ (hio _))
  exact wp_devWrite hdev (hdev.lt_blockCount (by decide)) (hbb _ hboth) (hok _ hboth) (hio _)

end Bitmaps

/-! ## Allocation -/

/-- An inode number that `alloc_inode_block` may return. -/
structure FreeInode (v : Volume) (n : ℕ) : Prop where
  two_le : 2 ≤ n
  le_max : n ≤ maxInodes
  unused : v.inodeUsed n = false

/-- A block number that `alloc_inode_block` and `alloc_data_block` may return. -/
structure FreeBlock (blockCount : ℕ) (v : Volume) (b : ℕ) : Prop where
  start_le : dataStartLba ≤ b
  lt_count : b < blockCount
  unused : v.blockUsed b = false

theorem freeInode_of_findFreeInode {n : ℕ} (h : findFreeInode (d inodeBmapLba) = some n) :
    FreeInode (volumeOf d) n := by
  rw [findFreeInode, List.find?_range'_eq_some, List.mem_range'_1, maxInodes] at h
  obtain ⟨hbit, ⟨hge, hlt⟩, -⟩ := h
  refine ⟨hge, ?_, by rwa [Bool.not_eq_true'] at hbit⟩
  rw [maxInodes]
  omega

theorem freeBlock_of_findFreeBlock {b : ℕ} (h : findFreeBlock dev (d blockBmapLba) = some b) :
    FreeBlock dev.blockCount (volumeOf d) b := by
  rw [findFreeBlock, List.find?_range'_eq_some, List.mem_range'_1] at h
  obtain ⟨hbit, ⟨hge, hlt⟩, -⟩ := h
  exact ⟨hge, by omega, by rwa [Bool.not_eq_true'] at hbit⟩

theorem not_freeBlock_of_findFreeBlock (h : findFreeBlock dev (d blockBmapLba) = none) (b : ℕ) :
    ¬FreeBlock dev.blockCount (volumeOf d) b := by
  intro hb
  have hge := hb.start_le
  have hlt := hb.lt_count
  rw [findFreeBlock, List.find?_eq_none] at h
  have hbit := h b (List.mem_range'_1.mpr ⟨hge, by omega⟩)
  rw [Bool.not_eq_true'] at hbit
  exact hbit hb.unused

theorem not_freeInode_of_findFreeInode (h : findFreeInode (d inodeBmapLba) = none) (n : ℕ) :
    ¬FreeInode (volumeOf d) n := by
  intro hn
  have hge := hn.two_le
  have hle := hn.le_max
  rw [maxInodes] at hle
  rw [findFreeInode, List.find?_eq_none] at h
  have hbit := h n (List.mem_range'_1.mpr ⟨hge, by rw [maxInodes]; omega⟩)
  rw [Bool.not_eq_true'] at hbit
  exact hbit hn.unused

/-- There are a free slot, a free inode and a free block. -/
structure Volume.HasRoom (v : Volume) (blockCount : ℕ) : Prop where
  slot : ∃ i < direntCount, ¬v.Live i
  inode : ∃ n, FreeInode v n
  block : ∃ b, FreeBlock blockCount v b

theorem FreeInode.bitTest_bitSet {n : ℕ} (hn : FreeInode (volumeOf d) n) :
    bitTest (bitSet (d inodeBmapLba) n) = ((volumeOf d).markInode n true).inodeUsed := by
  have hle := hn.le_max
  rw [maxInodes] at hle
  exact Mcsfs1.bitTest_bitSet (by omega)

theorem FreeBlock.bitTest_bitSet {b : ℕ} (hb : FreeBlock dev.blockCount (volumeOf d) b)
    (hdev : dev.Usable) :
    bitTest (bitSet (d blockBmapLba) b) = ((volumeOf d).markBlock b true).blockUsed := by
  have hlt := Nat.lt_of_lt_of_le hb.lt_count hdev.le_max
  rw [blockSize] at hlt
  exact Mcsfs1.bitTest_bitSet (by omega)

section Allocation

variable (hdev : dev.Usable) (hC : ∀ d', (volumeOf d).Marked (volumeOf d') → C d')
include hdev hC

theorem wp_allocInodeBlock {ok : ℕ × ℕ → (ℕ → Block) → Prop}
    (hok : ∀ n b d', FreeInode (volumeOf d) n → FreeBlock dev.blockCount (volumeOf d) b →
      volumeOf d' = ((volumeOf d).markInode n true).markBlock b true → ok (n, b) d')
    (hnospc : ¬((∃ n, FreeInode (volumeOf d) n) ∧ ∃ b, FreeBlock dev.blockCount (volumeOf d) b) →
      err .nospc d)
    (hio : ∀ d', Faulty dev.fails → err .io d') : wp C (allocInodeBlock dev) ok err d := by
  refine wp_bind (wp_loadBmaps hdev ?_ (hio d))
  dsimp only
  cases hino : findFreeInode (d inodeBmapLba) with
  | none => exact wp_throw (hnospc fun h ↦ not_freeInode_of_findFreeInode hino _ h.1.choose_spec)
  | some n =>
    cases hlba : findFreeBlock dev (d blockBmapLba) with
    | none => exact wp_throw (hnospc fun h ↦ not_freeBlock_of_findFreeBlock hlba _ h.2.choose_spec)
    | some b =>
      have hn := freeInode_of_findFreeInode hino
      have hb := freeBlock_of_findFreeBlock hlba
      have hfirst := (volumeOf d).marked_markInode n
      refine wp_bind (wp_storeBmaps hdev ?_ ?_ (fun d' hd' ↦ wp_pure (hok n b d' hn hb ?_)) hio)
      · intro d' hd'
        rw [hn.bitTest_bitSet] at hd'
        exact hC d' (hd' ▸ hfirst)
      · intro d' hd'
        rw [hn.bitTest_bitSet, hb.bitTest_bitSet hdev] at hd'
        exact hC d' (hd' ▸ hfirst.trans (Volume.marked_markBlock _ b))
      · rw [hd', hn.bitTest_bitSet, hb.bitTest_bitSet hdev]
        rfl

theorem wp_allocDataBlock {ok : ℕ → (ℕ → Block) → Prop}
    (hok : ∀ b d', FreeBlock dev.blockCount (volumeOf d) b →
      volumeOf d' = (volumeOf d).markBlock b true → ok b d')
    (hnospc : (∀ b, ¬FreeBlock dev.blockCount (volumeOf d) b) → err .nospc d)
    (hio : ∀ d', Faulty dev.fails → err .io d') : wp C (allocDataBlock dev) ok err d := by
  refine wp_bind (wp_loadBmaps hdev ?_ (hio d))
  dsimp only
  cases hlba : findFreeBlock dev (d blockBmapLba) with
  | none => exact wp_throw (hnospc (not_freeBlock_of_findFreeBlock hlba))
  | some b =>
    have hb := freeBlock_of_findFreeBlock hlba
    refine wp_bind (wp_storeBmaps hdev ?_ ?_ (fun d' hd' ↦ wp_pure (hok b d' hb ?_)) hio)
    · exact fun d' hd' ↦ hC d' (hd' ▸ .refl _)
    · intro d' hd'
      rw [hb.bitTest_bitSet hdev] at hd'
      exact hC d' (hd' ▸ Volume.marked_markBlock _ b)
    · rw [hd', hb.bitTest_bitSet hdev]
      rfl

end Allocation

/-! ## Deallocation -/

/-- The marks that `free_inode_and_blocks` leaves: those of the blocks of the inode are gone. -/
theorem bitTest_clearDirect (hdev : dev.Usable) {x : Inode}
    (hx : ∀ b, x.Owns b → b < dev.blockCount) (bb : Block) :
    bitTest (clearDirect dev x bb) = fun b ↦ bitTest bb b && !decide (x.Owns b) := by
  have hmax := hdev.le_max
  rw [blockSize] at hmax
  -- after the entries before `k`, the marks of the blocks found in them are gone
  have hloop : ∀ k ≤ directBlocks, bitTest ((List.range k).foldl (fun bb i ↦
      if x.direct i ≠ 0 ∧ x.direct i < dev.blockCount then bitClear bb (x.direct i) else bb) bb) =
      fun b ↦ bitTest bb b && !decide (b ≠ 0 ∧ ∃ i < k, x.direct i = b) := by
    intro k hk
    induction k with
    | zero => simp
    | succ k ih =>
      rw [List.range_succ, List.foldl_append, List.foldl_cons, List.foldl_nil]
      have hprev := ih (by omega)
      generalize (List.range k).foldl _ bb = prev at hprev ⊢
      by_cases h0 : x.direct k = 0
      · rw [if_neg (by omega), hprev]
        funext b
        grind
      · have hlt := hx _ ⟨h0, k, by omega, rfl⟩
        rw [if_pos ⟨h0, hlt⟩, bitTest_bitClear (by omega), hprev]
        funext b
        grind [Function.update_apply]
  exact hloop directBlocks (le_refl _)

theorem wp_freeInodeAndBlocks {ok : Unit → (ℕ → Block) → Prop} {n : ℕ} {x : Inode}
    (hdev : dev.Usable) (hn : n ≤ maxInodes) (hx : ∀ b, x.Owns b → b < dev.blockCount)
    (hib : ∀ d', volumeOf d' = (volumeOf d).markInode n false → C d')
    (hbb : ∀ d', volumeOf d' = { (volumeOf d).markInode n false with
      blockUsed := fun b ↦ (volumeOf d).blockUsed b && !decide (x.Owns b) } → C d')
    (hok : ∀ d', volumeOf d' = { (volumeOf d).markInode n false with
      blockUsed := fun b ↦ (volumeOf d).blockUsed b && !decide (x.Owns b) } → ok () d')
    (hio : ∀ d', Faulty dev.fails → err .io d') :
    wp C (freeInodeAndBlocks dev n x) ok err d := by
  have hinode : bitTest (bitClear (d inodeBmapLba) n) =
      ((volumeOf d).markInode n false).inodeUsed := by
    rw [maxInodes] at hn
    exact bitTest_bitClear (by omega)
  have hblocks := bitTest_clearDirect hdev hx (d blockBmapLba)
  refine wp_bind (wp_loadBmaps hdev ?_ (hio d))
  refine wp_storeBmaps hdev (fun d' hd' ↦ hib d' ?_) (fun d' hd' ↦ hbb d' ?_)
    (fun d' hd' ↦ hok d' ?_) hio
  · rw [hd', hinode]
    rfl
  · rw [hd', hinode, hblocks]
    rfl
  · rw [hd', hinode, hblocks]
    rfl

/-- The marks of an inode without an entry and of blocks that belong to no file are removed. -/
theorem Consistent.free {bc n : ℕ} {v : Volume} {x : Inode} (h : Consistent bc v) (h2 : 2 ≤ n)
    (hun : v.Unlinked n) (hx : ∀ b, x.Owns b → dataStartLba ≤ b)
    (hclear : ∀ j, v.Live j → ∀ b, x.Owns b → ¬(v.file j).Owns b) :
    Consistent bc { v.markInode n false with
      blockUsed := fun b ↦ v.blockUsed b && !decide (x.Owns b) } := by
  have hkeep : ∀ b, v.blockUsed b = true → ¬x.Owns b →
      (v.blockUsed b && !decide (x.Owns b)) = true := fun b hb hbx ↦ by
    rw [hb, decide_eq_false hbx]
    rfl
  have hunmarked := h.unmarkInode (show n ≠ rootIno by rw [rootIno]; omega) hun
  refine hunmarked.setBlockUsed (fun b hb ↦ hkeep b (h.system b hb) fun hbx ↦ ?_)
    fun j hj b hb ↦ hkeep b ((h.file j hj).used b hb) fun hbx ↦ hclear j hj b hbx hb
  exact absurd (hx b hbx) (by omega)

/-! ## Names -/

/-- `find_dirent` finds the name in entry `i`. -/
def Found (d : ℕ → Block) (name : Option Mem) (i : ℕ) : Prop :=
  ∃ nameLen past, validName name = .ok nameLen ∧
    findName (d rootDirLba) past (bytesAt name) nameLen = some i

/-- `find_dirent` does not find the name. -/
def NotFound (d : ℕ → Block) (name : Option Mem) : Prop :=
  ∃ nameLen past, validName name = .ok nameLen ∧
    findName (d rootDirLba) past (bytesAt name) nameLen = none

theorem Found.live {name : Option Mem} {i : ℕ} (h : Found d name i) : (volumeOf d).Live i := by
  obtain ⟨nameLen, past, -, hfind⟩ := h
  rw [findName, List.find?_range_eq_some, decide_eq_true_eq, List.mem_range] at hfind
  exact ⟨hfind.2.1, hfind.1.1⟩

theorem wp_findDirent {ok : ℕ × ℕ → (ℕ → Block) → Prop} {name : Option Mem} (hdev : dev.Usable)
    (hok : ∀ i, Found d name i → ok (i, ((volumeOf d).entry i).ino) d)
    (hnoent : NotFound d name → err .noent d) (hname : ∀ e, validName name = .error e → err e d)
    (hio : Faulty dev.fails → err .io d) : wp C (findDirent dev name) ok err d := by
  refine wp_bind (wp_ofExcept (fun nameLen hlen ↦ ?_) hname)
  refine wp_bind (wp_devRead hdev (hdev.lt_blockCount (by decide)) ?_ hio)
  refine wp_bind (wp_observe fun n ↦ ?_)
  cases hfind : findName (d rootDirLba) (dev.past n) (bytesAt name) nameLen with
  | some i => exact wp_pure (hok i ⟨nameLen, _, hlen, hfind⟩)
  | none => exact wp_throw (hnoent ⟨nameLen, _, hlen, hfind⟩)

end Mcsfs1

end Mcsos
