import Mcsos.Mcsfs1.Volume

/-!
# The volume on a disk

`volumeOf` decodes the blocks of a disk. Each kind of block that the operations write is one kind of
step of the volume, and leaves the rest of it alone.
-/

namespace Mcsos

namespace Mcsfs1

/-- The volume that the blocks of a disk hold. -/
def volumeOf (d : ℕ → Block) : Volume where
  super := d sbLba
  inodeUsed := bitTest (d inodeBmapLba)
  blockUsed := bitTest (d blockBmapLba)
  inode n := if 1 ≤ n ∧ n ≤ maxInodes then (d (inodeLba n)).slice (inodeOff n) 60 else Buf.zero 60
  entry := direntAt (d rootDirLba)
  data b := if b < dataStartLba then Buf.zero 512 else d b

variable {d : ℕ → Block} {n i : ℕ}

theorem inodeLba_eq (n : ℕ) : inodeLba n = 3 + (n - 1) / 8 := rfl

theorem inodeOff_eq (n : ℕ) : inodeOff n = (n - 1) % 8 * 60 := rfl

theorem inodeLba_lt (hn : n ≤ maxInodes) : inodeLba n < rootDirLba := by
  rw [maxInodes] at hn
  rw [inodeLba_eq, rootDirLba]
  omega

theorem inode_volumeOf (h1 : 1 ≤ n) (hn : n ≤ maxInodes) :
    (volumeOf d).inode n = (d (inodeLba n)).slice (inodeOff n) 60 :=
  if_pos ⟨h1, hn⟩

theorem data_volumeOf {b : ℕ} (hb : dataStartLba ≤ b) : (volumeOf d).data b = d b :=
  if_neg (by omega)

theorem rootDir_eq_of_entry_eq {d d' : ℕ → Block} (h : (volumeOf d').entry = (volumeOf d).entry) :
    d' rootDirLba = d rootDirLba := by
  refine Buf.ext_of_lt fun j hj ↦ ?_
  have hbyte : ∀ dir : Block, dir.byte j = (direntAt dir (j / 32)).byte (j % 32) := fun dir ↦ by
    rw [direntAt, Buf.byte_slice_of_lt (Nat.mod_lt _ (by decide)), Nat.div_add_mod]
  rw [hbyte, hbyte]
  exact congrArg (fun e : Dirent ↦ e.byte (j % 32)) (congrFun h (j / 32))

/-! ## Inodes and entries -/

namespace Inode

variable {x : Inode} {k l a : ℕ}

theorem direct_setDirect_self (hk : k < directBlocks) (ha : a < 2 ^ 32) :
    (x.setDirect k a).direct k = a := by
  rw [directBlocks] at hk
  exact Buf.load_store_self (by omega) (by omega)

theorem direct_setDirect_of_ne (hl : l < directBlocks) (hkl : l ≠ k) :
    (x.setDirect k a).direct l = x.direct l := by
  rw [directBlocks] at hl
  exact Buf.load_store_of_disjoint (by omega) (by omega)

theorem mode_setDirect : (x.setDirect k a).mode = x.mode :=
  Buf.load_store_of_disjoint (by omega) (by omega)

theorem direct_setSize (hk : k < directBlocks) : (x.setSize a).direct k = x.direct k := by
  rw [directBlocks] at hk
  exact Buf.load_store_of_disjoint (by omega) (by omega)

theorem mode_setSize : (x.setSize a).mode = x.mode :=
  Buf.load_store_of_disjoint (by omega) (by omega)

theorem size_setSize (ha : a < 2 ^ 32) : (x.setSize a).size = a :=
  Buf.load_store_self (by omega) (by omega)

theorem mode_make (size direct0 : ℕ) {mode : ℕ} (hmode : mode < 2 ^ 16) :
    (make mode size direct0).mode = mode := by
  rw [Inode.mode, make, Buf.load_store_of_disjoint (by omega) (by omega),
    Buf.load_store_of_disjoint (by omega) (by omega),
    Buf.load_store_of_disjoint (by omega) (by omega), Buf.load_store_self (by omega) (by omega)]

theorem size_make (mode direct0 : ℕ) {size : ℕ} (hsize : size < 2 ^ 32) :
    (make mode size direct0).size = size := by
  rw [Inode.size, make, Buf.load_store_of_disjoint (by omega) (by omega),
    Buf.load_store_self (by omega) (by omega)]

theorem direct_make (mode size : ℕ) {direct0 : ℕ} (hdirect : direct0 < 2 ^ 32)
    (hk : k < directBlocks) : (make mode size direct0).direct k = if k = 0 then direct0 else 0 := by
  rw [directBlocks] at hk
  rw [Inode.direct, make]
  split_ifs with h0
  · rw [h0, Buf.load_store_self (by omega) (by omega)]
  · rw [Buf.load_store_of_disjoint (by omega) (by omega),
      Buf.load_store_of_disjoint (by omega) (by omega),
      Buf.load_store_of_disjoint (by omega) (by omega),
      Buf.load_store_of_disjoint (by omega) (by omega), Buf.load_zero]

end Inode

namespace Dirent

variable {ino type nameLen : ℕ} {name : Mem}

private theorem load_make {w off : ℕ} (h : off + w ≤ 5) : (make ino type name nameLen).load w off =
    ((Buf.zero 32).store 4 0 ino |>.store 1 4 type).load w off :=
  Mem.load_congr fun k _ hk ↦ Buf.byte_patch_of_notMem (by rw [nameOffset]; omega)

theorem ino_make (hino : ino < 2 ^ 32) : (make ino type name nameLen).ino = ino := by
  rw [Dirent.ino, load_make (by omega), Buf.load_store_of_disjoint (by omega) (by omega),
    Buf.load_store_self (by omega) (by omega)]

theorem type_make (htype : type < 2 ^ 8) : (make ino type name nameLen).type = type := by
  rw [Dirent.type, load_make (by omega), Buf.load_store_self (by omega) (by omega)]

theorem name_make {j : ℕ} (hj : j < maxName) : (make ino type name nameLen).byte (nameOffset + j) =
    if j < nameLen then name j else 0 := by
  rw [maxName] at hj
  rw [make, nameOffset, Buf.patch, Buf.byte_ofFn_of_lt (by omega), if_pos (by omega),
    Nat.add_sub_cancel_left, Buf.copyIn, Buf.byte_ofFn_of_lt hj, Buf.byte_zero]

end Dirent

/-! ## Bitmaps -/

theorem bitTest_bitSet {b : Block} (hn : n < 4096) :
    bitTest (bitSet b n) = Function.update (bitTest b) n true := by
  funext m
  rw [Function.update_apply, bitTest, bitSet]
  by_cases hm : m / 8 < 512
  · rw [Bitmap.test_congr (Buf.byte_ofFn_of_lt hm), Bitmap.test_set]
    split_ifs with hmn
    · rw [decide_eq_true hmn, Bool.true_or]
    · rw [decide_eq_false hmn, Bool.false_or, bitTest]
  · rw [if_neg (by omega), bitTest]
    exact Bitmap.test_congr (by rw [Buf.byte_eq_zero _ _ (by omega), b.byte_eq_zero _ (by omega)])

theorem bitTest_bitClear {b : Block} (hn : n < 4096) :
    bitTest (bitClear b n) = Function.update (bitTest b) n false := by
  funext m
  rw [Function.update_apply, bitTest, bitClear]
  by_cases hm : m / 8 < 512
  · rw [Bitmap.test_congr (Buf.byte_ofFn_of_lt hm), Bitmap.test_clear]
    split_ifs with hmn
    · rw [decide_eq_false (not_not.mpr hmn), Bool.false_and]
    · rw [decide_eq_true hmn, Bool.true_and, bitTest]
  · rw [if_neg (by omega), bitTest]
    exact Bitmap.test_congr (by rw [Buf.byte_eq_zero _ _ (by omega), b.byte_eq_zero _ (by omega)])

/-! ## Writes

A write to a block of one part of the volume leaves the other parts alone. -/

section Frame

variable {lba : ℕ} (b : Block)

theorem super_update (h : lba ≠ sbLba) :
    (volumeOf (Function.update d lba b)).super = (volumeOf d).super := by
  simp only [volumeOf, Function.update_of_ne h.symm]

theorem inodeUsed_update (h : lba ≠ inodeBmapLba) :
    (volumeOf (Function.update d lba b)).inodeUsed = (volumeOf d).inodeUsed := by
  simp only [volumeOf, Function.update_of_ne h.symm]

theorem blockUsed_update (h : lba ≠ blockBmapLba) :
    (volumeOf (Function.update d lba b)).blockUsed = (volumeOf d).blockUsed := by
  simp only [volumeOf, Function.update_of_ne h.symm]

theorem inode_update (h : lba < inodeTableLba ∨ rootDirLba ≤ lba) :
    (volumeOf (Function.update d lba b)).inode = (volumeOf d).inode := by
  funext n
  simp only [volumeOf]
  split_ifs with hn
  · have hlba : inodeLba n ≠ lba := by
      have hlt := inodeLba_lt hn.2
      rw [inodeTableLba] at h
      rw [inodeLba_eq] at hlt ⊢
      omega
    rw [Function.update_of_ne hlba]
  · rfl

theorem entry_update (h : lba ≠ rootDirLba) :
    (volumeOf (Function.update d lba b)).entry = (volumeOf d).entry := by
  simp only [volumeOf, Function.update_of_ne h.symm]

theorem data_update (h : lba < dataStartLba) :
    (volumeOf (Function.update d lba b)).data = (volumeOf d).data := by
  funext a
  simp only [volumeOf]
  split_ifs with ha
  · rfl
  · rw [Function.update_of_ne (by omega)]

end Frame

theorem volumeOf_update_super (d : ℕ → Block) (sb : Block) :
    volumeOf (Function.update d sbLba sb) = { volumeOf d with super := sb } := by
  refine Volume.ext ?_ (inodeUsed_update sb (by decide)) (blockUsed_update sb (by decide))
    (inode_update sb (by decide)) (entry_update sb (by decide)) (data_update sb (by decide))
  simp only [volumeOf, Function.update_self]

theorem volumeOf_update_inodeBmap (d : ℕ → Block) (ib : Block) :
    volumeOf (Function.update d inodeBmapLba ib) =
      { volumeOf d with inodeUsed := bitTest ib } := by
  refine Volume.ext (super_update ib (by decide)) ?_ (blockUsed_update ib (by decide))
    (inode_update ib (by decide)) (entry_update ib (by decide)) (data_update ib (by decide))
  simp only [volumeOf, Function.update_self]

theorem volumeOf_update_blockBmap (d : ℕ → Block) (bb : Block) :
    volumeOf (Function.update d blockBmapLba bb) =
      { volumeOf d with blockUsed := bitTest bb } := by
  refine Volume.ext (super_update bb (by decide)) (inodeUsed_update bb (by decide)) ?_
    (inode_update bb (by decide)) (entry_update bb (by decide)) (data_update bb (by decide))
  simp only [volumeOf, Function.update_self]

/-- An inode is written by copying it into its block; the other inodes of the block are kept. -/
theorem volumeOf_update_inode (d : ℕ → Block) (h1 : 1 ≤ n) (hn : n ≤ maxInodes) (x : Inode) :
    volumeOf (Function.update d (inodeLba n) ((d (inodeLba n)).patch (inodeOff n) x)) =
      (volumeOf d).setInode n x := by
  have hlt := inodeLba_lt hn
  have hlba : 3 ≤ inodeLba n := by
    rw [inodeLba_eq]
    omega
  rw [rootDirLba] at hlt
  refine Volume.ext (super_update _ ?_) (inodeUsed_update _ ?_) (blockUsed_update _ ?_) ?_
    (entry_update _ ?_) (data_update _ ?_)
  · rw [sbLba]
    omega
  · rw [inodeBmapLba]
    omega
  · rw [blockBmapLba]
    omega
  · funext m
    rw [Volume.inode_setInode]
    by_cases hm : 1 ≤ m ∧ m ≤ maxInodes
    · rw [inode_volumeOf hm.1 hm.2]
      split_ifs with hmn
      · rw [hmn, Function.update_self, Buf.slice_patch_self]
        rw [inodeOff_eq]
        omega
      · rw [inode_volumeOf hm.1 hm.2]
        by_cases hsame : inodeLba m = inodeLba n
        · -- another inode of the same block
          rw [hsame, Function.update_self, Buf.slice_patch_of_disjoint]
          rw [inodeLba_eq, inodeLba_eq] at hsame
          rw [inodeOff_eq, inodeOff_eq]
          omega
        · rw [Function.update_of_ne hsame]
    · have hmn : m ≠ n := by
        rintro rfl
        exact hm ⟨h1, hn⟩
      rw [if_neg hmn]
      simp only [volumeOf, if_neg hm]
  · rw [rootDirLba]
    omega
  · rw [dataStartLba]
    omega

theorem volumeOf_update_dir (d : ℕ → Block) (hi : i < direntCount) (e : Dirent) :
    volumeOf (Function.update d rootDirLba ((d rootDirLba).patch (32 * i) e)) =
      (volumeOf d).setEntry i e := by
  refine Volume.ext (super_update _ (by decide)) (inodeUsed_update _ (by decide))
    (blockUsed_update _ (by decide)) (inode_update _ (by decide)) ?_ (data_update _ (by decide))
  rw [direntCount] at hi
  funext j
  rw [Volume.entry_setEntry]
  simp only [volumeOf, Function.update_self, direntAt]
  split_ifs with hji
  · rw [hji, Buf.slice_patch_self (by omega)]
  · rw [Buf.slice_patch_of_disjoint (by omega)]

theorem volumeOf_update_data (d : ℕ → Block) {b : ℕ} (hb : dataStartLba ≤ b) (blk : Block) :
    volumeOf (Function.update d b blk) = (volumeOf d).setData b blk := by
  rw [dataStartLba] at hb
  refine Volume.ext (super_update _ ?_) (inodeUsed_update _ ?_) (blockUsed_update _ ?_)
    (inode_update _ (.inr ?_)) (entry_update _ ?_) ?_
  · rw [sbLba]
    omega
  · rw [inodeBmapLba]
    omega
  · rw [blockBmapLba]
    omega
  · rw [rootDirLba]
    omega
  · rw [rootDirLba]
    omega
  · funext a
    rw [Volume.data_setData]
    simp only [volumeOf]
    by_cases hab : a = b
    · rw [if_pos hab, hab, Function.update_self, if_neg (by rw [dataStartLba]; omega)]
    · rw [if_neg hab, Function.update_of_ne hab]

end Mcsfs1

end Mcsos
