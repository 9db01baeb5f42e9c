import Mcsos.Base.Search
import Mcsos.Mcsfs1j.FileSystem

/-!
# Records on the disk

How the updates of `m16_write_file_ex` act on the structures they are made to: a bitmap gains one
bit, one inode of the table becomes a file, one directory entry is filled. Each is stated as what
the changed record holds afterwards, and that every other record is as before.
-/

namespace Mcsos

namespace M16

/-! ## Bitmaps -/

theorem bitmapGet_bitmapSet {bm : Block} {i j : ℕ} (hj : j < 4096) :
    bitmapGet (bitmapSet bm i) j = (decide (j = i) || bitmapGet bm j) := by
  rw [bitmapGet, bitmapGet, bitmapSet, ← Bitmap.test_set]
  exact Bitmap.test_congr (Buf.byte_ofFn_of_lt (by omega))

theorem bitmapGet_bitmapSet_of_get {bm : Block} {i j : ℕ} (hj : j < 4096)
    (h : bitmapGet bm j = true) : bitmapGet (bitmapSet bm i) j = true := by
  rw [bitmapGet_bitmapSet hj, h, Bool.or_true]

/-! ## The inode table -/

namespace Inode

variable {t : InodeTable} {i size block : ℕ}

private theorem load_setFile_of_disjoint {off : ℕ} (hn : off + 4 ≤ 2048)
    (h : off + 4 ≤ 128 * i ∨ 128 * i + 16 ≤ off) :
    (setFile t i size block).load 4 off = t.load 4 off := by
  rw [setFile, Buf.load_store_of_disjoint hn (by omega), Buf.load_store_of_disjoint hn (by omega),
    Buf.load_store_of_disjoint hn (by omega), Buf.load_store_of_disjoint hn (by omega)]

theorem used_setFile (hi : i < maxInodes) : used (setFile t i size block) i = 1 := by
  simp only [maxInodes] at hi
  rw [used, setFile, Buf.load_store_of_disjoint (by omega) (by omega),
    Buf.load_store_of_disjoint (by omega) (by omega),
    Buf.load_store_of_disjoint (by omega) (by omega), Buf.load_store_self (by omega) (by norm_num)]

theorem kind_setFile (hi : i < maxInodes) : kind (setFile t i size block) i = 1 := by
  simp only [maxInodes] at hi
  rw [kind, setFile, Buf.load_store_of_disjoint (by omega) (by omega),
    Buf.load_store_of_disjoint (by omega) (by omega), Buf.load_store_self (by omega) (by norm_num)]

theorem size_setFile (hi : i < maxInodes) (hs : size < 2 ^ 32) :
    Inode.size (setFile t i size block) i = size := by
  simp only [maxInodes] at hi
  rw [Inode.size, setFile, Buf.load_store_of_disjoint (by omega) (by omega),
    Buf.load_store_self (by omega) (by omega)]

theorem direct0_setFile (hi : i < maxInodes) (hb : block < 2 ^ 32) :
    direct0 (setFile t i size block) i = block := by
  simp only [maxInodes] at hi
  rw [direct0, setFile, Buf.load_store_self (by omega) (by omega)]

theorem fields_setFile_of_ne (t : InodeTable) (size block : ℕ) {i j : ℕ} (hj : j < maxInodes)
    (h : j ≠ i) :
    used (setFile t i size block) j = used t j ∧ kind (setFile t i size block) j = kind t j ∧
      Inode.size (setFile t i size block) j = Inode.size t j ∧
      direct0 (setFile t i size block) j = direct0 t j := by
  simp only [maxInodes] at hj
  exact ⟨load_setFile_of_disjoint (by omega) (by omega),
    load_setFile_of_disjoint (by omega) (by omega),
    load_setFile_of_disjoint (by omega) (by omega),
    load_setFile_of_disjoint (by omega) (by omega)⟩

end Inode

/-- The inode table in the four blocks that hold it. -/
def tableOf (b : ℕ → Block) : InodeTable :=
  Buf.ofFn 2048 fun i ↦ (b (inodeTableLba + i / blockSize)).byte (i % blockSize)

theorem tableOf_congr {b b' : ℕ → Block}
    (h : ∀ x, inodeTableLba ≤ x → x < rootDirLba → b x = b' x) : tableOf b = tableOf b' := by
  refine Buf.ext_of_lt fun i hi ↦ ?_
  rw [tableOf, tableOf, Buf.byte_ofFn_of_lt hi, Buf.byte_ofFn_of_lt hi,
    h _ (Nat.le_add_right _ _)]
  simp only [rootDirLba, blockSize, inodeTableBlocks]
  omega

theorem tableOf_eq_of_slices {b : ℕ → Block} {t : InodeTable}
    (h : ∀ k < inodeTableBlocks, b (inodeTableLba + k) = t.slice (k * blockSize) 512) :
    tableOf b = t := by
  refine Buf.ext_of_lt fun i hi ↦ ?_
  rw [tableOf, Buf.byte_ofFn_of_lt hi, h _ (by simp only [blockSize, inodeTableBlocks]; omega),
    Buf.byte_slice_of_lt (by simp only [blockSize]; omega)]
  congr 1
  simp only [blockSize]
  omega

theorem run_loadInodeTable {dev : Blockdev} (htotal : rootDirLba ≤ dev.totalBlocks) :
    loadInodeTable.run dev = .ok (tableOf dev.blocks) dev := by
  have hvalid : ∀ i < 4, validLba dev (inodeTableLba + i) := by
    intro i hi
    simp only [validLba, rootDirLba, inodeTableLba, blockBitmapLba, inodeBitmapLba, journalStart,
      journalBlocks, journalMaxRecords, inodeTableBlocks, maxBlocks] at htotal ⊢
    omega
  rw [loadInodeTable, inodeTableBlocks, loadInodeTableFrom,
    run_bind_of_ok (run_readBlock (hvalid 0 (by omega))), loadInodeTableFrom,
    run_bind_of_ok (run_readBlock (hvalid (0 + 1) (by omega))), loadInodeTableFrom,
    run_bind_of_ok (run_readBlock (hvalid (0 + 1 + 1) (by omega))), loadInodeTableFrom,
    run_bind_of_ok (run_readBlock (hvalid (0 + 1 + 1 + 1) (by omega))), loadInodeTableFrom,
    EStateM.run_pure]
  congr 1
  refine (tableOf_eq_of_slices fun k hk ↦ ?_).symm
  -- the slice of block `k` was patched in last at its place
  simp only [inodeTableBlocks] at hk
  simp only [blockSize, Nat.zero_add]
  obtain rfl | rfl | rfl | rfl : k = 0 ∨ k = 1 ∨ k = 2 ∨ k = 3 := by omega
  · rw [Buf.slice_patch_of_disjoint (by omega), Buf.slice_patch_of_disjoint (by omega),
      Buf.slice_patch_of_disjoint (by omega), Buf.slice_patch_self (by omega)]
  · rw [Buf.slice_patch_of_disjoint (by omega), Buf.slice_patch_of_disjoint (by omega),
      Buf.slice_patch_self (by omega)]
  · rw [Buf.slice_patch_of_disjoint (by omega), Buf.slice_patch_self (by omega)]
  · rw [Buf.slice_patch_self (by omega)]

/-! ## Names -/

theorem streqFrom_iff (a b : Mem) (k i : ℕ) :
    streqFrom a b k i = true ↔
      ∀ j < k, (∀ l < j, a (i + l) ≠ 0) → a (i + j) = b (i + j) := by
  induction k generalizing i with
  | zero => simp [streqFrom]
  | succ k ih =>
    rw [streqFrom]
    by_cases hne : a i = b i
    · rw [if_neg (not_not.mpr hne)]
      by_cases hz : a i = 0
      · rw [if_pos hz]
        refine ⟨fun _ j _ hj ↦ ?_, fun _ ↦ rfl⟩
        cases j with
        | zero => exact hne
        | succ j => exact absurd hz (hj 0 (by omega))
      · rw [if_neg hz, ih]
        refine ⟨fun h j hj hbefore ↦ ?_, fun h j hj hbefore ↦ ?_⟩
        · cases j with
          | zero => exact hne
          | succ j =>
            have := h j (by omega) fun l hl ↦ by
              have := hbefore (l + 1) (by omega)
              rwa [show i + (l + 1) = i + 1 + l by omega] at this
            rwa [show i + (j + 1) = i + 1 + j by omega]
        · have := h (j + 1) (by omega) fun l hl ↦ by
            cases l with
            | zero => exact hz
            | succ l =>
              rw [show i + (l + 1) = i + 1 + l by omega]
              exact hbefore l (by omega)
          rwa [show i + (j + 1) = i + 1 + j by omega] at this
    · rw [if_pos hne]
      exact ⟨nofun, fun h ↦ absurd (h 0 (by omega) (by simp)) hne⟩

theorem streq_congr {a a' b : Mem} (h : ∀ j < maxName, a j = a' j) : streq a b = streq a' b := by
  rw [Bool.eq_iff_iff, streq, streq, streqFrom_iff, streqFrom_iff]
  refine forall_congr' fun j ↦ forall_congr' fun hj ↦ ?_
  rw [Nat.zero_add, h j hj]
  refine imp_congr_left (forall_congr' fun l ↦ forall_congr' fun hl ↦ ?_)
  rw [Nat.zero_add, h l (by omega)]

/-- On a name that fits its field, `m16_streq` is equality of strings. -/
theorem streq_char_iff {s t : CStr} (hs : s.length < maxName) :
    streq s.char t.char = true ↔ s = t := by
  rw [streq, streqFrom_iff]
  constructor
  · intro h
    refine CStr.eq_of_char_eq fun i hi ↦ ?_
    have := h i (by omega) fun l hl ↦ by
      rw [Nat.zero_add, ne_eq, CStr.char_eq_zero_iff]
      omega
    rwa [Nat.zero_add] at this
  · rintro rfl _ _ _
    rfl

/-! ## The root directory -/

namespace Dirent

variable {dir : Block} {i ino' : ℕ} {n : CStr}

private theorem byte_fill_of_ne {k : ℕ} (h : k < 40 * i ∨ 40 * i + 40 ≤ k) :
    (fill dir i ino' n).byte k = dir.byte k := by
  rw [fill, Buf.byte_patch_of_notMem (by omega), Buf.byte_store_of_notMem (by omega),
    Buf.byte_store_of_notMem (by omega)]

theorem used_fill (hi : i < dirCount) : used (fill dir i ino' n) i = 1 := by
  have hi' : i < 12 := hi
  have hsame : used (fill dir i ino' n) i = ((dir.store 4 (40 * i) 1).store 4
      (40 * i + 4) ino').load
      4 (40 * i) := Mem.load_congr fun k _ _ ↦ Buf.byte_patch_of_notMem (by omega)
  rw [hsame, Buf.load_store_of_disjoint (by omega) (by omega),
    Buf.load_store_self (by omega) (by norm_num)]

theorem ino_fill (hi : i < dirCount) (h : ino' < 2 ^ 32) : ino (fill dir i ino' n) i = ino' := by
  have hi' : i < 12 := hi
  have hsame : ino (fill dir i ino' n) i = ((dir.store 4 (40 * i) 1).store 4 (40 * i + 4) ino').load
      4 (40 * i + 4) := Mem.load_congr fun k _ _ ↦ Buf.byte_patch_of_notMem (by omega)
  rw [hsame, Buf.load_store_self (by omega) (by omega)]

/-- The name field holds the name, followed by zeros. -/
theorem name_fill (hi : i < dirCount) (hn : n.length < maxName) {j : ℕ} (hj : j < maxName) :
    name (fill dir i ino' n) i j = n.char j := by
  have hi' : i < 12 := hi
  have hj' : j < 32 := hj
  rw [name, fill, Buf.patch, Buf.byte_ofFn_of_lt (by omega), if_pos (by omega),
    Nat.add_sub_cancel_left, Buf.copyIn, Buf.byte_ofFn_of_lt hj', CStr.strlen_char,
    min_eq_left (by omega), Buf.byte_zero]
  split
  · rfl
  · exact (CStr.char_eq_zero_iff.mpr (by omega)).symm

theorem fields_fill_of_ne (dir : Block) (ino' : ℕ) (n : CStr) {i j : ℕ} (hj : j ≠ i) :
    used (fill dir i ino' n) j = used dir j ∧ ino (fill dir i ino' n) j = ino dir j ∧
      ∀ k < maxName, name (fill dir i ino' n) j k = name dir j k := by
  refine ⟨Mem.load_congr fun k _ _ ↦ byte_fill_of_ne (by omega),
    Mem.load_congr fun k _ _ ↦ byte_fill_of_ne (by omega), fun k hk ↦ ?_⟩
  simp only [maxName] at hk
  exact byte_fill_of_ne (by omega)

end Dirent

theorem findDirent_fill_self {dir : Block} {slot ino : ℕ} {n : CStr} (hslot : slot < dirCount)
    (hn : n.length < maxName) (hnone : findDirent dir n = none) :
    findDirent (Dirent.fill dir slot ino n) n = some slot := by
  rw [findDirent, List.find?_range'_eq_none] at hnone
  refine find?_range'_eq_some_of_unique (Nat.zero_le _) (by omega) ?_ fun i hi hi' hne ↦ ?_
  · rw [Dirent.used_fill hslot, streq_congr fun j hj ↦ Dirent.name_fill hslot hn hj,
      (streq_char_iff hn).mpr rfl]
    rfl
  · obtain ⟨hused, -, hname⟩ := Dirent.fields_fill_of_ne dir ino n hne
    have hold := hnone i hi hi'
    rw [Bool.not_eq_true'] at hold
    rw [hused, streq_congr hname, hold]

theorem findDirent_fill_of_ne {dir : Block} {slot ino : ℕ} {n m : CStr} (hslot : slot < dirCount)
    (hfree : Dirent.used dir slot = 0) (hn : n.length < maxName) (hne : m ≠ n) :
    findDirent (Dirent.fill dir slot ino n) m = findDirent dir m := by
  refine find?_range'_congr fun i _ _ ↦ ?_
  by_cases hi : i = slot
  · have hname : streq n.char m.char = false := by
      rw [Bool.eq_false_iff, ne_eq, streq_char_iff hn]
      exact fun h ↦ hne h.symm
    rw [hi, streq_congr fun j hj ↦ Dirent.name_fill hslot hn hj, hname, hfree]
    simp
  · obtain ⟨hused, -, hname⟩ := Dirent.fields_fill_of_ne dir ino n hi
    rw [hused, streq_congr hname]

end M16

end Mcsos
