import Mcsos.Mcsfs1j.Format

/-!
# Crash atomicity of file creation

`m16_write_file_ex` commits two transactions: `allocTx` marks an inode and a block as used and fills
the inode, `linkTx` writes the directory entry and the data. A crash leaves the contents of the
device before both, between them or after both. The state between them is sound as well, and has
the same files: the new inode is not yet reachable from the directory.
-/

namespace Mcsos

namespace M16

/-! ## The two transactions -/

/-- What the searches of `m16_write_file_ex` have found. -/
structure Fresh (b : ℕ → Block) (name : CStr) (ino blk slot : ℕ) : Prop where
  length_lt : name.length < maxName
  findDirent_eq : findDirent (b rootDirLba) name = none
  ino_pos : 1 ≤ ino
  ino_lt : ino < maxInodes
  ino_free : bitmapGet (b inodeBitmapLba) ino = false
  blk_ge : dataStartLba ≤ blk
  blk_lt : blk < maxBlocks
  blk_free : bitmapGet (b blockBitmapLba) blk = false
  slot_lt : slot < dirCount
  slot_free : Dirent.used (b rootDirLba) slot = 0

/-- The first transaction of `m16_write_file_ex`. -/
def allocTx (b : ℕ → Block) (ino blk size : ℕ) : Tx :=
  [(inodeBitmapLba, bitmapSet (b inodeBitmapLba) ino),
    (blockBitmapLba, bitmapSet (b blockBitmapLba) blk)] ++
  (List.range inodeTableBlocks).map fun i ↦
    (inodeTableLba + i, (Inode.setFile (tableOf b) ino size blk).slice (i * blockSize) 512)

/-- The second transaction of `m16_write_file_ex`. -/
def linkTx (b : ℕ → Block) (name : CStr) (data : Mem) (ino blk slot size : ℕ) : Tx :=
  [(rootDirLba, Dirent.fill (b rootDirLba) slot ino name),
    (blk, (Buf.zero 512).copyIn data size)]

theorem txOk_allocTx_of_le {total : ℕ} (htotal : dataStartLba ≤ total) (b : ℕ → Block)
    (ino blk size : ℕ) : TxOk total (allocTx b ino blk size) := by
  refine ⟨by simp [allocTx, inodeTableBlocks, journalMaxRecords], fun r hr ↦ ?_⟩
  rw [inJournal_iff]
  rw [allocTx, List.mem_append, List.mem_cons, List.mem_singleton, List.mem_map] at hr
  have hle : 25 ≤ total := htotal
  simp only [inodeBitmapLba, blockBitmapLba, inodeTableLba, inodeTableBlocks, maxBlocks,
    journalStart, journalBlocks, journalMaxRecords, List.mem_range] at hr ⊢
  rcases hr with (rfl | rfl) | ⟨i, hi, rfl⟩ <;> simp only [] <;> omega

theorem txOk_allocTx (b : ℕ → Block) (ino blk size : ℕ) :
    TxOk maxBlocks (allocTx b ino blk size) := txOk_allocTx_of_le (by decide) b ino blk size

/-- The data block has to be on the device. -/
theorem txOk_linkTx_of_lt {total : ℕ} {b : ℕ → Block} {name : CStr} {ino blk slot : ℕ}
    (h : Fresh b name ino blk slot) (hblk : blk < total) (data : Mem) (size : ℕ) :
    TxOk total (linkTx b name data ino blk slot size) := by
  refine ⟨by simp [linkTx, journalMaxRecords], fun r hr ↦ ?_⟩
  have hge : rootDirLba < blk := h.blk_ge
  have hdir : 17 < rootDirLba := by decide
  have hlt := h.blk_lt
  rw [linkTx, List.mem_cons, List.mem_singleton] at hr
  rw [inJournal_iff]
  rcases hr with rfl | rfl
  · exact ⟨⟨by change rootDirLba < total; omega, (by decide : rootDirLba < maxBlocks)⟩,
      by change ¬(1 ≤ rootDirLba ∧ rootDirLba ≤ 17); omega⟩
  · exact ⟨⟨hblk, hlt⟩, by change ¬(1 ≤ blk ∧ blk ≤ 17); omega⟩

theorem txOk_linkTx {b : ℕ → Block} {name : CStr} {ino blk slot : ℕ}
    (h : Fresh b name ino blk slot) (data : Mem) (size : ℕ) :
    TxOk maxBlocks (linkTx b name data ino blk slot size) := txOk_linkTx_of_lt h h.blk_lt data size

/-! ### The blocks after the first transaction -/

section Alloc

variable {b : ℕ → Block} {ino blk size : ℕ}

theorem allocTx_inodeBitmap : applyWrites b (allocTx b ino blk size) inodeBitmapLba
    = bitmapSet (b inodeBitmapLba) ino := by
  rw [allocTx, List.cons_append, applyWrites_cons, applyWrites_of_notMem fun w hw ↦ ?_,
    Function.update_self]
  rw [List.cons_append, List.nil_append, List.mem_cons, List.mem_map] at hw
  rcases hw with rfl | ⟨i, -, rfl⟩ <;> simp only [blockBitmapLba, inodeTableLba] <;> omega

theorem allocTx_blockBitmap : applyWrites b (allocTx b ino blk size) blockBitmapLba
    = bitmapSet (b blockBitmapLba) blk := by
  rw [allocTx, List.cons_append, List.cons_append, applyWrites_cons, applyWrites_cons,
    applyWrites_of_notMem fun w hw ↦ ?_, Function.update_self]
  rw [List.nil_append, List.mem_map] at hw
  obtain ⟨i, -, rfl⟩ := hw
  simp only [inodeTableLba]
  omega

theorem allocTx_table : tableOf (applyWrites b (allocTx b ino blk size))
    = Inode.setFile (tableOf b) ino size blk := by
  refine tableOf_eq_of_slices fun k hk ↦ ?_
  rw [allocTx, applyWrites_append]
  simp only [inodeTableBlocks] at hk ⊢
  obtain rfl | rfl | rfl | rfl : k = 0 ∨ k = 1 ∨ k = 2 ∨ k = 3 := by omega
  all_goals
    simp only [List.range_succ, List.range_zero, List.nil_append, List.cons_append, List.map_cons,
      List.map_nil, applyWrites_cons, applyWrites_nil]
    simp

theorem allocTx_of_notMem {x : ℕ} (h : x < inodeBitmapLba ∨ rootDirLba ≤ x) :
    applyWrites b (allocTx b ino blk size) x = b x := by
  refine applyWrites_of_notMem fun w hw ↦ ?_
  rw [allocTx, List.mem_append, List.mem_cons, List.mem_singleton, List.mem_map] at hw
  simp only [rootDirLba, inodeTableLba, blockBitmapLba, inodeTableBlocks, List.mem_range] at h hw
  rcases hw with (rfl | rfl) | ⟨i, hi, rfl⟩ <;> simp only [] <;> omega

end Alloc

/-! ## The invariant through the two transactions -/

section Write

variable {b : ℕ → Block} {name : CStr} {ino blk slot size : ℕ} {data : Mem}

/-- An entry in use has an inode and a block of its own: their bits are set, those of the new ones
are not. -/
theorem Sound.entry_ne (h : Sound b) (hf : Fresh b name ino blk slot) {i : ℕ} (hi : i < dirCount)
    (hused : Dirent.used (b rootDirLba) i ≠ 0) :
    Dirent.ino (b rootDirLba) i ≠ ino ∧
      Inode.direct0 (tableOf b) (Dirent.ino (b rootDirLba) i) ≠ blk := by
  obtain ⟨⟨-, hbit⟩, -, -, -, hbit'⟩ := h.entries i hi hused
  refine ⟨fun heq ↦ ?_, fun heq ↦ ?_⟩
  · rw [heq, hf.ino_free] at hbit
    cases hbit
  · rw [heq, hf.blk_free] at hbit'
    cases hbit'

private theorem lt_bits {x : ℕ} (h : x < maxBlocks) : x < 4096 := by
  simp only [maxBlocks] at h
  omega

theorem Sound.direntOk_alloc (h : Sound b) (hf : Fresh b name ino blk slot) {i : ℕ}
    (hi : i < dirCount) :
    direntOk maxBlocks (bitmapSet (b inodeBitmapLba) ino) (bitmapSet (b blockBitmapLba) blk)
      (Inode.setFile (tableOf b) ino size blk) (b rootDirLba) i := by
  intro hused
  obtain ⟨⟨hino, hbit⟩, hinode, hge, hlt, hbit'⟩ := h.entries i hi hused
  obtain ⟨hu, hk, hs, hd⟩ := Inode.fields_setFile_of_ne (tableOf b) size blk hino
    (h.entry_ne hf hi hused).1
  rw [hu, hk, hs, hd]
  refine ⟨⟨hino, bitmapGet_bitmapSet_of_get ?_ hbit⟩, hinode, hge, hlt,
    bitmapGet_bitmapSet_of_get (lt_bits hlt) hbit'⟩
  simp only [maxInodes] at hino
  omega

/-- The state between the two transactions is sound. -/
theorem Sound.alloc (h : Sound b) (hf : Fresh b name ino blk slot) (size : ℕ) :
    Sound (applyWrites b (allocTx b ino blk size)) := by
  have hroot := Inode.fields_setFile_of_ne (tableOf b) size blk (i := ino) (j := 0) (by decide)
    (by have := hf.ino_pos; omega)
  have hdir : applyWrites b (allocTx b ino blk size) rootDirLba = b rootDirLba :=
    allocTx_of_notMem (Or.inr le_rfl)
  refine ⟨?_, ?_, ?_, ?_, ?_, fun x hx ↦ ?_, fun i hi ↦ ?_⟩
  · rw [allocTx_of_notMem (Or.inl (by decide))]
    exact h.super
  · rw [allocTx_inodeBitmap]
    exact bitmapGet_bitmapSet_of_get (by omega) h.rootBit
  · rw [allocTx_table, hroot.1, h.rootUsed]
  · rw [allocTx_table, hroot.2.1, h.rootKind]
  · rw [allocTx_table, hroot.2.2.2, h.rootDirect]
  · rw [allocTx_blockBitmap]
    refine bitmapGet_bitmapSet_of_get ?_ (h.reserved x hx)
    have : x < 25 := hx
    omega
  · rw [allocTx_inodeBitmap, allocTx_blockBitmap, allocTx_table, hdir]
    exact h.direntOk_alloc hf hi

theorem Sound.inodeBytes_alloc (h : Sound b) (hf : Fresh b name ino blk slot) {i : ℕ}
    (hi : i < dirCount) (hused : Dirent.used (b rootDirLba) i ≠ 0) :
    inodeBytes (applyWrites b (allocTx b ino blk size)) (Dirent.ino (b rootDirLba) i)
      = inodeBytes b (Dirent.ino (b rootDirLba) i) := by
  obtain ⟨⟨hino, -⟩, -, hge, -, -⟩ := h.entries i hi hused
  obtain ⟨-, -, hs, hd⟩ := Inode.fields_setFile_of_ne (tableOf b) size blk hino
    (h.entry_ne hf hi hused).1
  rw [inodeBytes, inodeBytes, allocTx_table, hs, hd,
    allocTx_of_notMem (Or.inr (Nat.le_of_succ_le hge))]

theorem Sound.fileOf_alloc (h : Sound b) (hf : Fresh b name ino blk slot) (m : CStr) :
    fileOf (applyWrites b (allocTx b ino blk size)) m = fileOf b m := by
  rw [fileOf, fileOf, allocTx_of_notMem (Or.inr le_rfl)]
  cases hfind : findDirent (b rootDirLba) m with
  | none => rfl
  | some i =>
    obtain ⟨hi, hused⟩ := of_findDirent hfind
    exact congrArg Except.ok (h.inodeBytes_alloc hf hi hused)

/-- The block array after both transactions. -/
def created (b : ℕ → Block) (name : CStr) (data : Mem) (ino blk slot size : ℕ) : ℕ → Block :=
  applyWrites (applyWrites b (allocTx b ino blk size)) (linkTx b name data ino blk slot size)

theorem created_rootDir (hf : Fresh b name ino blk slot) :
    created b name data ino blk slot size rootDirLba
      = Dirent.fill (b rootDirLba) slot ino name := by
  have hne : rootDirLba ≠ blk := by
    have := hf.blk_ge
    simp only [dataStartLba] at this
    omega
  rw [created, linkTx, applyWrites_cons, applyWrites_cons, applyWrites_nil,
    Function.update_of_ne hne, Function.update_self]

theorem created_blk : created b name data ino blk slot size blk
    = (Buf.zero 512).copyIn data size := by
  rw [created, linkTx, applyWrites_cons, applyWrites_cons, applyWrites_nil, Function.update_self]

theorem created_of_ne {x : ℕ} (hdir : x ≠ rootDirLba) (hblk : x ≠ blk) :
    created b name data ino blk slot size x = applyWrites b (allocTx b ino blk size) x := by
  rw [created, linkTx, applyWrites_cons, applyWrites_cons, applyWrites_nil,
    Function.update_of_ne hblk, Function.update_of_ne hdir]

theorem created_of_lt (hf : Fresh b name ino blk slot) {x : ℕ} (hx : x < rootDirLba) :
    created b name data ino blk slot size x = applyWrites b (allocTx b ino blk size) x := by
  have hge : rootDirLba < blk := hf.blk_ge
  exact created_of_ne (by omega) (by omega)

theorem created_table (hf : Fresh b name ino blk slot) :
    tableOf (created b name data ino blk slot size) = Inode.setFile (tableOf b) ino size blk := by
  rw [← allocTx_table]
  exact tableOf_congr fun x _ hx ↦ created_of_lt hf hx

theorem Sound.created (h : Sound b) (hf : Fresh b name ino blk slot) (hsize : size ≤ blockSize)
    (data : Mem) :
    Sound (created b name data ino blk slot size) := by
  have halloc := h.alloc hf size
  have hino : ino < 16 := hf.ino_lt
  refine ⟨?_, ?_, ?_, ?_, ?_, ?_, fun i hi ↦ ?_⟩
  · rw [created_of_lt hf (by decide)]
    exact halloc.super
  · rw [created_of_lt hf (by decide)]
    exact halloc.rootBit
  · rw [created_table hf, ← allocTx_table]
    exact halloc.rootUsed
  · rw [created_table hf, ← allocTx_table]
    exact halloc.rootKind
  · rw [created_table hf, ← allocTx_table]
    exact halloc.rootDirect
  · rw [created_of_lt hf (by decide)]
    exact halloc.reserved
  · rw [created_of_lt hf (by decide), created_of_lt hf (by decide), created_table hf,
      created_rootDir hf, allocTx_inodeBitmap, allocTx_blockBitmap]
    by_cases hslot : i = slot
    · -- the new entry
      subst hslot
      intro _
      have hlt := hf.blk_lt
      rw [Dirent.ino_fill hi (by omega), Inode.used_setFile hf.ino_lt, Inode.kind_setFile hf.ino_lt,
        Inode.size_setFile hf.ino_lt (by simp only [blockSize] at hsize; omega),
        Inode.direct0_setFile hf.ino_lt (by simp only [maxBlocks] at hlt; omega),
        bitmapGet_bitmapSet (by omega), bitmapGet_bitmapSet (lt_bits hlt)]
      exact ⟨⟨hf.ino_lt, by simp⟩, ⟨one_ne_zero, rfl, hsize⟩, hf.blk_ge, hlt, by simp⟩
    · obtain ⟨hu, hn, -⟩ := Dirent.fields_fill_of_ne (b rootDirLba) ino name hslot
      rw [direntOk, hu, hn]
      exact h.direntOk_alloc hf hi

theorem fileOf_created_self (hf : Fresh b name ino blk slot) (hsize : size ≤ blockSize) :
    fileOf (created b name data ino blk slot size) name = .ok ((List.range size).map data) := by
  have hino : ino < 16 := hf.ino_lt
  have hblk : blk < 128 := hf.blk_lt
  have hsize' : size ≤ 512 := hsize
  have hfind : findDirent (created b name data ino blk slot size rootDirLba) name = some slot := by
    rw [created_rootDir hf]
    exact findDirent_fill_self hf.slot_lt hf.length_lt hf.findDirent_eq
  rw [fileOf, hfind]
  refine congrArg Except.ok ?_
  rw [inodeBytes, created_table hf, created_rootDir hf, Dirent.ino_fill hf.slot_lt (by omega),
    Inode.size_setFile hf.ino_lt (by omega), Inode.direct0_setFile hf.ino_lt (by omega),
    created_blk]
  refine List.map_congr_left fun i hi ↦ ?_
  rw [List.mem_range] at hi
  exact Buf.byte_copyIn_of_lt hi (by omega)

theorem Sound.fileOf_created_of_ne (h : Sound b) (hf : Fresh b name ino blk slot) {m : CStr}
    (hne : m ≠ name) : fileOf (M16.created b name data ino blk slot size) m = fileOf b m := by
  rw [fileOf, fileOf, created_rootDir hf,
    findDirent_fill_of_ne hf.slot_lt hf.slot_free hf.length_lt hne]
  cases hfind : findDirent (b rootDirLba) m with
  | none => rfl
  | some i =>
    obtain ⟨hi, hused⟩ := of_findDirent hfind
    obtain ⟨hino, hblk⟩ := h.entry_ne hf hi hused
    obtain ⟨⟨hlt, -⟩, -, hge, -, -⟩ := h.entries i hi hused
    have hslot : i ≠ slot := fun heq ↦ hused (heq ▸ hf.slot_free)
    obtain ⟨-, hn, -⟩ := Dirent.fields_fill_of_ne (b rootDirLba) ino name hslot
    obtain ⟨-, -, hs, hd⟩ := Inode.fields_setFile_of_ne (tableOf b) size blk hlt hino
    have hdir : rootDirLba < Inode.direct0 (tableOf b) (Dirent.ino (b rootDirLba) i) := hge
    refine congrArg Except.ok ?_
    rw [hn, inodeBytes, inodeBytes, created_table hf, hs, hd, created_of_ne (by omega) hblk,
      allocTx_of_notMem (Or.inr hdir.le)]

end Write

/-! ## The outcome of the call -/

theorem of_findFreeInode {ib : Block} {ino : ℕ} (h : findFreeInode ib = some ino) :
    1 ≤ ino ∧ ino < maxInodes ∧ bitmapGet ib ino = false := by
  rw [findFreeInode, List.find?_range'_eq_some, List.mem_range'_1, Bool.not_eq_true'] at h
  simp only [maxInodes] at h ⊢
  exact ⟨h.2.1.1, by omega, h.1⟩

theorem of_findFreeBlock {bb : Block} {blk : ℕ} (h : findFreeBlock bb = some blk) :
    dataStartLba ≤ blk ∧ blk < maxBlocks ∧ bitmapGet bb blk = false := by
  rw [findFreeBlock, List.find?_range'_eq_some, List.mem_range'_1, Bool.not_eq_true'] at h
  have hle : dataStartLba ≤ maxBlocks := by decide
  exact ⟨h.2.1.1, by omega, h.1⟩

theorem of_findFreeDirent {dir : Block} {slot : ℕ} (h : findFreeDirent dir = some slot) :
    slot < dirCount ∧ Dirent.used dir slot = 0 := by
  rw [findFreeDirent, List.find?_range'_eq_some, List.mem_range'_1, decide_eq_true_iff] at h
  exact ⟨by omega, h.1⟩

theorem txAdd_eq {tx : Tx} (h : tx.length < journalMaxRecords) (lba : ℕ) (payload : Block) :
    txAdd tx lba payload = pure (tx ++ [(lba, payload)]) := by
  rw [txAdd, failIf_of_not (not_le.mpr h), pure_bind]

theorem storeInodeTable_eq {tx : Tx} (h : tx.length + inodeTableBlocks ≤ journalMaxRecords)
    (inodes : InodeTable) : storeInodeTable tx inodes =
      pure (tx ++ (List.range inodeTableBlocks).map fun i ↦
        (inodeTableLba + i, inodes.slice (i * blockSize) 512)) := by
  rw [storeInodeTable, failIf_of_not (not_lt.mpr h), pure_bind]

/-- The arguments pass the checks of `m16_write_file_ex`, and no file has the name. -/
structure Accepted (b : ℕ → Block) (name : Option CStr) (data : Option Mem) (size : ℕ) (n : CStr)
    (d : Mem) : Prop where
  name_eq : name = some n
  data_eq : data = some d
  length_pos : 0 < n.length
  length_lt : n.length < maxName
  size_le : size ≤ blockSize
  findDirent_eq : findDirent (b rootDirLba) n = none

/-- The three searches of `m16_write_file_ex` succeed. -/
structure Found (b : ℕ → Block) (ino blk slot : ℕ) : Prop where
  inode : findFreeInode (b inodeBitmapLba) = some ino
  block : findFreeBlock (b blockBitmapLba) = some blk
  dirent : findFreeDirent (b rootDirLba) = some slot

theorem Accepted.fresh {b : ℕ → Block} {name : Option CStr} {data : Option Mem} {size : ℕ}
    {n : CStr} {d : Mem} {ino blk slot : ℕ} (h : Accepted b name data size n d)
    (hfound : Found b ino blk slot) :
    Fresh b n ino blk slot := by
  obtain ⟨h1, h2, h3⟩ := of_findFreeInode hfound.inode
  obtain ⟨h4, h5, h6⟩ := of_findFreeBlock hfound.block
  obtain ⟨h7, h8⟩ := of_findFreeDirent hfound.dirent
  exact ⟨h.length_lt, h.findDirent_eq, h1, h2, h3, h4, h5, h6, h7, h8⟩

/-- The call returns an error before it has changed anything, or comes down to the two commits. It
does the latter exactly when its arguments are accepted and the searches succeed; when a search
fails the error is `M16_E_NOSPC`. -/
theorem run_writeFileEx_of_le {dev : Blockdev} (htotal : dataStartLba ≤ dev.totalBlocks)
    (hclean : Clean dev) (hsuper : SuperOk (dev.blocks 0)) (name : Option CStr) (data : Option Mem)
    (size : ℕ) (stop : Bool) :
    (∃ e, e ≠ .io ∧ (writeFileEx name data size stop).run dev = .error e dev ∧
      ∀ n d, Accepted dev.blocks name data size n d →
        e = .nospc ∧ ∀ ino blk slot, ¬Found dev.blocks ino blk slot) ∨
    ∃ n d ino blk slot seq seq', Accepted dev.blocks name data size n d ∧
      Found dev.blocks ino blk slot ∧
      (writeFileEx name data size stop).run dev =
        (journalCommit (allocTx dev.blocks ino blk size) seq false >>= fun _ ↦
          journalCommit (linkTx dev.blocks n d ino blk slot size) seq' stop).run dev := by
  have hle : 18 ≤ dev.totalBlocks := Nat.le_trans (by decide) htotal
  match name, data with
  | none, _ => exact Or.inl ⟨.inval, by decide, rfl, fun _ _ h ↦ nomatch h.name_eq⟩
  | some n, none => exact Or.inl ⟨.inval, by decide, rfl, fun _ _ h ↦ nomatch h.data_eq⟩
  | some n, some d =>
    rw [writeFileEx]
    dsimp only
    by_cases hname : n.char.strlen maxName 0 = 0 ∨ n.char.strlen maxName 0 ≥ maxName
    · refine Or.inl ⟨.toolong, by decide, run_bind_of_error (run_failIf_of hname), fun m _ h ↦ ?_⟩
      obtain rfl := Option.some.inj h.name_eq
      have := h.length_pos
      have := h.length_lt
      rw [CStr.strlen_char] at hname
      omega
    rw [run_bind_of_ok (run_failIf_of_not hname)]
    by_cases hsize : size > blockSize
    · exact Or.inl ⟨.inval, by decide, run_bind_of_error (run_failIf_of hsize),
        fun _ _ h ↦ absurd hsize (not_lt.mpr h.size_le)⟩
    rw [run_bind_of_ok (run_failIf_of_not hsize), run_bind_of_ok (run_mount hle hclean hsuper),
      run_readMetadata_of_le htotal]
    by_cases hfind : (findDirent (dev.blocks rootDirLba) n).isSome = true
    · refine Or.inl ⟨.exists, by decide, run_bind_of_error (run_failIf_of hfind), fun m _ h ↦ ?_⟩
      obtain rfl := Option.some.inj h.name_eq
      rw [h.findDirent_eq] at hfind
      cases hfind
    rw [run_bind_of_ok (run_failIf_of_not hfind)]
    cases hino : findFreeInode (dev.blocks inodeBitmapLba) with
    | none => exact Or.inl ⟨.nospc, by decide, rfl, fun _ _ _ ↦ ⟨rfl, fun _ _ _ h ↦
        nomatch hino.symm.trans h.inode⟩⟩
    | some ino =>
    rw [orFail, run_bind_of_ok (EStateM.run_pure _ _)]
    cases hblk : findFreeBlock (dev.blocks blockBitmapLba) with
    | none => exact Or.inl ⟨.nospc, by decide, rfl, fun _ _ _ ↦ ⟨rfl, fun _ _ _ h ↦
        nomatch hblk.symm.trans h.block⟩⟩
    | some blk =>
    rw [orFail, run_bind_of_ok (EStateM.run_pure _ _)]
    cases hslot : findFreeDirent (dev.blocks rootDirLba) with
    | none => exact Or.inl ⟨.nospc, by decide, rfl, fun _ _ _ ↦ ⟨rfl, fun _ _ _ h ↦
        nomatch hslot.symm.trans h.dirent⟩⟩
    | some slot =>
    have hlength : 0 < n.length ∧ n.length < maxName := by
      rw [CStr.strlen_char] at hname
      simp only [maxName] at hname ⊢
      omega
    refine Or.inr ⟨n, d, ino, blk, slot, (Super.cleanGeneration (dev.blocks 0) + 1) % 2 ^ 32,
      (Super.cleanGeneration (dev.blocks 0) + 2) % 2 ^ 32, ⟨rfl, rfl, hlength.1, hlength.2,
        not_lt.mp hsize, Option.not_isSome_iff_eq_none.mp hfind⟩, ⟨hino, hblk, hslot⟩, ?_⟩
    -- neither transaction exceeds the size of the journal
    simp only [orFail, pure_bind, List.nil_append, List.cons_append, allocTx, linkTx,
      txAdd_eq (show ([] : Tx).length < journalMaxRecords by decide),
      txAdd_eq (show ([_] : Tx).length < journalMaxRecords by simp [journalMaxRecords]),
      storeInodeTable_eq (show ([_, _] : Tx).length + inodeTableBlocks ≤ journalMaxRecords by
        simp [journalMaxRecords, inodeTableBlocks])]

theorem run_writeFileEx {dev : Blockdev} (htotal : dev.totalBlocks = maxBlocks)
    (hclean : Clean dev) (h : Sound dev.blocks) (name : Option CStr) (data : Option Mem) (size : ℕ)
    (stop : Bool) :
    (∃ e, e ≠ .io ∧ (writeFileEx name data size stop).run dev = .error e dev) ∨
    ∃ n d ino blk slot seq seq', name = some n ∧ data = some d ∧ size ≤ blockSize ∧
      Fresh dev.blocks n ino blk slot ∧
      (writeFileEx name data size stop).run dev =
        (journalCommit (allocTx dev.blocks ino blk size) seq false >>= fun _ ↦
          journalCommit (linkTx dev.blocks n d ino blk slot size) seq' stop).run dev := by
  rcases run_writeFileEx_of_le (by rw [htotal]; decide) hclean h.super name data size stop with
    ⟨e, hne, hrun, -⟩ | ⟨n, d, ino, blk, slot, seq, seq', ha, hfound, hrun⟩
  · exact .inl ⟨e, hne, hrun⟩
  · exact .inr ⟨n, d, ino, blk, slot, seq, seq', ha.name_eq, ha.data_eq, ha.size_le,
      ha.fresh hfound, hrun⟩

/-- What the call may make of the files; `ok` says that it returned `M16_E_OK`. -/
structure Outcome (b : ℕ → Block) (name : Option CStr) (data : Option Mem) (size : ℕ) (ok : Prop)
    (c : ℕ → Block) : Prop where
  sound : Sound c
  other : ∀ m, name ≠ some m → fileOf c m = fileOf b m
  this : ∀ n, name = some n → (fileOf c n = fileOf b n ∧ ¬ok) ∨
    ∃ d, data = some d ∧ fileOf c n = .ok ((List.range size).map d)

theorem Sound.homeOf {b : ℕ → Block} (h : Sound b) : Sound (homeOf b) :=
  h.congr fun _ hx ↦ (homeOf_of_not hx).symm

theorem Sound.fileOf_homeOf {b : ℕ → Block} (h : Sound b) (m : CStr) :
    fileOf (M16.homeOf b) m = fileOf b m :=
  (h.fileOf_congr (fun _ hx ↦ (homeOf_of_not hx).symm) m).symm

section Outcome

variable {b : ℕ → Block} {n : CStr} {d : Mem} {name : Option CStr} {data : Option Mem}
  {ino blk slot size : ℕ} {ok : Prop}

theorem Sound.outcome_unchanged (h : Sound b) (hok : ¬ok) :
    Outcome b name data size ok (M16.homeOf b) :=
  ⟨h.homeOf, fun m _ ↦ h.fileOf_homeOf m, fun m _ ↦ Or.inl ⟨h.fileOf_homeOf m, hok⟩⟩

theorem Sound.outcome_alloc (h : Sound b) (hf : Fresh b n ino blk slot) (hok : ¬ok) :
    Outcome b name data size ok (M16.homeOf (applyWrites b (allocTx b ino blk size))) := by
  have halloc := h.alloc hf size
  have hfile : ∀ m, fileOf (M16.homeOf (applyWrites b (allocTx b ino blk size))) m = fileOf b m :=
    fun m ↦ by rw [halloc.fileOf_homeOf, h.fileOf_alloc hf]
  exact ⟨halloc.homeOf, fun m _ ↦ hfile m, fun m _ ↦ Or.inl ⟨hfile m, hok⟩⟩

theorem Sound.outcome_created (h : Sound b) (hf : Fresh b n ino blk slot)
    (hsize : size ≤ blockSize) :
    Outcome b (some n) (some d) size ok (M16.homeOf (M16.created b n d ino blk slot size)) := by
  have hcreated := h.created hf hsize d
  refine ⟨hcreated.homeOf, fun m hm ↦ ?_, fun m hm ↦ Or.inr ⟨d, rfl, ?_⟩⟩
  · rw [hcreated.fileOf_homeOf, h.fileOf_created_of_ne hf fun heq ↦ hm (heq ▸ rfl)]
  · obtain rfl := Option.some.inj hm
    rw [hcreated.fileOf_homeOf, fileOf_created_self hf hsize]

end Outcome

/-- The write that fails is the commit record of the second transaction or one before it, and the
commit record of the first transaction has landed. -/
def BetweenCommits (cut : ℤ) : Prop := 14 ≤ cut ∧ cut ≤ 26

instance : DecidablePred BetweenCommits := fun _ ↦ inferInstanceAs (Decidable (_ ∧ _))

theorem length_allocTx (b : ℕ → Block) (ino blk size : ℕ) :
    (allocTx b ino blk size).length = 6 := by
  rw [allocTx, List.length_append, List.length_map, List.length_range]
  rfl

theorem length_linkTx (b : ℕ → Block) (n : CStr) (d : Mem) (ino blk slot size : ℕ) :
    (linkTx b n d ino blk slot size).length = 2 := rfl

/-- Wherever the call is cut, the device can be recovered to the state before both transactions,
between them or after both; between them exactly when the cut is. -/
theorem cut_writeFileEx {dev : Blockdev} (htotal : dev.totalBlocks = maxBlocks)
    (hclean : Clean dev) (h : Sound dev.blocks) (name : Option CStr) (data : Option Mem) (size : ℕ)
    (stop : Bool) :
    let res := (writeFileEx name data size stop).run dev
    (finalState res).totalBlocks = maxBlocks ∧
      ((returned res ≠ .ok () ∧ ¬(returned res = .error .io ∧ BetweenCommits dev.failAfter) ∧
          Contents (finalState res) (homeOf dev.blocks)) ∨
        ∃ n d ino blk slot, name = some n ∧ data = some d ∧ size ≤ blockSize ∧
          Fresh dev.blocks n ino blk slot ∧
          ((returned res = .error .io ∧ BetweenCommits dev.failAfter ∧
              Contents (finalState res) (homeOf (applyWrites dev.blocks
                (allocTx dev.blocks ino blk size)))) ∨
            (¬(returned res = .error .io ∧ BetweenCommits dev.failAfter) ∧
              Contents (finalState res)
                (homeOf (created dev.blocks n d ino blk slot size))))) := by
  intro res
  rcases run_writeFileEx htotal hclean h name data size stop with
    ⟨e, hne, hrun⟩ | ⟨n, d, ino, blk, slot, seq, seq', rfl, rfl, hsize, hf, hrun⟩
  · rw [show res = .error e dev from hrun, returned_error]
    exact ⟨htotal, .inl ⟨nofun, fun hio ↦ hne (Except.error.inj hio.1), hclean.contents⟩⟩
  have hle : 18 ≤ dev.totalBlocks := by rw [htotal]; decide
  have htx : TxOk dev.totalBlocks (allocTx dev.blocks ino blk size) :=
    htotal.symm ▸ txOk_allocTx _ _ _ _
  have hhome := homeOf_applyWrites (b := dev.blocks) fun w hw ↦ (htx.targets w hw).2
  have htot := totalBlocks_commit hle htx seq false
  have hlen : (commitWrites (allocTx dev.blocks ino blk size) seq false).length = 21 := by
    rw [length_commitWrites, length_allocTx]
    rfl
  have hfirst := hclean.cut_commit hle htx seq false
  have hcommit := run_journalCommit hle htx seq false
  by_cases hall : landed dev.failAfter (commitWrites (allocTx dev.blocks ino blk size) seq
      false).length = (commitWrites (allocTx dev.blocks ino blk size) seq false).length
  swap
  · -- cut in the first transaction
    rw [if_neg hall] at hcommit
    rw [hcommit, finalState_error] at htot
    rw [hcommit, finalState_error, length_allocTx] at hfirst
    rw [show res = _ from hrun.trans (run_bind_of_error hcommit), finalState_error, returned_error]
    refine ⟨htot.trans htotal, ?_⟩
    rw [landed_eq_iff, hlen] at hall
    rcases hfirst with ⟨-, hearly, -, hcontents⟩ | ⟨hlate, hcontents⟩
    · refine .inl ⟨nofun, fun hio ↦ ?_, hcontents⟩
      obtain ⟨-, hge, -⟩ := hio
      omega
    · refine .inr ⟨n, d, ino, blk, slot, rfl, rfl, hsize, hf, .inl ⟨rfl, ?_, hhome ▸ hcontents⟩⟩
      rw [BetweenCommits]
      omega
  · rw [if_pos hall] at hcommit
    obtain ⟨-, hdone⟩ := hclean.run_commit_ok hle htx hcommit
    obtain ⟨hcleans, hhomes⟩ := hdone rfl
    rw [hcommit, finalState_ok, htotal] at htot
    -- the second transaction has what the first has left of `fail_after`
    have hfail := failAfter_landAll_of_landed hall
    rw [hlen] at hfail
    generalize dev.landAll (commitWrites (allocTx dev.blocks ino blk size) seq false) = s at *
    have htx' : TxOk s.totalBlocks (linkTx dev.blocks n d ino blk slot size) :=
      htot.symm ▸ txOk_linkTx hf _ _
    have hhome' := homeOf_applyWrites (b := applyWrites dev.blocks
        (allocTx dev.blocks ino blk size))
      fun w hw ↦ (htx'.targets w hw).2
    have hles : 18 ≤ s.totalBlocks := by rw [htot]; decide
    have hsecond := hcleans.cut_commit hles htx' seq' stop
    rw [hhomes, ← hhome, length_linkTx] at hsecond
    rw [show res = _ from hrun.trans (run_bind_of_ok hcommit), BetweenCommits]
    refine ⟨(totalBlocks_commit hles htx' seq' stop).trans htot, .inr ⟨n, d, ino, blk, slot, rfl,
      rfl, hsize, hf, ?_⟩⟩
    rcases hsecond with ⟨hge, hearly, hio, hcontents⟩ | ⟨hlate, hcontents⟩
    · exact .inl ⟨hio, by omega, hcontents⟩
    · refine .inr ⟨fun hio ↦ ?_, hhome' ▸ hcontents⟩
      obtain ⟨-, hge, hle⟩ := hio
      omega

/-- Wherever the call is cut, the device can be recovered to one of the allowed outcomes. -/
theorem contents_writeFileEx {dev : Blockdev} (htotal : dev.totalBlocks = maxBlocks)
    (hclean : Clean dev) (h : Sound dev.blocks) (name : Option CStr) (data : Option Mem) (size : ℕ)
    (stop : Bool) :
    let res := (writeFileEx name data size stop).run dev
    (finalState res).totalBlocks = maxBlocks ∧
      ∃ c, Contents (finalState res) c ∧
        Outcome dev.blocks name data size (returned res = .ok ()) c := by
  intro res
  obtain ⟨htot, ⟨hnot, -, hcontents⟩ | ⟨n, d, ino, blk, slot, rfl, rfl, hsize, hf,
    ⟨hio, -, hcontents⟩ | ⟨-, hcontents⟩⟩⟩ := cut_writeFileEx htotal hclean h name data size stop
  · exact ⟨htot, _, hcontents, h.outcome_unchanged hnot⟩
  · exact ⟨htot, _, hcontents, h.outcome_alloc hf fun hok ↦ nomatch hio.symm.trans hok⟩
  · exact ⟨htot, _, hcontents, h.outcome_created hf hsize⟩

/-- **Creating a file is atomic under crashes.** Take a device on which `m16_fsck` has succeeded.
Run `m16_write_file_ex` with its writes cut at `fail_after = cut` (negative: not at all), then any
number of recoveries that are cut as well. One complete recovery then succeeds, `m16_fsck` accepts
the device, every other file reads as before the call, and the file of that name reads as before
the call or has the new data. It has the new data whenever the call returned `M16_E_OK`. -/
theorem write_file_crash_atomic {dev₀ dev : Blockdev} (htotal : dev₀.totalBlocks = maxBlocks)
    (hfsck : fsck.run dev₀ = .ok () dev) (name : Option CStr) (data : Option Mem) (size : ℕ)
    (stop : Bool) (cut : ℤ) (cuts : List ℤ) :
    let call := (writeFileEx name data size stop).run (dev.withFailAfter cut)
    ∃ dev', journalRecover.run
        ((cuts.foldl recoverAttempt (finalState call)).withFailAfter (-1)) = .ok () dev' ∧
      returned (fsck.run dev') = .ok () ∧
      ∀ (past past' : Mem) (cap : ℕ), blockSize ≤ cap →
        (∀ m, m ≠ name → returned ((readFile past' m cap).run dev')
          = returned ((readFile past m cap).run dev)) ∧
        (returned ((readFile past' name cap).run dev') =
            returned ((readFile past name cap).run dev) ∨
          ∃ d, data = some d ∧
            returned ((readFile past' name cap).run dev') = .ok ((List.range size).map d)) ∧
        (returned call = .ok () → ∃ d, data = some d ∧
          returned ((readFile past' name cap).run dev') = .ok ((List.range size).map d)) := by
  intro call
  obtain ⟨hclean, htotal', hsound⟩ := sound_of_fsck htotal hfsck
  obtain ⟨htot, c, hcontents, hout⟩ := @contents_writeFileEx (dev.withFailAfter cut)
    htotal' hclean hsound name data size stop
  -- the recoveries bring the outcome home
  have hle : 18 ≤ (finalState call).totalBlocks := by rw [htot]; decide
  obtain ⟨hcuts, hcutst⟩ := hcontents.foldl_recoverAttempt hle cuts
  obtain ⟨dev', hrun, hclean', hhome, htot'⟩ := (hcuts.withFailAfter (-1)).recover
    (by rw [totalBlocks_withFailAfter, hcutst]; exact hle) (by simp)
  have htotal'' : dev'.totalBlocks = maxBlocks := by
    rw [htot', totalBlocks_withFailAfter, hcutst, htot]
  have hsame : ∀ x, ¬InJournal x → c x = dev'.blocks x := fun x hx ↦ by
    rw [← hhome, homeOf_of_not hx]
  have hsound' : Sound dev'.blocks := hout.sound.congr hsame
  refine ⟨dev', hrun, by rw [run_fsck htotal'' hclean' hsound', returned_ok],
    fun past past' cap hcap ↦ ?_⟩
  have hafter : ∀ m, returned ((readFile past' (some m) cap).run dev') = fileOf c m := fun m ↦ by
    rw [returned_readFile htotal'' hclean' hsound' past' m hcap, hout.sound.fileOf_congr hsame]
  have hbefore : ∀ m, returned ((readFile past (some m) cap).run dev) = fileOf dev.blocks m :=
    fun m ↦ returned_readFile htotal' hclean hsound past m hcap
  refine ⟨fun m hm ↦ ?_, ?_, fun hok ↦ ?_⟩
  · cases m with
    | none => rfl
    | some m => rw [hafter, hbefore]; exact hout.other m fun h ↦ hm h.symm
  · cases name with
    | none => exact Or.inl rfl
    | some n =>
      rw [hafter, hbefore]
      rcases hout.this n rfl with ⟨hsame, -⟩ | hnew
      · exact Or.inl hsame
      · exact Or.inr hnew
  · cases name with
    | none => cases hok
    | some n =>
      rw [hafter]
      rcases hout.this n rfl with ⟨-, hnot⟩ | hnew
      · exact absurd hok hnot
      · exact hnew

/-- The file `a` with three bytes, created on a formatted device with the call cut in its first
transaction and one recovery cut after its first write. -/
theorem write_file_crash_atomic_formatted :
    let dev := finalState (format.run devInit)
    let a : CStr := ⟨[97], by decide⟩
    let call := (writeFileEx (some a) (some fun _ ↦ 7) 3 false).run (dev.withFailAfter 16)
    ∃ dev', journalRecover.run
        (([1].foldl recoverAttempt (finalState call)).withFailAfter (-1)) = .ok () dev' ∧
      returned (fsck.run dev') = .ok () ∧
      ∀ (past past' : Mem) (cap : ℕ), blockSize ≤ cap →
        (∀ m, m ≠ some a → returned ((readFile past' m cap).run dev')
          = returned ((readFile past m cap).run dev)) ∧
        (returned ((readFile past' (some a) cap).run dev')
            = returned ((readFile past (some a) cap).run dev) ∨
          ∃ d, some (fun _ ↦ 7) = some d ∧
            returned ((readFile past' (some a) cap).run dev') = .ok ((List.range 3).map d)) ∧
        (returned call = .ok () → ∃ d, some (fun _ ↦ 7) = some d ∧
          returned ((readFile past' (some a) cap).run dev') = .ok ((List.range 3).map d)) := by
  obtain ⟨dev', hrun, htotal, hclean, hsound⟩ := @run_format devInit rfl (by decide)
  rw [hrun, finalState_ok]
  exact write_file_crash_atomic htotal (run_fsck htotal hclean hsound) _ _ 3 false 16 [1]

end M16

end Mcsos
