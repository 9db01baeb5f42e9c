import Mcsos.Base.Machine
import Mcsos.Mcsfs1j.CrashAtomicity

/-!
# Space that crashes lose

A file is created in two transactions: the first marks an inode and a block, the second enters the
file in the directory. A crash between the two commit records leaves marks that nothing names, and
no later call removes a mark. `Accounted b lost` says that the marks of the two bitmaps are those of
the files and the pairs of `lost`, and that nothing of `lost` is in a file. Over a run of crashed
calls and recoveries, `lost` grows by one pair for each call that was cut between its two commit
records, and by nothing else (`space_lost_between_commits`).
-/

namespace Mcsos

namespace M16

/-! ## The marks of the bitmaps -/

/-- The directory entry `s` names the inode `i`. -/
def Names (b : ℕ → Block) (s i : ℕ) : Prop :=
  s < dirCount ∧ Dirent.used (b rootDirLba) s ≠ 0 ∧ Dirent.ino (b rootDirLba) s = i

/-- The inodes marked as used are the root, those of the files and those of `lost`; the data blocks
marked as used are those of the files and those of `lost`. The inodes of `lost` are distinct, and
none of them is the root or that of a file; its blocks are distinct data blocks, and none of them is
that of a file. -/
structure Accounted (b : ℕ → Block) (lost : List (ℕ × ℕ)) : Prop where
  inodes : ∀ i < 4096, bitmapGet (b inodeBitmapLba) i = true ↔
    i = 0 ∨ (∃ s, Names b s i) ∨ i ∈ lost.map Prod.fst
  blocks : ∀ x < 4096, dataStartLba ≤ x → (bitmapGet (b blockBitmapLba) x = true ↔
    (∃ s i, Names b s i ∧ Inode.direct0 (tableOf b) i = x) ∨ x ∈ lost.map Prod.snd)
  inode_lost : ∀ s i, Names b s i → i ∉ lost.map Prod.fst
  block_lost : ∀ s i, Names b s i → Inode.direct0 (tableOf b) i ∉ lost.map Prod.snd
  nodup_inodes : (lost.map Prod.fst).Nodup
  nodup_blocks : (lost.map Prod.snd).Nodup
  lost_inode : ∀ i ∈ lost.map Prod.fst, i ≠ 0 ∧ i < maxInodes
  lost_block : ∀ x ∈ lost.map Prod.snd, dataStartLba ≤ x ∧ x < maxBlocks

variable {b b' : ℕ → Block} {name : CStr} {data : Mem} {ino blk slot size : ℕ}
  {lost : List (ℕ × ℕ)}

theorem Accounted.congr (h : Accounted b lost) (heq : ∀ x, ¬InJournal x → b x = b' x) :
    Accounted b' lost := by
  obtain ⟨-, hib, hbb, htable, hdir⟩ := metadata_congr heq
  have hnames : ∀ s i, Names b' s i ↔ Names b s i := fun s i ↦ by rw [Names, Names, hdir]
  refine ⟨fun i hi ↦ ?_, fun x hx hge ↦ ?_, fun s i hs ↦ h.inode_lost s i ((hnames s i).mp hs),
    fun s i hs ↦ ?_, h.nodup_inodes, h.nodup_blocks, h.lost_inode, h.lost_block⟩
  · simp only [hnames, ← hib]
    exact h.inodes i hi
  · simp only [hnames, ← hbb, ← htable]
    exact h.blocks x hx hge
  · rw [← htable]
    exact h.block_lost s i ((hnames s i).mp hs)

theorem Names.ne_fresh {s i : ℕ} (hs : Names b s i) (hsound : Sound b)
    (hf : Fresh b name ino blk slot) (size : ℕ) : i ≠ ino ∧ Inode.direct0 (tableOf b) i ≠ blk ∧
      Inode.direct0 (Inode.setFile (tableOf b) ino size blk) i = Inode.direct0 (tableOf b) i := by
  obtain ⟨hlt, hused, rfl⟩ := hs
  obtain ⟨hino, hblk⟩ := hsound.entry_ne hf hlt hused
  obtain ⟨⟨hmax, -⟩, -⟩ := hsound.entries s hlt hused
  exact ⟨hino, hblk, (Inode.fields_setFile_of_ne (tableOf b) size blk hmax hino).2.2.2⟩

theorem Fresh.lt_bits (hf : Fresh b name ino blk slot) : ino < 4096 ∧ blk < 4096 := by
  have hino : ino < 16 := hf.ino_lt
  have hblk : blk < 128 := hf.blk_lt
  omega

theorem Accounted.fresh_notMem (h : Accounted b lost) (hf : Fresh b name ino blk slot) :
    ino ∉ lost.map Prod.fst ∧ blk ∉ lost.map Prod.snd := by
  obtain ⟨hino, hblk⟩ := hf.lt_bits
  refine ⟨fun hmem ↦ ?_, fun hmem ↦ ?_⟩
  · exact Bool.false_ne_true (hf.ino_free.symm.trans ((h.inodes ino hino).mpr (.inr (.inr hmem))))
  · exact Bool.false_ne_true
      (hf.blk_free.symm.trans ((h.blocks blk hblk hf.blk_ge).mpr (.inr hmem)))

theorem Accounted.fresh_ne_zero (h : Accounted b lost) (hf : Fresh b name ino blk slot) :
    ino ≠ 0 := by
  rintro rfl
  exact Bool.false_ne_true (hf.ino_free.symm.trans ((h.inodes 0 (by decide)).mpr (.inl rfl)))

/-- The first transaction alone loses an inode and a block. -/
theorem Accounted.alloc (h : Accounted b lost) (hsound : Sound b)
    (hf : Fresh b name ino blk slot) :
    Accounted (applyWrites b (allocTx b ino blk size)) ((ino, blk) :: lost) := by
  have hnames : ∀ s i, Names (applyWrites b (allocTx b ino blk size)) s i ↔ Names b s i := by
    intro s i
    rw [Names, Names, allocTx_of_notMem (Or.inr le_rfl)]
  obtain ⟨hinoLost, hblkLost⟩ := h.fresh_notMem hf
  refine ⟨fun i hi ↦ ?_, fun x hx hge ↦ ?_, fun s i hs ↦ ?_, fun s i hs ↦ ?_,
    List.nodup_cons.mpr ⟨hinoLost, h.nodup_inodes⟩, List.nodup_cons.mpr ⟨hblkLost, h.nodup_blocks⟩,
    List.forall_mem_cons.mpr ⟨⟨h.fresh_ne_zero hf, hf.ino_lt⟩, h.lost_inode⟩,
    List.forall_mem_cons.mpr ⟨⟨hf.blk_ge, hf.blk_lt⟩, h.lost_block⟩⟩
  · simp only [hnames]
    rw [allocTx_inodeBitmap, bitmapGet_bitmapSet hi, Bool.or_eq_true, decide_eq_true_iff,
      h.inodes i hi, List.map_cons, List.mem_cons]
    exact or_left_comm.trans (or_congr_right or_left_comm)
  · have hfile : (∃ s i, Names b s i ∧
        Inode.direct0 (Inode.setFile (tableOf b) ino size blk) i = x) ↔
          ∃ s i, Names b s i ∧ Inode.direct0 (tableOf b) i = x :=
      exists₂_congr fun s i ↦ and_congr_right fun hs ↦ by rw [(hs.ne_fresh hsound hf size).2.2]
    simp only [hnames, allocTx_table]
    rw [hfile, allocTx_blockBitmap, bitmapGet_bitmapSet hx, Bool.or_eq_true, decide_eq_true_iff,
      h.blocks x hx hge, List.map_cons, List.mem_cons]
    exact or_left_comm
  · rw [hnames] at hs
    rw [List.map_cons, List.mem_cons]
    exact fun hmem ↦ hmem.elim (hs.ne_fresh hsound hf size).1 (h.inode_lost s i hs)
  · rw [hnames] at hs
    obtain ⟨-, hblk, hsame⟩ := hs.ne_fresh hsound hf size
    rw [allocTx_table, hsame, List.map_cons, List.mem_cons]
    exact fun hmem ↦ hmem.elim hblk (h.block_lost s i hs)

theorem names_created (hf : Fresh b name ino blk slot) (s i : ℕ) :
    Names (M16.created b name data ino blk slot size) s i ↔ Names b s i ∨ s = slot ∧ i = ino := by
  rw [Names, Names, created_rootDir hf]
  by_cases hslot : s = slot
  · subst hslot
    rw [Dirent.used_fill hf.slot_lt, Dirent.ino_fill hf.slot_lt (by have := hf.lt_bits; omega)]
    constructor
    · exact fun hs ↦ .inr ⟨rfl, hs.2.2.symm⟩
    · rintro (⟨-, hused, -⟩ | ⟨-, rfl⟩)
      · exact absurd hf.slot_free hused
      · exact ⟨hf.slot_lt, one_ne_zero, rfl⟩
  · obtain ⟨hu, hn, -⟩ := Dirent.fields_fill_of_ne (b rootDirLba) ino name hslot
    rw [hu, hn]
    exact ⟨.inl, fun hs ↦ hs.elim id fun hnew ↦ absurd hnew.1 hslot⟩

/-- Both transactions together lose nothing. -/
theorem Accounted.created (h : Accounted b lost) (hsound : Sound b)
    (hf : Fresh b name ino blk slot) :
    Accounted (created b name data ino blk slot size) lost := by
  obtain ⟨hino, hblk⟩ := hf.lt_bits
  obtain ⟨hinoLost, hblkLost⟩ := h.fresh_notMem hf
  have hnew : Inode.direct0 (Inode.setFile (tableOf b) ino size blk) ino = blk :=
    Inode.direct0_setFile hf.ino_lt (by omega)
  refine ⟨fun i hi ↦ ?_, fun x hx hge ↦ ?_, fun s i hs ↦ ?_, fun s i hs ↦ ?_, h.nodup_inodes,
    h.nodup_blocks, h.lost_inode, h.lost_block⟩
  · have hfile : (∃ s, Names (M16.created b name data ino blk slot size) s i) ↔
        (∃ s, Names b s i) ∨ i = ino := by
      simp only [names_created hf, exists_or, exists_eq_left]
    rw [hfile, created_of_lt hf (by decide), allocTx_inodeBitmap, bitmapGet_bitmapSet hi,
      Bool.or_eq_true, decide_eq_true_iff, h.inodes i hi]
    exact or_left_comm.trans (or_congr_right (or_left_comm.trans or_assoc.symm))
  · have hfile : (∃ s i, Names (M16.created b name data ino blk slot size) s i ∧
        Inode.direct0 (Inode.setFile (tableOf b) ino size blk) i = x) ↔
          (∃ s i, Names b s i ∧ Inode.direct0 (tableOf b) i = x) ∨ x = blk := by
      constructor
      · rintro ⟨s, i, hs, hx⟩
        rcases (names_created hf s i).mp hs with hs | ⟨-, rfl⟩
        · exact .inl ⟨s, i, hs, (hs.ne_fresh hsound hf size).2.2.symm.trans hx⟩
        · exact .inr (hx.symm.trans hnew)
      · rintro (⟨s, i, hs, hx⟩ | rfl)
        · exact ⟨s, i, (names_created hf s i).mpr (.inl hs),
            (hs.ne_fresh hsound hf size).2.2.trans hx⟩
        · exact ⟨slot, ino, (names_created hf slot ino).mpr (.inr ⟨rfl, rfl⟩), hnew⟩
    rw [created_table hf, hfile, created_of_lt hf (by decide), allocTx_blockBitmap,
      bitmapGet_bitmapSet hx, Bool.or_eq_true, decide_eq_true_iff, h.blocks x hx hge]
    exact or_left_comm.trans or_assoc.symm
  · rcases (names_created hf s i).mp hs with hs | ⟨-, rfl⟩
    · exact h.inode_lost s i hs
    · exact hinoLost
  · rw [created_table hf]
    rcases (names_created hf s i).mp hs with hs | ⟨-, rfl⟩
    · rw [(hs.ne_fresh hsound hf size).2.2]
      exact h.block_lost s i hs
    · rw [hnew]
      exact hblkLost

theorem accounted_formatted (totalBlocks : ℕ) : Accounted (formatted totalBlocks) [] := by
  have hib : formatted totalBlocks inodeBitmapLba = bitmapSet (Buf.zero 512) 0 := rfl
  have hbb : formatted totalBlocks blockBitmapLba
      = (List.range dataStartLba).foldl bitmapSet (Buf.zero 512) := rfl
  have hzero : ∀ i, bitmapGet (Buf.zero 512) i = false := by
    intro i
    rw [bitmapGet, Bitmap.test_eq_testBit, Buf.byte_zero, UInt8.toNat_zero, Nat.zero_testBit]
  have hnames : ∀ s i, ¬Names (formatted totalBlocks) s i :=
    fun s i hs ↦ hs.2.1 (Buf.load_zero 4 (40 * s))
  refine ⟨fun i hi ↦ ?_, fun x hx hge ↦ ?_, fun s i hs ↦ absurd hs (hnames s i),
    fun s i hs ↦ absurd hs (hnames s i), List.nodup_nil, List.nodup_nil,
    fun _ hi ↦ absurd hi List.not_mem_nil, fun _ hx ↦ absurd hx List.not_mem_nil⟩
  · rw [hib, bitmapGet_bitmapSet hi, hzero, Bool.or_false, decide_eq_true_iff]
    simp only [hnames, exists_false, List.map_nil, List.not_mem_nil, or_false]
  · rw [hbb, bitmapGet_foldl_bitmapSet _ _ hx, hzero, Bool.or_false, decide_eq_true_iff]
    simp only [hnames, false_and, exists_false, List.map_nil, List.not_mem_nil, or_false,
      iff_false, not_lt]
    exact hge

/-! ## Runs -/

/-- A call of `m16_write_file` on a device with `fail_after = cut`. -/
structure CrashCall where
  name : Option CStr
  data : Option Mem
  size : ℕ
  cut : ℤ

/-- The call, and a complete `m16_journal_recover` after it. -/
def crashStep (c : CrashCall) (dev : Blockdev) : Except Err Unit × Blockdev :=
  let call := (writeFile c.name c.data c.size).run (dev.withFailAfter c.cut)
  (returned call, finalState (journalRecover.run ((finalState call).withFailAfter (-1))))

/-- The call has failed between its two commit records. -/
def losesSpace (e : CrashCall × Except Err Unit) : Bool :=
  decide (e.2 = .error .io ∧ BetweenCommits e.1.cut)

/-- What a run keeps. -/
structure Recovered (dev : Blockdev) (lost : List (ℕ × ℕ)) : Prop where
  total : dev.totalBlocks = maxBlocks
  clean : Clean dev
  sound : Sound dev.blocks
  accounted : Accounted dev.blocks lost

theorem Recovered.of_contents {dev : Blockdev} {c : ℕ → Block}
    (htotal : dev.totalBlocks = maxBlocks)
    (hcontents : Contents dev (homeOf c)) (hsound : Sound c) (haccounted : Accounted c lost) :
    Recovered (finalState (journalRecover.run (dev.withFailAfter (-1)))) lost := by
  obtain ⟨dev', hrun, hclean, hhome, htotal'⟩ := @Contents.recover (dev.withFailAfter (-1))
    (show 18 ≤ dev.totalBlocks by rw [htotal]; decide) (by decide : (-1 : ℤ) < 0) _ hcontents
  have hsame := homeOf_eq_iff.mp hhome.symm
  rw [hrun, finalState_ok]
  exact ⟨htotal'.trans htotal, hclean, hsound.congr hsame, haccounted.congr hsame⟩

theorem Recovered.step {dev : Blockdev} (h : Recovered dev lost) (c : CrashCall) :
    ∃ lost', Recovered (crashStep c dev).2 lost' ∧
      lost'.length = lost.length + if losesSpace (c, (crashStep c dev).1) then 1 else 0 := by
  obtain ⟨htotal, ⟨-, hnot, hcontents⟩ | ⟨n, d, ino, blk, slot, -, -, hsize, hf,
    ⟨hio, hcut, hcontents⟩ | ⟨hnot, hcontents⟩⟩⟩ := @cut_writeFileEx (dev.withFailAfter c.cut)
      h.total h.clean h.sound c.name c.data c.size false
  · have hloses : losesSpace (c, (crashStep c dev).1) = false := decide_eq_false hnot
    refine ⟨lost, .of_contents htotal hcontents h.sound h.accounted, ?_⟩
    rw [hloses]
    rfl
  · have hloses : losesSpace (c, (crashStep c dev).1) = true := decide_eq_true ⟨hio, hcut⟩
    refine ⟨(ino, blk) :: lost, .of_contents htotal hcontents (h.sound.alloc hf c.size)
      (h.accounted.alloc h.sound hf), ?_⟩
    rw [hloses]
    rfl
  · have hloses : losesSpace (c, (crashStep c dev).1) = false := decide_eq_false hnot
    refine ⟨lost, .of_contents htotal hcontents (h.sound.created hf hsize d)
      (h.accounted.created h.sound hf), ?_⟩
    rw [hloses]
    rfl

/-- **Space is lost between the two commits only.** After any calls of `m16_write_file` on a
formatted device, each of them cut anywhere and followed by a complete recovery, the marks of the
bitmaps are those of the files and of one inode and one block for each call that failed between its
two commit records. -/
theorem space_lost_between_commits {es : List (CrashCall × Except Err Unit)} {dev : Blockdev}
    (hrun : Run crashStep (fun _ _ ↦ True) (finalState (format.run devInit)) es dev) :
    ∃ lost, Accounted dev.blocks lost ∧ lost.length = (es.filter losesSpace).length := by
  have hrecovered : ∃ lost, Recovered dev lost ∧ lost.length = (es.filter losesSpace).length := by
    induction hrun with
    | nil =>
      obtain ⟨dev', hformat, htotal, -, hblocks⟩ := @run_format_of_le devInit (by decide)
        (by decide)
      rw [hformat, finalState_ok]
      refine ⟨[], ⟨htotal, ?_, ?_, ?_⟩, rfl⟩
      · rw [Clean, hblocks]
        exact headerEmpty_formatted _
      · rw [hblocks]
        exact sound_formatted _
      · rw [hblocks]
        exact accounted_formatted _
    | snoc _ c _ ih =>
      obtain ⟨lost, hrecovered, hlength⟩ := ih
      obtain ⟨lost', hrecovered', hlength'⟩ := hrecovered.step c
      refine ⟨lost', hrecovered', ?_⟩
      rw [hlength', hlength, List.filter_append, List.length_append, List.filter_cons,
        List.filter_nil]
      split <;> rfl
  obtain ⟨lost, hrecovered, hlength⟩ := hrecovered
  exact ⟨lost, hrecovered.accounted, hlength⟩

/-- A file of three bytes, with `fail_after = cut`. -/
def createCut (name : CStr) (cut : ℤ) : CrashCall := ⟨some name, some fun _ ↦ 7, 3, cut⟩

/-- The creation of a file is cut right after the first commit record: an inode and a block are
lost. -/
theorem space_lost_between_commits_once : ∃ es dev lost,
    Run crashStep (fun _ _ ↦ True) (finalState (format.run devInit)) es dev ∧
      es.map Prod.snd = [.error .io] ∧ Accounted dev.blocks lost ∧ lost.length = 1 := by
  have hrun : Run crashStep (fun _ _ ↦ True) (finalState (format.run devInit)) _ _ :=
    Run.nil.snoc (createCut ⟨[97], by decide⟩ 14) trivial
  obtain ⟨lost, haccounted, hlength⟩ := space_lost_between_commits hrun
  exact ⟨_, _, lost, hrun, by decide +kernel, haccounted, hlength.trans (by decide +kernel)⟩

/-- After a crash between the two commits inode 1 is marked, and the directory is empty. -/
theorem crash_loses_inode :
    let dev := (crashStep (createCut ⟨[97], by decide⟩ 14) (finalState (format.run devInit))).2
    bitmapGet (dev.blocks inodeBitmapLba) 1 = true ∧
      bitmapGet (dev.blocks blockBitmapLba) 25 = true ∧
      ∀ s < dirCount, Dirent.used (dev.blocks rootDirLba) s = 0 := by
  decide +kernel

end M16

end Mcsos
