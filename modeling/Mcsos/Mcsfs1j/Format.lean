import Mcsos.Mcsfs1j.Consistency

/-!
# Formatting

The block writes of `m16_format` (`formatWrites`), and that on a device of full size whose writes
do not fail they leave an empty journal and a sound file system without files.
-/

namespace Mcsos

namespace M16

/-- The block writes of `m16_format`, in order. -/
def formatWrites (totalBlocks : ℕ) : List (ℕ × Block) :=
  [(0, formatSuper totalBlocks), (inodeBitmapLba, bitmapSet (Buf.zero 512) 0),
    (blockBitmapLba, (List.range dataStartLba).foldl bitmapSet (Buf.zero 512))] ++
  ((List.range inodeTableBlocks).map fun i ↦
    (inodeTableLba + i, formatInodes.slice (i * blockSize) 512)) ++
  [(rootDirLba, Buf.zero 512), clearWrite]

theorem format_eq_writeAll (dev : Blockdev) :
    format.run dev
      = (writeAll (formatWrites dev.totalBlocks)).run
        { dev with blocks := fun _ ↦ Buf.zero 512 } := by
  rw [format, formatWrites, writeAll_append, writeAll_append, journalClear_eq_writeAll]
  simp only [writeAll, bind_assoc]
  rfl

/-! ## What the blocks hold -/

theorem bitmapGet_foldl_bitmapSet (bm : Block) (n : ℕ) {j : ℕ} (hj : j < 4096) :
    bitmapGet ((List.range n).foldl bitmapSet bm) j = (decide (j < n) || bitmapGet bm j) := by
  induction n with
  | zero => simp
  | succ n ih =>
    rw [List.range_succ, List.foldl_append, List.foldl_cons, List.foldl_nil,
      bitmapGet_bitmapSet hj, ih, ← Bool.or_assoc]
    congr 1
    rw [Bool.eq_iff_iff]
    simp only [Bool.or_eq_true, decide_eq_true_iff]
    omega

theorem superOk_formatSuper (totalBlocks : ℕ) : SuperOk (formatSuper totalBlocks) := by
  constructor
  all_goals
    simp (disch := first | omega | decide) only [Super.magic, Super.version, Super.blockSize,
      Super.dataStartLba, Super.rootDirLba, formatSuper, Buf.load_store_of_disjoint,
      Buf.load_store_self]

theorem root_formatInodes : Inode.used formatInodes 0 = 1 ∧ Inode.kind formatInodes 0 = 2 ∧
    Inode.direct0 formatInodes 0 = rootDirLba := by
  refine ⟨?_, ?_, ?_⟩
  all_goals
    simp (disch := first | omega | decide) only [Inode.used, Inode.kind, Inode.direct0,
      formatInodes, Nat.mul_zero, Nat.zero_add, Buf.load_store_of_disjoint, Buf.load_store_self]

/-- The block array that `m16_format` leaves. -/
def formatted (totalBlocks : ℕ) : ℕ → Block :=
  applyWrites (fun _ ↦ Buf.zero 512) (formatWrites totalBlocks)

theorem sound_formatted (totalBlocks : ℕ) : Sound (formatted totalBlocks) := by
  have hsuper : formatted totalBlocks 0 = formatSuper totalBlocks := rfl
  have hib : formatted totalBlocks inodeBitmapLba = bitmapSet (Buf.zero 512) 0 := rfl
  have hbb : formatted totalBlocks blockBitmapLba
      = (List.range dataStartLba).foldl bitmapSet (Buf.zero 512) := rfl
  have hdir : formatted totalBlocks rootDirLba = Buf.zero 512 := rfl
  have htable : tableOf (formatted totalBlocks) = formatInodes := by
    refine tableOf_eq_of_slices fun k hk ↦ ?_
    simp only [inodeTableBlocks] at hk
    obtain rfl | rfl | rfl | rfl : k = 0 ∨ k = 1 ∨ k = 2 ∨ k = 3 := by omega
    all_goals rfl
  obtain ⟨hused, hkind, hdirect⟩ := root_formatInodes
  refine ⟨hsuper ▸ superOk_formatSuper _, ?_, htable ▸ hused, htable ▸ hkind, htable ▸ hdirect,
    fun x hx ↦ ?_, fun i _ hi ↦ ?_⟩
  · rw [hib, bitmapGet_bitmapSet (by omega), decide_eq_true rfl, Bool.true_or]
  · have hx' : x < 25 := hx
    rw [hbb, bitmapGet_foldl_bitmapSet _ _ (by omega), decide_eq_true hx, Bool.true_or]
  · -- no entry is in use
    rw [hdir, Dirent.used, Buf.load_zero] at hi
    exact absurd rfl hi

/-- `m16_format` succeeds on a device that has the blocks of the layout and whose writes do not
fail. -/
theorem run_format_of_le {dev : Blockdev} (htotal : dataStartLba ≤ dev.totalBlocks)
    (hf : dev.failAfter < 0) :
    ∃ dev', format.run dev = .ok () dev' ∧ dev'.totalBlocks = dev.totalBlocks ∧
      dev'.failAfter = dev.failAfter ∧ dev'.blocks = formatted dev.totalBlocks := by
  have hvalid : ∀ w ∈ formatWrites dev.totalBlocks,
      validLba { dev with blocks := fun _ ↦ Buf.zero 512 } w.1 := by
    intro w hw
    simp only [formatWrites, clearWrite, List.mem_append, List.mem_cons, List.mem_map,
      List.mem_range, List.not_mem_nil, or_false, inodeTableBlocks] at hw
    simp only [validLba, dataStartLba, inodeTableLba, blockBitmapLba, inodeBitmapLba, rootDirLba,
      journalStart, journalBlocks, journalMaxRecords, inodeTableBlocks, maxBlocks] at hw htotal ⊢
    rcases hw with (((rfl | rfl | rfl) | ⟨i, hi, rfl⟩) | rfl | rfl) <;> simp only [] <;> omega
  rw [format_eq_writeAll, run_writeAll hvalid, if_pos (by rw [landed, if_pos hf])]
  refine ⟨_, rfl, totalBlocks_landAll _ _, ?_, blocks_landAll _ _⟩
  rw [failAfter_landAll_of_neg (by exact hf)]

theorem headerEmpty_formatted (totalBlocks : ℕ) :
    HeaderEmpty (formatted totalBlocks journalStart) := headerEmpty_zero

theorem run_format {dev : Blockdev} (htotal : dev.totalBlocks = maxBlocks)
    (hf : dev.failAfter < 0) :
    ∃ dev', format.run dev = .ok () dev' ∧ dev'.totalBlocks = maxBlocks ∧ Clean dev' ∧
      Sound dev'.blocks := by
  obtain ⟨dev', hrun, htotal', -, hblocks⟩ := run_format_of_le (by rw [htotal]; decide) hf
  refine ⟨dev', hrun, htotal'.trans htotal, ?_, ?_⟩
  · rw [Clean, hblocks]
    exact headerEmpty_formatted _
  · rw [hblocks]
    exact sound_formatted _

end M16

end Mcsos
