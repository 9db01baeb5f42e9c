import Mcsos.Base.Machine
import Mcsos.Mcsfs1.Fsck
import Mcsos.Mcsfs1.Write

/-!
# Consistency under faults

A successful `mcsfs1_format` leaves a consistent volume without files (`formatted_of_run`), which
can be mounted (`run_mcsfs1Mount`), and `mcsfs1_fsck` accepts every consistent volume (`fsck_ok`).
In between, every operation keeps the volume consistent after each of its writes, whichever calls of
the device fail. So the volume is consistent at every moment of every run.
-/

namespace Mcsos

namespace Mcsfs1

open FaultyDisk

variable {dev : Blkdev} {d : ℕ → Block}

/-! ## `mcsfs1_format` -/

/-- What `mcsfs1_format` leaves. -/
structure Formatted (dev : Blkdev) (d : ℕ → Block) : Prop where
  intact : Intact dev d
  empty : ∀ i, ¬(volumeOf d).Live i

theorem bitTest_zero (n : ℕ) : bitTest (Buf.zero 512) n = false := by
  rw [bitTest, Bitmap.test_eq_testBit, Buf.byte_zero]
  exact Nat.zero_testBit _

theorem bitTest_foldl_bitSet (bm : Block) {n : ℕ} (hn : n ≤ 4096) (m : ℕ) :
    bitTest ((List.range n).foldl bitSet bm) m = (decide (m < n) || bitTest bm m) := by
  induction n with
  | zero => rfl
  | succ n ih =>
    rw [List.range_succ, List.foldl_append, List.foldl_cons, List.foldl_nil,
      bitTest_bitSet (by omega), Function.update_apply, ih (by omega)]
    by_cases hm : m = n
    · simp [hm]
    · rw [if_neg hm, decide_eq_decide.mpr (show m < n ↔ m < n + 1 by omega)]

theorem bitTest_formatIb (n : ℕ) : bitTest formatIb n = decide (n = 0 ∨ n = rootIno) := by
  rw [formatIb, bitTest_bitSet (by decide), Function.update_apply, bitTest_bitSet (by decide),
    Function.update_apply, bitTest_zero]
  split_ifs with hroot hzero
  · exact (decide_eq_true (.inr hroot)).symm
  · exact (decide_eq_true (.inl hzero)).symm
  · exact (decide_eq_false (not_or.mpr ⟨hzero, hroot⟩)).symm

/-- The last bit that `mcsfs1_format` sets has been set by the loop before. -/
theorem bitTest_formatBb (b : ℕ) : bitTest formatBb b = decide (b < dataStartLba) := by
  rw [formatBb, bitTest_bitSet (by decide), Function.update_apply,
    bitTest_foldl_bitSet _ (by decide), bitTest_zero, Bool.or_false]
  split_ifs with hroot
  · rw [hroot]
    rfl
  · rfl

theorem superOk_formatSuper (hmax : dev.blockCount ≤ blockSize * 8) :
    SuperOk dev.blockCount (formatSuper dev) := by
  rw [blockSize] at hmax
  have hcount : dev.blockCount < 256 ^ 4 := by omega
  constructor
  all_goals
    simp (disch := first | omega | decide) only [Super.magic, Super.version, Super.blockSize,
      Super.blockCount, Super.inodeCount, Super.inodeBmapLba, Super.blockBmapLba,
      Super.inodeTableLba, Super.rootIno, Super.rootDirLba, Super.dataStartLba, formatSuper,
      Buf.load_store_of_disjoint, Buf.load_store_self]

/-- The volume that the writes of `mcsfs1_format` leave on a disk whose directory is zero. -/
def Volume.format (v : Volume) (dev : Blkdev) : Volume :=
  Volume.setInode { v with
    super := formatSuper dev
    inodeUsed := bitTest formatIb
    blockUsed := bitTest formatBb } rootIno (Inode.make modeDir blockSize rootDirLba)

theorem consistent_format (hmax : dev.blockCount ≤ blockSize * 8) {v : Volume}
    (hempty : ∀ i, ¬v.Live i) : Consistent dev.blockCount (v.format dev) := by
  have hroot : bitTest formatIb rootIno = true := by
    rw [bitTest_formatIb]
    exact decide_eq_true (.inr rfl)
  refine ⟨superOk_formatSuper hmax, hroot, ?_, ?_, ?_, ?_, ?_, ?_, ?_⟩
  · rw [Volume.format, Volume.inode_setInode, if_pos rfl, Inode.mode_make _ _ (by decide)]
  · rw [Volume.format, Volume.inode_setInode, if_pos rfl,
      Inode.direct_make _ _ (by decide) (by decide), if_pos rfl]
  · intro b hb
    exact (bitTest_formatBb b).trans (decide_eq_true hb)
  · exact fun i hi ↦ absurd hi (hempty i)
  · exact fun i j hi ↦ absurd hi (hempty i)
  · exact fun i hi ↦ absurd hi (hempty i)
  · exact fun i j hi ↦ absurd hi (hempty i)

/-- How `mcsfs1_format` may end. -/
inductive FormatEnds (dev : Blkdev) : Except Err Unit → (ℕ → Block) → Prop
  | ok {d' : ℕ → Block} (hdev : dev.Usable) (hd' : Formatted dev d') : FormatEnds dev (.ok ()) d'
  | error {e : Err} {d' : ℕ → Block} (h : dev.Usable → Faulty dev.fails) :
    FormatEnds dev (.error e) d'

theorem wp_formatWrite {ok : Unit → (ℕ → Block) → Prop} {lba : ℕ} {b : Block}
    (hlba : lba < dev.blockCount) (hok : dev.write = true → ok () (Function.update d lba b)) :
    wp (fun _ ↦ True) (devWrite dev lba b) ok (fun e ↦ FormatEnds dev (.error e)) d :=
  wp_devWrite_of (fun hwrite _ ↦ ⟨trivial, hok hwrite⟩)
    (fun hbad ↦ .error fun hdev ↦ absurd ⟨hdev.write, hlba⟩ hbad) fun h ↦ .error fun _ ↦ h

theorem wp_zeroBlocks {ok : Unit → (ℕ → Block) → Prop} {lbas : List ℕ}
    (hlbas : ∀ lba ∈ lbas, lba < dev.blockCount)
    (hok : ok () fun lba ↦ if lba ∈ lbas then Buf.zero 512 else d lba) :
    wp (fun _ ↦ True) (zeroBlocks dev lbas) ok (fun e ↦ FormatEnds dev (.error e)) d := by
  induction lbas generalizing d with
  | nil => exact wp_pure (by simpa using hok)
  | cons lba lbas ih =>
    refine wp_bind (wp_formatWrite (hlbas lba List.mem_cons_self) fun _ ↦ ?_)
    refine ih (fun l hl ↦ hlbas l (List.mem_cons_of_mem _ hl)) ?_
    convert hok using 2 with l
    rw [Function.update_apply]
    by_cases hl : l ∈ lbas <;> by_cases heq : l = lba <;> simp [hl, heq]

theorem wp_mcsfs1Format {ok : Unit → (ℕ → Block) → Prop}
    (hok : dev.Usable → ∀ (v : Volume) d', (∀ i, ¬v.Live i) → volumeOf d' = v.format dev →
      ok () d') :
    wp (fun _ ↦ True) (mcsfs1Format (some dev)) ok (fun e ↦ FormatEnds dev (.error e)) d := by
  refine wp_bind (wp_failIf (fun hbad ↦ .error fun hdev ↦ ?_) fun hrange ↦ ?_)
  · have hmin := hdev.min_le
    have hmax := hdev.le_max
    omega
  rw [not_or, Nat.not_lt, Nat.not_lt] at hrange
  obtain ⟨hmin, hmax⟩ := hrange
  have hlt : ∀ lba, lba < minBlocks → lba < dev.blockCount := fun lba h ↦ Nat.lt_of_lt_of_le h hmin
  refine wp_bind (wp_zeroBlocks (fun lba h ↦ List.mem_range.mp h) ?_)
  have hempty : ∀ i, ¬(volumeOf fun lba ↦
      if lba ∈ List.range dev.blockCount then Buf.zero 512 else d lba).Live i := by
    rintro i ⟨-, hino⟩
    simp only [volumeOf, List.mem_range, if_pos (hlt rootDirLba (by decide)), direntAt] at hino
    exact hino (Mem.load_eq_zero fun k _ hk ↦ by
      rw [Buf.byte_slice_of_lt (by omega), Buf.byte_zero])
  generalize (fun lba ↦ if lba ∈ List.range dev.blockCount then Buf.zero 512 else d lba) = d1
    at hempty
  refine wp_bind (wp_formatWrite (hlt sbLba (by decide)) fun hwrite ↦ ?_)
  refine wp_bind (wp_bind (wp_formatWrite (hlt inodeBmapLba (by decide)) fun _ ↦ ?_))
  refine wp_formatWrite (hlt blockBmapLba (by decide)) fun _ ↦ ?_
  refine wp_bind (wp_inodeChecks (by decide) (by decide) fun hlba ↦ wp_bind (wp_devRead_of
    (fun hread _ ↦ wp_formatWrite (hlt _ hlba) fun _ ↦ ?_)
    (fun hbad ↦ .error fun hdev ↦ absurd ⟨hdev.read, hlt _ hlba⟩ hbad) fun h ↦ .error fun _ ↦ h))
  refine wp_devFlush_of (fun hflush ↦ ?_) (fun hbad ↦ .error fun hdev ↦ absurd hdev.flush hbad)
    fun h ↦ .error fun _ ↦ h
  refine hok ⟨hread, hwrite, hflush, hmin, hmax⟩ (volumeOf d1) _ hempty ?_
  rw [volumeOf_update_inode _ (by decide) (by decide), volumeOf_update_blockBmap,
    volumeOf_update_inodeBmap, volumeOf_update_super]
  rfl

theorem formatted_of_volumeOf (hdev : dev.Usable) {v : Volume} (hempty : ∀ i, ¬v.Live i)
    (hd : volumeOf d = v.format dev) : Formatted dev d := by
  refine ⟨?_, ?_⟩
  · rw [Intact, hd]
    exact consistent_format hdev.le_max hempty
  · rw [hd]
    exact hempty

theorem meets_mcsfs1Format (dev : Blkdev) (d : ℕ → Block) :
    Meets (fun _ ↦ True) (mcsfs1Format (some dev)) (FormatEnds dev) d :=
  wp_mcsfs1Format fun hdev _ _ hempty hd' ↦ .ok hdev (formatted_of_volumeOf hdev hempty hd')

/-- A device that does not fail can be formatted. -/
theorem returned_mcsfs1Format (hdev : dev.Usable) (hfails : ¬Faulty dev.fails) (s : Disk Block) :
    returned ((mcsfs1Format (some dev)).run s) = .ok () := by
  obtain ⟨-, hends⟩ := (meets_mcsfs1Format dev s.block).since trivial
  generalize returned ((mcsfs1Format (some dev)).run s) = r at hends
  cases hends with
  | ok => rfl
  | error h => exact absurd (h hdev) hfails

theorem volumeOf_of_run_format {s s₀ : Disk Block}
    (hformat : (mcsfs1Format (some dev)).run s = .ok () s₀) :
    dev.Usable ∧ ∃ v : Volume, (∀ i, ¬v.Live i) ∧ volumeOf s₀.block = v.format dev := by
  have hwp : wp (fun _ ↦ True) (mcsfs1Format (some dev)) (fun _ d' ↦ dev.Usable ∧
      ∃ v : Volume, (∀ i, ¬v.Live i) ∧ volumeOf d' = v.format dev) _ s.block :=
    wp_mcsfs1Format fun hdev v _ hempty hd' ↦ ⟨hdev, v, hempty, hd'⟩
  have hends := hwp.ends s rfl trivial
  rw [hformat] at hends
  exact hends.2

theorem formatted_of_run {s s₀ : Disk Block}
    (hformat : (mcsfs1Format (some dev)).run s = .ok () s₀) :
    dev.Usable ∧ Formatted dev s₀.block := by
  obtain ⟨hdev, v, hempty, hd⟩ := volumeOf_of_run_format hformat
  exact ⟨hdev, formatted_of_volumeOf hdev hempty hd⟩

/-! ## `mcsfs1_fsck` -/

/-- The device, with callbacks that do not fail. -/
def Blkdev.repaired (dev : Blkdev) : Blkdev := { dev with fails := fun _ ↦ false }

theorem not_faulty_repaired : ¬Faulty dev.repaired.fails := by
  rintro ⟨n, hn⟩
  exact Bool.false_ne_true hn

/-- `mcsfs1_fsck` accepts every consistent volume. -/
theorem fsck_ok (hdev : dev.Usable) {s : Disk Block} (hd : Intact dev s.block) :
    returned ((mcsfs1Fsck (some dev.repaired)).run s) = .ok () := by
  have hrepaired : dev.repaired.Usable :=
    ⟨hdev.read, hdev.write, hdev.flush, hdev.min_le, hdev.le_max⟩
  exact (fsck_ok_iff hrepaired not_faulty_repaired s).mpr (consistent_iff.mp hd).1

/-! ## `mcsfs1_mount` -/

theorem wp_mcsfs1Mount_of {C : (ℕ → Block) → Prop} :
    wp C (mcsfs1Mount (some dev)) (fun m d' ↦ m = ⟨dev, dev.blockCount, dataStartLba⟩ ∧
      dev.read = true ∧ d' = d) (fun _ _ ↦ True) d := by
  refine wp_bind (wp_bind (wp_devRead_of (fun hread _ ↦ ?_) (fun _ ↦ trivial) fun _ ↦ trivial))
  refine wp_bind (wp_failIf (fun _ ↦ trivial) fun _ ↦ ?_)
  refine wp_bind (wp_failIf (fun _ ↦ trivial) fun hcounts ↦ ?_)
  refine wp_bind (wp_failIf (fun _ ↦ trivial) fun _ ↦ ?_)
  refine wp_bind (wp_failIf (fun _ ↦ trivial) fun hstart ↦ ?_)
  refine wp_bind (wp_failIf (fun _ ↦ trivial) fun _ ↦ wp_pure ?_)
  refine wp_bind (wp_bind (wp_failIf (fun _ ↦ trivial) fun _ ↦ ?_))
  refine wp_bind (wp_failIf (fun _ ↦ trivial) fun _ ↦ ?_)
  refine wp_bind (wp_devRead_of (fun _ _ ↦ wp_pure ?_) (fun _ ↦ trivial) fun _ ↦ trivial)
  refine wp_bind (wp_failIf (fun _ ↦ trivial) fun _ ↦ wp_pure ⟨?_, hread, rfl⟩)
  simp only [not_or, not_not] at hcounts hstart
  rw [hcounts.1, hstart.2.2]

theorem mounted_of_run {s s₁ : Disk Block} {mnt : Mount}
    (hmount : (mcsfs1Mount (some dev)).run s = .ok mnt s₁) :
    mnt = ⟨dev, dev.blockCount, dataStartLba⟩ ∧ dev.read = true ∧ s₁.block = s.block ∧
      ∀ C : (ℕ → Block) → Prop, Always C s → Always C s₁ := by
  have hwp (C : (ℕ → Block) → Prop) : wp C (mcsfs1Mount (some dev)) _ _ s.block :=
    wp_mcsfs1Mount_of
  have hends := (hwp fun _ ↦ True).ends s rfl trivial
  rw [hmount] at hends
  obtain ⟨-, hmnt, hread, hsame⟩ := hends
  refine ⟨hmnt, hread, hsame, fun C hs ↦ ?_⟩
  have hC := (hwp C).ends s rfl hs.now
  rw [hmount] at hC
  exact hs.since hC.1

theorem run_mcsfs1Mount_of_isOk {s : Disk Block}
    (h : (returned ((mcsfs1Mount (some dev)).run s)).isOk = true) :
    (mcsfs1Mount (some dev)).run s = .ok ⟨dev, dev.blockCount, dataStartLba⟩
      (finalState ((mcsfs1Mount (some dev)).run s)) := by
  cases hrun : (mcsfs1Mount (some dev)).run s with
  | ok m t =>
    rw [(mounted_of_run hrun).1]
    rfl
  | error e t =>
    rw [hrun] at h
    cases h

theorem run_mcsfs1Mount {s : Disk Block} (hdev : dev.Usable)
    (hfails : ¬Faulty dev.fails) (hs : Always (Intact dev) s) :
    ∃ s', (mcsfs1Mount (some dev)).run s = .ok ⟨dev, dev.blockCount, dataStartLba⟩ s' ∧
      Always (Intact dev) s' ∧ s'.block = s.block := by
  have hmeets : Meets (Intact dev) (mcsfs1Mount (some dev))
      (fun r d' ↦ r = .ok ⟨dev, dev.blockCount, dataStartLba⟩ ∧ d' = s.block) s.block :=
    wp_mcsfs1Mount hdev (consistent_iff.mp hs.now).1 ⟨rfl, rfl⟩ fun h ↦ absurd h hfails
  obtain ⟨halways, hreturned, hsame⟩ := hmeets.run hs
  exact ⟨_, eq_ok_of_returned hreturned, halways, hsame⟩

/-! ## Runs -/

theorem always_step {s : Disk Block} (hdev : dev.Usable) (hs : Always (Intact dev) s)
    {mnt : Option Mount} (hmnt : ∀ m ∈ mnt, m.dev = dev) (c : Call) :
    Always (Intact dev) (step mnt c s).2 := by
  cases mnt with
  | none => cases c <;> exact hs
  | some m =>
    obtain rfl := hmnt m rfl
    cases c with
    | create name => exact ((meets_mcsfs1Create hdev hs.now name).run hs).1
    | write name buf len => exact ((meets_mcsfs1Write hdev hs.now name buf len).run hs).1
    | read name buf cap outLen =>
      exact ((meets_mcsfs1Read hdev hs.now name buf cap outLen).run hs).1
    | unlink name => exact ((meets_mcsfs1Unlink hdev hs.now name).run hs).1

/-- **Structure under faults.** After a successful `mcsfs1_format`, in every run of operations with
any arguments, at every moment the volume is consistent and `mcsfs1_fsck` accepts it as soon as the
device does not fail. Which calls of the device fail is arbitrary, and so are the names, the
buffers, the lengths and whether the mount is `NULL`. -/
theorem consistent_under_faults {s s₀ t : Disk Block}
    (hformat : (mcsfs1Format (some dev)).run s = .ok () s₀)
    {es : List ((Option Mount × Call) × Ret)}
    (hrun : Run (fun c ↦ step c.1 c.2) (fun _ c ↦ ∀ m ∈ c.1, m.dev = dev) s₀.fresh es t) :
    ∀ d ∈ t.block :: t.trail, Consistent dev.blockCount (volumeOf d) ∧
      ∀ u : Disk Block, u.block = d →
        returned ((mcsfs1Fsck (some dev.repaired)).run u) = .ok () := by
  obtain ⟨hdev, hformatted⟩ := formatted_of_run hformat
  have halways : Always (Intact dev) t :=
    hrun.invariant (.fresh hformatted.intact) fun u c hu hc ↦ always_step hdev hu hc c.2
  intro d hd
  have hintact : Intact dev d := by
    rcases List.mem_cons.mp hd with rfl | hd
    · exact halways.now
    · exact halways.before d hd
  refine ⟨hintact, ?_⟩
  rintro u rfl
  exact fsck_ok hdev hintact

/-- A device of 16 blocks on which one call fails, some calls after those of `mcsfs1_format`. -/
def faultyDev : Blkdev := ⟨16, true, true, true, fun n ↦ n == 29, fun _ ↦ 0⟩

/-- A disk of zeros. -/
def blankDisk : Disk Block := ⟨fun _ ↦ Buf.zero 512, 0, []⟩

/-- What `mcsfs1_format` leaves on it. -/
def faultyDisk : Disk Block := finalState ((mcsfs1Format (some faultyDev)).run blankDisk)

def nameA : Mem := fun i ↦ if i = 0 then 97 else 0

/-- A file is created, and the write of its inode fails after those of the bitmaps. -/
theorem consistent_under_faults_create :
    returned ((mcsfs1Create (some ⟨faultyDev, 16, 8⟩) (some nameA)).run
      faultyDisk.fresh) = .error .io ∧
    Consistent 16 (volumeOf (step (some ⟨faultyDev, 16, 8⟩) (.create (some nameA))
      faultyDisk.fresh).2.block) := by
  have hformat : returned ((mcsfs1Format (some faultyDev)).run blankDisk) = .ok () := by
    decide +kernel
  refine ⟨by decide +kernel, ?_⟩
  have hrun : Run (fun c : Option Mount × Call ↦ step c.1 c.2)
      (fun _ c ↦ ∀ m ∈ c.1, m.dev = faultyDev) faultyDisk.fresh _ _ :=
    Run.nil.snoc (some ⟨faultyDev, 16, 8⟩, .create (some nameA)) (by rintro m ⟨⟩; rfl)
  exact (consistent_under_faults (eq_ok_of_returned hformat) hrun _ List.mem_cons_self).1

/-- A device of 16 blocks that does not fail. -/
def plainDev : Blkdev := ⟨16, true, true, true, fun _ ↦ false, fun _ ↦ 0⟩

def plainMount : Mount := ⟨plainDev, 16, 8⟩

/-- Its disk after `mcsfs1_format`. -/
def formattedDisk : Disk Block := finalState ((mcsfs1Format (some plainDev)).run blankDisk)

theorem dev_of_mem_plainMount : ∀ m ∈ some plainMount, m.dev = plainDev := by
  rintro m ⟨⟩
  rfl

theorem not_faulty_plainDev : ¬Faulty plainDev.fails := by
  rintro ⟨n, hn⟩
  exact Bool.false_ne_true hn

theorem run_mcsfs1Format_plainDev :
    (mcsfs1Format (some plainDev)).run blankDisk = .ok () formattedDisk := by
  have husable : plainDev.Usable := ⟨rfl, rfl, rfl, by decide, by decide⟩
  exact eq_ok_of_returned (returned_mcsfs1Format husable not_faulty_plainDev blankDisk)

/-- The disk of `plainDev` after `mcsfs1_format` and `mcsfs1_mount`. -/
def mountedDisk : Disk Block := finalState ((mcsfs1Mount (some plainDev)).run formattedDisk.fresh)

theorem run_mcsfs1Mount_plainDev :
    (mcsfs1Mount (some plainDev)).run formattedDisk.fresh = .ok plainMount mountedDisk := by
  obtain ⟨hdev, hformatted⟩ := formatted_of_run run_mcsfs1Format_plainDev
  obtain ⟨s', hrun, -⟩ := run_mcsfs1Mount hdev not_faulty_plainDev (.fresh hformatted.intact)
  rw [mountedDisk, hrun]
  rfl

end Mcsfs1

end Mcsos
