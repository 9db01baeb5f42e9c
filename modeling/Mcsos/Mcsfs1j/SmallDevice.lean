import Mcsos.Base.Machine
import Mcsos.Mcsfs1j.CrashAtomicity
import Mcsos.Mcsfs1j.FailClosed

/-!
# Devices with fewer blocks

`m16_find_free_block` searches up to `M16_MAX_BLOCKS`, while every access is checked against
`total_blocks`. On a device with fewer blocks, a call that finds its block beyond the end of the
device commits a transaction whose last target is rejected: the home write returns `M16_E_INVAL`
with the commit record in place, and from then on every recovery rejects the journal. Such a call
`Overruns` the device. Calls that do not are as on a device of full size (`small_device_iff`).
-/

namespace Mcsos

namespace M16

variable {dev dev' : Blockdev} {b b' : ℕ → Block} {name : CStr} {data : Mem}
  {ino blk slot size i : ℕ} {tx : Tx}

/-! ## Sequences of writes beyond the end -/

theorem run_writeBlock_invalid {lba : ℕ} {c : Block} (h : ¬validLba dev lba) :
    (writeBlock lba c).run dev = .error .inval dev := by
  rw [writeBlock, run_bind_of_ok (EStateM.run_get dev), run_bind_of_error (run_failIf_of h)]

theorem run_writeAll_invalid {ws rest : List (ℕ × Block)} {w : ℕ × Block}
    (hvalid : ∀ v ∈ ws, validLba dev v.1) (hf : dev.failAfter < 0) (hw : ¬validLba dev w.1) :
    (writeAll (ws ++ w :: rest)).run dev = .error .inval (dev.landAll ws) := by
  have hall : landed dev.failAfter ws.length = ws.length := if_pos hf
  have hrun := run_writeAll hvalid
  rw [if_pos hall] at hrun
  have hw' : ¬validLba (dev.landAll ws) w.1 := by rwa [validLba, totalBlocks_landAll]
  rw [writeAll_append, run_bind_of_ok hrun, writeAll,
    run_bind_of_error (run_writeBlock_invalid hw')]

theorem validLba_of_writeAll {ws : List (ℕ × Block)} (h : (writeAll ws).run dev = .ok () dev') :
    ∀ w ∈ ws, validLba dev w.1 := by
  induction ws generalizing dev with
  | nil => exact fun w hw ↦ absurd hw List.not_mem_nil
  | cons w ws ih =>
    obtain ⟨_, t, hwrite, hrest⟩ := run_bind_eq_ok h
    intro v hv
    rcases List.mem_cons.mp hv with rfl | hv
    · by_contra hvalid
      rw [run_writeBlock_invalid hvalid] at hwrite
      cases hwrite
    · have hvalid := ih hrest v hv
      rwa [run_writeBlock_eq_ok hwrite] at hvalid

theorem total_of_format (h : format.run dev = .ok () dev') : dataStartLba ≤ dev.totalBlocks := by
  rw [format_eq_writeAll] at h
  refine (validLba_of_writeAll h (rootDirLba, Buf.zero 512) ?_).1
  exact List.mem_append_right _ List.mem_cons_self

/-! ## Recovery of a record beyond the end -/

theorem run_journalReplay_overrun (hlen : i + tx.length ≤ journalMaxRecords)
    (hlog : Logged dev.blocks i tx) (hout : ∀ r ∈ tx, ¬InJournal r.1)
    (hlba : ∀ r ∈ tx, r.1 < 2 ^ 32) (hbad : ∃ r ∈ tx, ¬validLba dev r.1) :
    ∃ e dev', (journalReplay i tx.length).run dev = .error e dev' := by
  induction tx generalizing dev i with
  | nil => exact absurd hbad (by simp)
  | cons r tx ih =>
    by_cases hrejected : RecordRejected dev i
    · obtain ⟨e, -, hrun⟩ := @run_journalReplay_rejected dev i tx.length hrejected
      exact ⟨e, dev, hrun⟩
    rcases @run_journalReplay_accepted dev i tx.length hrejected with ⟨e, -, -, hrun⟩ | hrun
    · exact ⟨e, dev, hrun⟩
    obtain ⟨hdesc, -, hrest⟩ := hlog
    have htarget : JournalDesc.targetLba (dev.blocks (descLba i)) = r.1 := by
      rw [hdesc, targetLba_journalDesc (hlba r List.mem_cons_self)]
    rw [List.length_cons, hrun]
    rw [List.length_cons] at hlen
    refine @ih (dev.land (_, _)) (i + 1) (by omega) ?_
      (fun v hv ↦ hout v (List.mem_cons_of_mem r hv))
      (fun v hv ↦ hlba v (List.mem_cons_of_mem r hv)) ?_
    · -- the record written is not in the journal
      refine hrest.congr fun x hx hx' ↦ Function.update_of_ne ?_ _ _
      rintro rfl
      rw [htarget] at hx hx'
      simp only [descLba, journalStart, journalMaxRecords] at hx hx' hlen
      exact hout r List.mem_cons_self (inJournal_iff.mpr (by omega))
    · obtain ⟨v, hv, hinvalid⟩ := hbad
      rcases List.mem_cons.mp hv with rfl | hv
      · refine absurd (Or.inl (Or.inr ?_)) hrejected
        rwa [htarget]
      · exact ⟨v, hv, hinvalid⟩

/-- A device whose journal has committed such a record cannot be recovered. -/
theorem run_journalRecover_overrun {seq : ℕ} (hlen : tx.length ≤ journalMaxRecords)
    (hhdr : dev.blocks journalStart = journalHeader seq tx.length)
    (hlog : Logged dev.blocks 0 tx) (hout : ∀ r ∈ tx, ¬InJournal r.1)
    (hlba : ∀ r ∈ tx, r.1 < 2 ^ 32) (hbad : ∃ r ∈ tx, ¬validLba dev r.1) :
    journalRecover.run dev ≠ .ok () dev' := by
  intro h
  have hcount : JournalHeader.count (journalHeader seq tx.length) = tx.length :=
    count_journalHeader (by simp only [journalMaxRecords] at hlen; omega)
  rw [journalRecover] at h
  replace h := run_readBlock_bind_eq_ok h
  rw [hhdr, if_neg (not_empty_journalHeader _ _)] at h
  replace h := (run_failIf_bind_eq_ok (run_failIf_bind_eq_ok h).2).2
  obtain ⟨_, t, hreplay, -⟩ := run_bind_eq_ok h
  obtain ⟨e, t', hfail⟩ := run_journalReplay_overrun (by omega) hlog hout hlba hbad
  rw [hcount, hfail] at hreplay
  cases hreplay

/-! ## Calls that fit -/

/-- The blocks of the files are on a device of that size. -/
def FilesBelow (b : ℕ → Block) (total : ℕ) : Prop :=
  ∀ i < dirCount, Dirent.used (b rootDirLba) i ≠ 0 →
    Inode.direct0 (tableOf b) (Dirent.ino (b rootDirLba) i) < total

theorem FilesBelow.congr {total : ℕ} (h : FilesBelow b total)
    (heq : ∀ x, ¬InJournal x → b x = b' x) : FilesBelow b' total := by
  obtain ⟨-, -, -, htable, hdir⟩ := metadata_congr heq
  rwa [FilesBelow, ← htable, ← hdir]

theorem FilesBelow.created {total : ℕ} (h : FilesBelow b total) (hsound : Sound b)
    (hf : Fresh b name ino blk slot) (hblk : blk < total) (data : Mem) (size : ℕ) :
    FilesBelow (created b name data ino blk slot size) total := by
  have hino : ino < 16 := hf.ino_lt
  have hlt : blk < 128 := hf.blk_lt
  intro i hi hused
  rw [created_rootDir hf] at hused ⊢
  rw [created_table hf]
  by_cases hslot : i = slot
  · subst hslot
    rwa [Dirent.ino_fill hi (by omega), Inode.direct0_setFile hf.ino_lt (by omega)]
  · obtain ⟨hu, hn, -⟩ := Dirent.fields_fill_of_ne (b rootDirLba) ino name hslot
    rw [hu] at hused
    obtain ⟨⟨hlt', -⟩, -⟩ := hsound.entries i hi hused
    rw [hn, (Inode.fields_setFile_of_ne (tableOf b) size blk hlt'
      (hsound.entry_ne hf hi hused).1).2.2.2]
    exact h i hi hused

/-- What a run keeps, on a device of any size without injected faults. -/
structure Small (dev : Blockdev) : Prop where
  total : dataStartLba ≤ dev.totalBlocks
  faultless : dev.failAfter < 0
  clean : Clean dev
  sound : Sound dev.blocks
  files : FilesBelow dev.blocks dev.totalBlocks

/-- `m16_mount` and `m16_fsck` return `M16_E_OK`. -/
def Usable (dev : Blockdev) : Prop :=
  (∃ sb, returned (mount.run dev) = .ok sb) ∧ returned (fsck.run dev) = .ok ()

theorem Small.le_total (h : Small dev) : 18 ≤ dev.totalBlocks := Nat.le_trans (by decide) h.total

theorem Small.usable (h : Small dev) : Usable dev := by
  refine ⟨⟨dev.blocks 0, ?_⟩, ?_⟩
  · rw [run_mount h.le_total h.clean h.sound.super, returned_ok]
  · rw [run_fsck_of_le h.total h.clean h.sound h.files, returned_ok]

theorem small_of_format (hf : dev.failAfter < 0) (h : format.run dev = .ok () dev') :
    Small dev' := by
  obtain ⟨t, hrun, htotal, hfail, hblocks⟩ := run_format_of_le (total_of_format h) hf
  rw [h] at hrun
  cases hrun
  refine ⟨htotal ▸ total_of_format h, hfail ▸ hf, ?_, ?_, ?_⟩
  · rw [Clean, hblocks]
    exact headerEmpty_formatted _
  · rw [hblocks]
    exact sound_formatted _
  · -- no entry is in use
    intro i _ hused
    rw [hblocks] at hused
    exact absurd (Buf.load_zero 4 (40 * i)) hused

theorem Clean.run_commit_of_neg (hclean : Clean dev) (htotal : 18 ≤ dev.totalBlocks)
    (hf : dev.failAfter < 0) (htx : TxOk dev.totalBlocks tx) (seq : ℕ) :
    ∃ dev', (journalCommit tx seq false).run dev = .ok () dev' ∧ Clean dev' ∧
      homeOf dev'.blocks = applyWrites (homeOf dev.blocks) tx ∧
      dev'.totalBlocks = dev.totalBlocks ∧ dev'.failAfter = dev.failAfter := by
  have hrun := run_journalCommit htotal htx seq false
  rw [if_pos (by rw [landed, if_pos hf])] at hrun
  obtain ⟨-, hdone⟩ := hclean.run_commit_ok htotal htx hrun
  obtain ⟨hclean', hhome⟩ := hdone rfl
  exact ⟨_, hrun, hclean', hhome, totalBlocks_landAll _ _, failAfter_landAll_of_neg hf _⟩

theorem Small.run_alloc (h : Small dev) (seq : ℕ) :
    ∃ s, (journalCommit (allocTx dev.blocks ino blk size) seq false).run dev = .ok () s ∧
      Clean s ∧
        homeOf s.blocks = homeOf (applyWrites dev.blocks (allocTx dev.blocks ino blk size)) ∧
      s.totalBlocks = dev.totalBlocks ∧ s.failAfter < 0 := by
  have htx := txOk_allocTx_of_le h.total dev.blocks ino blk size
  obtain ⟨s, hrun, hclean, hhome, htotal, hfail⟩ :=
    h.clean.run_commit_of_neg h.le_total h.faultless htx seq
  refine ⟨s, hrun, hclean, ?_, htotal, hfail ▸ h.faultless⟩
  rw [hhome, homeOf_applyWrites fun w hw ↦ (htx.targets w hw).2]

theorem Small.created (h : Small dev) (hf : Fresh dev.blocks name ino blk slot)
    (hsize : size ≤ blockSize) (hblk : blk < dev.totalBlocks) (data : Mem) (seq seq' : ℕ) :
    Small (finalState ((journalCommit (allocTx dev.blocks ino blk size) seq false >>= fun _ ↦
      journalCommit (linkTx dev.blocks name data ino blk slot size) seq' false).run dev)) := by
  obtain ⟨s, hrun, hclean, hhome, htotal, hfail⟩ := @Small.run_alloc dev ino blk size h seq
  have hle : 18 ≤ s.totalBlocks := htotal ▸ h.le_total
  have htx : TxOk s.totalBlocks (linkTx dev.blocks name data ino blk slot size) :=
    htotal ▸ txOk_linkTx_of_lt hf hblk data size
  obtain ⟨t, hrun', hclean', hhome', htotal', hfail'⟩ :=
    hclean.run_commit_of_neg hle hfail htx seq'
  rw [run_bind_of_ok hrun, hrun', finalState_ok]
  have hsame : ∀ x, ¬InJournal x →
      M16.created dev.blocks name data ino blk slot size x = t.blocks x := by
    rw [← homeOf_eq_iff, M16.created, homeOf_applyWrites fun w hw ↦ (htx.targets w hw).2, hhome',
      hhome]
  have hfiles := (h.files.created h.sound hf hblk data size).congr hsame
  rw [← htotal, ← htotal'] at hfiles
  refine ⟨?_, hfail' ▸ hfail, hclean', (h.sound.created hf hsize data).congr hsame, hfiles⟩
  rw [htotal', htotal]
  exact h.total

/-! ## Calls that overrun the device -/

/-- A call that finds its block beyond the end returns `M16_E_INVAL`, with the transaction
committed. -/
theorem Small.overrun (h : Small dev) (hf : Fresh dev.blocks name ino blk slot)
    (hblk : dev.totalBlocks ≤ blk) (data : Mem) (size seq seq' : ℕ) :
    ∃ t, (journalCommit (allocTx dev.blocks ino blk size) seq false >>= fun _ ↦
        journalCommit (linkTx dev.blocks name data ino blk slot size) seq' false).run dev
          = .error .inval t ∧ ∀ t', journalRecover.run t ≠ .ok () t' := by
  obtain ⟨s, hrun, hclean, -, htotal, hfail⟩ := @Small.run_alloc dev ino blk size h seq
  have hblk' : ¬validLba s blk := fun hvalid ↦ by
    have := hvalid.1
    omega
  have hle : 18 ≤ s.totalBlocks := htotal ▸ h.le_total
  -- the transaction would be accepted on a device of full size
  have htx := txOk_linkTx hf data size
  obtain ⟨pre, hpre⟩ : ∃ pre, pre = clearWrite ::
      recordWrites 0 (linkTx dev.blocks name data ino blk slot size) ++
        [(journalStart, journalHeader seq' 2),
          (rootDirLba, Dirent.fill (dev.blocks rootDirLba) slot ino name)] := ⟨_, rfl⟩
  have hwrites : commitWrites (linkTx dev.blocks name data ino blk slot size) seq' false
      = pre ++ (blk, (Buf.zero 512).copyIn data size) :: [clearWrite] := by
    rw [hpre]
    rfl
  have hvalid : ∀ w ∈ pre, validLba s w.1 := by
    intro w hw
    rw [hpre, List.mem_append, List.mem_cons, List.mem_cons, List.mem_singleton] at hw
    rcases hw with (rfl | hw) | rfl | rfl
    · exact validLba_journalStart hle
    · have hj := inJournal_iff.mp (inJournal_of_mem_recordWrites htx.length_le hw).1
      simp only [validLba, maxBlocks]
      omega
    · exact validLba_journalStart hle
    · exact validLba_of_lt (htotal ▸ h.total) (by decide : rootDirLba < dataStartLba)
  refine ⟨s.landAll pre, ?_, fun t' ↦ ?_⟩
  · rw [run_bind_of_ok hrun, journalCommit_eq_writeAll htx.length_le, hwrites,
      run_writeAll_invalid hvalid hfail hblk']
  · have hrep : Represents s.blocks ⟨homeOf s.blocks, none⟩ := ⟨rfl, hclean⟩
    have hcut := represents_commit hrep htx.length_le (fun r hr ↦ (htx.targets r hr).2) seq' false
      pre.length
    rw [hwrites, List.take_left, ← blocks_landAll, hpre] at hcut
    obtain ⟨-, ⟨seq'', hhdr⟩, hlog⟩ := hcut
    rw [← hpre] at hhdr hlog
    refine run_journalRecover_overrun htx.length_le hhdr hlog (fun r hr ↦ (htx.targets r hr).2)
      (fun r hr ↦ ?_) ⟨_, List.mem_cons_of_mem _ List.mem_cons_self, ?_⟩
    · have := (htx.targets r hr).1.2
      simp only [maxBlocks] at this
      omega
    · rwa [validLba, totalBlocks_landAll]

/-! ## Runs -/

/-- The arguments of a call of `m16_write_file`. -/
structure FileCall where
  name : Option CStr
  data : Option Mem
  size : ℕ

/-- The call as a step on the device. -/
def fileStep (c : FileCall) (dev : Blockdev) : Except Err Unit × Blockdev :=
  let call := (writeFile c.name c.data c.size).run dev
  (returned call, finalState call)

/-- The arguments of the call are accepted, its searches succeed, and the block that they find is
beyond the end of the device. -/
def Overruns (dev : Blockdev) (c : FileCall) : Prop :=
  ∃ n d ino blk slot, Accepted dev.blocks c.name c.data c.size n d ∧
    Found dev.blocks ino blk slot ∧ dev.totalBlocks ≤ blk

/-- No data block of the device is free. -/
def Full (dev : Blockdev) : Prop :=
  ∀ x, dataStartLba ≤ x → x < dev.totalBlocks → bitmapGet (dev.blocks blockBitmapLba) x = true

theorem Found.blk_eq {ino' blk' slot' : ℕ} (h : Found b ino blk slot)
    (h' : Found b ino' blk' slot') : blk = blk' :=
  Option.some.inj (h.block.symm.trans h'.block)

/-- The outcome of a call: an error with the device unchanged, a new file, or an overrun. -/
theorem Small.step (h : Small dev) (c : FileCall) :
    (¬Overruns dev c ∧ (fileStep c dev).2 = dev ∧
      ∀ n d, Accepted dev.blocks c.name c.data c.size n d → (fileStep c dev).1 = .error .nospc) ∨
    (¬Overruns dev c ∧ Small (fileStep c dev).2 ∧ ¬Full dev) ∨
    Overruns dev c ∧ (fileStep c dev).1 = .error .inval ∧
      (∀ t, journalRecover.run (fileStep c dev).2 ≠ .ok () t) := by
  rcases run_writeFileEx_of_le h.total h.clean h.sound.super c.name c.data c.size false with
    ⟨e, -, hrun, hwhy⟩ | ⟨n, d, ino, blk, slot, seq, seq', ha, hfound, hrun⟩
  · have hstep : fileStep c dev = (.error e, dev) := by
      rw [fileStep, writeFile, hrun]
      rfl
    refine .inl ⟨?_, by rw [hstep], fun n d ha ↦ by rw [hstep, (hwhy n d ha).1]⟩
    rintro ⟨n, d, ino, blk, slot, ha, hfound, -⟩
    exact (hwhy n d ha).2 ino blk slot hfound
  have hf := ha.fresh hfound
  rcases Nat.lt_or_ge blk dev.totalBlocks with hlt | hge
  · refine .inr (.inl ⟨?_, ?_, fun hfull ↦ ?_⟩)
    · rintro ⟨-, -, ino', blk', slot', -, hfound', hge⟩
      rw [hfound.blk_eq hfound'] at hlt
      omega
    · have hsmall := h.created hf ha.size_le hlt d seq seq'
      rwa [← hrun] at hsmall
    · have hused := hfull blk hf.blk_ge hlt
      rw [hf.blk_free] at hused
      cases hused
  · obtain ⟨t, hfail, hrecover⟩ := h.overrun hf hge d c.size seq seq'
    have hstep : fileStep c dev = (.error .inval, t) := by
      rw [fileStep, writeFile, hrun, hfail]
      rfl
    rw [hstep]
    exact .inr (.inr ⟨⟨n, d, ino, blk, slot, ha, hfound, hge⟩, rfl, hrecover⟩)

theorem not_usable (h : ∀ t, journalRecover.run dev ≠ .ok () t) : ¬Usable dev := by
  rintro ⟨⟨sb, hmount⟩, -⟩
  have hrun := eq_ok_of_returned hmount
  rw [mount] at hrun
  obtain ⟨_, t, hrecover, -⟩ := run_bind_eq_ok hrun
  exact h t hrecover

/-- **A device stays usable until a call overruns it.** Take a device of any size on which
`m16_format` has succeeded, and calls of `m16_write_file` none of which overruns it. Then
`m16_mount` and `m16_fsck` return `M16_E_OK`. They do so after a further call exactly when that does
not overrun the device either; and on a device without a free block, that is exactly when the call
leaves the device unchanged, and returns `M16_E_NOSPC` if its arguments are accepted. -/
theorem small_device_iff {dev₀ dev t : Blockdev} {es : List (FileCall × Except Err Unit)}
    (hf : dev₀.failAfter < 0) (hformat : format.run dev₀ = .ok () dev)
    (hrun : Run fileStep (fun u c ↦ ¬Overruns u c) dev es t) :
    Usable t ∧ ∀ c, (Usable (fileStep c t).2 ↔ ¬Overruns t c) ∧
      (Full t → (((fileStep c t).2 = t ∧ ∀ n d, Accepted t.blocks c.name c.data c.size n d →
        (fileStep c t).1 = .error .nospc) ↔ ¬Overruns t c)) := by
  have hsmall : Small t := hrun.invariant (small_of_format hf hformat) fun u c hu hc ↦ by
    rcases hu.step c with ⟨-, hsame, -⟩ | ⟨-, hnew, -⟩ | ⟨hover, -⟩
    · rwa [hsame]
    · exact hnew
    · exact absurd hover hc
  refine ⟨hsmall.usable, fun c ↦ ?_⟩
  rcases hsmall.step c with ⟨hnot, hsame, hnospc⟩ | ⟨hnot, hnew, hfree⟩ | ⟨hover, hinval, hrecover⟩
  · exact ⟨iff_of_true (hsame.symm ▸ hsmall.usable) hnot,
      fun _ ↦ iff_of_true ⟨hsame, hnospc⟩ hnot⟩
  · exact ⟨iff_of_true hnew.usable hnot, fun hfull ↦ absurd hfull hfree⟩
  · refine ⟨iff_of_false (not_usable hrecover) (not_not.mpr hover),
      fun _ ↦ iff_of_false (fun hkept ↦ ?_) (not_not.mpr hover)⟩
    obtain ⟨n, d, -, -, -, ha, -⟩ := hover
    have hnospc := hkept.2 n d ha
    rw [hinval] at hnospc
    cases hnospc

/-- A device as `m16_dev_init` sets it up, but with `total` blocks. -/
def smallInit (total : ℕ) : Blockdev := { devInit with totalBlocks := total }

/-- A call that creates the file named by one character, with three bytes. -/
def createChar (c : UInt8) (hc : c ≠ 0) : FileCall :=
  ⟨some ⟨[c], by simpa using hc.symm⟩, some fun _ ↦ 7, 3⟩

/-- A device with one data block, and one file. -/
theorem small_device_iff_one_file : ∃ dev es t, format.run (smallInit 26) = .ok () dev ∧
    Run fileStep (fun u c ↦ ¬Overruns u c) dev es t ∧ es.length = 1 ∧ Usable t ∧
      ∀ c, (Usable (fileStep c t).2 ↔ ¬Overruns t c) ∧
        (Full t → (((fileStep c t).2 = t ∧ ∀ n d, Accepted t.blocks c.name c.data c.size n d →
          (fileStep c t).1 = .error .nospc) ↔ ¬Overruns t c)) := by
  have hformat := eq_ok_of_returned
    (show returned (format.run (smallInit 26)) = .ok () by decide +kernel)
  have hrun : Run fileStep (fun u c ↦ ¬Overruns u c) _ _ _ := Run.nil.snoc
    (createChar 97 (by decide)) (by
      rintro ⟨n, d, ino, blk, slot, -, hfound, hge⟩
      have hblk : findFreeBlock ((finalState (format.run (smallInit 26))).blocks blockBitmapLba)
          = some 25 := by decide +kernel
      have htotal : (finalState (format.run (smallInit 26))).totalBlocks = 26 := by decide +kernel
      rw [htotal, ← Option.some.inj (hblk.symm.trans hfound.block)] at hge
      omega)
  exact ⟨_, _, _, hformat, hrun, rfl, small_device_iff (by decide) hformat hrun⟩

/-- The second file on a device with one data block: the call returns `M16_E_INVAL`, and from then
on `m16_fsck` returns `M16_E_CORRUPT`. -/
theorem overrun_bricks :
    let dev := finalState (format.run (smallInit 26))
    let t := (fileStep (createChar 97 (by decide)) dev).2
    let u := (fileStep (createChar 98 (by decide)) t).2
    returned (format.run (smallInit 26)) = .ok () ∧
      (fileStep (createChar 97 (by decide)) dev).1 = .ok () ∧ Full t ∧
      (fileStep (createChar 98 (by decide)) t).1 = .error .inval ∧
      returned (fsck.run u) = .error .corrupt ∧ ¬Usable u := by
  intro dev t u
  have hfsck : returned (fsck.run u) = .error .corrupt := by decide +kernel
  refine ⟨by decide +kernel, by decide +kernel, fun x hx hx' ↦ ?_, by decide +kernel, hfsck,
    fun husable ↦ ?_⟩
  · have htotal : t.totalBlocks = 26 := by decide +kernel
    have hx25 : x = 25 := by
      simp only [htotal] at hx'
      have : 25 ≤ x := hx
      omega
    rw [hx25]
    decide +kernel
  · have hok := husable.2
    rw [hfsck] at hok
    cases hok

end M16

end Mcsos
