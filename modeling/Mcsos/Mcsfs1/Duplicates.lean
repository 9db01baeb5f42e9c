import Mcsos.Mcsfs1.LongNames

/-!
# Names that are entered twice

`mcsfs1_create` looks its name up and takes every failure of `find_dirent` for an answer that the
name is not there, also when the directory could not be read. It then reads the directory again. If
only the first of the two reads fails, the name is entered a second time
(`transient_fault_doubles`).

Apart from that, names stay distinct whichever calls of the device fail. From the second read of
the directory to the write of it `mcsfs1_create` makes eight calls (`takes_enterName`). If they
succeed and there is room for a file, a creation of a name in use that loses its lookup enters the
name again; in a run without such a creation no name is entered twice, and the first one ends this
(`names_distinct_iff`). The names have at most 26 bytes, so that the name field of an entry always
holds a NUL.
-/

namespace Mcsos

namespace Mcsfs1

open FaultyDisk

variable {dev : Blkdev} {d d' : ℕ → Block} {v v' : Volume} {name : Option Mem} {n m : CStr} {i : ℕ}

/-! ## Functions that leave the directory alone -/

theorem spares_devRead (lba a : ℕ) : Spares lba (devRead dev a) := .failIf_bind fun _ ↦ .read _ _ _

theorem spares_devWrite {lba a : ℕ} (h : lba ≠ a) (b : Block) : Spares lba (devWrite dev a b) :=
  .failIf_bind fun _ ↦ .write h _ _ _

theorem spares_writeInode (k : ℕ) (x : Inode) : Spares rootDirLba (writeInode dev k x) := by
  refine .failIf_bind fun hk ↦ .failIf_bind fun _ ↦ (spares_devRead _ _).bind fun _ ↦
    spares_devWrite ?_ _
  rw [not_or, not_lt] at hk
  exact (inodeLba_lt hk.2).ne'

theorem spares_loadBmaps : Spares rootDirLba (loadBmaps dev) :=
  (spares_devRead _ _).bind fun _ ↦ (spares_devRead _ _).bind fun _ ↦ .pure _

theorem spares_storeBmaps (ib bb : Block) : Spares rootDirLba (storeBmaps dev ib bb) :=
  (spares_devWrite (by decide) _).bind fun _ ↦ spares_devWrite (by decide) _

theorem spares_freeInodeAndBlocks (k : ℕ) (x : Inode) :
    Spares rootDirLba (freeInodeAndBlocks dev k x) :=
  spares_loadBmaps.bind fun _ ↦ spares_storeBmaps _ _

theorem wp_allocInodeBlock_dir (hdev : dev.Usable) : wp (fun _ ↦ True) (allocInodeBlock dev)
    (fun r d' ↦ d' rootDirLba = d rootDirLba ∧ FreeInode (volumeOf d) r.1 ∧
      FreeBlock dev.blockCount (volumeOf d) r.2)
    (fun _ d' ↦ d' rootDirLba = d rootDirLba) d := by
  refine wp_bind (wp_loadBmaps hdev ?_ fun _ ↦ rfl)
  dsimp only
  cases hino : findFreeInode (d inodeBmapLba) with
  | none => exact wp_throw rfl
  | some k =>
    cases hlba : findFreeBlock dev (d blockBmapLba) with
    | none => exact wp_throw rfl
    | some b =>
      exact wp_bind_spares (spares_storeBmaps _ _) (fun _ _ ↦ trivial)
        (fun _ d2 hd2 ↦ wp_pure ⟨hd2, freeInode_of_findFreeInode hino,
          freeBlock_of_findFreeBlock hlba⟩) fun _ d2 hd2 ↦ hd2

theorem wp_allocDataBlock_dir : wp (fun _ ↦ True) (allocDataBlock dev)
    (fun b d' ↦ d' rootDirLba = d rootDirLba ∧ dataStartLba ≤ b ∧ b < dev.blockCount)
    (fun _ d' ↦ d' rootDirLba = d rootDirLba) d := by
  refine wp_bind_spares spares_loadBmaps (fun _ _ ↦ trivial) ?_ fun _ _ h ↦ h
  rintro ⟨ib, bb⟩ d1 hd1
  dsimp only
  cases hlba : findFreeBlock dev bb with
  | none => exact wp_throw hd1
  | some b =>
    have hb := freeBlock_of_findFreeBlock (d := fun _ ↦ bb) hlba
    exact wp_bind_spares (spares_storeBmaps _ _) (fun _ _ ↦ trivial)
      (fun _ d2 hd2 ↦ wp_pure ⟨hd2.trans hd1, hb.start_le, hb.lt_count⟩)
      fun _ d2 hd2 ↦ hd2.trans hd1

/-! ## `mcsfs1_write` -/

/-- No block of the inode is the directory. -/
def Inode.ClearOfDir (x : Inode) : Prop := ∀ k < directBlocks, x.direct k ≠ rootDirLba

theorem GoodFile.clearOfDir {bc : ℕ} {used : ℕ → Bool} {x : Inode} (h : GoodFile bc used x) :
    x.ClearOfDir := by
  intro k hk heq
  have hge := (h.range (x.direct k) ⟨by rw [heq]; decide, k, hk, rfl⟩).1
  rw [heq] at hge
  exact absurd hge (by decide)

theorem wp_allocDirect_dir (hdev : dev.Usable) {x : Inode} {j k : ℕ} (hjk : j + k ≤ directBlocks)
    (hx : x.ClearOfDir) : wp (fun _ ↦ True) (allocDirect dev j k x)
      (fun x' d' ↦ d' rootDirLba = d rootDirLba ∧ x'.ClearOfDir)
      (fun _ d' ↦ d' rootDirLba = d rootDirLba) d := by
  induction k generalizing j x d with
  | zero => exact wp_pure ⟨rfl, hx⟩
  | succ k ih =>
    rw [allocDirect]
    split
    · refine wp_bind (wp_mono wp_allocDataBlock_dir ?_ fun _ _ _ h ↦ h)
      rintro b d1 - ⟨hd1, hge, hlt⟩
      have hmax := hdev.le_max
      rw [blockSize] at hmax
      rw [← hd1]
      refine ih (by omega) fun l hl ↦ ?_
      by_cases hlj : l = j
      · rw [hlj, Inode.direct_setDirect_self (by omega) (by omega)]
        exact ((show rootDirLba < dataStartLba by decide).trans_le hge).ne'
      · rw [Inode.direct_setDirect_of_ne hl hlj]
        exact hx l hl
    · exact ih (by omega) hx

theorem spares_writeBlocks {x : Inode} (hx : x.ClearOfDir) (buf : Mem) (len : ℕ) {j k : ℕ}
    (hjk : j + k ≤ directBlocks) (written : ℕ) :
    Spares rootDirLba (writeBlocks dev x buf len j k written) := by
  induction k generalizing j written with
  | zero => exact .pure _
  | succ k ih => exact (spares_devWrite (hx j (by omega)).symm _).bind fun _ ↦ ih (by omega) _

theorem wp_mcsfs1Write_dir {mnt : Mount} (hdev : mnt.dev.Usable) (hd : Intact mnt.dev d)
    (name buf : Option Mem) (len : ℕ) : wp (fun _ ↦ True) (mcsfs1Write (some mnt) name buf len)
      (fun _ d' ↦ d' rootDirLba = d rootDirLba) (fun _ d' ↦ d' rootDirLba = d rootDirLba) d := by
  rw [mcsfs1Write_eq]
  refine wp_bind (wp_failIf (fun _ ↦ rfl) fun _ ↦ wp_bind (wp_failIf (fun _ ↦ rfl) fun hlen ↦ ?_))
  refine wp_bind (wp_findDirent hdev (fun i hi ↦ ?_) (fun _ ↦ rfl) (fun _ _ ↦ rfl) fun _ ↦ rfl)
  refine wp_bind (wp_readFile hdev hd hi.live ?_ fun _ ↦ rfl)
  refine wp_bind (wp_failIf (fun _ ↦ rfl) fun _ ↦ ?_)
  have hneeded := neededBlocks_le (not_lt.mp hlen)
  dsimp only
  rw [neededBlocks_eq (not_lt.mp hlen)]
  refine wp_bind (wp_mono (wp_allocDirect_dir hdev (by omega) (hd.file i hi.live).clearOfDir) ?_
    fun _ _ _ h ↦ h)
  rintro x d1 - ⟨hd1, hx⟩
  refine wp_bind_spares (spares_writeBlocks hx _ _ (by omega) _) (fun _ _ ↦ trivial)
    (fun _ d2 hd2 ↦ ?_) fun _ _ h ↦ h.trans hd1
  refine wp_bind_spares (spares_writeInode _ _) (fun _ _ ↦ trivial) (fun _ d3 hd3 ↦ ?_)
    fun _ _ h ↦ h.trans (hd2.trans hd1)
  have hsame := hd3.trans (hd2.trans hd1)
  exact wp_devFlush hdev hsame fun _ ↦ hsame

/-! ## `mcsfs1_create` and `mcsfs1_unlink` -/

/-- The directory of `d'` is that of `d` with the entry `e` in the slot. -/
structure Enters (slot : ℕ) (e : Dirent) (d d' : ℕ → Block) : Prop where
  lt : slot < direntCount
  dir : d' rootDirLba = (d rootDirLba).patch (32 * slot) e

theorem Enters.entry {slot : ℕ} {e : Dirent} (h : Enters slot e d d') :
    (volumeOf d').entry = ((volumeOf d).setEntry slot e).entry := by
  rw [← volumeOf_update_dir d h.lt e]
  change direntAt (d' rootDirLba) = direntAt (Function.update d rootDirLba _ rootDirLba)
  rw [h.dir, Function.update_self]

theorem Enters.self {slot : ℕ} {e : Dirent} (h : Enters slot e d d') :
    (volumeOf d').entry slot = e := by
  rw [h.entry, Volume.entry_setEntry, if_pos rfl]

theorem Enters.of_ne {slot : ℕ} {e : Dirent} (h : Enters slot e d d') {j : ℕ} (hj : j ≠ slot) :
    (volumeOf d').entry j = (volumeOf d).entry j := by
  rw [h.entry, Volume.entry_setEntry, if_neg hj]

/-- The name is entered in a free slot. -/
def Adds (name : Option Mem) (nameLen : ℕ) (d d' : ℕ → Block) : Prop :=
  ∃ slot k, ¬(volumeOf d).Live slot ∧ 2 ≤ k ∧ k ≤ maxInodes ∧
    Enters slot (Dirent.make k modeFile (bytesAt name) nameLen) d d'

theorem Adds.changed {nameLen : ℕ} (h : Adds name nameLen d d') :
    d' rootDirLba ≠ d rootDirLba := by
  obtain ⟨slot, k, hfree, hge, hle, henters⟩ := h
  intro heq
  have hentry : (volumeOf d).entry slot = Dirent.make k modeFile (bytesAt name) nameLen :=
    (congrArg (direntAt · slot) heq).symm.trans henters.self
  rw [maxInodes] at hle
  refine hfree ⟨henters.lt, ?_⟩
  rw [hentry, Dirent.ino_make (by omega)]
  omega

/-- What `mcsfs1_create` does after it has looked the name up, until the directory is written. -/
def enterName (dev : Blkdev) (name : Option Mem) (nameLen : ℕ) : FsM Unit := do
  let dirBlock ← devRead dev rootDirLba
  match firstFree dirBlock with
  | none => throw .nospc
  | some freeSlot => do
    let (ino, firstData) ← allocInodeBlock dev
    writeInode dev ino (Inode.make modeFile 0 firstData)
    devWrite dev rootDirLba
      (dirBlock.patch (32 * freeSlot) (Dirent.make ino modeFile (bytesAt name) nameLen))

theorem mcsfs1Create_eq (mnt : Mount) (name : Option Mem) : mcsfs1Create (some mnt) name = (do
    let nameLen ← ofExcept (validName name)
    let found ← succeeds (findDirent mnt.dev name)
    failIf (found = true) .exist
    enterName mnt.dev name nameLen
    devFlush mnt.dev) := by
  have hrest : ∀ nameLen, (enterName mnt.dev name nameLen >>= fun _ ↦ devFlush mnt.dev) = (do
      let dirBlock ← devRead mnt.dev rootDirLba
      match firstFree dirBlock with
      | none => throw .nospc
      | some freeSlot => do
        let (ino, firstData) ← allocInodeBlock mnt.dev
        writeInode mnt.dev ino (Inode.make modeFile 0 firstData)
        devWrite mnt.dev rootDirLba
          (dirBlock.patch (32 * freeSlot) (Dirent.make ino modeFile (bytesAt name) nameLen))
        devFlush mnt.dev) := by
    intro nameLen
    rw [enterName, bind_assoc]
    refine congrArg _ (funext fun dirBlock ↦ ?_)
    cases firstFree dirBlock with
    | none => rfl
    | some freeSlot => simp only [bind_assoc]
  simp only [hrest]
  rfl

theorem wp_enterName (hdev : dev.Usable) (name : Option Mem) (nameLen : ℕ) :
    wp (fun _ ↦ True) (enterName dev name nameLen)
      (fun _ d' ↦ (volumeOf d).HasRoom dev.blockCount ∧ Adds name nameLen d d')
      (fun _ d' ↦ d' rootDirLba = d rootDirLba) d := by
  refine wp_bind (wp_devRead hdev (hdev.lt_blockCount (by decide)) ?_ fun _ ↦ rfl)
  cases hslot : firstFree (d rootDirLba) with
  | none => exact wp_throw rfl
  | some slot =>
    obtain ⟨hlt, hfree⟩ := not_live_of_firstFree hslot
    refine wp_bind (wp_mono (wp_allocInodeBlock_dir hdev) ?_ fun _ _ _ h ↦ h)
    rintro ⟨k, b⟩ d1 - ⟨hd1, hk, hb⟩
    refine wp_bind_spares (spares_writeInode _ _) (fun _ _ ↦ trivial) (fun _ d2 hd2 ↦ ?_)
      fun _ d2 hd2 ↦ hd2.trans hd1
    exact wp_devWrite hdev (hdev.lt_blockCount (by decide)) trivial
      ⟨⟨⟨slot, hlt, hfree⟩, ⟨k, hk⟩, ⟨b, hb⟩⟩, slot, k, hfree, hk.two_le, hk.le_max, hlt,
        Function.update_self ..⟩ fun _ ↦ hd2.trans hd1

section Takes

variable (hdev : dev.Usable)
include hdev

theorem takes_loadBmaps {Q : Block × Block → (ℕ → Block) → Prop}
    (h : Q (d inodeBmapLba, d blockBmapLba) d) : Takes dev.fails 2 (loadBmaps dev) Q d := by
  change Takes dev.fails (1 + (1 + 0)) _ Q d
  refine .bind (takes_devRead hdev (hdev.lt_blockCount (by decide)) ?_)
  exact .bind (takes_devRead hdev (hdev.lt_blockCount (by decide)) (.pure h))

theorem takes_storeBmaps {Q : Unit → (ℕ → Block) → Prop} (ib bb : Block) (h : ∀ d', Q () d') :
    Takes dev.fails 2 (storeBmaps dev ib bb) Q d := by
  change Takes dev.fails (1 + 1) _ Q d
  refine .bind (takes_devWrite hdev (hdev.lt_blockCount (by decide)) ?_)
  exact takes_devWrite hdev (hdev.lt_blockCount (by decide)) (h _)

theorem takes_allocInodeBlock {Q : ℕ × ℕ → (ℕ → Block) → Prop}
    (hroom : (volumeOf d).HasRoom dev.blockCount)
    (h : ∀ k b d', FreeInode (volumeOf d) k → Q (k, b) d') :
    Takes dev.fails 4 (allocInodeBlock dev) Q d := by
  change Takes dev.fails (2 + (2 + 0)) _ Q d
  refine .bind (takes_loadBmaps hdev ?_)
  dsimp only
  cases hino : findFreeInode (d inodeBmapLba) with
  | none => exact absurd hroom.inode.choose_spec (not_freeInode_of_findFreeInode hino _)
  | some k =>
    cases hlba : findFreeBlock dev (d blockBmapLba) with
    | none => exact absurd hroom.block.choose_spec (not_freeBlock_of_findFreeBlock hlba _)
    | some b =>
      refine .bind (takes_storeBmaps hdev _ _ fun d' ↦ ?_)
      exact .pure (h k b d' (freeInode_of_findFreeInode hino))

theorem takes_writeInode {Q : Unit → (ℕ → Block) → Prop} {k : ℕ} (h1 : 1 ≤ k)
    (hk : k ≤ maxInodes) (x : Inode) (h : ∀ d', Q () d') :
    Takes dev.fails 2 (writeInode dev k x) Q d := by
  have hlt := inodeLba_lt hk
  have hlba : inodeLba k < dev.blockCount := hdev.lt_blockCount (hlt.trans (by decide))
  have hdata : ¬inodeLba k ≥ dataStartLba := not_le.mpr (hlt.trans (by decide))
  change Takes dev.fails (1 + 1) _ Q d
  refine .failIf_bind (by omega) (.failIf_bind hdata (.bind (takes_devRead hdev hlba ?_)))
  exact takes_devWrite hdev hlba (h _)

/-- Eight calls of the device, from the second read of the directory to the write of it. -/
theorem takes_enterName (name : Option Mem) (nameLen : ℕ)
    (hroom : (volumeOf d).HasRoom dev.blockCount) :
    Takes dev.fails 8 (enterName dev name nameLen) (fun _ _ ↦ True) d := by
  change Takes dev.fails (1 + (4 + (2 + 1))) _ _ d
  refine .bind (takes_devRead hdev (hdev.lt_blockCount (by decide)) ?_)
  cases hslot : firstFree (d rootDirLba) with
  | none => exact absurd hroom.slot (not_hasSlot_of_firstFree hslot)
  | some slot =>
    refine .bind (takes_allocInodeBlock hdev hroom fun k b d1 hk ↦ ?_)
    refine .bind (takes_writeInode hdev (Nat.le_of_succ_le hk.two_le) hk.le_max _ fun d2 ↦ ?_)
    exact takes_devWrite hdev (hdev.lt_blockCount (by decide)) trivial

/-- The name is entered exactly if there is room for it and the eight calls succeed. -/
theorem run_enterName (name : Option Mem) (nameLen : ℕ) (s : Disk Block) :
    ((volumeOf s.block).HasRoom dev.blockCount ∧ (∀ j < 8, dev.fails (s.calls + j) = false) ∧
      ∃ t, (enterName dev name nameLen).run s = .ok () t ∧ Adds name nameLen s.block t.block) ∨
    ¬((volumeOf s.block).HasRoom dev.blockCount ∧ ∀ j < 8, dev.fails (s.calls + j) = false) ∧
      ∃ e t, (enterName dev name nameLen).run s = .error e t ∧
        t.block rootDirLba = s.block rootDirLba := by
  have hends := (wp_enterName hdev name nameLen).ends s rfl trivial
  cases hrun : (enterName dev name nameLen).run s with
  | ok a t =>
    rw [hrun] at hends
    obtain ⟨-, hroom, hadds⟩ := hends
    refine .inl ⟨hroom, fun j hj ↦ ?_, t, rfl, hadds⟩
    by_contra hfails
    obtain ⟨e, u, herror⟩ := (takes_enterName hdev name nameLen hroom).error s rfl
      ⟨j, hj, Bool.eq_true_of_not_eq_false hfails⟩
    cases hrun.symm.trans herror
  | error e t =>
    rw [hrun] at hends
    refine .inr ⟨fun hgood ↦ ?_, e, t, rfl, hends.2⟩
    obtain ⟨a, u, hok, -⟩ := (takes_enterName hdev name nameLen hgood.1).ok s rfl hgood.2
    cases hrun.symm.trans hok

theorem block_devFlush (s : Disk Block) : (finalState ((devFlush dev).run s)).block = s.block := by
  have hmeets : Meets (fun _ ↦ True) (devFlush dev) (fun _ d' ↦ d' = s.block) s.block :=
    wp_devFlush hdev rfl fun _ ↦ rfl
  exact (hmeets.run ⟨trivial, fun _ _ ↦ trivial⟩).2

end Takes

theorem run_devRead (hdev : dev.Usable) {lba : ℕ} (hlba : lba < dev.blockCount) (s : Disk Block) :
    (devRead dev lba).run s =
      if dev.fails s.calls then .error .io s.called else .ok (s.block lba) s.called := by
  refine run_bind_of_ok (run_failIf_of_not ?_)
  rw [hdev.read]
  rintro (h | h)
  · cases h
  · omega

theorem run_lookup_of_fails (hdev : dev.Usable) {nameLen : ℕ} (hname : validName name = .ok nameLen)
    {s : Disk Block} (hfails : dev.fails s.calls = true) :
    (succeeds (findDirent dev name)).run s = .ok false s.called := by
  have hread := run_devRead hdev (hdev.lt_blockCount (show rootDirLba < minBlocks by decide)) s
  have hvalid : (ofExcept (validName name) : FsM ℕ).run s = .ok nameLen s := by rw [hname]; rfl
  have hfind : (findDirent dev name).run s = _ := run_bind_of_ok hvalid
  rw [hfails, if_pos rfl] at hread
  rw [run_bind_of_error hread] at hfind
  exact run_succeeds_of_error hfind

/-- The lookup of `mcsfs1_create` is the call number `s.calls` of the device, and only the failure
of this call makes it miss a name. -/
theorem run_lookup (hdev : dev.Usable) {nameLen : ℕ} (hname : validName name = .ok nameLen)
    (s : Disk Block) : ∃ found, (succeeds (findDirent dev name)).run s = .ok found s.called ∧
      (found = false → dev.fails s.calls = true ∨ NotFound s.block name) := by
  cases hfails : dev.fails s.calls with
  | true => exact ⟨false, run_lookup_of_fails hdev hname hfails, fun _ ↦ .inl rfl⟩
  | false =>
    have hread := run_devRead hdev (hdev.lt_blockCount (show rootDirLba < minBlocks by decide)) s
    have hvalid : (ofExcept (validName name) : FsM ℕ).run s = .ok nameLen s := by rw [hname]; rfl
    have hfind : (findDirent dev name).run s = _ := run_bind_of_ok hvalid
    rw [hfails, if_neg Bool.false_ne_true] at hread
    rw [run_bind_of_ok hread, run_bind_of_ok (show (observe dev.past).run s.called =
      .ok (dev.past s.called.calls) s.called from rfl)] at hfind
    cases hentry : findName (s.block rootDirLba) (dev.past s.called.calls) (bytesAt name)
      nameLen with
    | some i =>
      rw [hentry] at hfind
      exact ⟨true, run_succeeds_of_ok hfind, fun h ↦ absurd h (by decide)⟩
    | none =>
      rw [hentry] at hfind
      exact ⟨false, run_succeeds_of_error hfind, fun _ ↦ .inr ⟨nameLen, _, hname, hentry⟩⟩

theorem meets_mcsfs1Unlink_dir {mnt : Mount} (hdev : mnt.dev.Usable) (hd : Intact mnt.dev d)
    (name : Option Mem) : Meets (fun _ ↦ True) (mcsfs1Unlink (some mnt) name)
      (fun _ d' ↦ d' rootDirLba = d rootDirLba ∨
        ∃ i, (volumeOf d).Live i ∧ Enters i (Buf.zero 32) d d') d := by
  obtain ⟨dev, blockCount, dataStart⟩ := mnt
  refine wp_bind (wp_findDirent hdev (fun i hi ↦ ?_) (fun _ ↦ .inl rfl) (fun _ _ ↦ .inl rfl)
    fun _ ↦ .inl rfl)
  refine wp_bind (wp_readFile hdev hd hi.live ?_ fun _ ↦ .inl rfl)
  refine wp_bind (wp_failIf (fun _ ↦ .inl rfl) fun _ ↦ ?_)
  have hlba : rootDirLba < dev.blockCount := hdev.lt_blockCount (by decide)
  refine wp_bind (wp_devRead hdev hlba ?_ fun _ ↦ .inl rfl)
  refine wp_bind (wp_devWrite hdev hlba trivial ?_ fun _ ↦ .inl rfl)
  -- from here on the entry is cleared, whatever fails
  have hclears (d1 : ℕ → Block) (hd1 : d1 rootDirLba = Function.update d rootDirLba
      ((d rootDirLba).patch (32 * i) (Buf.zero 32)) rootDirLba) :
      d1 rootDirLba = d rootDirLba ∨
        ∃ i, (volumeOf d).Live i ∧ Enters i (Buf.zero 32) d d1 :=
    .inr ⟨i, hi.live, hi.live.1, hd1.trans (Function.update_self ..)⟩
  refine wp_bind_spares (spares_freeInodeAndBlocks _ _) (fun _ _ ↦ trivial) (fun _ d1 hd1 ↦ ?_)
    fun _ d1 hd1 ↦ hclears d1 hd1
  refine wp_bind_spares (spares_writeInode _ _) (fun _ _ ↦ trivial) (fun _ d2 hd2 ↦ ?_)
    fun _ d2 hd2 ↦ hclears d2 (hd2.trans hd1)
  have hlast := hclears d2 (hd2.trans hd1)
  exact wp_devFlush hdev hlast fun _ ↦ hlast

/-! ## What a call does to the directory -/

/-- There is room for a file, and the eight calls of the device after the next one succeed. -/
def GoesOn (dev : Blkdev) (s : Disk Block) : Prop :=
  (volumeOf s.block).HasRoom dev.blockCount ∧ ∀ j < 8, dev.fails (s.calls + 1 + j) = false

/-- The directory after a call: as before, with one more name, or with one entry cleared. A name is
entered only if the first call of the device fails or the name is not there. -/
inductive DirStep (mnt : Mount) (s : Disk Block) (c : Call) (d' : ℕ → Block) : Prop
  | same (h : d' rootDirLba = s.block rootDirLba)
  | add {name : Option Mem} {nameLen : ℕ} (hc : c = .create name)
    (hname : validName name = .ok nameLen) (hadds : Adds name nameLen s.block d')
    (hgoes : GoesOn mnt.dev s)
    (hlookup : mnt.dev.fails s.calls = true ∨ NotFound s.block name)
  | clear {name : Option Mem} {i : ℕ} (hc : c = .unlink name)
    (hlive : (volumeOf s.block).Live i) (hclears : Enters i (Buf.zero 32) s.block d')

section DirStep

variable {mnt : Mount} {s : Disk Block} (hdev : mnt.dev.Usable)
include hdev

theorem create_of_missed {name : Option Mem} {nameLen : ℕ} (hname : validName name = .ok nameLen)
    (hmissed : (succeeds (findDirent mnt.dev name)).run s = .ok false s.called) :
    GoesOn mnt.dev s ∧ Adds name nameLen s.block (step (some mnt) (.create name) s).2.block ∨
    ¬GoesOn mnt.dev s ∧
      (step (some mnt) (.create name) s).2.block rootDirLba = s.block rootDirLba := by
  have hvalid : (ofExcept (validName name) : FsM ℕ).run s = .ok nameLen s := by rw [hname]; rfl
  have hstep : (step (some mnt) (.create name) s).2 =
      finalState ((enterName mnt.dev name nameLen >>= fun _ ↦ devFlush mnt.dev).run s.called) := by
    change finalState ((mcsfs1Create (some mnt) name).run s) = _
    rw [mcsfs1Create_eq, run_bind_of_ok hvalid, run_bind_of_ok hmissed,
      run_bind_of_ok (run_failIf_of_not Bool.false_ne_true)]
  rcases run_enterName hdev name nameLen s.called with
    ⟨hroom, hcalls, t, hrun, hadds⟩ | ⟨hnot, e, t, hrun, hsame⟩
  · refine .inl ⟨⟨hroom, hcalls⟩, ?_⟩
    rw [hstep, run_bind_of_ok hrun, block_devFlush hdev]
    exact hadds
  · refine .inr ⟨hnot, ?_⟩
    rw [hstep, run_bind_of_error hrun]
    exact hsame

theorem dirStep_create (name : Option Mem) :
    DirStep mnt s (.create name) (step (some mnt) (.create name) s).2.block := by
  cases hname : validName name with
  | error e =>
    have hinvalid : (ofExcept (validName name) : FsM ℕ).run s = .error e s := by rw [hname]; rfl
    have hstep : (step (some mnt) (.create name) s).2 = s := by
      change finalState ((mcsfs1Create (some mnt) name).run s) = s
      rw [mcsfs1Create_eq, run_bind_of_error hinvalid]
      rfl
    rw [hstep]
    exact .same rfl
  | ok nameLen =>
    obtain ⟨found, hrun, hmissed⟩ := run_lookup hdev hname s
    cases found with
    | true =>
      have hvalid : (ofExcept (validName name) : FsM ℕ).run s = .ok nameLen s := by rw [hname]; rfl
      have hstep : (step (some mnt) (.create name) s).2 = s.called := by
        change finalState ((mcsfs1Create (some mnt) name).run s) = s.called
        rw [mcsfs1Create_eq, run_bind_of_ok hvalid, run_bind_of_ok hrun,
          run_bind_of_error (run_failIf_of rfl)]
        rfl
      rw [hstep]
      exact .same rfl
    | false =>
      rcases create_of_missed hdev hname hrun with ⟨hgoes, hadds⟩ | ⟨-, hsame⟩
      · exact .add rfl hname hadds hgoes (hmissed rfl)
      · exact .same hsame

theorem dirStep (hs : Always (Intact mnt.dev) s) (c : Call) :
    DirStep mnt s c (step (some mnt) c s).2.block := by
  have htrue : Always (fun _ ↦ True) s := ⟨trivial, fun _ _ ↦ trivial⟩
  cases c with
  | create name => exact dirStep_create hdev name
  | write name buf len =>
    have hmeets : Meets (fun _ ↦ True) (mcsfs1Write (some mnt) name buf len)
        (fun _ d' ↦ d' rootDirLba = s.block rootDirLba) s.block :=
      wp_mcsfs1Write_dir hdev hs.now name buf len
    exact .same (hmeets.run htrue).2
  | read name buf cap outLen =>
    have hends := ((meets_mcsfs1Read hdev hs.now name buf cap outLen).run hs).2
    exact .same (congrFun hends.unchanged rootDirLba)
  | unlink name =>
    rcases ((meets_mcsfs1Unlink_dir hdev hs.now name).run htrue).2 with hsame | ⟨i, hlive, hclears⟩
    · exact .same hsame
    · exact .clear rfl hlive hclears

end DirStep

/-! ## Distinct names -/

/-- The name in entry `i`: its name field up to the first NUL. -/
def Volume.nameOf (v : Volume) (i : ℕ) : List UInt8 :=
  ((List.range maxName).map fun j ↦ (v.entry i).byte (Dirent.nameOffset + j)).takeWhile (· ≠ 0)

/-- No two used entries have the same name. -/
def DistinctNames (v : Volume) : Prop :=
  ∀ i j, v.Live i → v.Live j → v.nameOf i = v.nameOf j → i = j

theorem Spelled.nameOf (h : Spelled v i n) : v.nameOf i = n.bytes := by
  have hle : n.bytes.length ≤ maxName := h.length_le
  have hfield : (List.range maxName).map (fun j ↦ (v.entry i).byte (Dirent.nameOffset + j)) =
      n.bytes ++ List.replicate (maxName - n.bytes.length) 0 := by
    refine List.ext_getElem (by simp; omega) fun j hj _ ↦ ?_
    rw [List.length_map, List.length_range] at hj
    rw [List.getElem_map, List.getElem_range, h.char j hj, CStr.char, List.getD_eq_getElem?_getD,
      List.getElem_append]
    split_ifs with hlt
    · rw [List.getElem?_eq_getElem hlt, Option.getD_some]
    · rw [List.getElem?_eq_none (by omega), Option.getD_none, List.getElem_replicate]
  have hbytes : ∀ b ∈ n.bytes, decide (b ≠ 0) = true := fun b hb ↦
    decide_eq_true fun hzero ↦ n.zero_notMem (hzero ▸ hb)
  rw [Volume.nameOf, hfield, List.takeWhile_append_of_pos hbytes, List.takeWhile_replicate]
  simp

def Volume.Holds (v : Volume) (n : CStr) : Prop := ∃ i, Spelled v i n

theorem Listed.distinctNames {L : CStr → Prop} (h : Listed v L) : DistinctNames v := by
  intro i j hi hj heq
  obtain ⟨n, hn⟩ := h.named i hi
  obtain ⟨m, hm⟩ := h.named j hj
  rw [hn.nameOf, hm.nameOf] at heq
  obtain rfl := CStr.ext heq
  exact h.unique i j n hn hm

theorem Spelled.not_distinctNames {j : ℕ} (hi : Spelled v i n) (hj : Spelled v j n) (hij : i ≠ j) :
    ¬DistinctNames v := fun h ↦
  hij (h i j hi.live hj.live (hi.nameOf.trans hj.nameOf.symm))

/-- The directory of the disk has no name twice, and no name that fills its field. -/
structure Orderly (dev : Blkdev) (s : Disk Block) : Prop
    extends Tracked dev (volumeOf s.block).Holds s where
  short : ∀ i n, Spelled (volumeOf s.block) i n → n.length < maxName

theorem Orderly.legible {s : Disk Block} (h : Orderly dev s) : Legible (volumeOf s.block) := by
  intro i hi hfull
  obtain ⟨n, hn⟩ := h.listed.named i hi
  have hlt := h.short i n hn
  rw [hn.full_iff.mp hfull] at hlt
  exact absurd hlt (lt_irrefl _)

theorem Listed.holds {L : CStr → Prop} (h : Listed v L) : Listed v v.Holds :=
  ⟨h.named, h.unique, fun _ ↦ Iff.rfl⟩

def Call.target : Call → Option Mem
  | .create name | .write name _ _ | .read name _ _ _ | .unlink name => name

/-- A name of 27 bytes, which fills its field, is not used. -/
def Call.Short (c : Call) : Prop := ∀ k, validName c.target = .ok k → k ≤ 26

/-- The call creates a name that is entered already, the read of its lookup fails, the eight calls
of the device after it succeed, and there is room for another file. -/
def Doubles (mnt : Mount) (s : Disk Block) (c : Call) : Prop :=
  ∃ name n, c = .create name ∧ Denotes name n ∧ (volumeOf s.block).Holds n ∧
    mnt.dev.fails s.calls = true ∧ GoesOn mnt.dev s

theorem Enters.not_live {slot : ℕ} (h : Enters slot (Buf.zero 32) d d') :
    ¬(volumeOf d').Live slot := by
  rintro ⟨-, hino⟩
  rw [h.self] at hino
  exact hino (Buf.load_zero 4 0)

section Step

variable {mnt : Mount} {s : Disk Block} (h : Orderly mnt.dev s) (hdev : mnt.dev.Usable)
include h hdev

theorem Orderly.always_after (c : Call) :
    Always (Intact mnt.dev) (Mcsfs1.step (some mnt) c s).2 := by
  refine always_step hdev h.always ?_ c
  rintro m ⟨⟩
  rfl

/-- A creation enters the name a second time exactly if it doubles it. -/
theorem Orderly.add {name : Option Mem} {nameLen : ℕ} (hname : validName name = .ok nameLen)
    (hshort : (Call.create name).Short)
    (hadds : Adds name nameLen s.block (step (some mnt) (.create name) s).2.block)
    (hgoes : GoesOn mnt.dev s)
    (hlookup : mnt.dev.fails s.calls = true ∨ NotFound s.block name) :
    (¬Doubles mnt s (.create name) → Orderly mnt.dev (step (some mnt) (.create name) s).2) ∧
      (Doubles mnt s (.create name) →
        ¬DistinctNames (volumeOf (step (some mnt) (.create name) s).2.block)) := by
  obtain ⟨n, hn⟩ := exists_denotes hname
  obtain rfl : nameLen = n.length := Except.ok.inj (hname.symm.trans hn.valid)
  have halways := h.always_after hdev (.create name)
  generalize (step (some mnt) (.create name) s).2 = t at *
  obtain ⟨slot, k, hfree, hge, hle, henters⟩ := hadds
  have hspelled : Spelled (volumeOf t.block) slot n :=
    spelled_of_make hn henters.lt hge hle henters.self
  constructor
  · intro hnot
    have hnew : ¬(volumeOf s.block).Holds n := fun hholds ↦ by
      rcases hlookup with hfails | hmissing
      · exact hnot ⟨name, n, rfl, hn, hholds, hfails, hgoes⟩
      · exact h.listed.not_of_notFound h.always.now h.legible hn hmissing hholds
    refine ⟨⟨halways, (h.listed.add hnew hfree (fun j hj ↦ henters.of_ne hj) hspelled).holds⟩,
      fun j m hm ↦ ?_⟩
    by_cases hj : j = slot
    · subst hj
      rw [hm.eq hspelled]
      exact Nat.lt_succ_of_le (hshort _ hn.valid)
    · exact h.short j m ((spelled_congr (henters.of_ne hj)).mp hm)
  · rintro ⟨name', m, hc, hm, ⟨i, hi⟩, -⟩
    cases hc
    obtain rfl := hn.eq hm
    have hne : i ≠ slot := fun heq ↦ hfree (heq ▸ hi.live)
    exact ((spelled_congr (henters.of_ne hne)).mpr hi).not_distinctNames hspelled hne

/-- A call with a name of at most 26 bytes keeps the names distinct exactly if it does not double a
name. -/
theorem Orderly.step {c : Call} (hshort : c.Short) :
    (¬Doubles mnt s c → Orderly mnt.dev (Mcsfs1.step (some mnt) c s).2) ∧
      (Doubles mnt s c → ¬DistinctNames (volumeOf (Mcsfs1.step (some mnt) c s).2.block)) := by
  have halways := h.always_after hdev c
  cases dirStep hdev h.always c with
  | same hsame =>
    have hentry : (volumeOf (Mcsfs1.step (some mnt) c s).2.block).entry =
        (volumeOf s.block).entry := congrArg direntAt hsame
    refine ⟨fun _ ↦ ⟨⟨halways, (h.listed.of_entry hentry).holds⟩, fun i n hn ↦ ?_⟩, ?_⟩
    · exact h.short i n ((spelled_congr (congrFun hentry i)).mp hn)
    · rintro ⟨name, n, rfl, hn, -, hfails, hgoes⟩
      rcases create_of_missed hdev hn.valid (run_lookup_of_fails hdev hn.valid hfails) with
        ⟨-, hadds⟩ | ⟨hnot, -⟩
      · exact absurd hsame hadds.changed
      · exact absurd hgoes hnot
  | add hc hname hadds hgoes hlookup =>
    subst hc
    exact h.add hdev hname hshort hadds hgoes hlookup
  | @clear name i hc hlive hclears =>
    obtain ⟨n, hn⟩ := h.listed.named i hlive
    have hgone := hclears.not_live
    refine ⟨fun _ ↦ ⟨⟨halways, ?_⟩, fun j m hm ↦ ?_⟩, ?_⟩
    · exact (h.listed.remove hn (fun j hj ↦ hclears.of_ne hj) hgone).holds
    · have hj : j ≠ i := fun heq ↦ hgone (heq ▸ hm.live)
      exact h.short j m ((spelled_congr (hclears.of_ne hj)).mp hm)
    · rintro ⟨name', m, hcreate, -⟩
      cases hc.symm.trans hcreate

end Step

/-- **Names stay distinct until a lookup is lost.** Take a run on a mounted volume that was just
formatted, with names of at most 26 bytes, on a device any of whose calls may fail. If no creation
doubles a name, no two used entries have the same name; and this is so after a further call exactly
when it does not double a name either. -/
theorem names_distinct_iff {dev : Blkdev} {s s₀ s₁ t : Disk Block}
    (hformat : (mcsfs1Format (some dev)).run s = .ok () s₀) {mnt : Mount}
    (hmount : (mcsfs1Mount (some dev)).run s₀.fresh = .ok mnt s₁) {es : List (Call × Ret)}
    (hrun : Run (step (some mnt)) (fun u c ↦ c.Short ∧ ¬Doubles mnt u c) s₁ es t) :
    DistinctNames (volumeOf t.block) ∧ ∀ c : Call, c.Short →
      (DistinctNames (volumeOf (step (some mnt) c t).2.block) ↔ ¬Doubles mnt t c) := by
  obtain ⟨hdev, hformatted⟩ := formatted_of_run hformat
  obtain ⟨hmnt, -, hsame, hkept⟩ := mounted_of_run hmount
  have halways : Always (Intact dev) s₁ := hkept _ (.fresh hformatted.intact)
  obtain rfl : dev = mnt.dev := by rw [hmnt]
  have hempty : ∀ i, ¬(volumeOf s₁.block).Live i := by
    rw [hsame]
    exact hformatted.empty
  have hstart : Orderly mnt.dev s₁ :=
    ⟨⟨halways, (Listed.of_empty hempty).holds⟩, fun i _ hi ↦ absurd hi.live (hempty i)⟩
  have horderly : Orderly mnt.dev t := by
    induction hrun with
    | nil => exact hstart
    | snoc _ c hallowed ih => exact (ih.step hdev hallowed.1).1 hallowed.2
  refine ⟨horderly.listed.distinctNames, fun c hc ↦ ?_⟩
  obtain ⟨hkept, hlost⟩ := horderly.step hdev hc
  exact ⟨fun hdistinct hdoubles ↦ hlost hdoubles hdistinct,
    fun hnot ↦ (hkept hnot).listed.distinctNames⟩

/-- A device that fails once: at the first read of the second `mcsfs1_create`. -/
def transientDev : Blkdev := ⟨16, true, true, true, fun n ↦ n == 34, fun _ ↦ 0⟩

def transientMount : Mount := ⟨transientDev, 16, 8⟩

def transientDisk : Disk Block := finalState ((mcsfs1Format (some transientDev)).run blankDisk)

def transientMounted : Disk Block :=
  finalState ((mcsfs1Mount (some transientDev)).run transientDisk.fresh)

theorem run_mcsfs1Format_transientDev :
    (mcsfs1Format (some transientDev)).run blankDisk = .ok () transientDisk :=
  eq_ok_of_returned (by decide +kernel)

theorem run_mcsfs1Mount_transientDev :
    (mcsfs1Mount (some transientDev)).run transientDisk.fresh =
      .ok transientMount transientMounted :=
  run_mcsfs1Mount_of_isOk (by decide +kernel)

theorem short_create_nameA : (Call.create (some nameA)).Short := by
  intro k hk
  have hone : validName (some nameA) = .ok 1 := by decide +kernel
  rw [← Except.ok.inj (hone.symm.trans hk)]
  decide

/-- Its disk after the first `mcsfs1_create`. -/
def transientOne : Disk Block :=
  (step (some transientMount) (.create (some nameA)) transientMounted).2

theorem doubles_transientOne : Doubles transientMount transientOne (.create (some nameA)) := by
  have hdenotes : Denotes (some nameA) ⟨[97], by decide⟩ := ⟨by decide +kernel, by decide +kernel⟩
  have hspelled : Spelled (volumeOf transientOne.block) 0 ⟨[97], by decide⟩ :=
    ⟨⟨⟨by decide, by decide +kernel⟩, by decide +kernel⟩, by decide⟩
  have hfree : ((volumeOf transientOne.block).entry 1).ino = 0 := by decide +kernel
  refine ⟨_, _, rfl, hdenotes, ⟨0, hspelled⟩, by decide +kernel,
    ⟨⟨1, by decide, ?_⟩, ⟨3, ?_⟩, ⟨9, ?_⟩⟩, by decide +kernel⟩
  · exact fun hlive ↦ hlive.2 hfree
  · exact ⟨by decide, by decide, by decide +kernel⟩
  · exact ⟨by decide, by decide, by decide +kernel⟩

/-- The first creation finds an empty directory, and the second one doubles the name. -/
theorem names_distinct_iff_one : ∃ es,
    Run (step (some transientMount)) (fun u c ↦ c.Short ∧ ¬Doubles transientMount u c)
      transientMounted es transientOne ∧ es.map Prod.snd = [.status (.ok ())] ∧
      DistinctNames (volumeOf transientOne.block) ∧ ¬DistinctNames (volumeOf
        (step (some transientMount) (.create (some nameA)) transientOne).2.block) := by
  have hfirst : ¬Doubles transientMount transientMounted (.create (some nameA)) := by
    rintro ⟨-, -, -, -, -, hfails, -⟩
    exact absurd hfails (by decide +kernel)
  have hnil : Run (step (some transientMount)) (fun u c ↦ c.Short ∧ ¬Doubles transientMount u c)
      transientMounted [] _ := .nil
  have hrun := hnil.snoc (.create (some nameA)) ⟨short_create_nameA, hfirst⟩
  rw [← transientOne] at hrun
  obtain ⟨hdistinct, hiff⟩ := names_distinct_iff run_mcsfs1Format_transientDev
    run_mcsfs1Mount_transientDev hrun
  exact ⟨_, hrun, by decide +kernel, hdistinct,
    fun h ↦ (hiff _ short_create_nameA).mp h doubles_transientOne⟩

/-- One read fails, and the name is in the directory twice. -/
theorem transient_fault_doubles :
    let s := (step (some transientMount) (.create (some nameA)) transientMounted).2
    let t := (step (some transientMount) (.create (some nameA)) s).2
    (mcsfs1Format (some transientDev)).run blankDisk = .ok () transientDisk ∧
      (mcsfs1Mount (some transientDev)).run transientDisk.fresh =
        .ok transientMount transientMounted ∧
      (step (some transientMount) (.create (some nameA)) transientMounted).1 = .status (.ok ()) ∧
      (∀ n, transientDev.fails n = true ↔ n = s.calls) ∧
      (step (some transientMount) (.create (some nameA)) s).1 = .status (.ok ()) ∧
      (volumeOf t.block).Live 0 ∧ (volumeOf t.block).Live 1 ∧
      (volumeOf t.block).nameOf 0 = [97] ∧ (volumeOf t.block).nameOf 1 = [97] ∧
      ¬DistinctNames (volumeOf t.block) := by
  intro s t
  have hcalls : s.calls = 34 := by decide +kernel
  have hlive0 : (volumeOf t.block).Live 0 := ⟨by decide, by decide +kernel⟩
  have hlive1 : (volumeOf t.block).Live 1 := ⟨by decide, by decide +kernel⟩
  have hname0 : (volumeOf t.block).nameOf 0 = [97] := by decide +kernel
  have hname1 : (volumeOf t.block).nameOf 1 = [97] := by decide +kernel
  refine ⟨run_mcsfs1Format_transientDev, run_mcsfs1Mount_transientDev, by decide +kernel,
    fun n ↦ ?_, by decide +kernel, hlive0, hlive1, hname0, hname1, fun hdistinct ↦ ?_⟩
  · rw [hcalls]
    exact beq_iff_eq
  · exact absurd (hdistinct 0 1 hlive0 hlive1 (hname0.trans hname1.symm)) (by decide)

end Mcsfs1

end Mcsos
