import Mcsos.Base.Machine
import Mcsos.Mcsfs1j.CrashAtomicity
import Mcsos.Mcsfs1j.DamagedInode
import Mcsos.Mcsfs1j.Format

/-!
# Durable files

The journalling file system over a whole life: calls one after the other, each on a device that may
fail at any of its writes, with no recovery between them but the one that every call begins with. A
crash is a call that is cut, and a restart is the next call.

What is kept is a map from names to contents that only grows (`durable_files`). A call that reports
success has entered its file. A call that reports another error than `M16_E_IO` has changed nothing.
After `M16_E_IO` the file is there or not, and that does not change any more: later reads agree with
each other.
-/

namespace Mcsos

namespace M16

/-! ## The calls -/

inductive Op where
  | write (name : Option CStr) (data : Option Mem) (size : ℕ) (stop : Bool)
  | read (past : Mem) (name : Option CStr) (cap : ℕ)
  | fsck
  | mount

/-- The call; only a read returns bytes. -/
def Op.run : Op → DevM (List UInt8)
  | .write name data size stop => do
    writeFileEx name data size stop
    return []
  | .read past name cap => readFile past name cap
  | .fsck => do
    M16.fsck
    return []
  | .mount => do
    let _ ← M16.mount
    return []

/-- A call on the device with `fail_after = cut`. -/
def opStep (c : Op × ℤ) (dev : Blockdev) : Except Err (List UInt8) × Blockdev :=
  let res := c.1.run.run (dev.withFailAfter c.2)
  (returned res, finalState res)

/-! ## What they are for -/

/-- The contents of the files. -/
abbrev Files := CStr → Option (List UInt8)

/-- The error that a write is refused with because of its arguments or the files. -/
def writeError (files : Files) (name : Option CStr) (data : Option Mem) (size : ℕ) : Option Err :=
  match name, data with
  | some n, some _ =>
    if n.length = 0 ∨ n.length ≥ maxName then some .toolong
    else if size > blockSize then some .inval
    else if (files n).isSome then some .exists
    else none
  | _, _ => some .inval

/-- A file is created. -/
def Creates (files : Files) (name : Option CStr) (data : Option Mem) (size : ℕ) (files' : Files) :
    Prop :=
  ∃ n d, name = some n ∧ data = some d ∧ writeError files name data size = none ∧
    files' = Function.update files n (some ((List.range size).map d))

/-- What a read returns. -/
def readAnswer (files : Files) (cap : ℕ) : Option CStr → Except Err (List UInt8)
  | none => .error .inval
  | some n => (files n).elim (.error .noent) fun bs ↦
    if bs.length ≤ cap then .ok bs else .error .inval

/-- What a call may return and do to the files. -/
def opSpec (c : Op × ℤ) (out : Except Err (List UInt8)) (files files' : Files) : Prop :=
  match c.1 with
  | .write name data size _ =>
    out = .error .io ∧ 0 ≤ c.2 ∧ (files' = files ∨ Creates files name data size files') ∨
    (∃ e, out = .error e ∧ files' = files ∧ (writeError files name data size = some e ∨
      writeError files name data size = none ∧ e = .nospc)) ∨
    out = .ok [] ∧ Creates files name data size files'
  | .read _ name cap =>
    files' = files ∧ (out = .error .io ∧ 0 ≤ c.2 ∨ out = readAnswer files cap name)
  | .fsck => files' = files ∧ (out = .error .io ∧ 0 ≤ c.2 ∨ out = .ok [])
  | .mount => files' = files ∧ (out = .error .io ∧ 0 ≤ c.2 ∨ out = .ok [])

/-! ## Recovery at the start of a call -/

variable {dev dev' : Blockdev} {c : ℕ → Block}

theorem Contents.home_of_clean (h : Contents dev c) (hclean : Clean dev) :
    homeOf dev.blocks = c := by
  obtain ⟨⟨home, log⟩, hrep, -, rfl⟩ := h
  cases log with
  | none => exact hrep.home
  | some tx =>
    obtain ⟨⟨seq, hheader⟩, -⟩ := hrep.log
    rw [Clean, hheader] at hclean
    exact absurd hclean (not_empty_journalHeader seq tx.length)

/-- A recovery brings the contents home, or it is cut and the contents are still there. -/
theorem Contents.recover_cases (htotal : 18 ≤ dev.totalBlocks) (h : Contents dev c) :
    (∃ dev', journalRecover.run dev = .ok () dev' ∧ Clean dev' ∧ homeOf dev'.blocks = c ∧
      dev'.totalBlocks = dev.totalBlocks ∧ (dev.failAfter < 0 → dev'.failAfter < 0)) ∨
    (0 ≤ dev.failAfter ∧ ∃ dev', journalRecover.run dev = .error .io dev' ∧ Contents dev' c ∧
      dev'.totalBlocks = dev.totalBlocks) := by
  obtain ⟨hcontents, htot⟩ := h.recoverAttempt htotal dev.failAfter
  change Contents (finalState (journalRecover.run dev)) c at hcontents
  change (finalState (journalRecover.run dev)).totalBlocks = dev.totalBlocks at htot
  obtain ⟨⟨home, log⟩, hrep, hok, rfl⟩ := h
  cases log with
  | none =>
    have hrun := run_journalRecover_empty (validLba_journalStart htotal) hrep.log
    exact .inl ⟨dev, hrun, hrep.log, hrep.home, rfl, id⟩
  | some tx =>
    have htx : TxOk dev.totalBlocks tx := hok tx rfl
    obtain ⟨⟨seq, hheader⟩, hlog⟩ := hrep.log
    have hrun := (run_journalRecover_committed htotal htx hheader hlog).trans
      (run_writeAll (validLba_replay htotal htx))
    split_ifs at hrun with hall
    · rw [hrun, finalState_ok] at hcontents htot
      obtain ⟨hclean, -⟩ := clean_of_journalRecover hrun
      exact .inl ⟨_, hrun, hclean, hcontents.home_of_clean hclean, htot,
        fun hneg ↦ (failAfter_landAll_of_neg hneg _).trans_lt hneg⟩
    · rw [hrun, finalState_error] at hcontents htot
      rw [landed_eq_iff, not_or, not_lt] at hall
      exact .inr ⟨hall.1, _, hrun, hcontents, htot⟩

theorem run_mount_bind {α : Type} (f : Block → DevM α) (htotal : 18 ≤ dev'.totalBlocks)
    (hrecover : journalRecover.run dev = .ok () dev') (hclean : Clean dev') :
    (mount >>= f).run dev = (mount >>= f).run dev' := by
  have hempty := run_journalRecover_empty (validLba_journalStart htotal) hclean
  have hmount : mount.run dev = mount.run dev' := by
    rw [mount, run_bind_of_ok hrecover, run_bind_of_ok hempty]
  rw [EStateM.run_bind, EStateM.run_bind, hmount]

theorem run_mount_bind_of_error {α : Type} (f : Block → DevM α) {e : Err}
    (hrecover : journalRecover.run dev = .error e dev') :
    (mount >>= f).run dev = .error e dev' :=
  run_bind_of_error (run_bind_of_error hrecover)

/-! ## Devices with given files -/

variable {files files' : Files}

/-- The files are at home and the journal is empty. -/
structure Ready (files : Files) (dev : Blockdev) : Prop where
  total : dev.totalBlocks = maxBlocks
  clean : Clean dev
  sound : Sound dev.blocks
  file : ∀ n, fileOf dev.blocks n = (files n).elim (.error .noent) .ok

/-- The files are on the device, at home or in the journal. -/
structure Stores (files : Files) (dev : Blockdev) : Prop where
  total : dev.totalBlocks = maxBlocks
  contents : ∃ c, Contents dev c ∧ Sound c ∧ ∀ n, fileOf c n = (files n).elim (.error .noent) .ok

theorem Ready.stores (h : Ready files dev) : Stores files dev :=
  ⟨h.total, homeOf dev.blocks, h.clean.contents, h.sound.homeOf,
    fun n ↦ (h.sound.fileOf_homeOf n).trans (h.file n)⟩

theorem Stores.withFailAfter (h : Stores files dev) (cut : ℤ) :
    Stores files (dev.withFailAfter cut) := by
  obtain ⟨htotal, c, hcontents, hc⟩ := h
  exact ⟨htotal, c, hcontents.withFailAfter cut, hc⟩

/-- A program that mounts first works on a device with its files at home, or it is cut in the
recovery. -/
theorem Stores.run_mount_bind (h : Stores files dev) {α : Type} (f : Block → DevM α) :
    (0 ≤ dev.failAfter ∧ ∃ dev', (mount >>= f).run dev = .error .io dev' ∧ Stores files dev') ∨
    ∃ dev', (mount >>= f).run dev = (mount >>= f).run dev' ∧ Ready files dev' ∧
      (0 ≤ dev'.failAfter → 0 ≤ dev.failAfter) := by
  obtain ⟨htotal, c, hcontents, hsound, hfile⟩ := h
  have hle : 18 ≤ dev.totalBlocks := by
    rw [htotal]
    decide
  obtain ⟨dev', hrun, hclean, hhome, htot, hneg⟩ | ⟨hcut, dev', hrun, hcontents', htot⟩ :=
    hcontents.recover_cases hle
  · have hsame : ∀ x, ¬InJournal x → c x = dev'.blocks x := fun x hx ↦ by
      rw [← hhome, homeOf_of_not hx]
    refine .inr ⟨dev', M16.run_mount_bind f (htot ▸ hle) hrun hclean,
      ⟨htot.trans htotal, hclean, hsound.congr hsame, fun n ↦ ?_⟩, fun hge ↦ ?_⟩
    · rw [← hsound.fileOf_congr hsame, hfile n]
    · by_contra hlt
      exact absurd hge (not_le.mpr (hneg (not_le.mp hlt)))
  · exact .inl ⟨hcut, dev', run_mount_bind_of_error f hrun, htot.trans htotal, c, hcontents',
      hsound, hfile⟩

/-! ## Reads -/

theorem Ready.run_mount (h : Ready files dev) : mount.run dev = .ok (dev.blocks 0) dev :=
  M16.run_mount (by rw [h.total]; decide) h.clean h.sound.super

theorem Ready.findDirent_eq_none_iff (h : Ready files dev) (n : CStr) :
    findDirent (dev.blocks rootDirLba) n = none ↔ files n = none := by
  have hfile := h.file n
  rw [fileOf] at hfile
  cases hfind : findDirent (dev.blocks rootDirLba) n <;> cases hn : files n <;>
    rw [hfind, hn] at hfile <;> simp at hfile ⊢

/-- A file of at most one block is copied from the block alone. -/
theorem copyOut_eq_inodeBytes (past : Mem) {b : ℕ → Block} {ino : ℕ}
    (hsize : Inode.size (tableOf b) ino ≤ blockSize) :
    copyOut past (b (Inode.direct0 (tableOf b) ino)) (Inode.size (tableOf b) ino) =
      inodeBytes b ino :=
  List.map_congr_left fun _ hi ↦ if_pos ((List.mem_range.mp hi).trans_le hsize)

theorem Ready.run_readFile (h : Ready files dev) (past : Mem) (name : Option CStr) (cap : ℕ) :
    returned ((readFile past name cap).run dev) = readAnswer files cap name ∧
      finalState ((readFile past name cap).run dev) = dev := by
  cases name with
  | none => exact ⟨rfl, rfl⟩
  | some n =>
    have htotal : rootDirLba < dev.totalBlocks := by
      rw [h.total]
      decide
    have hfile := h.file n
    rw [fileOf] at hfile
    rw [readAnswer]
    cases hfind : findDirent (dev.blocks rootDirLba) n with
    | none =>
      rw [(h.findDirent_eq_none_iff n).mp hfind, readFile, run_bind_of_ok h.run_mount,
        run_bind_of_ok (run_loadInodeTable htotal.le),
        run_bind_of_ok (run_readBlock ⟨htotal, by decide⟩), hfind]
      exact ⟨rfl, rfl⟩
    | some slot =>
      obtain ⟨hslot, hused⟩ := of_findDirent hfind
      obtain ⟨⟨hino, -⟩, ⟨hiused, hkind, hsize⟩, -, hlt, -⟩ := h.sound.entries slot hslot hused
      have hvalid := validLba_of_full h.total hlt
      rw [M16.run_readFile h.run_mount past ⟨htotal, ⟨slot, hfind, rfl⟩, hino, hiused, hkind⟩]
      rw [hfind] at hfile
      cases hn : files n with
      | none =>
        rw [hn] at hfile
        cases hfile
      | some bytes =>
        rw [hn] at hfile
        have hbytes := Except.ok.inj hfile
        have hlength : Inode.size (tableOf dev.blocks) (Dirent.ino (dev.blocks rootDirLba) slot) =
            bytes.length := by
          rw [← hbytes, inodeBytes, List.length_map, List.length_range]
        rw [copyOut_eq_inodeBytes past hsize, hbytes, hlength, Option.elim_some]
        by_cases hcap : bytes.length ≤ cap
        · rw [if_pos ⟨hcap, hvalid⟩, if_pos hcap]
          exact ⟨rfl, rfl⟩
        · rw [if_neg fun hand ↦ hcap hand.1, if_neg hcap]
          exact ⟨rfl, rfl⟩

/-! ## Writes -/

variable {n : CStr} {d : Mem} {size : ℕ}

/-- The arguments of a write are in range. -/
structure InRange (n : CStr) (size : ℕ) : Prop where
  length_pos : 0 < n.length
  length_lt : n.length < maxName
  size_le : size ≤ blockSize

theorem InRange.writeError_eq (h : InRange n size) (files : Files) (d : Mem) :
    writeError files (some n) (some d) size = if (files n).isSome then some .exists else none := by
  rw [writeError, if_neg (by have := h.length_pos; have := h.length_lt; omega),
    if_neg (not_lt.mpr h.size_le)]

theorem write_cases (name : Option CStr) (data : Option Mem) (size : ℕ) (stop : Bool) :
    (∃ e, (∀ files, writeError files name data size = some e) ∧
      ∀ dev, (writeFileEx name data size stop).run dev = .error e dev) ∨
    ∃ n d f, name = some n ∧ data = some d ∧ InRange n size ∧
      writeFileEx name data size stop = mount >>= f := by
  rcases name with - | n
  · exact .inl ⟨.inval, fun _ ↦ rfl, fun _ ↦ rfl⟩
  rcases data with - | d
  · exact .inl ⟨.inval, fun _ ↦ rfl, fun _ ↦ rfl⟩
  rw [writeFileEx]
  by_cases hname : n.char.strlen maxName 0 = 0 ∨ n.char.strlen maxName 0 ≥ maxName
  · refine .inl ⟨.toolong, fun files ↦ if_pos ?_, fun dev ↦ run_bind_of_error (run_failIf_of hname)⟩
    rw [CStr.strlen_char] at hname
    omega
  rw [failIf_of_not hname, pure_bind]
  rw [CStr.strlen_char] at hname
  simp only [maxName] at hname
  by_cases hsize : size > blockSize
  · refine .inl ⟨.inval, fun files ↦ ?_, fun dev ↦ run_bind_of_error (run_failIf_of hsize)⟩
    rw [writeError, if_neg (by simp only [maxName]; omega), if_pos hsize]
  rw [failIf_of_not hsize, pure_bind]
  exact .inr ⟨n, d, _, rfl, rfl, ⟨by omega, by simp only [maxName]; omega, not_lt.mp hsize⟩, rfl⟩

theorem Ready.run_writeFileEx_exists (h : Ready files dev) (hrange : InRange n size) (d : Mem)
    (stop : Bool) (hn : files n ≠ none) :
    (writeFileEx (some n) (some d) size stop).run dev = .error .exists dev := by
  have hfind : (findDirent (dev.blocks rootDirLba) n).isSome := by
    rw [Option.isSome_iff_ne_none]
    exact mt (h.findDirent_eq_none_iff n).mp hn
  have hname : ¬(n.char.strlen maxName 0 = 0 ∨ n.char.strlen maxName 0 ≥ maxName) := by
    have := hrange.length_pos
    have := hrange.length_lt
    rw [CStr.strlen_char]
    omega
  rw [writeFileEx, run_bind_of_ok (run_failIf_of_not hname),
    run_bind_of_ok (run_failIf_of_not (not_lt.mpr hrange.size_le)), run_bind_of_ok h.run_mount,
    run_readMetadata h.total, run_bind_of_error (run_failIf_of hfind)]

theorem returned_journalCommit (htotal : 18 ≤ dev.totalBlocks) {tx : Tx}
    (htx : TxOk dev.totalBlocks tx) (seq : ℕ) (stop : Bool) :
    (∃ dev', (journalCommit tx seq stop).run dev = .ok () dev' ∧
      dev'.totalBlocks = dev.totalBlocks ∧ (0 ≤ dev'.failAfter → 0 ≤ dev.failAfter)) ∨
    ∃ dev', (journalCommit tx seq stop).run dev = .error .io dev' ∧ 0 ≤ dev.failAfter := by
  have hrun := run_journalCommit htotal htx seq stop
  split_ifs at hrun with hall
  · refine .inl ⟨_, hrun, totalBlocks_landAll _ _, fun hge ↦ ?_⟩
    by_contra hlt
    rw [failAfter_landAll_of_neg (not_le.mp hlt)] at hge
    exact hlt hge
  · rw [landed_eq_iff, not_or, not_lt] at hall
    exact .inr ⟨_, hrun, hall.1⟩

theorem Ready.returned_writeFileEx (h : Ready files dev) (name : Option CStr) (data : Option Mem)
    (size : ℕ) (stop : Bool) :
    let res := (writeFileEx name data size stop).run dev
    (∃ e, e ≠ .io ∧ res = .error e dev ∧
      ∀ n d, Accepted dev.blocks name data size n d → e = .nospc) ∨
    returned res = .ok () ∨ returned res = .error .io ∧ 0 ≤ dev.failAfter := by
  intro res
  have hle : 18 ≤ dev.totalBlocks := by
    rw [h.total]
    decide
  rcases run_writeFileEx_of_le (by rw [h.total]; decide) h.clean h.sound.super name data size stop
    with ⟨e, hne, hrun, hacc⟩ | ⟨n, d, ino, blk, slot, seq, seq', ha, hfound, hrun⟩
  · exact .inl ⟨e, hne, hrun, fun n d ha ↦ (hacc n d ha).1⟩
  refine .inr ?_
  rcases returned_journalCommit hle (h.total.symm ▸ txOk_allocTx dev.blocks ino blk size) seq false
    with ⟨s, hfirst, htot, hfail⟩ | ⟨s, hfirst, hfail⟩
  · rw [show res = _ from hrun.trans (run_bind_of_ok hfirst)]
    have htx : TxOk s.totalBlocks (linkTx dev.blocks n d ino blk slot size) :=
      (htot.trans h.total).symm ▸ txOk_linkTx (ha.fresh hfound) d size
    rcases returned_journalCommit (htot ▸ hle) htx seq' stop with
      ⟨t, hsecond, -, -⟩ | ⟨t, hsecond, hfail'⟩
    · rw [hsecond]
      exact .inl rfl
    · rw [hsecond]
      exact .inr ⟨rfl, hfail hfail'⟩
  · rw [show res = _ from hrun.trans (run_bind_of_error hfirst)]
    exact .inr ⟨rfl, hfail⟩

theorem creates_of_inRange (hrange : InRange n size) (hn : files n = none) (d : Mem) :
    Creates files (some n) (some d) size
      (Function.update files n (some ((List.range size).map d))) := by
  refine ⟨n, d, rfl, rfl, ?_, rfl⟩
  rw [hrange.writeError_eq, hn]
  rfl

theorem Ready.write (h : Ready files dev) (hrange : InRange n size) (d : Mem) (stop : Bool) :
    let res := (writeFileEx (some n) (some d) size stop).run dev
    ∃ files', Stores files' (finalState res) ∧
      (returned res = .error .io ∧ 0 ≤ dev.failAfter ∧
          (files' = files ∨ Creates files (some n) (some d) size files') ∨
        (∃ e, returned res = .error e ∧ files' = files ∧
          (writeError files (some n) (some d) size = some e ∨
            writeError files (some n) (some d) size = none ∧ e = .nospc)) ∨
        returned res = .ok () ∧ Creates files (some n) (some d) size files') := by
  intro res
  by_cases hn : files n = none
  swap
  · rw [show res = _ from h.run_writeFileEx_exists hrange d stop hn, finalState_error,
      returned_error]
    refine ⟨files, h.stores, .inr (.inl ⟨.exists, rfl, rfl, .inl ?_⟩)⟩
    rw [hrange.writeError_eq, if_pos (Option.isSome_iff_ne_none.mpr hn)]
  have hcreates := creates_of_inRange hrange hn d
  have hacc : Accepted dev.blocks (some n) (some d) size n d :=
    ⟨rfl, rfl, hrange.length_pos, hrange.length_lt, hrange.size_le,
      (h.findDirent_eq_none_iff n).mpr hn⟩
  rcases h.returned_writeFileEx (some n) (some d) size stop with ⟨e, -, hrun, he⟩ | hret
  · rw [show res = _ from hrun, finalState_error, returned_error, he n d hacc]
    refine ⟨files, h.stores, .inr (.inl ⟨.nospc, rfl, rfl, .inr ⟨?_, rfl⟩⟩)⟩
    rw [hrange.writeError_eq, hn]
    rfl
  obtain ⟨htot, ⟨hnot, -, hcontents⟩ | ⟨n', d', ino, blk, slot, hname, hdata, -, hf,
    ⟨hio, -, hcontents⟩ | ⟨-, hcontents⟩⟩⟩ :=
      cut_writeFileEx h.total h.clean h.sound (some n) (some d) size stop
  · have hio := hret.resolve_left hnot
    exact ⟨files, ⟨htot, _, hcontents, h.sound.homeOf,
      fun m ↦ (h.sound.fileOf_homeOf m).trans (h.file m)⟩, .inl ⟨hio.1, hio.2, .inl rfl⟩⟩
  all_goals
    obtain rfl := Option.some.inj hname
    obtain rfl := Option.some.inj hdata
  · have hfail := (hret.resolve_left fun hok ↦ by rw [hio] at hok; cases hok).2
    have halloc := h.sound.alloc hf size
    refine ⟨files, ⟨htot, _, hcontents, halloc.homeOf, fun m ↦ ?_⟩, .inl ⟨hio, hfail, .inl rfl⟩⟩
    rw [halloc.fileOf_homeOf, h.sound.fileOf_alloc hf, h.file]
  · have hcreated := h.sound.created hf hrange.size_le d
    have hstores : Stores (Function.update files n (some ((List.range size).map d)))
        (finalState res) := by
      refine ⟨htot, _, hcontents, hcreated.homeOf, fun m ↦ ?_⟩
      rw [hcreated.fileOf_homeOf]
      by_cases hm : m = n
      · rw [hm, fileOf_created_self hf hrange.size_le, Function.update_self]
        rfl
      · rw [h.sound.fileOf_created_of_ne hf hm, Function.update_of_ne hm, h.file]
    rcases hret with hok | ⟨hio, hfail⟩
    · exact ⟨_, hstores, .inr (.inr ⟨hok, hcreates⟩)⟩
    · exact ⟨_, hstores, .inl ⟨hio, hfail, .inr hcreates⟩⟩

/-! ## Runs -/

theorem run_return_nil (x : DevM Unit) (dev : Blockdev) :
    let res := (do x; return ([] : List UInt8)).run dev
    returned res = (returned (x.run dev)).map (fun _ ↦ []) ∧
      finalState res = finalState (x.run dev) := by
  intro res
  cases hrun : x.run dev with
  | ok _ s =>
    rw [show res = _ from run_bind_of_ok hrun]
    exact ⟨rfl, rfl⟩
  | error e s =>
    rw [show res = _ from run_bind_of_error hrun]
    exact ⟨rfl, rfl⟩

/-- A call that keeps the files: it mounts first and does not change a device with its files at
home. -/
theorem Stores.of_mounts (h : Stores files dev) {α : Type} {x : DevM α} {f : Block → DevM α}
    (hx : x = mount >>= f) (out : Except Err α)
    (hready : ∀ dev, Ready files dev → returned (x.run dev) = out ∧ finalState (x.run dev) = dev) :
    (returned (x.run dev) = .error .io ∧ 0 ≤ dev.failAfter ∨ returned (x.run dev) = out) ∧
      Stores files (finalState (x.run dev)) := by
  rw [hx] at hready ⊢
  rcases h.run_mount_bind f with ⟨hcut, dev', hrun, hstores⟩ | ⟨dev', hrun, hdev', -⟩
  · rw [hrun]
    exact ⟨.inl ⟨rfl, hcut⟩, hstores⟩
  · obtain ⟨hout, hfinal⟩ := hready dev' hdev'
    rw [hrun, hfinal]
    exact ⟨.inr hout, hdev'.stores⟩

theorem Stores.step (h : Stores files dev) (c : Op × ℤ) :
    ∃ files', opSpec c (opStep c dev).1 files files' ∧ Stores files' (opStep c dev).2 := by
  obtain ⟨op, cut⟩ := c
  have hcut := h.withFailAfter cut
  cases op with
  | write name data size stop =>
    obtain ⟨hreturned, hfinal⟩ := run_return_nil (writeFileEx name data size stop)
      (dev.withFailAfter cut)
    simp only [opStep, Op.run, opSpec, hreturned, hfinal]
    rcases write_cases name data size stop with ⟨e, he, hrun⟩ | ⟨n, d, f, rfl, rfl, hrange, hf⟩
    · rw [hrun, finalState_error, returned_error]
      exact ⟨files, .inr (.inl ⟨e, rfl, rfl, .inl (he files)⟩), hcut⟩
    rw [hf]
    rcases hcut.run_mount_bind f with ⟨hge, dev', hrun, hstores⟩ | ⟨dev', hrun, hdev', hfail⟩
    · rw [hrun, finalState_error, returned_error]
      exact ⟨files, .inl ⟨rfl, hge, .inl rfl⟩, hstores⟩
    rw [hrun, ← hf]
    obtain ⟨files', hstores, hspec⟩ := hdev'.write hrange d stop
    refine ⟨files', ?_, hstores⟩
    rcases hspec with ⟨hio, hge, hfiles⟩ | ⟨e, he, hfiles⟩ | ⟨hok, hfiles⟩
    · rw [hio]
      exact .inl ⟨rfl, hfail hge, hfiles⟩
    · rw [he]
      exact .inr (.inl ⟨e, rfl, hfiles⟩)
    · rw [hok]
      exact .inr (.inr ⟨rfl, hfiles⟩)
  | read past name cap =>
    cases name with
    | none => exact ⟨files, ⟨rfl, .inr rfl⟩, hcut⟩
    | some n =>
      obtain ⟨hout, hstores⟩ := hcut.of_mounts (x := readFile past (some n) cap) rfl _
        fun dev hdev ↦ hdev.run_readFile past (some n) cap
      exact ⟨files, ⟨rfl, hout⟩, hstores⟩
  | fsck =>
    obtain ⟨hout, hstores⟩ := hcut.of_mounts (x := Op.fsck.run) (bind_assoc _ _ _) (.ok [])
      fun dev hdev ↦ by
        have hfsck := run_fsck hdev.total hdev.clean hdev.sound
        rw [Op.run, run_bind_of_ok hfsck]
        exact ⟨rfl, rfl⟩
    exact ⟨files, ⟨rfl, hout⟩, hstores⟩
  | mount =>
    obtain ⟨hout, hstores⟩ := hcut.of_mounts (x := Op.mount.run) rfl (.ok [])
      fun dev hdev ↦ by
        rw [Op.run, run_bind_of_ok hdev.run_mount]
        exact ⟨rfl, rfl⟩
    exact ⟨files, ⟨rfl, hout⟩, hstores⟩

theorem ready_formatted (htotal : dev.totalBlocks = maxBlocks) (hfail : dev.failAfter < 0) :
    Ready (fun _ ↦ none) (finalState (format.run dev)) := by
  obtain ⟨dev', hrun, htotal', -, hblocks⟩ := run_format_of_le (by rw [htotal]; decide) hfail
  rw [hrun, finalState_ok]
  refine ⟨htotal'.trans htotal, ?_, ?_, fun n ↦ ?_⟩
  · rw [Clean, hblocks]
    exact headerEmpty_formatted _
  · rw [hblocks]
    exact sound_formatted _
  · have hdir : formatted dev.totalBlocks rootDirLba = Buf.zero 512 := rfl
    have hnone : findDirent (Buf.zero 512) n = none := by
      by_contra hsome
      obtain ⟨slot, hslot⟩ := Option.ne_none_iff_exists'.mp hsome
      obtain ⟨-, hused⟩ := of_findDirent hslot
      rw [Dirent.used, Buf.load_zero] at hused
      exact hused rfl
    rw [hblocks, fileOf, hdir, hnone]
    rfl

/-- **Files are durable.** Format a device of full size, then make any calls, each of them cut at
any of its writes. What they return is what a map from names to contents would return that a write
enters its file into if it reports success, that it may have entered it into if it reports
`M16_E_IO`, and that nothing else changes. Reads at the end return what is in the map, and
`m16_fsck` accepts the device. -/
theorem durable_files (htotal : dev.totalBlocks = maxBlocks) (hfail : dev.failAfter < 0)
    {es : List ((Op × ℤ) × Except Err (List UInt8))} {t : Blockdev}
    (hrun : Run opStep (fun _ _ ↦ True) (finalState (format.run dev)) es t) :
    ∃ files, Behaviour opSpec (fun _ ↦ none) es files ∧
      (∀ past name cap, (opStep (.read past name cap, -1) t).1 = readAnswer files cap name) ∧
      (opStep (.fsck, -1) t).1 = .ok [] := by
  obtain ⟨files, hbehaviour, hstores⟩ := hrun.refines (ready_formatted htotal hfail).stores
    fun files dev c h _ ↦ h.step c
  have hneg : ¬(0 : ℤ) ≤ -1 := by decide
  refine ⟨files, hbehaviour, fun past name cap ↦ ?_, ?_⟩
  · obtain ⟨-, ⟨-, hout⟩, -⟩ := hstores.step (.read past name cap, -1)
    exact hout.resolve_left fun hio ↦ hneg hio.2
  · obtain ⟨-, ⟨-, hout⟩, -⟩ := hstores.step (.fsck, -1)
    exact hout.resolve_left fun hio ↦ hneg hio.2

/-- The file `a` is written twice, both times on a device that fails, and read once. -/
theorem durable_files_twice :
    let a : CStr := ⟨[97], by decide⟩
    ∃ es t files, es.map Prod.fst = [(Op.write (some a) (some fun _ ↦ 7) 3 false, 27),
        (Op.write (some a) (some fun _ ↦ 8) 4 false, 2), (Op.read (fun _ ↦ 0) (some a) 512, -1)] ∧
      Behaviour opSpec (fun _ ↦ none) es files ∧
      (∀ past name cap, (opStep (.read past name cap, -1) t).1 = readAnswer files cap name) ∧
      (opStep (.fsck, -1) t).1 = .ok [] := by
  intro a
  have hnil : Run opStep (fun _ _ ↦ True) (finalState (format.run devInit)) [] _ := .nil
  have hrun := ((hnil.snoc (Op.write (some a) (some fun _ ↦ 7) 3 false, 27) trivial).snoc
    (Op.write (some a) (some fun _ ↦ 8) 4 false, 2) trivial).snoc
    (Op.read (fun _ ↦ 0) (some a) 512, -1) trivial
  obtain ⟨files, hfiles⟩ := durable_files rfl (by decide) hrun
  exact ⟨_, _, files, rfl, hfiles⟩

end M16

end Mcsos
