import Mcsos.Mcsfs1j.Journal

/-!
# Crash and recovery of the journal

The block array of a device, read as a redo log. `Represents b s` says that `b` is an
implementation of the abstract state `s`: the blocks outside the journal area are the store, and
the journal area is either empty or holds exactly the records of a committed transaction.

Both operations are then followed through every cut of their write sequence, and the statement about
arbitrary crashes becomes one about `RedoLog.State.contents`, which no recovery attempt changes.
-/

namespace Mcsos

namespace M16

open RedoLog (State)

/-! ## The journal area and the rest -/

/-- The blocks from the journal header to the last payload, `LBA 1..17`. -/
def InJournal (x : ℕ) : Prop := journalStart ≤ x ∧ x < journalStart + journalBlocks

instance : DecidablePred InJournal := fun _ ↦ inferInstanceAs (Decidable (_ ∧ _))

theorem inJournal_iff {x : ℕ} : InJournal x ↔ 1 ≤ x ∧ x ≤ 17 := by
  simp only [InJournal, journalStart, journalBlocks, journalMaxRecords]
  omega

/-- The block array with the journal area blanked out: what a transaction is about. -/
def homeOf (b : ℕ → Block) (x : ℕ) : Block := if InJournal x then Buf.zero 512 else b x

theorem homeOf_of_not {b : ℕ → Block} {x : ℕ} (h : ¬InJournal x) : homeOf b x = b x := if_neg h

theorem homeOf_eq_iff {b b' : ℕ → Block} :
    homeOf b = homeOf b' ↔ ∀ x, ¬InJournal x → b x = b' x := by
  constructor
  · intro h x hx
    have hval := congrFun h x
    rwa [homeOf_of_not hx, homeOf_of_not hx] at hval
  · intro h
    funext x
    by_cases hx : InJournal x
    · rw [homeOf, homeOf, if_pos hx, if_pos hx]
    · rw [homeOf_of_not hx, homeOf_of_not hx, h x hx]

theorem homeOf_applyWrites {b : ℕ → Block} {ws : List (ℕ × Block)}
    (h : ∀ w ∈ ws, ¬InJournal w.1) :
    homeOf (applyWrites b ws) = applyWrites (homeOf b) ws := by
  funext x
  by_cases hx : InJournal x
  · have hne : ∀ w ∈ ws, w.1 ≠ x := fun w hw hwx ↦ h w hw (hwx ▸ hx)
    rw [applyWrites_of_notMem hne, homeOf, homeOf, if_pos hx, if_pos hx]
  · rw [homeOf_of_not hx]
    exact applyWrites_congr fun _ ↦ (homeOf_of_not hx).symm

theorem homeOf_applyWrites_of_journal {b : ℕ → Block} {ws : List (ℕ × Block)}
    (h : ∀ w ∈ ws, InJournal w.1) : homeOf (applyWrites b ws) = homeOf b := by
  rw [homeOf_eq_iff]
  intro x hx
  exact applyWrites_of_notMem fun w hw hwx ↦ hx (hwx ▸ h w hw)

theorem inJournal_journalStart : InJournal journalStart := by decide

theorem inJournal_clearWrite : InJournal clearWrite.1 := inJournal_journalStart

theorem inJournal_of_mem_recordWrites {tx : Tx} (hlen : tx.length ≤ journalMaxRecords)
    {w : ℕ × Block} (h : w ∈ recordWrites 0 tx) : InJournal w.1 ∧ w.1 ≠ journalStart := by
  have hw := mem_recordWrites h
  simp only [descLba, journalStart, journalMaxRecords] at hw hlen ⊢
  rw [inJournal_iff]
  omega

/-! ## The journal area as a log -/

/-- The header says that there is nothing to replay. -/
def HeaderEmpty (h : Block) : Prop := JournalHeader.magic h = 0 ∧ JournalHeader.state h = jEmpty

instance : DecidablePred HeaderEmpty := fun _ ↦ inferInstanceAs (Decidable (_ ∧ _))

theorem headerEmpty_zero : HeaderEmpty (Buf.zero 512) := ⟨Buf.load_zero 8 0, Buf.load_zero 4 12⟩

/-- The journal holds the records of `tx`, the first of them as record `i`. -/
def Logged (b : ℕ → Block) : ℕ → Tx → Prop
  | _, [] => True
  | i, r :: tx => b (descLba i) = journalDesc r ∧ b (dataLba i) = r.2 ∧ Logged b (i + 1) tx

theorem Logged.congr {b b' : ℕ → Block} {i : ℕ} {tx : Tx} (h : Logged b i tx)
    (heq : ∀ x, descLba i ≤ x → x < descLba (i + tx.length) → b' x = b x) : Logged b' i tx := by
  induction tx generalizing i with
  | nil => trivial
  | cons r tx ih =>
    obtain ⟨hdesc, hdata, hrest⟩ := h
    simp only [List.length_cons, descLba, dataLba] at heq hdesc hdata
    refine ⟨?_, ?_, ih hrest fun x hx hx' ↦ ?_⟩
    · rw [descLba, heq _ (by omega) (by omega), hdesc]
    · rw [dataLba, descLba, heq _ (by omega) (by omega), hdata]
    · simp only [descLba] at hx hx'
      exact heq x (by omega) (by omega)

theorem logged_applyWrites_recordWrites (b : ℕ → Block) (i : ℕ) (tx : Tx) :
    Logged (applyWrites b (recordWrites i tx)) i tx := by
  induction tx generalizing b i with
  | nil => trivial
  | cons r tx ih =>
    rw [recordWrites, applyWrites_cons, applyWrites_cons]
    -- the later records do not touch the two blocks of this one
    have hlater : ∀ x, x < descLba (i + 1) → ∀ w ∈ recordWrites (i + 1) tx, w.1 ≠ x := by
      intro x hx w hw hwx
      have := (mem_recordWrites hw).1
      omega
    refine ⟨?_, ?_, ih _ _⟩
    · rw [applyWrites_of_notMem (hlater _ (by simp only [descLba]; omega)),
        Function.update_of_ne (by simp only [dataLba]; omega), Function.update_self]
    · rw [applyWrites_of_notMem (hlater _ (by simp only [dataLba, descLba]; omega)),
        Function.update_self]

/-- The block array `b` implements the abstract redo log `s`. -/
structure Represents (b : ℕ → Block) (s : State ℕ Block) : Prop where
  home : homeOf b = s.home
  log : match s.log with
    | none => HeaderEmpty (b journalStart)
    | some tx => (∃ seq, b journalStart = journalHeader seq tx.length) ∧ Logged b 0 tx

/-- The targets of a transaction are blocks of the device outside the journal area. -/
def TargetsOk (totalBlocks : ℕ) (tx : Tx) : Prop :=
  ∀ r ∈ tx, (r.1 < totalBlocks ∧ r.1 < maxBlocks) ∧ ¬InJournal r.1

/-- A transaction that `m16_journal_commit` is meant to be given. -/
structure TxOk (totalBlocks : ℕ) (tx : Tx) : Prop where
  length_le : tx.length ≤ journalMaxRecords
  targets : TargetsOk totalBlocks tx

/-! ## Every cut of the write sequences -/

/-- The common tail of a commit and of a recovery: the records at their targets, then the header
cleared. Cut anywhere, it is a cut recovery. -/
theorem represents_replay {b : ℕ → Block} {home : ℕ → Block} {tx : Tx}
    (hb : Represents b ⟨home, some tx⟩) (hlen : tx.length ≤ journalMaxRecords)
    (hout : ∀ r ∈ tx, ¬InJournal r.1) (k : ℕ) :
    Represents (applyWrites b ((tx ++ [clearWrite]).take k))
      (State.recoverCut ⟨home, some tx⟩ k) := by
  obtain ⟨hhome, ⟨seq, hhdr⟩, hlog⟩ := hb
  by_cases hk : k ≤ tx.length
  · -- only targets were written: the journal still holds the transaction
    have hsub : ∀ w ∈ tx.take k, ¬InJournal w.1 := fun w hw ↦ hout w (List.mem_of_mem_take hw)
    have hkeep : ∀ x, InJournal x → applyWrites b (tx.take k) x = b x := fun x hx ↦
      applyWrites_of_notMem fun w hw hwx ↦ hsub w hw (hwx ▸ hx)
    rw [List.take_append_of_le_length hk, State.recoverCut]
    simp only [hk, if_true]
    refine ⟨?_, ⟨seq, ?_⟩, hlog.congr fun x hx hx' ↦ hkeep x ?_⟩
    · rw [homeOf_applyWrites hsub, hhome]
    · rw [hkeep _ inJournal_journalStart, hhdr]
    · simp only [descLba, journalStart, journalMaxRecords] at hx hx' hlen
      rw [inJournal_iff]
      omega
  · rw [List.take_of_length_le (by simp; omega), applyWrites_append, State.recoverCut]
    simp only [hk, if_false]
    refine ⟨?_, ?_⟩
    · rw [homeOf_applyWrites_of_journal (by simp [inJournal_clearWrite]), homeOf_applyWrites hout,
        hhome]
      rfl
    · exact headerEmpty_zero

/-- The first part of a commit leaves the contents alone until it contains the header. -/
theorem represents_commit {b : ℕ → Block} {home : ℕ → Block} (hb : Represents b ⟨home, none⟩)
    {tx : Tx} (hlen : tx.length ≤ journalMaxRecords) (hout : ∀ r ∈ tx, ¬InJournal r.1)
    (seq : ℕ) (stop : Bool) (k : ℕ) :
    Represents (applyWrites b ((commitWrites tx seq stop).take k))
      (if k ≤ 2 * tx.length + 1 then ⟨home, none⟩
        else State.recoverCut ⟨home, some tx⟩ (if stop then 0 else k - (2 * tx.length + 2))) := by
  obtain ⟨hhome, hempty⟩ := hb
  have hjournal : ∀ w ∈ clearWrite :: recordWrites 0 tx, InJournal w.1 := by
    intro w hw
    rcases List.mem_cons.mp hw with rfl | hw
    · exact inJournal_clearWrite
    · exact (inJournal_of_mem_recordWrites hlen hw).1
  have hpre : (clearWrite :: recordWrites 0 tx).length = 2 * tx.length + 1 := by
    rw [List.length_cons, length_recordWrites]
  rw [commitWrites]
  by_cases hk : k ≤ 2 * tx.length + 1
  · rw [if_pos hk, List.take_append_of_le_length (by omega)]
    refine ⟨?_, ?_⟩
    · rw [homeOf_applyWrites_of_journal fun w hw ↦ hjournal w (List.mem_of_mem_take hw), hhome]
    · -- the header is as before the commit, or cleared by its first write
      cases k with
      | zero => exact hempty
      | succ k =>
        have hstart : applyWrites b ((clearWrite :: recordWrites 0 tx).take (k + 1)) journalStart
            = Buf.zero 512 := by
          rw [List.take_succ_cons, applyWrites_cons, applyWrites_of_notMem fun w hw ↦
            (inJournal_of_mem_recordWrites hlen (List.mem_of_mem_take hw)).2]
          exact Function.update_self _ _ _
        show HeaderEmpty _
        rw [hstart]
        exact headerEmpty_zero
  · rw [if_neg hk]
    obtain ⟨j, rfl⟩ : ∃ j, k = (clearWrite :: recordWrites 0 tx).length + (j + 1) :=
      ⟨k - (2 * tx.length + 2), by omega⟩
    rw [List.take_append, List.take_of_length_le (by omega), Nat.add_sub_cancel_left,
      List.take_succ_cons, applyWrites_append, applyWrites_cons, hpre,
      show 2 * tx.length + 1 + (j + 1) - (2 * tx.length + 2) = j by omega]
    -- the state in which the header has just been written
    have hcommit : Represents (Function.update (applyWrites b (clearWrite :: recordWrites 0 tx))
        journalStart (journalHeader seq tx.length)) ⟨home, some tx⟩ := by
      refine ⟨?_, ⟨seq, Function.update_self _ _ _⟩, ?_⟩
      · rw [← hhome, ← homeOf_applyWrites_of_journal (b := b) hjournal, homeOf_eq_iff]
        intro x hx
        have hne : x ≠ journalStart := by rintro rfl; exact hx inJournal_journalStart
        exact Function.update_of_ne hne _ _
      · have hlogged := logged_applyWrites_recordWrites
          (Function.update b clearWrite.1 clearWrite.2) 0 tx
        rw [← applyWrites_cons] at hlogged
        refine hlogged.congr fun x hx _ ↦ Function.update_of_ne ?_ _ _
        simp only [descLba] at hx
        omega
    cases stop with
    | true => simpa [State.recoverCut] using hcommit
    | false => simpa using represents_replay hcommit hlen hout j

/-! ## Recovery -/

theorem run_journalRecover_empty {dev : Blockdev} (hvalid : validLba dev journalStart)
    (h : HeaderEmpty (dev.blocks journalStart)) : journalRecover.run dev = .ok () dev := by
  obtain ⟨hmagic, hstate⟩ := h
  rw [journalRecover, run_bind_of_ok (run_readBlock hvalid), if_pos ⟨hmagic, hstate⟩,
    EStateM.run_pure]

theorem run_journalReplay {dev : Blockdev} (htotal : 18 ≤ dev.totalBlocks) {i : ℕ} {tx : Tx}
    (hlen : i + tx.length ≤ journalMaxRecords) (hlog : Logged dev.blocks i tx)
    (hok : TargetsOk dev.totalBlocks tx) :
    (journalReplay i tx.length).run dev = (writeAll tx).run dev := by
  induction tx generalizing dev i with
  | nil => rfl
  | cons r tx ih =>
    obtain ⟨hdesc, hdata, hrest⟩ := hlog
    obtain ⟨⟨htot, hmax⟩, hout⟩ := hok r List.mem_cons_self
    simp only [List.length_cons, journalMaxRecords] at hlen
    have hvdesc : validLba dev (descLba i) := by
      simp only [validLba, descLba, journalStart, maxBlocks]; omega
    have hvdata : validLba dev (dataLba i) := by
      simp only [validLba, dataLba, descLba, journalStart, maxBlocks]; omega
    have htarget : JournalDesc.targetLba (journalDesc r) = r.1 :=
      targetLba_journalDesc (by simp only [maxBlocks] at hmax; omega)
    have hdescOk : ¬(JournalDesc.magic (journalDesc r) ≠ jmagic ∨
        ¬validLba dev (JournalDesc.targetLba (journalDesc r))) := by
      rw [htarget, not_or, not_not, not_not]
      exact ⟨magic_journalDesc r, htot, hmax⟩
    rw [List.length_cons, journalReplay, run_bind_of_ok (run_readBlock hvdesc), hdesc,
      run_bind_of_ok (EStateM.run_get dev), run_bind_of_ok (run_failIf_of_not hdescOk),
      run_bind_of_ok (run_readBlock hvdata), hdata,
      run_bind_of_ok (run_failIf_of_not (not_not.mpr (payloadChecksum_journalDesc r).symm)),
      htarget, writeAll]
    by_cases hf : dev.failAfter = 0
    · rw [run_bind_of_error (run_writeBlock_fail ⟨htot, hmax⟩ hf),
        run_bind_of_error (run_writeBlock_fail ⟨htot, hmax⟩ hf)]
    · rw [run_bind_of_ok (run_writeBlock ⟨htot, hmax⟩ hf),
        run_bind_of_ok (run_writeBlock ⟨htot, hmax⟩ hf)]
      refine @ih (dev.land (r.1, r.2)) htotal (i + 1) (by simp only [journalMaxRecords]; omega) ?_
        fun v hv ↦ hok v (List.mem_cons_of_mem r hv)
      refine hrest.congr fun x hx hx' ↦ Function.update_of_ne ?_ _ _
      rintro rfl
      simp only [descLba, journalStart] at hx hx'
      exact hout (inJournal_iff.mpr (by omega))

theorem validLba_journalStart {dev : Blockdev} (htotal : 18 ≤ dev.totalBlocks) :
    validLba dev journalStart := by
  simp only [validLba, journalStart, maxBlocks]
  omega

theorem not_empty_journalHeader (seq n : ℕ) :
    ¬(JournalHeader.magic (journalHeader seq n) = 0 ∧
      JournalHeader.state (journalHeader seq n) = jEmpty) := by
  rw [magic_journalHeader]
  exact fun h ↦ absurd h.1 (by norm_num [jmagic])

theorem run_journalRecover_of_header {dev : Blockdev} (htotal : 18 ≤ dev.totalBlocks) {seq n : ℕ}
    (hn : n ≤ journalMaxRecords) (hhdr : dev.blocks journalStart = journalHeader seq n) :
    journalRecover.run dev = (journalReplay 0 n >>= fun _ ↦ journalClear).run dev := by
  have hcount : JournalHeader.count (journalHeader seq n) = n :=
    count_journalHeader (by simp only [journalMaxRecords] at hn; omega)
  have hfields : ¬(JournalHeader.magic (journalHeader seq n) ≠ jmagic ∨
      JournalHeader.version (journalHeader seq n) ≠ version ∨
      JournalHeader.state (journalHeader seq n) ≠ jCommitted ∨
      JournalHeader.count (journalHeader seq n) > journalMaxRecords) := by
    rw [magic_journalHeader, version_journalHeader, state_journalHeader, hcount]
    simp [hn]
  rw [journalRecover, run_bind_of_ok (run_readBlock (validLba_journalStart htotal)), hhdr,
    if_neg (not_empty_journalHeader _ _), run_bind_of_ok (run_failIf_of_not hfields),
    run_bind_of_ok (run_failIf_of_not (not_not.mpr (headerChecksum_journalHeader _ _))), hcount]

theorem run_journalRecover_committed {dev : Blockdev} (htotal : 18 ≤ dev.totalBlocks) {tx : Tx}
    (htx : TxOk dev.totalBlocks tx) {seq : ℕ}
    (hhdr : dev.blocks journalStart = journalHeader seq tx.length)
    (hlog : Logged dev.blocks 0 tx) :
    journalRecover.run dev = (writeAll (tx ++ [clearWrite])).run dev := by
  have hlen := htx.length_le
  rw [run_journalRecover_of_header htotal hlen hhdr, EStateM.run_bind,
    run_journalReplay htotal (by omega) hlog htx.targets, writeAll_append, EStateM.run_bind,
    journalClear_eq_writeAll]

/-! ## Contents of a device

`Contents dev c` says that `c` is what the blocks outside the journal will be once `dev` has been
recovered. It is the invariant of every crash: an attempt at recovery keeps it, whatever number of
its writes land, and a commit changes it at the header. -/

/-- The state that `dev` is in can be recovered, and then its blocks outside the journal are `c`. -/
def Contents (dev : Blockdev) (c : ℕ → Block) : Prop :=
  ∃ s : State ℕ Block, Represents dev.blocks s ∧ (∀ tx, s.log = some tx → TxOk dev.totalBlocks tx) ∧
    s.contents = c

/-- The device has an empty journal. -/
def Clean (dev : Blockdev) : Prop := HeaderEmpty (dev.blocks journalStart)

theorem Clean.contents {dev : Blockdev} (h : Clean dev) : Contents dev (homeOf dev.blocks) :=
  ⟨⟨homeOf dev.blocks, none⟩, ⟨rfl, h⟩, fun _ htx ↦ (Option.some_ne_none _ htx.symm).elim, rfl⟩

theorem Contents.withFailAfter {dev : Blockdev} {c : ℕ → Block} (h : Contents dev c) (k : ℤ) :
    Contents (dev.withFailAfter k) c := h

/-- The device after one run of `m16_journal_recover` with `fail_after = k`. -/
def recoverAttempt (dev : Blockdev) (k : ℤ) : Blockdev :=
  finalState (journalRecover.run (dev.withFailAfter k))

theorem finalState_run_writeAll {dev : Blockdev} {ws : List (ℕ × Block)}
    (hvalid : ∀ w ∈ ws, validLba dev w.1) :
    finalState ((writeAll ws).run dev)
      = dev.landAll (ws.take (landed dev.failAfter ws.length)) := by
  rw [run_writeAll hvalid]
  split
  · next h => rw [h, List.take_length]; rfl
  · rfl

theorem validLba_replay {dev : Blockdev} (htotal : 18 ≤ dev.totalBlocks) {tx : Tx}
    (htx : TxOk dev.totalBlocks tx) : ∀ w ∈ tx ++ [clearWrite], validLba dev w.1 := by
  intro w hw
  rcases List.mem_append.mp hw with hw | hw
  · exact (htx.targets w hw).1
  · rw [List.mem_singleton.mp hw]
    exact validLba_journalStart htotal

/-- A recovery attempt, cut anywhere or complete, keeps the contents. -/
theorem Contents.recoverAttempt {dev : Blockdev} (htotal : 18 ≤ dev.totalBlocks)
    {c : ℕ → Block} (h : Contents dev c) (k : ℤ) :
    Contents (recoverAttempt dev k) c ∧ (recoverAttempt dev k).totalBlocks = dev.totalBlocks := by
  obtain ⟨⟨home, log⟩, hrep, hok, rfl⟩ := h
  rw [M16.recoverAttempt]
  cases log with
  | none =>
    rw [@run_journalRecover_empty (dev.withFailAfter k) (validLba_journalStart htotal)
      hrep.log, finalState_ok]
    exact ⟨⟨_, hrep, hok, rfl⟩, rfl⟩
  | some tx =>
    have htx : TxOk dev.totalBlocks tx := hok tx rfl
    obtain ⟨⟨seq, hhdr⟩, hlog⟩ := hrep.log
    rw [@run_journalRecover_committed (dev.withFailAfter k) htotal tx htx seq hhdr hlog,
      @finalState_run_writeAll (dev.withFailAfter k) _ (validLba_replay htotal htx)]
    refine ⟨⟨_, ?_, ?_, State.contents_recoverCut ⟨home, some tx⟩
      (landed k (tx ++ [clearWrite]).length)⟩, totalBlocks_landAll _ _⟩
    · rw [blocks_landAll]
      exact represents_replay hrep htx.length_le (fun r hr ↦ (htx.targets r hr).2) _
    · intro tx' htx'
      rw [totalBlocks_landAll]
      exact hok tx' (State.log_of_log_recoverCut htx')

theorem Contents.foldl_recoverAttempt {dev : Blockdev} (htotal : 18 ≤ dev.totalBlocks)
    {c : ℕ → Block} (h : Contents dev c) (ks : List ℤ) :
    Contents (ks.foldl M16.recoverAttempt dev) c ∧
      (ks.foldl M16.recoverAttempt dev).totalBlocks = dev.totalBlocks := by
  induction ks generalizing dev with
  | nil => exact ⟨h, rfl⟩
  | cons k ks ih =>
    obtain ⟨hk, hkt⟩ := h.recoverAttempt htotal k
    obtain ⟨hrest, hrestt⟩ := ih (by rw [hkt]; exact htotal) hk
    exact ⟨hrest, hrestt.trans hkt⟩

theorem Contents.recover {dev : Blockdev} (htotal : 18 ≤ dev.totalBlocks)
    (hf : dev.failAfter < 0) {c : ℕ → Block} (h : Contents dev c) :
    ∃ dev', journalRecover.run dev = .ok () dev' ∧ Clean dev' ∧ homeOf dev'.blocks = c ∧
      dev'.totalBlocks = dev.totalBlocks := by
  obtain ⟨⟨home, log⟩, hrep, hok, rfl⟩ := h
  cases log with
  | none =>
    exact ⟨dev, run_journalRecover_empty (validLba_journalStart htotal) hrep.log, hrep.log,
      hrep.home, rfl⟩
  | some tx =>
    have htx : TxOk dev.totalBlocks tx := hok tx rfl
    obtain ⟨⟨seq, hhdr⟩, hlog⟩ := hrep.log
    have hall : landed dev.failAfter (tx ++ [clearWrite]).length = (tx ++ [clearWrite]).length :=
      if_pos hf
    have hdone := represents_replay hrep htx.length_le (fun r hr ↦ (htx.targets r hr).2)
      (tx ++ [clearWrite]).length
    rw [List.take_length, State.recoverCut] at hdone
    simp only [List.length_append, List.length_singleton, Nat.not_succ_le_self, if_false] at hdone
    refine ⟨dev.landAll (tx ++ [clearWrite]), ?_, ?_, ?_, totalBlocks_landAll _ _⟩
    · rw [run_journalRecover_committed htotal htx hhdr hlog,
        run_writeAll (validLba_replay htotal htx), if_pos hall]
    · rw [Clean, blocks_landAll]
      exact hdone.log
    · rw [blocks_landAll, hdone.home]
      rfl

/-! ## Commit -/

/-- The committed header is among the block writes of `m16_journal_commit` that landed, when it
was run with `fail_after = cut`. -/
def HeaderWritten (tx : Tx) (seq : ℕ) (stop : Bool) (cut : ℤ) : Prop :=
  (journalStart, journalHeader seq tx.length) ∈
    (commitWrites tx seq stop).take (landed cut (commitWrites tx seq stop).length)

theorem length_commitWrites (tx : Tx) (seq : ℕ) (stop : Bool) :
    (commitWrites tx seq stop).length
      = 2 * tx.length + 2 + if stop then 0 else tx.length + 1 := by
  rw [commitWrites, List.length_append, List.length_cons, length_recordWrites, List.length_cons]
  cases stop with
  | true => simp
  | false => simp; ring

theorem journalHeader_ne_zero (seq count : ℕ) : journalHeader seq count ≠ Buf.zero 512 := by
  intro h
  have hmagic := magic_journalHeader seq count
  rw [h, JournalHeader.magic, Buf.load_zero] at hmagic
  norm_num [jmagic] at hmagic

theorem headerWritten_iff {tx : Tx} (hlen : tx.length ≤ journalMaxRecords) (seq : ℕ)
    (stop : Bool) (cut : ℤ) :
    HeaderWritten tx seq stop cut ↔
      ¬landed cut (commitWrites tx seq stop).length ≤ 2 * tx.length + 1 := by
  have hpre : (clearWrite :: recordWrites 0 tx).length = 2 * tx.length + 1 := by
    rw [List.length_cons, length_recordWrites]
  rw [HeaderWritten]
  generalize landed cut (commitWrites tx seq stop).length = k
  rw [commitWrites]
  constructor
  · intro hmem hk
    rw [List.take_append_of_le_length (by omega)] at hmem
    rcases List.mem_cons.mp (List.mem_of_mem_take hmem) with h | h
    · exact journalHeader_ne_zero seq tx.length (congrArg Prod.snd h)
    · exact (inJournal_of_mem_recordWrites hlen h).2 rfl
  · intro hk
    obtain ⟨j, hj⟩ : ∃ j, k = (clearWrite :: recordWrites 0 tx).length + (j + 1) :=
      ⟨k - (2 * tx.length + 2), by omega⟩
    rw [hj, List.take_append, Nat.add_sub_cancel_left, List.take_succ_cons]
    exact List.mem_append_right _ List.mem_cons_self

theorem validLba_commitWrites {dev : Blockdev} (htotal : 18 ≤ dev.totalBlocks) {tx : Tx}
    (htx : TxOk dev.totalBlocks tx) (seq : ℕ) (stop : Bool) :
    ∀ w ∈ commitWrites tx seq stop, validLba dev w.1 := by
  intro w hw
  rw [commitWrites, List.mem_append, List.mem_cons, List.mem_cons] at hw
  rcases hw with (rfl | hw) | rfl | hw
  · exact validLba_journalStart htotal
  · have hj := inJournal_iff.mp (inJournal_of_mem_recordWrites htx.length_le hw).1
    simp only [validLba, maxBlocks]
    omega
  · exact validLba_journalStart htotal
  · cases stop with
    | true => simp at hw
    | false => exact validLba_replay htotal htx w (by simpa using hw)

theorem run_journalCommit {dev : Blockdev} (htotal : 18 ≤ dev.totalBlocks) {tx : Tx}
    (htx : TxOk dev.totalBlocks tx) (seq : ℕ) (stop : Bool) :
    (journalCommit tx seq stop).run dev =
      if landed dev.failAfter (commitWrites tx seq stop).length = (commitWrites tx seq stop).length
      then .ok () (dev.landAll (commitWrites tx seq stop))
      else .error .io (dev.landAll ((commitWrites tx seq stop).take
        (landed dev.failAfter (commitWrites tx seq stop).length))) := by
  rw [journalCommit_eq_writeAll htx.length_le,
    run_writeAll (validLba_commitWrites htotal htx seq stop)]

/-- **A commit, cut anywhere.** The contents are as before until the header has been written, and
those of the whole transaction from then on. -/
theorem Clean.contents_commit {dev : Blockdev} (hclean : Clean dev)
    (htotal : 18 ≤ dev.totalBlocks) {tx : Tx} (htx : TxOk dev.totalBlocks tx) (seq : ℕ)
    (stop : Bool) :
    (HeaderWritten tx seq stop dev.failAfter →
      Contents (finalState ((journalCommit tx seq stop).run dev))
        (applyWrites (homeOf dev.blocks) tx)) ∧
    (¬HeaderWritten tx seq stop dev.failAfter →
      Contents (finalState ((journalCommit tx seq stop).run dev)) (homeOf dev.blocks)) := by
  have hrep : Represents dev.blocks ⟨homeOf dev.blocks, none⟩ := ⟨rfl, hclean⟩
  have hout : ∀ r ∈ tx, ¬InJournal r.1 := fun r hr ↦ (htx.targets r hr).2
  rw [headerWritten_iff htx.length_le, journalCommit_eq_writeAll htx.length_le,
    finalState_run_writeAll (validLba_commitWrites htotal htx seq stop), not_not]
  have hcut := represents_commit hrep htx.length_le hout seq stop
    (landed dev.failAfter (commitWrites tx seq stop).length)
  rw [← blocks_landAll] at hcut
  refine ⟨fun h ↦ ?_, fun h ↦ ?_⟩
  · rw [if_neg h] at hcut
    refine ⟨_, hcut, fun tx' htx' ↦ ?_, State.contents_recoverCut _ _⟩
    rw [totalBlocks_landAll, ← Option.some.inj (State.log_of_log_recoverCut htx')]
    exact htx
  · rw [if_pos h] at hcut
    exact ⟨_, hcut, fun _ htx' ↦ (Option.some_ne_none _ htx'.symm).elim, rfl⟩

/-- A commit by the write that fails. Up to the header it returns an error and the contents are as
before; later, or without a failing write, they are those of the whole transaction. -/
theorem Clean.cut_commit {dev : Blockdev} (hclean : Clean dev) (htotal : 18 ≤ dev.totalBlocks)
    {tx : Tx} (htx : TxOk dev.totalBlocks tx) (seq : ℕ) (stop : Bool) :
    (0 ≤ dev.failAfter ∧ dev.failAfter ≤ 2 * tx.length + 1 ∧
        returned ((journalCommit tx seq stop).run dev) = .error .io ∧
        Contents (finalState ((journalCommit tx seq stop).run dev)) (homeOf dev.blocks)) ∨
      ((dev.failAfter < 0 ∨ 2 * tx.length + 1 < dev.failAfter) ∧
        Contents (finalState ((journalCommit tx seq stop).run dev))
          (applyWrites (homeOf dev.blocks) tx)) := by
  have hlen := length_commitWrites tx seq stop
  obtain ⟨hwritten, hnot⟩ := hclean.contents_commit htotal htx seq stop
  have hearly := (headerWritten_iff htx.length_le seq stop dev.failAfter).trans
    (not_congr (landed_le_iff (by omega)))
  by_cases hw : HeaderWritten tx seq stop dev.failAfter
  · have hlate := hearly.mp hw
    exact .inr ⟨by omega, hwritten hw⟩
  · obtain ⟨hge, hle⟩ := not_not.mp (mt hearly.mpr hw)
    refine .inl ⟨hge, by omega, ?_, hnot hw⟩
    rw [run_journalCommit htotal htx, if_neg, returned_error]
    rw [landed_eq_iff]
    omega

/-- A commit that succeeds has written the header, and unless it was told to stop there it has
brought the transaction home. -/
theorem Clean.run_commit_ok {dev dev' : Blockdev} (hclean : Clean dev)
    (htotal : 18 ≤ dev.totalBlocks) {tx : Tx} (htx : TxOk dev.totalBlocks tx) {seq : ℕ}
    {stop : Bool}
    (hrun : (journalCommit tx seq stop).run dev = .ok () dev') :
    HeaderWritten tx seq stop dev.failAfter ∧
      (stop = false → Clean dev' ∧ homeOf dev'.blocks = applyWrites (homeOf dev.blocks) tx) := by
  have hlen := length_commitWrites tx seq stop
  rw [run_journalCommit htotal htx] at hrun
  split at hrun
  · next hall =>
    cases hrun
    refine ⟨?_, ?_⟩
    · rw [headerWritten_iff htx.length_le, hall, hlen]
      omega
    · rintro rfl
      have hrep : Represents dev.blocks ⟨homeOf dev.blocks, none⟩ := ⟨rfl, hclean⟩
      have hdone := represents_commit hrep htx.length_le (fun r hr ↦ (htx.targets r hr).2) seq
        false (commitWrites tx seq false).length
      rw [List.take_length, ← blocks_landAll, if_neg (by rw [hlen]; omega), if_neg (by simp),
        State.recoverCut] at hdone
      simp only [hlen, Bool.false_eq_true, if_false, Nat.add_sub_cancel_left,
        Nat.not_succ_le_self] at hdone
      exact ⟨hdone.log, hdone.home⟩
  · cases hrun

theorem totalBlocks_commit {dev : Blockdev} (htotal : 18 ≤ dev.totalBlocks) {tx : Tx}
    (htx : TxOk dev.totalBlocks tx) (seq : ℕ) (stop : Bool) :
    (finalState ((journalCommit tx seq stop).run dev)).totalBlocks = dev.totalBlocks := by
  rw [journalCommit_eq_writeAll htx.length_le,
    finalState_run_writeAll (validLba_commitWrites htotal htx seq stop), totalBlocks_landAll]

/-- **The journal is all or nothing.** Start from a device whose journal is empty, run a commit
that is cut by `fail_after = cut` (negative: not at all), then any number of recoveries that are
cut as well. One complete recovery succeeds, and leaves every block outside the journal area as
after the whole transaction if the committed header had been written, and as before the commit if
it had not. -/
theorem journal_all_or_nothing {dev : Blockdev} (hlo : 18 ≤ dev.totalBlocks)
    (hempty : HeaderEmpty (dev.blocks journalStart)) {tx : Tx}
    (hcount : tx.length ≤ journalMaxRecords) (htargets : TargetsOk dev.totalBlocks tx) (seq : ℕ)
    (stop : Bool) (cut : ℤ) (cuts : List ℤ) :
    ∃ dev', journalRecover.run
        ((cuts.foldl recoverAttempt
          (finalState ((journalCommit tx seq stop).run (dev.withFailAfter cut)))).withFailAfter
            (-1)) = .ok () dev' ∧
      (HeaderWritten tx seq stop cut →
        ∀ x, ¬InJournal x → dev'.blocks x = applyWrites dev.blocks tx x) ∧
      (¬HeaderWritten tx seq stop cut → ∀ x, ¬InJournal x → dev'.blocks x = dev.blocks x) := by
  have htx : TxOk dev.totalBlocks tx := ⟨hcount, htargets⟩
  have hclean : Clean (dev.withFailAfter cut) := hempty
  obtain ⟨hwritten, hnot⟩ := hclean.contents_commit hlo htx seq stop
  have htot := @totalBlocks_commit (dev.withFailAfter cut) hlo tx htx seq stop
  -- whatever the contents are after the commit, they come home
  have hfinish : ∀ c, Contents (finalState ((journalCommit tx seq stop).run
      (dev.withFailAfter cut))) c → ∃ dev', journalRecover.run ((cuts.foldl recoverAttempt
        (finalState ((journalCommit tx seq stop).run (dev.withFailAfter cut)))).withFailAfter
          (-1)) = .ok () dev' ∧ homeOf dev'.blocks = c := by
    intro c hc
    obtain ⟨hcuts, hcutst⟩ := hc.foldl_recoverAttempt (by rw [htot]; exact hlo) cuts
    obtain ⟨dev', hrun, -, hhome, -⟩ := (hcuts.withFailAfter (-1)).recover
      (by rw [totalBlocks_withFailAfter, hcutst, htot]; exact hlo) (by simp)
    exact ⟨dev', hrun, hhome⟩
  by_cases hw : HeaderWritten tx seq stop cut
  · obtain ⟨dev', hrun, hhome⟩ := hfinish _ (hwritten hw)
    refine ⟨dev', hrun, fun _ ↦ ?_, fun h ↦ absurd hw h⟩
    rw [← homeOf_eq_iff, hhome, homeOf_applyWrites fun r hr ↦ (htargets r hr).2]
    rfl
  · obtain ⟨dev', hrun, hhome⟩ := hfinish _ (hnot hw)
    refine ⟨dev', hrun, fun h ↦ absurd h hw, fun _ ↦ ?_⟩
    rw [← homeOf_eq_iff, hhome]
    rfl

/-- A record for the inode bitmap, committed on a fresh device, with the commit cut in the middle
of the journal and one recovery cut at once. -/
theorem journal_all_or_nothing_devInit :
    ∃ dev', journalRecover.run
        (([0].foldl recoverAttempt (finalState ((journalCommit
          [(inodeBitmapLba, Buf.zero 512)] 1 false).run (devInit.withFailAfter 2)))).withFailAfter
            (-1)) = .ok () dev' ∧
      (HeaderWritten [(inodeBitmapLba, Buf.zero 512)] 1 false 2 → ∀ x, ¬InJournal x →
        dev'.blocks x = applyWrites devInit.blocks [(inodeBitmapLba, Buf.zero 512)] x) ∧
      (¬HeaderWritten [(inodeBitmapLba, Buf.zero 512)] 1 false 2 →
        ∀ x, ¬InJournal x → dev'.blocks x = devInit.blocks x) := by
  refine @journal_all_or_nothing devInit (by decide) headerEmpty_zero _ (by decide)
    (fun r hr ↦ ?_) 1 false 2 [0]
  rw [List.mem_singleton.mp hr]
  decide

end M16

end Mcsos
