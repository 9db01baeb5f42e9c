import Mcsos.Mcsfs1j.Consistency

/-!
# Recovery of a corrupt journal

`m16_journal_recover` checks a record and writes it to its target before it looks at the next one. A
journal that is rejected has therefore been applied up to the record that is bad: the device is
left as it was exactly when the header or the first record is rejected
(`recover_fails_closed_iff`). The device counts its block writes, so a device that is equal to the
one before has not been written to.

Nothing is assumed of the image: a record may have a block of the journal as its target, and change
the records after it.
-/

namespace Mcsos

namespace M16

/-! ## What is rejected -/

/-- The header is neither empty nor that of a committed transaction. -/
def HeaderRejected (h : Block) : Prop :=
  ¬HeaderEmpty h ∧ ((JournalHeader.magic h ≠ jmagic ∨ JournalHeader.version h ≠ version ∨
    JournalHeader.state h ≠ jCommitted ∨ JournalHeader.count h > journalMaxRecords) ∨
      headerChecksum h ≠ JournalHeader.headerChecksum h)

/-- Record `i` has a descriptor without the magic number, a target that is not on the device, or a
payload with another checksum. -/
def RecordRejected (dev : Blockdev) (i : ℕ) : Prop :=
  (JournalDesc.magic (dev.blocks (descLba i)) ≠ jmagic ∨
    ¬validLba dev (JournalDesc.targetLba (dev.blocks (descLba i)))) ∨
  checksum (dev.blocks (dataLba i)).byte blockSize ≠
    JournalDesc.payloadChecksum (dev.blocks (descLba i))

variable {dev dev' : Blockdev} {i k lba : ℕ}

theorem run_readBlock_fail (h : ¬validLba dev lba) :
    (readBlock lba).run dev = .error .inval dev := by
  rw [readBlock, run_bind_of_ok (EStateM.run_get dev), run_bind_of_error (run_failIf_of h)]

/-! ## One round of the loop -/

/-- The device has the two blocks of record `i`. -/
def HasRecord (dev : Blockdev) (i : ℕ) : Prop := validLba dev (descLba i) ∧ validLba dev (dataLba i)

theorem run_journalReplay_rejected (h : RecordRejected dev i) :
    ∃ e, (HasRecord dev i → e = .corrupt) ∧ (journalReplay i (k + 1)).run dev = .error e dev := by
  rw [journalReplay]
  by_cases hdesc : validLba dev (descLba i)
  swap
  · exact ⟨_, fun hhas ↦ absurd hhas.1 hdesc, run_bind_of_error (run_readBlock_fail hdesc)⟩
  rw [run_bind_of_ok (run_readBlock hdesc), run_bind_of_ok (EStateM.run_get dev)]
  by_cases hhead : JournalDesc.magic (dev.blocks (descLba i)) ≠ jmagic ∨
      ¬validLba dev (JournalDesc.targetLba (dev.blocks (descLba i)))
  · exact ⟨_, fun _ ↦ rfl, run_bind_of_error (run_failIf_of hhead)⟩
  rw [run_bind_of_ok (run_failIf_of_not hhead)]
  by_cases hdata : validLba dev (dataLba i)
  swap
  · exact ⟨_, fun hhas ↦ absurd hhas.2 hdata, run_bind_of_error (run_readBlock_fail hdata)⟩
  rw [run_bind_of_ok (run_readBlock hdata)]
  exact ⟨_, fun _ ↦ rfl, run_bind_of_error (run_failIf_of (h.resolve_left hhead))⟩

/-- A record that is not rejected is written, unless the device fails. -/
theorem run_journalReplay_accepted (h : ¬RecordRejected dev i) :
    (∃ e, e ≠ .corrupt ∧ ¬(HasRecord dev i ∧ dev.failAfter ≠ 0) ∧
        (journalReplay i (k + 1)).run dev = .error e dev) ∨
      (journalReplay i (k + 1)).run dev = (journalReplay (i + 1) k).run
        (dev.land (JournalDesc.targetLba (dev.blocks (descLba i)), dev.blocks (dataLba i))) := by
  obtain ⟨hhead, hsum⟩ := not_or.mp h
  have htarget : validLba dev (JournalDesc.targetLba (dev.blocks (descLba i))) :=
    not_not.mp (not_or.mp hhead).2
  rw [journalReplay]
  by_cases hdesc : validLba dev (descLba i)
  swap
  · exact .inl ⟨_, by decide, fun hand ↦ hdesc hand.1.1,
      run_bind_of_error (run_readBlock_fail hdesc)⟩
  rw [run_bind_of_ok (run_readBlock hdesc), run_bind_of_ok (EStateM.run_get dev),
    run_bind_of_ok (run_failIf_of_not hhead)]
  by_cases hdata : validLba dev (dataLba i)
  swap
  · exact .inl ⟨_, by decide, fun hand ↦ hdata hand.1.2,
      run_bind_of_error (run_readBlock_fail hdata)⟩
  rw [run_bind_of_ok (run_readBlock hdata), run_bind_of_ok (run_failIf_of_not hsum)]
  by_cases hf : dev.failAfter = 0
  · exact .inl ⟨_, by decide, fun hand ↦ hand.2 hf,
      run_bind_of_error (run_writeBlock_fail htarget hf)⟩
  · exact .inr (run_bind_of_ok (run_writeBlock htarget hf))

/-- The loop counts the blocks that it writes. -/
theorem writes_journalReplay : ∃ j ≤ k,
    (finalState ((journalReplay i k).run dev)).writes = dev.writes + UInt64.ofNat j := by
  induction k generalizing dev i with
  | zero => exact ⟨0, le_rfl, (UInt64.add_zero _).symm⟩
  | succ k ih =>
    by_cases h : RecordRejected dev i
    · obtain ⟨e, -, hrun⟩ := @run_journalReplay_rejected dev i k h
      rw [hrun]
      exact ⟨0, Nat.zero_le _, (UInt64.add_zero _).symm⟩
    · rcases @run_journalReplay_accepted dev i k h with ⟨e, -, -, hrun⟩ | hrun
      · rw [hrun]
        exact ⟨0, Nat.zero_le _, (UInt64.add_zero _).symm⟩
      · rw [hrun]
        obtain ⟨j, hj, hwrites⟩ := @ih (dev.land (_, _)) (i + 1)
        rw [hwrites]
        refine ⟨1 + j, by omega, ?_⟩
        rw [UInt64.ofNat_add, ← UInt64.add_assoc]
        rfl

/-! ## The whole recovery -/

theorem run_journalClear_ne_corrupt : journalClear.run dev ≠ .error .corrupt dev' := by
  rw [journalClear]
  by_cases hvalid : validLba dev journalStart
  · by_cases hf : dev.failAfter = 0
    · rw [run_writeBlock_fail hvalid hf]
      rintro ⟨⟩
    · rw [run_writeBlock hvalid hf]
      rintro ⟨⟩
  · rw [writeBlock, run_bind_of_ok (EStateM.run_get dev), run_bind_of_error (run_failIf_of hvalid)]
    rintro ⟨⟩

theorem run_journalRecover_rejected (hvalid : validLba dev journalStart)
    (h : HeaderRejected (dev.blocks journalStart)) :
    journalRecover.run dev = .error .corrupt dev := by
  obtain ⟨hempty, hbad⟩ := h
  rw [HeaderEmpty] at hempty
  rw [journalRecover, run_bind_of_ok (run_readBlock hvalid), if_neg hempty]
  by_cases hfields : JournalHeader.magic (dev.blocks journalStart) ≠ jmagic ∨
      JournalHeader.version (dev.blocks journalStart) ≠ version ∨
      JournalHeader.state (dev.blocks journalStart) ≠ jCommitted ∨
      JournalHeader.count (dev.blocks journalStart) > journalMaxRecords
  · exact run_bind_of_error (run_failIf_of hfields)
  · rw [run_bind_of_ok (run_failIf_of_not hfields)]
    exact run_bind_of_error (run_failIf_of (hbad.resolve_left hfields))

/-- A recovery that returns `M16_E_CORRUPT` has rejected the header, or stopped in the loop. -/
theorem of_journalRecover_corrupt (h : journalRecover.run dev = .error .corrupt dev') :
    HeaderRejected (dev.blocks journalStart) ∧ dev' = dev ∨
      ¬HeaderRejected (dev.blocks journalStart) ∧ ∃ k ≤ journalMaxRecords,
        (journalReplay 0 k).run dev = .error .corrupt dev' := by
  rw [journalRecover] at h
  by_cases hvalid : validLba dev journalStart
  swap
  · rw [run_bind_of_error (run_readBlock_fail hvalid)] at h
    cases h
  rw [run_bind_of_ok (run_readBlock hvalid)] at h
  by_cases hempty : JournalHeader.magic (dev.blocks journalStart) = 0 ∧
      JournalHeader.state (dev.blocks journalStart) = jEmpty
  · rw [if_pos hempty, EStateM.run_pure] at h
    cases h
  rw [if_neg hempty] at h
  by_cases hfields : JournalHeader.magic (dev.blocks journalStart) ≠ jmagic ∨
      JournalHeader.version (dev.blocks journalStart) ≠ version ∨
      JournalHeader.state (dev.blocks journalStart) ≠ jCommitted ∨
      JournalHeader.count (dev.blocks journalStart) > journalMaxRecords
  · rw [run_bind_of_error (run_failIf_of hfields)] at h
    cases h
    exact .inl ⟨⟨hempty, .inl hfields⟩, rfl⟩
  rw [run_bind_of_ok (run_failIf_of_not hfields)] at h
  by_cases hsum : headerChecksum (dev.blocks journalStart) ≠
      JournalHeader.headerChecksum (dev.blocks journalStart)
  · rw [run_bind_of_error (run_failIf_of hsum)] at h
    cases h
    exact .inl ⟨⟨hempty, .inr hsum⟩, rfl⟩
  rw [run_bind_of_ok (run_failIf_of_not hsum)] at h
  have hcount : JournalHeader.count (dev.blocks journalStart) ≤ journalMaxRecords :=
    not_lt.mp (not_or.mp (not_or.mp (not_or.mp hfields).2).2).2
  refine .inr ⟨fun hrejected ↦ hrejected.2.elim hfields hsum, _, hcount, ?_⟩
  cases hreplay : (journalReplay 0 (JournalHeader.count (dev.blocks journalStart))).run dev with
  | ok u t =>
    rw [run_bind_of_ok hreplay] at h
    exact absurd h run_journalClear_ne_corrupt
  | error e t => rwa [run_bind_of_error hreplay] at h

/-- **Recovery fails closed on its first record only.** A recovery that returns `M16_E_CORRUPT` has
written nothing exactly when it rejects the header or the first record. -/
theorem recover_fails_closed_iff (h : journalRecover.run dev = .error .corrupt dev') :
    dev' = dev ↔ HeaderRejected (dev.blocks journalStart) ∨ RecordRejected dev 0 := by
  rcases of_journalRecover_corrupt h with ⟨hrejected, rfl⟩ | ⟨hheader, k, hk, hreplay⟩
  · exact iff_of_true rfl (.inl hrejected)
  cases k with
  | zero =>
    rw [journalReplay, EStateM.run_pure] at hreplay
    cases hreplay
  | succ k =>
    by_cases hrecord : RecordRejected dev 0
    · obtain ⟨e, -, hrun⟩ := @run_journalReplay_rejected dev 0 k hrecord
      rw [hrun] at hreplay
      cases hreplay
      exact iff_of_true rfl (.inr hrecord)
    · refine iff_of_false (fun heq ↦ ?_) (not_or.mpr ⟨hheader, hrecord⟩)
      rcases @run_journalReplay_accepted dev 0 k hrecord with ⟨e, hne, -, hrun⟩ | hrun
      · rw [hrun] at hreplay
        cases hreplay
        exact hne rfl
      · -- the first record has been written, and the counter tells
        obtain ⟨j, hj, hwrites⟩ := @writes_journalReplay (dev.land (_, _)) (0 + 1) k
        rw [← hrun, hreplay, finalState_error, heq] at hwrites
        have hzero : dev.writes + 0 = dev.writes + (1 + UInt64.ofNat j) := by
          rw [UInt64.add_zero, ← UInt64.add_assoc]
          exact hwrites
        have hnat := congrArg UInt64.toNat ((UInt64.add_right_inj _).mp hzero)
        rw [← UInt64.ofNat_one, ← UInt64.ofNat_add, UInt64.toNat_ofNat_of_lt'] at hnat
        · exact absurd hnat (by rw [UInt64.toNat_zero]; omega)
        · exact lt_of_le_of_lt (show 1 + j ≤ 8 by simp only [journalMaxRecords] at hk; omega)
            (by decide)

/-- A block that begins with the byte 7. -/
def sevens : Block := (Buf.zero 512).store 1 0 7

/-- A committed transaction with two records, the descriptor of `bad` overwritten with zeros. -/
def tornImage (bad : ℕ) : Blockdev where
  blocks := Function.update
    (applyWrites devInit.blocks (commitWrites [(25, sevens), (26, sevens)] 1 true))
    (descLba bad) (Buf.zero 512)
  totalBlocks := devInit.totalBlocks
  writes := devInit.writes
  failAfter := devInit.failAfter

/-- The first record is bad: nothing is written. -/
theorem recover_fails_closed_iff_first : ∃ dev',
    journalRecover.run (tornImage 0) = .error .corrupt dev' ∧ dev' = tornImage 0 := by
  have hrun := eq_error_of_returned
    (show returned (journalRecover.run (tornImage 0)) = .error .corrupt by decide +kernel)
  exact ⟨_, hrun, (recover_fails_closed_iff hrun).mpr (.inr (.inl (.inl (by decide +kernel))))⟩

/-- The second record is bad: the first one has been written to block 25. -/
theorem recover_applies_before_reject : ∃ dev',
    journalRecover.run (tornImage 1) = .error .corrupt dev' ∧
      (dev'.blocks 25).byte 0 = 7 ∧ ((tornImage 1).blocks 25).byte 0 = 0 := by
  have hrun := eq_error_of_returned
    (show returned (journalRecover.run (tornImage 1)) = .error .corrupt by decide +kernel)
  exact ⟨_, hrun, by decide +kernel, by decide +kernel⟩

end M16

end Mcsos
