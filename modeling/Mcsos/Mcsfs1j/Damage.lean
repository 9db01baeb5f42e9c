import Mcsos.Mcsfs1j.FailClosed

/-!
# Damage to a committed journal

One byte of the journal is changed after `m16_journal_commit` has written the committed header, and
before the header is cleared (`Committed`).

Every round of `m16_checksum` is a permutation of the running hash, so a checksum notices the change
of one byte (`checksum_ne`). The header carries its own checksum and each payload block has one in
its descriptor: recovery rejects the journal (`damaged_journal_rejected`). A descriptor has none.
Its magic number and its payload checksum cannot be changed unnoticed, and its reserved bytes are
not read, but the low byte of its target may name another block of the device, and recovery writes
the payload there (`damaged_descriptor_iff`). A payload that goes to a block of the journal is lost;
if a later record has its descriptor or its payload there, that record is rejected or goes astray in
its turn (`strayWrites`).

A replay goes through the records in order. Records that pass are written to their targets, which
lie outside the journal and leave the later records as they are (`Replayable.run_add`).
-/

namespace Mcsos

namespace M16

/-- The device with one byte of one block changed. -/
def Blockdev.damage (dev : Blockdev) (lba i : ℕ) (v : UInt8) : Blockdev :=
  { dev with blocks := Function.update dev.blocks lba ((dev.blocks lba).poke i v) }

/-- The journal holds the transaction and its committed header. -/
structure Committed (dev : Blockdev) (tx : Tx) : Prop where
  header : ∃ seq, dev.blocks journalStart = journalHeader seq tx.length
  logged : Logged dev.blocks 0 tx

variable {dev dev' : Blockdev} {tx : Tx} {i k lba m seq : ℕ} {v : UInt8} {stop : Bool} {cut : ℤ}

/-! ## After the commit -/

/-- A commit that has been cut between the committed header and the clearing of it. The journal
before the commit does not matter, since the first write of the commit clears its header. -/
theorem committed_of_commit (htotal : 18 ≤ dev.totalBlocks) (htx : TxOk dev.totalBlocks tx)
    (hwritten : HeaderWritten tx seq stop dev.failAfter)
    (hthere : ¬HeaderEmpty
      ((finalState ((journalCommit tx seq stop).run dev)).blocks journalStart)) :
    Committed (finalState ((journalCommit tx seq stop).run dev)) tx := by
  rw [headerWritten_iff htx.length_le] at hwritten
  rw [journalCommit_eq_writeAll htx.length_le,
    finalState_run_writeAll (validLba_commitWrites htotal htx seq stop)] at hthere ⊢
  generalize landed dev.failAfter (commitWrites tx seq stop).length = n at *
  rw [blocks_landAll] at hthere
  have hout : ∀ r ∈ tx, ¬InJournal r.1 := fun r hr ↦ (htx.targets r hr).2
  -- the same writes over a journal that is empty
  have hclear : applyWrites dev.blocks ((commitWrites tx seq stop).take n) =
      applyWrites (Function.update dev.blocks journalStart (Buf.zero 512))
        ((commitWrites tx seq stop).take n) := by
    obtain ⟨n, rfl⟩ : ∃ j, n = j + 1 := ⟨n - 1, by omega⟩
    rw [commitWrites, List.cons_append, List.take_succ_cons, applyWrites_cons, applyWrites_cons]
    exact congrArg (applyWrites · _) (Function.update_idem _ _ _).symm
  have hempty : Represents (Function.update dev.blocks journalStart (Buf.zero 512))
      ⟨homeOf (Function.update dev.blocks journalStart (Buf.zero 512)), none⟩ := by
    refine ⟨rfl, ?_⟩
    rw [Function.update_self]
    exact headerEmpty_zero
  have hrep := represents_commit hempty htx.length_le hout seq stop n
  rw [if_neg hwritten, ← hclear] at hrep
  generalize (if stop = true then 0 else n - (2 * tx.length + 2)) = j at hrep
  rw [RedoLog.State.recoverCut] at hrep
  dsimp only at hrep
  split_ifs at hrep with hcut
  · obtain ⟨hheader, hlogged⟩ := hrep.log
    rw [← blocks_landAll] at hheader hlogged
    exact ⟨hheader, hlogged⟩
  · exact absurd hrep.log hthere

theorem Logged.record {b : ℕ → Block} (h : Logged b i tx) (hk : k < tx.length) :
    b (descLba (i + k)) = journalDesc tx[k] ∧ b (dataLba (i + k)) = tx[k].2 := by
  induction tx generalizing i k with
  | nil => exact absurd hk (Nat.not_lt_zero k)
  | cons r tx ih =>
    obtain ⟨hdesc, hdata, hrest⟩ := h
    cases k with
    | zero => exact ⟨hdesc, hdata⟩
    | succ k =>
      have hrec := ih hrest (Nat.lt_of_succ_lt_succ hk)
      rw [Nat.add_right_comm, Nat.add_assoc] at hrec
      exact hrec

/-! ## Replaying one record -/

/-- Record `j` passes the checks of recovery, and leads to the write `r`. -/
structure Passes (dev : Blockdev) (j : ℕ) (r : Jrec) : Prop where
  accepted : ¬RecordRejected dev j
  target : JournalDesc.targetLba (dev.blocks (descLba j)) = r.1
  payload : dev.blocks (dataLba j) = r.2

theorem inJournal_descLba (h : k < journalMaxRecords) : InJournal (descLba k) := by
  rw [inJournal_iff, descLba, journalStart]
  rw [journalMaxRecords] at h
  omega

theorem inJournal_dataLba (h : k < journalMaxRecords) : InJournal (dataLba k) := by
  rw [inJournal_iff, dataLba, descLba, journalStart]
  rw [journalMaxRecords] at h
  omega

theorem hasRecord_of_le (htotal : 18 ≤ dev.totalBlocks) (h : k < journalMaxRecords) :
    HasRecord dev k := by
  have hdesc := inJournal_iff.mp (inJournal_descLba h)
  have hdata := inJournal_iff.mp (inJournal_dataLba h)
  simp only [HasRecord, validLba, maxBlocks]
  omega

theorem recordRejected_congr (htotal : dev'.totalBlocks = dev.totalBlocks)
    (hdesc : dev'.blocks (descLba k) = dev.blocks (descLba k))
    (hdata : dev'.blocks (dataLba k) = dev.blocks (dataLba k)) :
    RecordRejected dev' k ↔ RecordRejected dev k := by
  rw [RecordRejected, RecordRejected, hdesc, hdata, validLba, validLba, htotal]

theorem Passes.congr {r : Jrec} (h : Passes dev k r) (htotal : dev'.totalBlocks = dev.totalBlocks)
    (hdesc : dev'.blocks (descLba k) = dev.blocks (descLba k))
    (hdata : dev'.blocks (dataLba k) = dev.blocks (dataLba k)) : Passes dev' k r :=
  ⟨fun hrej ↦ h.accepted ((recordRejected_congr htotal hdesc hdata).mp hrej), hdesc ▸ h.target,
    hdata ▸ h.payload⟩

theorem Passes.land {r : Jrec} {w : ℕ × Block} (h : Passes dev k r) (hdesc : descLba k ≠ w.1)
    (hdata : dataLba k ≠ w.1) : Passes (dev.land w) k r :=
  h.congr rfl (Function.update_of_ne hdesc _ _) (Function.update_of_ne hdata _ _)

theorem failAfter_land_of_neg (hf : dev.failAfter < 0) (w : ℕ × Block) :
    (dev.land w).failAfter < 0 := by
  rw [show (dev.land w).failAfter = dev.failAfter from if_neg (by omega)]
  exact hf

section Round

variable (htotal : 18 ≤ dev.totalBlocks) (hi : i < journalMaxRecords)
include htotal hi

theorem run_journalReplay_corrupt (h : RecordRejected dev i) :
    (journalReplay i (k + 1)).run dev = .error .corrupt dev := by
  obtain ⟨e, hcorrupt, hrun⟩ := @run_journalReplay_rejected dev i k h
  rw [hrun, hcorrupt (hasRecord_of_le htotal hi)]

theorem run_journalReplay_passed {r : Jrec} (hf : dev.failAfter < 0) (h : Passes dev i r) :
    (journalReplay i (k + 1)).run dev = (journalReplay (i + 1) k).run (dev.land r) := by
  have hrun := (@run_journalReplay_accepted dev i k h.accepted).resolve_left
    fun ⟨_, _, hnot, _⟩ ↦ hnot ⟨hasRecord_of_le htotal hi, hf.ne⟩
  rwa [h.target, h.payload] at hrun

end Round

/-! ## Replaying many records -/

/-- A replay that has started on `dev` finds the journal corrupt, or it performs the given writes
outside the journal. -/
inductive ReplayEnds (dev : Blockdev) : Option Tx → EStateM.Result Err Blockdev Unit → Prop
  | corrupt (dev' : Blockdev) : ReplayEnds dev none (.error .corrupt dev')
  | ok {ws : Tx} {dev' : Blockdev} (htotal : dev'.totalBlocks = dev.totalBlocks)
    (hf : dev'.failAfter < 0)
    (hblocks : ∀ x, ¬InJournal x → dev'.blocks x = applyWrites dev.blocks ws x) :
    ReplayEnds dev (some ws) (.ok () dev')

variable {out : Option Tx} {res : EStateM.Result Err Blockdev Unit} {w : ℕ × Block} {p : Block}

theorem ReplayEnds.of_land (h : ReplayEnds (dev.land w) out res) :
    ReplayEnds dev (out.map (w :: ·)) res := by
  cases h with
  | corrupt dev' => exact .corrupt dev'
  | ok htotal hf hblocks => exact .ok htotal hf hblocks

theorem ReplayEnds.of_landAll (h : ReplayEnds (dev.landAll tx) out res) :
    ReplayEnds dev (out.map (tx ++ ·)) res := by
  induction tx generalizing dev with
  | nil =>
    have hid : out.map (([] : Tx) ++ ·) = out := Option.map_id_fun' ▸ rfl
    rw [hid]
    exact h
  | cons r tx ih =>
    have hmap : out.map (r :: tx ++ ·) = (out.map (tx ++ ·)).map (r :: ·) := by
      rw [Option.map_map]
      rfl
    rw [hmap]
    exact (@ih (dev.land r) h).of_land

/-- The records `tx`, the first of which is record `i`, are in the journal and pass. -/
structure Replayable (dev : Blockdev) (i : ℕ) (tx : Tx) : Prop where
  total : 18 ≤ dev.totalBlocks
  failAfter : dev.failAfter < 0
  length_le : i + tx.length ≤ journalMaxRecords
  home : ∀ r ∈ tx, ¬InJournal r.1
  passes : ∀ k (hk : k < tx.length), Passes dev (i + k) tx[k]

namespace Replayable

variable {r : Jrec}

theorem land (h : Replayable dev i tx) (hw : ∀ k, i ≤ k → k < journalMaxRecords →
    descLba k ≠ w.1 ∧ dataLba k ≠ w.1) : Replayable (dev.land w) i tx where
  total := h.total
  failAfter := failAfter_land_of_neg h.failAfter w
  length_le := h.length_le
  home := h.home
  passes k hk := by
    have hle := h.length_le
    obtain ⟨hdesc, hdata⟩ := hw (i + k) (Nat.le_add_right i k) (by omega)
    exact (h.passes k hk).land hdesc hdata

theorem land_home (h : Replayable dev i tx) (hw : ¬InJournal w.1) :
    Replayable (dev.land w) i tx := by
  refine h.land fun k _ hk ↦ ⟨?_, ?_⟩
  · exact fun heq ↦ hw (heq ▸ inJournal_descLba hk)
  · exact fun heq ↦ hw (heq ▸ inJournal_dataLba hk)

theorem land_before (h : Replayable dev i tx) (hw : w.1 < descLba i) :
    Replayable (dev.land w) i tx := by
  refine h.land fun k hk _ ↦ ?_
  simp only [dataLba, descLba] at hw ⊢
  omega

theorem landAll {ws : Tx} (h : Replayable dev i tx) (hws : ∀ w ∈ ws, ¬InJournal w.1) :
    Replayable (dev.landAll ws) i tx := by
  induction ws generalizing dev with
  | nil => exact h
  | cons w ws ih =>
    exact ih (h.land_home (hws w List.mem_cons_self)) fun x hx ↦ hws x (List.mem_cons_of_mem w hx)

theorem head (h : Replayable dev i (r :: tx)) : Passes dev i r := h.passes 0 (Nat.succ_pos _)

theorem index_lt (h : Replayable dev i (r :: tx)) : i < journalMaxRecords := by
  have hle := h.length_le
  rw [List.length_cons] at hle
  omega

theorem tail (h : Replayable dev i (r :: tx)) : Replayable dev (i + 1) tx where
  total := h.total
  failAfter := h.failAfter
  length_le := by
    have hle := h.length_le
    rw [List.length_cons] at hle
    omega
  home s hs := h.home s (List.mem_cons_of_mem r hs)
  passes k hk := by
    have hpass := h.passes (k + 1) (Nat.succ_lt_succ hk)
    rwa [List.getElem_cons_succ, Nat.add_comm k, ← Nat.add_assoc] at hpass

theorem blocks_landAll (h : Replayable dev i tx) (hlba : InJournal lba) :
    (dev.landAll tx).blocks lba = dev.blocks lba := by
  rw [M16.blocks_landAll]
  refine applyWrites_of_notMem fun w hw hwlba ↦ h.home w hw ?_
  rwa [hwlba]

/-- Records that pass are written, and `m` records are left. -/
theorem run_add (h : Replayable dev i tx) (m : ℕ) : (journalReplay i (tx.length + m)).run dev =
    (journalReplay (i + tx.length) m).run (dev.landAll tx) := by
  induction tx generalizing dev i with
  | nil => rw [List.length_nil, Nat.zero_add, Nat.add_zero]; rfl
  | cons r tx ih =>
    rw [List.length_cons, Nat.add_right_comm,
      run_journalReplay_passed h.total h.index_lt h.failAfter h.head]
    -- the write is not in the journal, so the later records pass as before
    refine (ih (h.tail.land_home (h.home r List.mem_cons_self))).trans ?_
    rw [Nat.add_right_comm i 1, Nat.add_assoc i]
    rfl

theorem replayEnds (h : Replayable dev i tx) :
    ReplayEnds dev (some tx) ((journalReplay i tx.length).run dev) := by
  have hrun : (journalReplay i tx.length).run dev = .ok () (dev.landAll tx) := h.run_add 0
  rw [hrun]
  refine .ok (totalBlocks_landAll dev tx)
    ((failAfter_landAll_of_neg h.failAfter tx).trans_lt h.failAfter) fun x _ ↦ ?_
  rw [M16.blocks_landAll]

section Split

variable (h : Replayable dev 0 (tx.take k)) (hk : k < tx.length)
include h hk

theorem run_take : (journalReplay 0 tx.length).run dev =
    (journalReplay k ((tx.drop (k + 1)).length + 1)).run (dev.landAll (tx.take k)) := by
  have htake : (tx.take k).length = k := List.length_take_of_le hk.le
  have hcount : tx.length = (tx.take k).length + ((tx.drop (k + 1)).length + 1) := by
    rw [htake, List.length_drop]
    omega
  rw [hcount, h.run_add, htake, Nat.zero_add]

theorem replayEnds_rejected (hlen : tx.length ≤ journalMaxRecords) (hbad : RecordRejected dev k) :
    ReplayEnds dev none ((journalReplay 0 tx.length).run dev) := by
  have htotal : 18 ≤ (dev.landAll (tx.take k)).totalBlocks := by
    rw [totalBlocks_landAll]
    exact h.total
  have hbad' : RecordRejected (dev.landAll (tx.take k)) k :=
    (recordRejected_congr (totalBlocks_landAll _ _)
      (h.blocks_landAll (inJournal_descLba (by omega)))
      (h.blocks_landAll (inJournal_dataLba (by omega)))).mpr hbad
  rw [h.run_take hk, run_journalReplay_corrupt htotal (by omega) hbad']
  exact .corrupt _

end Split

end Replayable

theorem ReplayEnds.recover {n : ℕ} (h : ReplayEnds dev out ((journalReplay 0 n).run dev))
    (htotal : 18 ≤ dev.totalBlocks) (hn : n ≤ journalMaxRecords)
    (hheader : ∃ seq, dev.blocks journalStart = journalHeader seq n) :
    (out = none → returned (journalRecover.run dev) = .error .corrupt) ∧
    ∀ ws, out = some ws → returned (journalRecover.run dev) = .ok () ∧
      ∀ x, ¬InJournal x →
        (finalState (journalRecover.run dev)).blocks x = applyWrites dev.blocks ws x := by
  obtain ⟨seq, hheader⟩ := hheader
  rw [run_journalRecover_of_header htotal hn hheader]
  generalize hrun : (journalReplay 0 n).run dev = res at h
  cases h with
  | corrupt dev' =>
    rw [run_bind_of_error hrun]
    exact ⟨fun _ ↦ rfl, fun ws hws ↦ absurd hws.symm (Option.some_ne_none ws)⟩
  | @ok ws dev' htotal' hf hblocks =>
    have hclear : journalClear.run dev' = .ok () (dev'.land clearWrite) :=
      run_writeBlock (validLba_journalStart (htotal' ▸ htotal)) hf.ne
    rw [run_bind_of_ok hrun, hclear]
    refine ⟨fun hnone ↦ absurd hnone (Option.some_ne_none ws), ?_⟩
    rintro _ ⟨⟩
    refine ⟨rfl, fun x hx ↦ ?_⟩
    rw [finalState_ok, ← hblocks x hx]
    refine Function.update_of_ne ?_ _ _
    rintro rfl
    exact hx inJournal_clearWrite

/-! ## What a change does -/

theorem blocks_damage_self : (dev.damage lba i v).blocks lba = (dev.blocks lba).poke i v :=
  Function.update_self _ _ _

theorem blocks_damage_of_ne {x : ℕ} (h : x ≠ lba) : (dev.damage lba i v).blocks x = dev.blocks x :=
  Function.update_of_ne h _ _

theorem Passes.damage {r : Jrec} (h : Passes dev k r) (hdesc : descLba k ≠ lba)
    (hdata : dataLba k ≠ lba) : Passes (dev.damage lba i v) k r :=
  h.congr rfl (blocks_damage_of_ne hdesc) (blocks_damage_of_ne hdata)

theorem Committed.passes (h : Committed dev tx) (htx : TxOk dev.totalBlocks tx)
    (hk : k < tx.length) : Passes dev k tx[k] := by
  obtain ⟨hdesc, hdata⟩ := h.logged.record hk
  rw [Nat.zero_add] at hdesc hdata
  obtain ⟨htarget, -⟩ := htx.targets tx[k] (List.getElem_mem hk)
  have hlba : JournalDesc.targetLba (journalDesc tx[k]) = tx[k].1 :=
    targetLba_journalDesc (htarget.2.trans (by decide))
  refine ⟨?_, by rw [hdesc, hlba], hdata⟩
  rw [RecordRejected, hdesc, hdata, magic_journalDesc, payloadChecksum_journalDesc, hlba]
  exact not_or.mpr ⟨not_or.mpr ⟨not_not.mpr rfl, not_not.mpr htarget⟩, not_not.mpr rfl⟩

/-- The stored checksum of a header does not match after the change of any byte: the recomputed
one leaves out the four bytes of the stored one. -/
theorem headerChecksum_poke_ne {h : Block}
    (hsum : headerChecksum h = JournalHeader.headerChecksum h) (hi : i < 512) (hv : v ≠ h.byte i) :
    headerChecksum (h.poke i v) ≠ JournalHeader.headerChecksum (h.poke i v) := by
  by_cases hfield : 24 ≤ i ∧ i < 28
  · have hsame : headerChecksum (h.poke i v) = headerChecksum h :=
      checksum_congr fun j _ ↦ Buf.byte_store_congr fun hj ↦ Buf.byte_poke_of_ne (by omega)
    rw [hsame, hsum]
    exact (Buf.load_poke_ne hi hfield.1 hfield.2 hv).symm
  · have hstored : JournalHeader.headerChecksum (h.poke i v) = JournalHeader.headerChecksum h :=
      Buf.load_poke_of_notMem (by omega)
    rw [hstored, ← hsum]
    refine checksum_ne hi ?_ fun j _ hj ↦ Buf.byte_store_congr fun _ ↦ Buf.byte_poke_of_ne hj
    rwa [Buf.byte_store_of_notMem (by omega), Buf.byte_store_of_notMem (by omega),
      Buf.byte_poke_self hi]

/-- One byte does not turn a committed header into that of an empty journal, which has another magic
number and another state. -/
theorem headerRejected_poke {n : ℕ} (hi : i < 512)
    (hv : v ≠ (journalHeader seq n).byte i) : HeaderRejected ((journalHeader seq n).poke i v) := by
  refine ⟨fun hempty ↦ ?_, .inr (headerChecksum_poke_ne (headerChecksum_journalHeader seq n) hi hv)⟩
  by_cases hmagic : i < 8
  · have hstate : JournalHeader.state ((journalHeader seq n).poke i v) = jCommitted :=
      (Buf.load_poke_of_notMem (by omega)).trans (state_journalHeader seq n)
    exact absurd (hstate.symm.trans hempty.2) (by decide)
  · have hmagic' : JournalHeader.magic ((journalHeader seq n).poke i v) = jmagic :=
      (Buf.load_poke_of_notMem (by omega)).trans (magic_journalHeader seq n)
    exact absurd (hmagic'.symm.trans hempty.1) (by norm_num [jmagic])

/-- A payload with another byte does not match the checksum in its descriptor. -/
theorem Committed.rejected_payload (h : Committed dev tx) (hk : k < tx.length)
    (hi : i < 512) (hv : v ≠ (dev.blocks (dataLba k)).byte i) :
    RecordRejected (dev.damage (dataLba k) i v) k := by
  obtain ⟨hdesc, hdata⟩ := h.logged.record hk
  rw [Nat.zero_add] at hdesc hdata
  refine .inr ?_
  rw [blocks_damage_self, blocks_damage_of_ne (show descLba k ≠ dataLba k from
    (Nat.lt_succ_self _).ne), hdesc, payloadChecksum_journalDesc, ← hdata]
  refine checksum_ne hi ?_ fun j _ hj ↦ Buf.byte_poke_of_ne hj
  rwa [Buf.byte_poke_self hi]

theorem Committed.passes_damage {j : ℕ} (h : Committed dev tx) (htx : TxOk dev.totalBlocks tx)
    (hj : j < tx.length) (hne : j ≠ k) (hlba : lba = descLba k ∨ lba = dataLba k) :
    Passes (dev.damage lba i v) j tx[j] := by
  refine (h.passes htx hj).damage ?_ ?_
  · simp only [dataLba, descLba] at hlba ⊢
    omega
  · simp only [dataLba, descLba] at hlba ⊢
    omega

theorem Committed.header_damage (h : Committed dev tx)
    (hlba : lba = descLba k ∨ lba = dataLba k) :
    ∃ seq, (dev.damage lba i v).blocks journalStart = journalHeader seq tx.length := by
  rw [blocks_damage_of_ne]
  · exact h.header
  · simp only [dataLba, descLba] at hlba
    omega

theorem Committed.replayable (htotal : 18 ≤ dev.totalBlocks) (hf : dev.failAfter < 0)
    (htx : TxOk dev.totalBlocks tx) (h : Committed dev tx) : Replayable dev 0 tx where
  total := htotal
  failAfter := hf
  length_le := (Nat.zero_add _).trans_le htx.length_le
  home r hr := (htx.targets r hr).2
  passes k hk := by
    rw [Nat.zero_add]
    exact h.passes htx hk

section Damage

variable (htotal : 18 ≤ dev.totalBlocks) (hf : dev.failAfter < 0) (htx : TxOk dev.totalBlocks tx)
  (h : Committed dev tx) (hk : k < tx.length) (hlba : lba = descLba k ∨ lba = dataLba k)
include htotal hf htx h hk hlba

/-- The records before and after the one that has been changed. -/
theorem Committed.replayable_damage :
    Replayable (dev.damage lba i v) 0 (tx.take k) ∧
      Replayable (dev.damage lba i v) (k + 1) (tx.drop (k + 1)) := by
  have hlen := htx.length_le
  refine ⟨⟨htotal, hf, ?_, fun r hr ↦ (htx.targets r (List.mem_of_mem_take hr)).2, fun j hj ↦ ?_⟩,
    ⟨htotal, hf, ?_, fun r hr ↦ (htx.targets r (List.mem_of_mem_drop hr)).2, fun j hj ↦ ?_⟩⟩
  · rw [List.length_take]
    omega
  · rw [List.length_take] at hj
    rw [Nat.zero_add, List.getElem_take]
    exact h.passes_damage htx (by omega) (by omega) hlba
  · rw [List.length_drop]
    omega
  · rw [List.length_drop] at hj
    rw [List.getElem_drop]
    exact h.passes_damage htx (by omega) (by omega) hlba

theorem Committed.returned_of_rejected (hbad : RecordRejected (dev.damage lba i v) k) :
    returned (journalRecover.run (dev.damage lba i v)) = .error .corrupt := by
  obtain ⟨hbefore, -⟩ := h.replayable_damage htotal hf htx hk hlba (i := i) (v := v)
  exact ((hbefore.replayEnds_rejected hk htx.length_le hbad).recover htotal htx.length_le
    (h.header_damage hlba)).1 rfl

end Damage

/-! ## Header and payloads -/

/-- The device after a commit that was run with `fail_after = cut`; the recovery is not cut. -/
def commitCut (dev : Blockdev) (tx : Tx) (seq : ℕ) (stop : Bool) (cut : ℤ) : Blockdev :=
  (finalState ((journalCommit tx seq stop).run (dev.withFailAfter cut))).withFailAfter (-1)

theorem totalBlocks_commitCut (htotal : 18 ≤ dev.totalBlocks) (htx : TxOk dev.totalBlocks tx) :
    (commitCut dev tx seq stop cut).totalBlocks = dev.totalBlocks :=
  @totalBlocks_commit (dev.withFailAfter cut) htotal tx htx seq stop

theorem committed_commitCut (htotal : 18 ≤ dev.totalBlocks) (htx : TxOk dev.totalBlocks tx)
    (hwritten : HeaderWritten tx seq stop cut)
    (hthere : ¬HeaderEmpty ((commitCut dev tx seq stop cut).blocks journalStart)) :
    Committed (commitCut dev tx seq stop cut) tx := by
  obtain ⟨hheader, hlogged⟩ :=
    @committed_of_commit (dev.withFailAfter cut) tx seq stop htotal htx hwritten hthere
  exact ⟨hheader, hlogged⟩

/-- **Damage to a committed journal is detected.** Change one byte of the header block or of a
payload block after the committed header has been written and before it is cleared. Then
`m16_journal_recover` returns `M16_E_CORRUPT`. For `m16_checksum` itself: two strings of one length
that differ at exactly one position have different checksums. -/
theorem damaged_journal_rejected (htotal : 18 ≤ dev.totalBlocks)
    (hcount : tx.length ≤ journalMaxRecords) (htargets : TargetsOk dev.totalBlocks tx)
    (hwritten : HeaderWritten tx seq stop cut)
    (hthere : ¬HeaderEmpty ((commitCut dev tx seq stop cut).blocks journalStart)) :
    (∀ lba i v, lba = journalStart ∨ (∃ k < tx.length, lba = dataLba k) → i < blockSize →
      v ≠ ((commitCut dev tx seq stop cut).blocks lba).byte i →
      returned (journalRecover.run ((commitCut dev tx seq stop cut).damage lba i v)) =
        .error .corrupt) ∧
    ∀ (p q : Mem) (n i : ℕ), i < n → p i ≠ q i → (∀ j < n, j ≠ i → p j = q j) →
      checksum p n ≠ checksum q n := by
  refine ⟨fun lba i v hlba hi hv ↦ ?_, fun p q n i hi hne hsame ↦ checksum_ne hi hne hsame⟩
  have htx : TxOk dev.totalBlocks tx := ⟨hcount, htargets⟩
  have htot := @totalBlocks_commitCut dev tx seq stop cut htotal htx
  have hcommitted := committed_commitCut htotal htx hwritten hthere
  have hf : (commitCut dev tx seq stop cut).failAfter < 0 := Int.negSucc_lt_zero 0
  rw [← htot] at htotal htx
  generalize commitCut dev tx seq stop cut = dev₁ at *
  rcases hlba with rfl | ⟨k, hk, rfl⟩
  · obtain ⟨seq', hheader⟩ := hcommitted.header
    have hrejected : HeaderRejected ((dev₁.damage journalStart i v).blocks journalStart) := by
      rw [hheader] at hv
      rw [blocks_damage_self, hheader]
      exact headerRejected_poke hi hv
    have hvalid := @validLba_journalStart (dev₁.damage journalStart i v) htotal
    rw [run_journalRecover_rejected hvalid hrejected, returned_error]
  · exact hcommitted.returned_of_rejected htotal hf htx hk (.inr rfl)
      (hcommitted.rejected_payload hk hi hv)

/-- One record for block 25. -/
def oneRecord : Tx := [(25, sevens)]

theorem targetsOk_oneRecord : TargetsOk devInit.totalBlocks oneRecord := by
  intro r hr
  rw [List.mem_singleton.mp hr]
  decide

/-- The first byte of the payload is changed. -/
theorem damaged_journal_rejected_payload :
    returned (journalRecover.run ((commitCut devInit oneRecord 1 true (-1)).damage 3 0 8)) =
      .error .corrupt := by
  have hwritten : HeaderWritten oneRecord 1 true (-1) :=
    (headerWritten_iff (by decide) 1 true (-1)).mpr (by decide)
  have hthere : ¬HeaderEmpty ((commitCut devInit oneRecord 1 true (-1)).blocks journalStart) := by
    decide +kernel
  exact (damaged_journal_rejected (by decide) (by decide) targetsOk_oneRecord hwritten hthere).1
    3 0 8 (.inr ⟨0, by decide, rfl⟩) (by decide) (by decide +kernel)

/-! ## Descriptors -/

theorem targetLba_eq (d : Block) : JournalDesc.targetLba d = (d.byte 8).toNat +
    256 * ((d.byte 9).toNat + 256 * ((d.byte 10).toNat + 256 * (d.byte 11).toNat)) := by
  simp only [JournalDesc.targetLba, Buf.load, Mem.load, Nat.mul_zero, Nat.add_zero]

theorem targetLba_poke_low {d : Block} (h : JournalDesc.targetLba d < 256) :
    JournalDesc.targetLba (d.poke 8 v) = v.toNat := by
  rw [targetLba_eq] at h
  rw [targetLba_eq, Buf.byte_poke_self (by decide), Buf.byte_poke_of_ne (by decide),
    Buf.byte_poke_of_ne (by decide), Buf.byte_poke_of_ne (by decide)]
  omega

/-- A small target with another byte changed is not small. -/
theorem le_targetLba_poke {d : Block} (h : JournalDesc.targetLba d < 256) (hlo : 9 ≤ i)
    (hhi : i < 12) (hv : v ≠ d.byte i) : 256 ≤ JournalDesc.targetLba (d.poke i v) := by
  have hself : ((d.poke i v).byte i).toNat ≠ (d.byte i).toNat := fun heq ↦
    hv ((Buf.byte_poke_self (by omega)).symm.trans (UInt8.toNat_inj.mp heq))
  rw [targetLba_eq] at h ⊢
  rcases (by omega : i = 9 ∨ i = 10 ∨ i = 11) with rfl | rfl | rfl
  all_goals omega

/-- The change makes the descriptor name another block of the device. -/
def Redirects (dev : Blockdev) (r : Jrec) (i : ℕ) (v : UInt8) : Prop :=
  i = 8 ∧ validLba dev v.toNat ∧ v.toNat ≠ r.1

theorem Committed.blocks_descriptor (h : Committed dev tx) (hk : k < tx.length) :
    (dev.damage (descLba k) i v).blocks (descLba k) = (journalDesc tx[k]).poke i v ∧
      (dev.damage (descLba k) i v).blocks (dataLba k) = tx[k].2 := by
  obtain ⟨hdesc, hdata⟩ := h.logged.record hk
  rw [Nat.zero_add] at hdesc hdata
  rw [blocks_damage_self, hdesc]
  exact ⟨rfl, (blocks_damage_of_ne (Nat.succ_ne_self _)).trans hdata⟩

/-- A change in the target or in the reserved bytes leaves the other fields as they are. -/
theorem Committed.passes_descriptor (h : Committed dev tx) (hk : k < tx.length) {t : ℕ}
    (ht : validLba dev t) (heq : JournalDesc.targetLba ((journalDesc tx[k]).poke i v) = t)
    (hi : 8 ≤ i ∧ i < 12 ∨ 16 ≤ i) : Passes (dev.damage (descLba k) i v) k (t, tx[k].2) := by
  obtain ⟨hdesc, hdata⟩ := @h.blocks_descriptor _ _ i k v hk
  have hmagic : JournalDesc.magic ((journalDesc tx[k]).poke i v) = jmagic :=
    (Buf.load_poke_of_notMem (by omega)).trans (magic_journalDesc tx[k])
  have hsum : JournalDesc.payloadChecksum ((journalDesc tx[k]).poke i v) =
      checksum tx[k].2.byte blockSize :=
    (Buf.load_poke_of_notMem (by omega)).trans (payloadChecksum_journalDesc tx[k])
  refine ⟨?_, by rw [hdesc, heq], hdata⟩
  rw [RecordRejected, hdesc, hdata, hmagic, hsum, heq]
  exact not_or.mpr ⟨not_or.mpr ⟨not_not.mpr rfl, not_not.mpr ht⟩, not_not.mpr rfl⟩

theorem Committed.descriptor (h : Committed dev tx) (htx : TxOk dev.totalBlocks tx)
    (hk : k < tx.length) (hi : i < 512) :
    (¬Redirects dev tx[k] i v → RecordRejected (dev.damage (descLba k) i v) k ∨
      Passes (dev.damage (descLba k) i v) k tx[k]) ∧
    (Redirects dev tx[k] i v → Passes (dev.damage (descLba k) i v) k (v.toNat, tx[k].2)) := by
  obtain ⟨hdesc, hdata⟩ := @h.blocks_descriptor _ _ i k v hk
  obtain ⟨htarget, -⟩ := htx.targets tx[k] (List.getElem_mem hk)
  have hlba : JournalDesc.targetLba (journalDesc tx[k]) = tx[k].1 :=
    targetLba_journalDesc (htarget.2.trans (by decide))
  have hsmall : JournalDesc.targetLba (journalDesc tx[k]) < 256 := by
    rw [hlba]
    exact htarget.2.trans (by decide)
  constructor
  · intro hnot
    by_cases hv : v = (journalDesc tx[k]).byte i
    · -- nothing has changed
      have hrecord := (h.logged.record hk).1
      rw [Nat.zero_add] at hrecord
      refine .inr ((h.passes htx hk).congr rfl ?_ (blocks_damage_of_ne (Nat.succ_ne_self _)))
      rw [hdesc, hrecord, hv, Buf.poke_byte_self]
    rcases (by omega : i < 8 ∨ i = 8 ∨ 9 ≤ i ∧ i < 12 ∨ 12 ≤ i ∧ i < 16 ∨ 16 ≤ i) with
      hmagic | rfl | hhigh | hsum | hreserved
    · refine .inl (.inl (.inl ?_))
      rw [hdesc, ← magic_journalDesc tx[k]]
      exact Buf.load_poke_ne hi (Nat.zero_le i) (by omega) hv
    · by_cases hvalid : validLba dev v.toNat
      · have heq : v.toNat = tx[k].1 := by
          by_contra hne
          exact hnot ⟨rfl, hvalid, hne⟩
        exact .inr (h.passes_descriptor hk htarget ((targetLba_poke_low hsmall).trans heq)
          (.inl (by decide)))
      · refine .inl (.inl (.inr ?_))
        rw [hdesc, targetLba_poke_low hsmall]
        exact hvalid
    · refine .inl (.inl (.inr fun hvalid ↦ ?_))
      have hle := le_targetLba_poke hsmall hhigh.1 hhigh.2 hv
      rw [← hdesc] at hle
      exact absurd (hle.trans_lt hvalid.2) (by decide)
    · refine .inl (.inr ?_)
      rw [hdesc, hdata, ← payloadChecksum_journalDesc tx[k]]
      exact (Buf.load_poke_ne hi hsum.1 (by omega) hv).symm
    · exact .inr (h.passes_descriptor hk htarget
        ((Buf.load_poke_of_notMem (by omega)).trans hlba) (.inr hreserved))
  · rintro ⟨rfl, hvalid, -⟩
    exact h.passes_descriptor hk hvalid (targetLba_poke_low hsmall) (.inl (by decide))

/-- Recovery rejects the journal, or it leaves the blocks outside the journal as it does without
the change. -/
def Harmless (dev : Blockdev) (lba i : ℕ) (v : UInt8) : Prop :=
  returned (journalRecover.run (dev.damage lba i v)) = .error .corrupt ∨
    ∀ x, ¬InJournal x → (finalState (journalRecover.run (dev.damage lba i v))).blocks x =
      (finalState (journalRecover.run dev)).blocks x

section Harmless

variable (htotal : 18 ≤ dev.totalBlocks) (hf : dev.failAfter < 0) (htx : TxOk dev.totalBlocks tx)
  (h : Committed dev tx)
include htotal hf htx h

/-- When the change of a descriptor is harmless, by how the replay ends. -/
theorem Committed.harmless_iff (hk : k < tx.length) {out : Option Tx}
    (hends : ReplayEnds (dev.damage (descLba k) i v) out
      ((journalReplay 0 tx.length).run (dev.damage (descLba k) i v))) :
    Harmless dev (descLba k) i v ↔ ∀ ws, out = some ws → ∀ x, ¬InJournal x →
      applyWrites dev.blocks ws x = applyWrites dev.blocks tx x := by
  obtain ⟨hcorrupt, hok⟩ := hends.recover htotal htx.length_le (h.header_damage (.inl rfl))
  have hrecovered := (((h.replayable htotal hf htx).replayEnds.recover htotal htx.length_le
    h.header).2 tx rfl).2
  -- the changed block is in the journal
  have hhome : ∀ ws x, ¬InJournal x →
      applyWrites (dev.damage (descLba k) i v).blocks ws x = applyWrites dev.blocks ws x := by
    intro ws x hx
    refine applyWrites_congr fun _ ↦ blocks_damage_of_ne ?_
    rintro rfl
    exact hx (inJournal_descLba (hk.trans_le htx.length_le))
  cases out with
  | none =>
    exact iff_of_true (.inl (hcorrupt rfl)) fun ws hws ↦ absurd hws.symm (Option.some_ne_none ws)
  | some ws =>
    obtain ⟨hreturned, hblocks⟩ := hok ws rfl
    constructor
    · rintro (hcorrupt | hsame) _ ⟨⟩ x hx
      · cases hreturned.symm.trans hcorrupt
      · rw [← hhome ws x hx, ← hblocks x hx, hsame x hx, hrecovered x hx]
    · intro hsame
      refine .inr fun x hx ↦ ?_
      rw [hblocks x hx, hhome ws x hx, hsame ws rfl x hx, hrecovered x hx]

/-- After the change record `k` passes as the write `r`. -/
theorem Committed.replayEnds_set {r : Jrec} (hr : ¬InJournal r.1)
    (hpass : Passes (dev.damage (descLba k) i v) k r) :
    ReplayEnds (dev.damage (descLba k) i v) (some (tx.set k r))
      ((journalReplay 0 tx.length).run (dev.damage (descLba k) i v)) := by
  have hlen : (tx.set k r).length = tx.length := List.length_set
  have hreplayable : Replayable (dev.damage (descLba k) i v) 0 (tx.set k r) := by
    refine ⟨htotal, hf, by rw [hlen, Nat.zero_add]; exact htx.length_le, fun s hs ↦ ?_,
      fun j hj ↦ ?_⟩
    · rcases List.mem_or_eq_of_mem_set hs with hs | rfl
      · exact (htx.targets s hs).2
      · exact hr
    · rw [Nat.zero_add]
      by_cases hjk : k = j
      · subst hjk
        rw [List.getElem_set_self]
        exact hpass
      · rw [List.getElem_set_ne hjk]
        exact h.passes_damage htx (hlen ▸ hj) (Ne.symm hjk) (.inl rfl)
  exact hlen ▸ hreplayable.replayEnds

end Harmless

/-! ## Records that are redirected into the journal -/

/-- The checks of recovery on the two blocks of a record. -/
def Accepts (totalBlocks : ℕ) (desc payload : Block) : Prop :=
  (JournalDesc.magic desc = jmagic ∧
    JournalDesc.targetLba desc < totalBlocks ∧ JournalDesc.targetLba desc < maxBlocks) ∧
  checksum payload.byte blockSize = JournalDesc.payloadChecksum desc

instance (totalBlocks : ℕ) (desc payload : Block) : Decidable (Accepts totalBlocks desc payload) :=
  inferInstanceAs (Decidable (_ ∧ _))

theorem recordRejected_iff : RecordRejected dev k ↔
    ¬Accepts dev.totalBlocks (dev.blocks (descLba k)) (dev.blocks (dataLba k)) := by
  rw [Accepts, not_and_or, not_and_or]
  rfl

/-- The writes outside the journal of a replay of the records `tx`, the first of which is record
`j`, after block `v` of the journal has been overwritten with `p`; `none` if the replay finds a
record that it rejects. In place of a descriptor, `p` may lead to another write in the journal. -/
def strayWrites (totalBlocks : ℕ) : ℕ → ℕ → Block → Tx → Option Tx
  | _, _, _, [] => some []
  | j, v, p, r :: tx =>
    if v = descLba j then
      if Accepts totalBlocks p r.2 then
        if InJournal (JournalDesc.targetLba p) then
          strayWrites totalBlocks (j + 1) (JournalDesc.targetLba p) r.2 tx
        else some ((JournalDesc.targetLba p, r.2) :: tx)
      else none
    else if v = dataLba j then
      if checksum p.byte blockSize = checksum r.2.byte blockSize then some ((r.1, p) :: tx)
      else none
    else (strayWrites totalBlocks (j + 1) v p tx).map (r :: ·)

/-- A block that belongs to no later record is overwritten without any effect. -/
theorem strayWrites_of_ne {total j : ℕ} {v : ℕ} {p : Block}
    (h : ∀ k, j ≤ k → k < j + tx.length → v ≠ descLba k ∧ v ≠ dataLba k) :
    strayWrites total j v p tx = some tx := by
  induction tx generalizing j with
  | nil => rfl
  | cons r tx ih =>
    rw [List.length_cons] at h
    obtain ⟨hdesc, hdata⟩ := h j le_rfl (by omega)
    rw [strayWrites, if_neg hdesc, if_neg hdata, ih fun k hk hlt ↦ h k (by omega) (by omega)]
    rfl

section Stray

variable {out : Option Tx} {res : EStateM.Result Err Blockdev Unit} {w : ℕ × Block} {p : Block}

theorem ReplayEnds.ite {c : Prop} [Decidable c] {out' : Option Tx} (h : c → ReplayEnds dev out res)
    (h' : ¬c → ReplayEnds dev out' res) : ReplayEnds dev (if c then out else out') res := by
  split_ifs with hc
  · exact h hc
  · exact h' hc

theorem ReplayEnds.of_land_journal (h : ReplayEnds (dev.land w) out res) (hw : InJournal w.1) :
    ReplayEnds dev out res := by
  cases h with
  | corrupt dev' => exact .corrupt dev'
  | ok htotal hf hblocks =>
    refine .ok htotal hf fun x hx ↦ ?_
    rw [hblocks x hx]
    refine applyWrites_congr fun _ ↦ Function.update_of_ne ?_ _ _
    rintro rfl
    exact hx hw

theorem land_comm {w' : ℕ × Block} (h : w.1 ≠ w'.1) :
    (dev.land w).land w' = (dev.land w').land w := by
  have hblocks : ((dev.land w).land w').blocks = ((dev.land w').land w).blocks :=
    Function.update_comm h _ _ _
  exact congrArg (fun b ↦ { (dev.land w).land w' with blocks := b }) hblocks

namespace Replayable

variable {r : Jrec}

theorem run_passed {s : Jrec} (h : Replayable dev i (r :: tx)) (hpass : Passes (dev.land w) i s) :
    (journalReplay i (r :: tx).length).run (dev.land w) =
      (journalReplay (i + 1) tx.length).run ((dev.land w).land s) := by
  have htotal : 18 ≤ (dev.land w).totalBlocks := h.total
  exact run_journalReplay_passed htotal h.index_lt (failAfter_land_of_neg h.failAfter w) hpass

theorem run_rejected (h : Replayable dev i (r :: tx)) (hbad : RecordRejected (dev.land w) i) :
    (journalReplay i (r :: tx).length).run (dev.land w) = .error .corrupt (dev.land w) := by
  have htotal : 18 ≤ (dev.land w).totalBlocks := h.total
  exact run_journalReplay_corrupt htotal h.index_lt hbad

/-- A replay after a block of the journal has been overwritten. -/
theorem replayEnds_strayWrites {v : ℕ} (h : Replayable dev i tx) (hv : InJournal v) :
    ReplayEnds dev (strayWrites dev.totalBlocks i v p tx)
      ((journalReplay i tx.length).run (dev.land (v, p))) := by
  induction tx generalizing dev i v p with
  | nil =>
    have hdone : ReplayEnds (dev.land (v, p)) (some []) (.ok () (dev.land (v, p))) :=
      .ok rfl (failAfter_land_of_neg h.failAfter _) fun _ _ ↦ rfl
    exact hdone.of_land_journal hv
  | cons r tx ih =>
    have hdescData : descLba i ≠ dataLba i := (Nat.lt_succ_self _).ne
    have hhome := h.home r List.mem_cons_self
    rw [strayWrites]
    refine .ite (fun hdesc ↦ ?_) fun hdesc ↦ .ite (fun hdata ↦ ?_) fun hdata ↦ ?_
    · -- the descriptor is `p`
      subst hdesc
      have hp : (dev.land (descLba i, p)).blocks (descLba i) = p := Function.update_self ..
      have hr : (dev.land (descLba i, p)).blocks (dataLba i) = r.2 :=
        (Function.update_of_ne hdescData.symm _ _).trans h.head.payload
      have htail := h.tail.land_before (w := (descLba i, p)) (by simp only [descLba]; omega)
      refine .ite (fun haccepts ↦ ?_) fun hrejects ↦ ?_
      · have hpass : Passes (dev.land (descLba i, p)) i (JournalDesc.targetLba p, r.2) := by
          refine ⟨?_, by rw [hp], hr⟩
          rw [recordRejected_iff, hp, hr]
          exact not_not.mpr haccepts
        rw [h.run_passed hpass]
        refine .ite (fun htarget ↦ ?_) fun htarget ↦ ?_
        · exact (ih htail htarget).of_land_journal hv
        · exact (htail.land_home htarget).replayEnds.of_land.of_land_journal hv
      · rw [h.run_rejected]
        · exact .corrupt _
        · rw [recordRejected_iff, hp, hr]
          exact hrejects
    · -- the payload is `p`
      subst hdata
      have hp : (dev.land (dataLba i, p)).blocks (dataLba i) = p := Function.update_self ..
      have hsame : (dev.land (dataLba i, p)).blocks (descLba i) = dev.blocks (descLba i) :=
        Function.update_of_ne hdescData _ _
      have hhead := (not_or.mp h.head.accepted).1
      have hsum := not_not.mp (not_or.mp h.head.accepted).2
      rw [h.head.payload] at hsum
      refine .ite (fun hequal ↦ ?_) fun hne ↦ ?_
      · have hpass : Passes (dev.land (dataLba i, p)) i (r.1, p) := by
          refine ⟨?_, by rw [hsame, h.head.target], hp⟩
          rw [RecordRejected, hp, hsame]
          exact not_or.mpr ⟨hhead, not_not.mpr (hequal.trans hsum)⟩
        have htail := h.tail.land_before (w := (dataLba i, p))
          (by simp only [dataLba, descLba]; omega)
        have hrest := (htail.land_home (w := (r.1, p)) hhome).replayEnds
        rw [h.run_passed hpass]
        exact hrest.of_land.of_land_journal hv
      · rw [h.run_rejected]
        · exact .corrupt _
        · rw [RecordRejected, hp, hsame, ← hsum]
          exact .inr hne
    · -- a block of another record
      have hpass : Passes (dev.land (v, p)) i r := h.head.land (Ne.symm hdesc) (Ne.symm hdata)
      have hne : v ≠ r.1 := fun heq ↦ hhome (heq ▸ hv)
      rw [h.run_passed hpass, land_comm hne]
      exact (@ih (dev.land r) (i + 1) p v (h.tail.land_home hhome) hv).of_land

end Replayable

end Stray

/-- After the change record `k` passes as a write to block `t` of the journal. -/
theorem Committed.replayEnds_stray (htotal : 18 ≤ dev.totalBlocks) (hf : dev.failAfter < 0)
    (htx : TxOk dev.totalBlocks tx) (h : Committed dev tx) (hk : k < tx.length) {t : ℕ}
    (ht : InJournal t) (hpass : Passes (dev.damage (descLba k) i v) k (t, tx[k].2)) :
    ReplayEnds (dev.damage (descLba k) i v)
      ((strayWrites dev.totalBlocks (k + 1) t tx[k].2 (tx.drop (k + 1))).map (tx.take k ++ ·))
      ((journalReplay 0 tx.length).run (dev.damage (descLba k) i v)) := by
  have hlen := htx.length_le
  obtain ⟨hbefore, hafter⟩ := h.replayable_damage htotal hf htx hk (.inl rfl) (i := i) (v := v)
  have hdamage : (dev.damage (descLba k) i v).totalBlocks = dev.totalBlocks := rfl
  generalize dev.damage (descLba k) i v = dev' at *
  have hpass' : Passes (dev'.landAll (tx.take k)) k (t, tx[k].2) :=
    hpass.congr (totalBlocks_landAll _ _) (hbefore.blocks_landAll (inJournal_descLba (by omega)))
      (hbefore.blocks_landAll (inJournal_dataLba (by omega)))
  have hrest := hafter.landAll hbefore.home
  rw [hbefore.run_take hk, run_journalReplay_passed hrest.total (by omega) hrest.failAfter hpass',
    ← hdamage, ← totalBlocks_landAll dev' (tx.take k)]
  exact (hrest.replayEnds_strayWrites ht).of_landAll

/-- Change one byte of a descriptor after the committed header has been written and before it is
cleared. Unless the change redirects the record to another block of the device,
`m16_journal_recover` returns `M16_E_CORRUPT` or leaves the blocks outside the journal as it does
without the change. A record that is redirected to another block outside the journal is written
there: this is harmless only if the two sequences of writes leave the same blocks. A record that is
redirected into the journal is lost, and may replace a block of a later record: this is harmless
only if the replay then rejects a record, or the writes that it performs leave the same blocks. -/
theorem damaged_descriptor_iff (htotal : 18 ≤ dev.totalBlocks)
    (hcount : tx.length ≤ journalMaxRecords) (htargets : TargetsOk dev.totalBlocks tx)
    (hwritten : HeaderWritten tx seq stop cut)
    (hthere : ¬HeaderEmpty ((commitCut dev tx seq stop cut).blocks journalStart))
    (hk : k < tx.length) (hi : i < blockSize) (v : UInt8) :
    let dev₁ := commitCut dev tx seq stop cut
    (¬Redirects dev₁ tx[k] i v → Harmless dev₁ (descLba k) i v) ∧
    (Redirects dev₁ tx[k] i v → ¬InJournal v.toNat →
      (Harmless dev₁ (descLba k) i v ↔ ∀ x, ¬InJournal x →
        applyWrites dev₁.blocks (tx.set k (v.toNat, tx[k].2)) x =
          applyWrites dev₁.blocks tx x)) ∧
    (Redirects dev₁ tx[k] i v → InJournal v.toNat →
      (Harmless dev₁ (descLba k) i v ↔ ∀ ws,
        strayWrites dev.totalBlocks (k + 1) v.toNat tx[k].2 (tx.drop (k + 1)) = some ws →
          ∀ x, ¬InJournal x → applyWrites dev₁.blocks (tx.take k ++ ws) x =
            applyWrites dev₁.blocks tx x)) := by
  intro dev₁
  have htx : TxOk dev.totalBlocks tx := ⟨hcount, htargets⟩
  have htot : dev₁.totalBlocks = dev.totalBlocks := totalBlocks_commitCut htotal htx
  have h : Committed dev₁ tx := committed_commitCut htotal htx hwritten hthere
  have hf : dev₁.failAfter < 0 := Int.negSucc_lt_zero 0
  rw [← htot] at htotal htx ⊢
  obtain ⟨hkeeps, hmoves⟩ := @h.descriptor _ _ i k v htx hk hi
  refine ⟨fun hnot ↦ ?_, fun hredirects hv ↦ ?_, fun hredirects hv ↦ ?_⟩
  · rcases hkeeps hnot with hrejected | hpass
    · exact .inl (h.returned_of_rejected htotal hf htx hk (.inl rfl) hrejected)
    · have hends := h.replayEnds_set htotal hf htx (htx.targets _ (List.getElem_mem hk)).2 hpass
      rw [List.set_getElem_self] at hends
      refine (h.harmless_iff htotal hf htx hk hends).mpr ?_
      rintro _ ⟨⟩ x _
      rfl
  · have hends := h.replayEnds_set htotal hf htx hv (hmoves hredirects)
    rw [h.harmless_iff htotal hf htx hk hends]
    exact ⟨fun hsame ↦ hsame _ rfl, fun hsame _ hws ↦ Option.some.inj hws ▸ hsame⟩
  · have hends := h.replayEnds_stray htotal hf htx hk hv (hmoves hredirects)
    rw [h.harmless_iff htotal hf htx hk hends]
    simp only [Option.map_eq_some_iff, forall_exists_index, and_imp, forall_apply_eq_imp_iff₂]

/-- Two records, for the blocks 25 and 26. -/
def twoRecords : Tx := [(25, sevens), (26, Buf.zero 512)]

theorem targetsOk_twoRecords : TargetsOk devInit.totalBlocks twoRecords := by
  intro r hr
  rcases List.mem_cons.mp hr with rfl | hr
  · decide
  · rw [List.mem_singleton.mp hr]
    decide

/-- Four changes in the descriptor of the first record. One in the reserved bytes is harmless. With
the target 27 the record goes to another block. With the target 1 it replaces the header and is
lost. With the target 5 it replaces the payload of the second record, which is then rejected. -/
theorem damaged_descriptor_iff_two :
    Harmless (commitCut devInit twoRecords 1 true (-1)) (descLba 0) 16 1 ∧
      ¬Harmless (commitCut devInit twoRecords 1 true (-1)) (descLba 0) 8 27 ∧
      ¬Harmless (commitCut devInit twoRecords 1 true (-1)) (descLba 0) 8 1 ∧
      Harmless (commitCut devInit twoRecords 1 true (-1)) (descLba 0) 8 5 := by
  have hwritten : HeaderWritten twoRecords 1 true (-1) :=
    (headerWritten_iff (by decide) 1 true (-1)).mpr (by decide)
  have hthere : ¬HeaderEmpty ((commitCut devInit twoRecords 1 true (-1)).blocks journalStart) := by
    decide +kernel
  have hiff (i : ℕ) (hi : i < blockSize) (v : UInt8) :=
    damaged_descriptor_iff (show 18 ≤ devInit.totalBlocks by decide) (by decide)
      targetsOk_twoRecords hwritten hthere (show 0 < twoRecords.length by decide) hi v
  have hvalid : ∀ n < 128, validLba (commitCut devInit twoRecords 1 true (-1)) n := by
    have htotal : (commitCut devInit twoRecords 1 true (-1)).totalBlocks = 128 := by decide +kernel
    exact fun n hn ↦ ⟨htotal ▸ hn, hn⟩
  refine ⟨(hiff 16 (by decide) 1).1 fun hredirects ↦ absurd hredirects.1 (by decide),
    fun hharmless ↦ ?_, fun hharmless ↦ ?_, ?_⟩
  · have hsame := ((hiff 8 (by decide) 27).2.1 ⟨rfl, hvalid _ (by decide), by decide⟩
      (by decide)).mp hharmless 25 (by decide)
    exact absurd (congrArg (Buf.byte · 0) hsame) (by decide +kernel)
  · have hlost : strayWrites devInit.totalBlocks 1 1 sevens [(26, Buf.zero 512)] =
        some [(26, Buf.zero 512)] := strayWrites_of_ne fun k hk _ ↦ by
      simp only [dataLba, descLba, journalStart]
      omega
    have hsame := ((hiff 8 (by decide) 1).2.2 ⟨rfl, hvalid _ (by decide), by decide⟩
      (by decide)).mp hharmless _ hlost 25 (by decide)
    exact absurd (congrArg (Buf.byte · 0) hsame) (by decide +kernel)
  · have hrejected : strayWrites devInit.totalBlocks 1 5 sevens [(26, Buf.zero 512)] = none := by
      decide +kernel
    refine ((hiff 8 (by decide) 5).2.2 ⟨rfl, hvalid _ (by decide), by decide⟩ (by decide)).mpr
      fun ws hws ↦ ?_
    cases hrejected.symm.trans hws

/-- The low byte of the target is changed from 25 to 26. Recovery succeeds, and writes the payload
to block 26 in place of block 25. -/
theorem descriptor_redirects_write :
    let dev₁ := commitCut devInit oneRecord 1 true (-1)
    let res := journalRecover.run (dev₁.damage (descLba 0) 8 26)
    returned res = .ok () ∧ ((finalState res).blocks 26).byte 0 = 7 ∧
      ((finalState res).blocks 25).byte 0 = 0 ∧
      ((finalState (journalRecover.run dev₁)).blocks 26).byte 0 = 0 ∧
      ((finalState (journalRecover.run dev₁)).blocks 25).byte 0 = 7 := by
  decide +kernel

end M16

end Mcsos
