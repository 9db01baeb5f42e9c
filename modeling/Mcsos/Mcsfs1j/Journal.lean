import Mathlib.Data.Nat.ModEq
import Mcsos.Mcsfs1j.Device

/-!
# The journal

`m16_journal_commit` and `m16_journal_recover`. A C structure that the source lays over a block is
that block, with one accessor for each field; multi-byte fields are little-endian.

## The commit point

The block writes of a commit are, in order: the header cleared, a descriptor and a payload block
for each record, the committed header, the records at their targets, the header cleared again
(`commitWrites`). Read as a redo log (`Represents`), a prefix of this sequence does not change the
contents of the store until it contains the header, and has the whole transaction as its contents
from then on (`represents_commit`). Recovery of a log performs the same last part of the sequence
(`run_journalRecover_committed`), so one lemma, `represents_replay`, covers a cut in either of them.
-/

namespace Mcsos

namespace M16

/-! ## Checksums and structures -/

/-- `m16_checksum`: the 32-bit FNV-1a hash of the first `n` bytes. -/
def checksum (p : Mem) (n : ℕ) : ℕ :=
  (List.range n).foldl (fun h i ↦ ((h ^^^ (p i).toNat) * 16777619) % 2 ^ 32) 2166136261

theorem checksum_lt (p : Mem) (n : ℕ) : checksum p n < 2 ^ 32 := by
  cases n with
  | zero =>
    rw [checksum, List.range_zero, List.foldl_nil]
    norm_num
  | succ n =>
    rw [checksum, List.range_succ, List.foldl_append, List.foldl_cons, List.foldl_nil]
    exact Nat.mod_lt _ (by norm_num)

theorem checksum_succ (p : Mem) (n : ℕ) :
    checksum p (n + 1) = ((checksum p n ^^^ (p n).toNat) * 16777619) % 2 ^ 32 := by
  rw [checksum, List.range_succ, List.foldl_append, List.foldl_cons, List.foldl_nil, ← checksum]

theorem checksum_congr {p q : Mem} {n : ℕ} (h : ∀ i < n, p i = q i) :
    checksum p n = checksum q n := by
  induction n with
  | zero => rw [checksum, checksum, List.range_zero, List.foldl_nil, List.foldl_nil]
  | succ n ih =>
    rw [checksum_succ, checksum_succ, ih fun i hi ↦ h i (hi.trans n.lt_succ_self),
      h n n.lt_succ_self]

/-- Multiplication by the odd prime permutes the numbers of 32 bits. -/
theorem mul_prime_inj {x y : ℕ} (hx : x < 2 ^ 32) (hy : y < 2 ^ 32)
    (h : x * 16777619 % 2 ^ 32 = y * 16777619 % 2 ^ 32) : x = y := by
  have hcoprime : Nat.gcd (2 ^ 32) 16777619 = 1 := by decide +kernel
  have hmod : x ≡ y [MOD 2 ^ 32] := Nat.ModEq.cancel_right_of_coprime hcoprime h
  rwa [Nat.ModEq, Nat.mod_eq_of_lt hx, Nat.mod_eq_of_lt hy] at hmod

/-- The round is injective in the hash and the byte together. -/
theorem xor_eq_of_round_eq {g h : ℕ} {a b : UInt8} (hg : g < 2 ^ 32) (hh : h < 2 ^ 32)
    (heq : ((g ^^^ a.toNat) * 16777619) % 2 ^ 32 = ((h ^^^ b.toNat) * 16777619) % 2 ^ 32) :
    g ^^^ a.toNat = h ^^^ b.toNat := by
  have ha : a.toNat < 2 ^ 32 := a.toNat_lt.trans (by norm_num)
  have hb : b.toNat < 2 ^ 32 := b.toNat_lt.trans (by norm_num)
  exact mul_prime_inj (Nat.xor_lt_two_pow hg ha) (Nat.xor_lt_two_pow hh hb) heq

/-- **A change of one byte changes the checksum.** -/
theorem checksum_ne {p q : Mem} {n i : ℕ} (hi : i < n) (hne : p i ≠ q i)
    (hsame : ∀ j < n, j ≠ i → p j = q j) : checksum p n ≠ checksum q n := by
  -- At the byte itself the hashes begin to differ, and every later round keeps them apart.
  induction n with
  | zero => exact absurd hi (Nat.not_lt_zero i)
  | succ n ih =>
    intro heq
    rw [checksum_succ, checksum_succ] at heq
    have hxor := xor_eq_of_round_eq (checksum_lt p n) (checksum_lt q n) heq
    rcases Nat.lt_succ_iff_lt_or_eq.mp hi with hlt | rfl
    · rw [hsame n n.lt_succ_self hlt.ne'] at hxor
      exact ih hlt (fun j hj ↦ hsame j (hj.trans n.lt_succ_self)) (Nat.xor_left_injective hxor)
    · rw [checksum_congr fun j hj ↦ hsame j (hj.trans i.lt_succ_self) hj.ne] at hxor
      exact hne (UInt8.toNat_inj.mp (Nat.xor_right_injective hxor))

/-! `struct m16_journal_header` -/

namespace JournalHeader

def magic (h : Block) : ℕ := h.load 8 0
def version (h : Block) : ℕ := h.load 4 8
def state (h : Block) : ℕ := h.load 4 12
def count (h : Block) : ℕ := h.load 4 20
def headerChecksum (h : Block) : ℕ := h.load 4 24

end JournalHeader

/-! `struct m16_journal_desc` -/

namespace JournalDesc

def magic (d : Block) : ℕ := d.load 8 0
def targetLba (d : Block) : ℕ := d.load 4 8
def payloadChecksum (d : Block) : ℕ := d.load 4 12

end JournalDesc

/-- `struct m16_jrec`: a target LBA and a payload. -/
abbrev Jrec := ℕ × Block

/-- `struct m16_tx`: the first `count` records. -/
abbrev Tx := List Jrec

def headerChecksum (h : Block) : ℕ := checksum (h.store 4 24 0).byte blockSize

/-- The descriptor block that `m16_journal_commit` writes for a record. -/
def journalDesc (r : Jrec) : Block :=
  (Buf.zero 512).store 8 0 jmagic
    |>.store 4 8 r.1
    |>.store 4 12 (checksum r.2.byte blockSize)

/-- The header block that `m16_journal_commit` writes, before its checksum is filled in. -/
def journalHeaderBody (seq count : ℕ) : Block :=
  (Buf.zero 512).store 8 0 jmagic
    |>.store 4 8 version
    |>.store 4 12 jCommitted
    |>.store 4 16 seq
    |>.store 4 20 count

/-- The committed header block. -/
def journalHeader (seq count : ℕ) : Block :=
  (journalHeaderBody seq count).store 4 24 (headerChecksum (journalHeaderBody seq count))

/-- The LBA of the descriptor of record `i`. -/
def descLba (i : ℕ) : ℕ := journalStart + 1 + i * 2

/-- The LBA of the payload of record `i`. -/
def dataLba (i : ℕ) : ℕ := descLba i + 1

/-! ## The operations -/

def journalClear : DevM Unit := writeBlock journalStart (Buf.zero 512)

/-- The first loop of `m16_journal_commit`, from record `i` on. -/
def journalRecords : ℕ → Tx → DevM Unit
  | _, [] => pure ()
  | i, r :: tx => do
    writeBlock (descLba i) (journalDesc r)
    writeBlock (dataLba i) r.2
    journalRecords (i + 1) tx

/-- The second loop of `m16_journal_commit`: the records at their targets. -/
def journalHome : Tx → DevM Unit
  | [] => pure ()
  | r :: tx => do
    writeBlock r.1 r.2
    journalHome tx

def journalCommit (tx : Tx) (seq : ℕ) (stopAfterCommitRecord : Bool) : DevM Unit := do
  failIf (tx.length > journalMaxRecords) .inval
  journalClear
  journalRecords 0 tx
  writeBlock journalStart (journalHeader seq tx.length)
  if stopAfterCommitRecord then
    return ()
  else
    journalHome tx
    journalClear

/-- The loop of `m16_journal_recover`, from record `i` on with `k` records left. -/
def journalReplay : ℕ → ℕ → DevM Unit
  | _, 0 => pure ()
  | i, k + 1 => do
    let d ← readBlock (descLba i)
    let dev ← get
    failIf (JournalDesc.magic d ≠ jmagic ∨ ¬validLba dev (JournalDesc.targetLba d)) .corrupt
    let payload ← readBlock (dataLba i)
    failIf (checksum payload.byte blockSize ≠ JournalDesc.payloadChecksum d) .corrupt
    writeBlock (JournalDesc.targetLba d) payload
    journalReplay (i + 1) k

def journalRecover : DevM Unit := do
  let h ← readBlock journalStart
  if JournalHeader.magic h = 0 ∧ JournalHeader.state h = jEmpty then
    return ()
  else
    failIf (JournalHeader.magic h ≠ jmagic ∨ JournalHeader.version h ≠ version ∨
      JournalHeader.state h ≠ jCommitted ∨ JournalHeader.count h > journalMaxRecords) .corrupt
    failIf (headerChecksum h ≠ JournalHeader.headerChecksum h) .corrupt
    journalReplay 0 (JournalHeader.count h)
    journalClear

/-! ## What the blocks of a commit hold -/

theorem magic_journalDesc (r : Jrec) : JournalDesc.magic (journalDesc r) = jmagic := by
  rw [JournalDesc.magic, journalDesc, Buf.load_store_of_disjoint (by omega) (by omega),
    Buf.load_store_of_disjoint (by omega) (by omega),
    Buf.load_store_self (by omega) (by norm_num [jmagic])]

theorem targetLba_journalDesc {r : Jrec} (h : r.1 < 2 ^ 32) :
    JournalDesc.targetLba (journalDesc r) = r.1 := by
  rw [JournalDesc.targetLba, journalDesc, Buf.load_store_of_disjoint (by omega) (by omega),
    Buf.load_store_self (by omega) (by omega)]

theorem payloadChecksum_journalDesc (r : Jrec) :
    JournalDesc.payloadChecksum (journalDesc r) = checksum r.2.byte blockSize := by
  have hlt := checksum_lt r.2.byte blockSize
  rw [JournalDesc.payloadChecksum, journalDesc, Buf.load_store_self (by omega) (by omega)]

/-- A field of the header below the checksum reads as it does before the checksum is filled in. -/
private theorem load_journalHeader (seq count : ℕ) {w off : ℕ} (h : off + w ≤ 24) :
    (journalHeader seq count).load w off = (journalHeaderBody seq count).load w off := by
  rw [journalHeader, Buf.load_store_of_disjoint (by omega) (by omega)]

theorem magic_journalHeader (seq count : ℕ) :
    JournalHeader.magic (journalHeader seq count) = jmagic := by
  rw [JournalHeader.magic, load_journalHeader _ _ (by omega), journalHeaderBody,
    Buf.load_store_of_disjoint (by omega) (by omega),
    Buf.load_store_of_disjoint (by omega) (by omega),
    Buf.load_store_of_disjoint (by omega) (by omega),
    Buf.load_store_of_disjoint (by omega) (by omega),
    Buf.load_store_self (by omega) (by norm_num [jmagic])]

theorem version_journalHeader (seq count : ℕ) :
    JournalHeader.version (journalHeader seq count) = version := by
  rw [JournalHeader.version, load_journalHeader _ _ (by omega), journalHeaderBody,
    Buf.load_store_of_disjoint (by omega) (by omega),
    Buf.load_store_of_disjoint (by omega) (by omega),
    Buf.load_store_of_disjoint (by omega) (by omega),
    Buf.load_store_self (by omega) (by norm_num [version])]

theorem state_journalHeader (seq count : ℕ) :
    JournalHeader.state (journalHeader seq count) = jCommitted := by
  rw [JournalHeader.state, load_journalHeader _ _ (by omega), journalHeaderBody,
    Buf.load_store_of_disjoint (by omega) (by omega),
    Buf.load_store_of_disjoint (by omega) (by omega),
    Buf.load_store_self (by omega) (by norm_num [jCommitted])]

theorem count_journalHeader {seq count : ℕ} (h : count < 2 ^ 32) :
    JournalHeader.count (journalHeader seq count) = count := by
  rw [JournalHeader.count, load_journalHeader _ _ (by omega), journalHeaderBody,
    Buf.load_store_self (by omega) (by omega)]

/-- The stored header checksum is the one recomputed from the header. -/
theorem headerChecksum_journalHeader (seq count : ℕ) :
    headerChecksum (journalHeader seq count)
      = JournalHeader.headerChecksum (journalHeader seq count) := by
  have hlt : headerChecksum (journalHeaderBody seq count) < 2 ^ 32 := checksum_lt _ _
  rw [JournalHeader.headerChecksum, journalHeader, Buf.load_store_self (by omega) (by omega),
    headerChecksum, Buf.store_store_self, ← headerChecksum]

/-! ## The writes of a commit -/

theorem writeAll_append (ws vs : List (ℕ × Block)) :
    writeAll (ws ++ vs) = (do writeAll ws; writeAll vs) := by
  induction ws with
  | nil => rfl
  | cons w ws ih => rw [List.cons_append, writeAll, writeAll, ih, bind_assoc]

theorem writeAll_singleton (w : ℕ × Block) : writeAll [w] = writeBlock w.1 w.2 := by
  rw [writeAll, writeAll]
  exact bind_pure_unit

/-- The write that clears the journal header. -/
def clearWrite : ℕ × Block := (journalStart, Buf.zero 512)

/-- The journal blocks of the records from `i` on. -/
def recordWrites : ℕ → Tx → List (ℕ × Block)
  | _, [] => []
  | i, r :: tx => (descLba i, journalDesc r) :: (dataLba i, r.2) :: recordWrites (i + 1) tx

/-- The block writes of `m16_journal_commit`, in order. -/
def commitWrites (tx : Tx) (seq : ℕ) (stopAfterCommitRecord : Bool) : List (ℕ × Block) :=
  clearWrite :: recordWrites 0 tx ++ (journalStart, journalHeader seq tx.length) ::
    if stopAfterCommitRecord then [] else tx ++ [clearWrite]

theorem writeAll_recordWrites (i : ℕ) (tx : Tx) :
    journalRecords i tx = writeAll (recordWrites i tx) := by
  induction tx generalizing i with
  | nil => rfl
  | cons r tx ih => rw [journalRecords, recordWrites, writeAll, writeAll, ih]

theorem journalHome_eq_writeAll (tx : Tx) : journalHome tx = writeAll tx := by
  induction tx with
  | nil => rfl
  | cons r tx ih => rw [journalHome, writeAll, ih]

theorem journalClear_eq_writeAll : journalClear = writeAll [clearWrite] := by
  rw [writeAll_singleton]
  rfl

/-- A commit is the sequence of its writes. -/
theorem journalCommit_eq_writeAll {tx : Tx} (h : tx.length ≤ journalMaxRecords) (seq : ℕ)
    (stop : Bool) : journalCommit tx seq stop = writeAll (commitWrites tx seq stop) := by
  rw [commitWrites, List.cons_append, ← List.singleton_append, writeAll_append, writeAll_append,
    ← journalClear_eq_writeAll, ← writeAll_recordWrites, writeAll, journalCommit]
  have hpass : (failIf (tx.length > journalMaxRecords) Err.inval : DevM Unit) = pure () :=
    funext fun dev ↦ run_failIf_of_not (by omega)
  rw [hpass, pure_bind]
  congr 1
  funext _
  congr 1
  funext _
  congr 1
  funext _
  cases stop with
  | true => rfl
  | false => rw [if_neg (by simp), if_neg (by simp), writeAll_append, ← journalHome_eq_writeAll,
      ← journalClear_eq_writeAll]

theorem length_recordWrites (i : ℕ) (tx : Tx) : (recordWrites i tx).length = 2 * tx.length := by
  induction tx generalizing i with
  | nil => rfl
  | cons r tx ih =>
    rw [recordWrites, List.length_cons, List.length_cons, ih, List.length_cons]
    ring

theorem mem_recordWrites {i : ℕ} {tx : Tx} {w : ℕ × Block} (h : w ∈ recordWrites i tx) :
    descLba i ≤ w.1 ∧ w.1 < descLba (i + tx.length) := by
  induction tx generalizing i with
  | nil => simp [recordWrites] at h
  | cons r tx ih =>
    rw [recordWrites, List.mem_cons, List.mem_cons] at h
    rw [List.length_cons]
    rcases h with rfl | rfl | h
    · simp only [descLba]; omega
    · simp only [descLba, dataLba]; omega
    · have hrest := ih h
      simp only [descLba] at hrest ⊢
      omega

end M16

end Mcsos
