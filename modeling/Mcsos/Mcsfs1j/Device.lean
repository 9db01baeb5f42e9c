import Mcsos.Base.Bytes
import Mcsos.Base.Fallible
import Mcsos.Base.RedoLog

/-!
# The block device of the journalling file system

`struct m16_blockdev`, its two accessors and its fault injection. Every function of the source
that takes the device returns an error code and may change the device, so it is modelled in
`DevM`, the state monad over the device with an error that keeps the state reached.

Fault injection is a counter: with `fail_after = k ≥ 0` exactly the next `k` block writes land and
the one after them fails. `run_writeAll` says what this makes of a sequence of writes, and is all
the later files use of it.
-/

namespace Mcsos

namespace M16

/-! ## Layout constants -/

def blockSize : ℕ := 512
def maxBlocks : ℕ := 128
def maxInodes : ℕ := 16
def maxName : ℕ := 32
def magic : ℕ := 0x4d43534631564a31
def jmagic : ℕ := 0x4d43534a524e4c31
def version : ℕ := 1
def jEmpty : ℕ := 0
def jCommitted : ℕ := 2
def journalMaxRecords : ℕ := 8
def journalStart : ℕ := 1
def journalBlocks : ℕ := 1 + 2 * journalMaxRecords
def inodeBitmapLba : ℕ := journalStart + journalBlocks
def blockBitmapLba : ℕ := inodeBitmapLba + 1
def inodeTableLba : ℕ := blockBitmapLba + 1
def inodeTableBlocks : ℕ := 4
def rootDirLba : ℕ := inodeTableLba + inodeTableBlocks
def dataStartLba : ℕ := rootDirLba + 1

/-! ## The device -/

/-- The error codes `M16_E_*` other than `M16_E_OK`. -/
inductive Err where
  | inval
  | io
  | nospc
  | exists
  | noent
  | corrupt
  | toolong
  deriving DecidableEq, Repr

/-- One block of `M16_BLOCK_SIZE` bytes. -/
abbrev Block := Buf 512

/-- `struct m16_blockdev`. The array has `M16_MAX_BLOCKS` blocks, of which the first
`total_blocks` may be used; no access gets past `m16_valid_lba` to any other. -/
structure Blockdev where
  blocks : ℕ → Block
  totalBlocks : ℕ
  writes : UInt64
  failAfter : ℤ

/-- A function of the source on the device: an error code or a result, and the device after it. -/
abbrev DevM := EStateM Err Blockdev

def validLba (dev : Blockdev) (lba : ℕ) : Prop := lba < dev.totalBlocks ∧ lba < maxBlocks

instance (dev : Blockdev) (lba : ℕ) : Decidable (validLba dev lba) :=
  inferInstanceAs (Decidable (_ ∧ _))

def readBlock (lba : ℕ) : DevM Block := do
  let dev ← get
  failIf (¬validLba dev lba) .inval
  return dev.blocks lba

def writeBlock (lba : ℕ) (b : Block) : DevM Unit := do
  let dev ← get
  failIf (¬validLba dev lba) .inval
  failIf (dev.failAfter = 0) .io
  set { dev with
    failAfter := if dev.failAfter > 0 then dev.failAfter - 1 else dev.failAfter
    blocks := Function.update dev.blocks lba b
    writes := dev.writes + 1 }

def devInit : Blockdev where
  blocks _ := Buf.zero 512
  totalBlocks := maxBlocks
  writes := 0
  failAfter := -1

/-- The same device with its fault injection set: the assignment `dev->fail_after = k`. -/
def Blockdev.withFailAfter (dev : Blockdev) (k : ℤ) : Blockdev := { dev with failAfter := k }

@[simp] theorem totalBlocks_withFailAfter (dev : Blockdev) (k : ℤ) :
    (dev.withFailAfter k).totalBlocks = dev.totalBlocks := rfl

@[simp] theorem failAfter_withFailAfter (dev : Blockdev) (k : ℤ) :
    (dev.withFailAfter k).failAfter = k := rfl

/-! ## Running the accessors -/

theorem run_readBlock {dev : Blockdev} {lba : ℕ} (h : validLba dev lba) :
    (readBlock lba).run dev = .ok (dev.blocks lba) dev := by
  rw [readBlock, run_bind_of_ok (EStateM.run_get dev),
    run_bind_of_ok (run_failIf_of_not (not_not.mpr h)), EStateM.run_pure]

/-- The device after one more write has landed. -/
def Blockdev.land (dev : Blockdev) (w : ℕ × Block) : Blockdev where
  blocks := Function.update dev.blocks w.1 w.2
  totalBlocks := dev.totalBlocks
  writes := dev.writes + 1
  failAfter := if dev.failAfter > 0 then dev.failAfter - 1 else dev.failAfter

theorem run_writeBlock {dev : Blockdev} {lba : ℕ} {b : Block} (h : validLba dev lba)
    (hf : dev.failAfter ≠ 0) : (writeBlock lba b).run dev = .ok () (dev.land (lba, b)) := by
  simp [writeBlock, Blockdev.land, run_failIf_of_not (not_not.mpr h), run_failIf_of_not hf]

theorem run_writeBlock_fail {dev : Blockdev} {lba : ℕ} {b : Block} (h : validLba dev lba)
    (hf : dev.failAfter = 0) : (writeBlock lba b).run dev = .error .io dev := by
  simp [writeBlock, run_failIf_of_not (not_not.mpr h), run_failIf_of hf]

/-! ## Sequences of writes -/

/-- Write a list of blocks in order, stopping at the first failure. -/
def writeAll : List (ℕ × Block) → DevM Unit
  | [] => pure ()
  | w :: ws => do
    writeBlock w.1 w.2
    writeAll ws

/-- The device after a list of writes has landed. -/
def Blockdev.landAll (dev : Blockdev) (ws : List (ℕ × Block)) : Blockdev := ws.foldl .land dev

/-- How many of `n` writes the fault injection lets through. -/
def landed (failAfter : ℤ) (n : ℕ) : ℕ := if failAfter < 0 then n else min failAfter.toNat n

@[simp] theorem blocks_landAll (dev : Blockdev) (ws : List (ℕ × Block)) :
    (dev.landAll ws).blocks = applyWrites dev.blocks ws := by
  induction ws generalizing dev with
  | nil => rfl
  | cons w ws ih => exact ih (dev.land w)

@[simp] theorem totalBlocks_landAll (dev : Blockdev) (ws : List (ℕ × Block)) :
    (dev.landAll ws).totalBlocks = dev.totalBlocks := by
  induction ws generalizing dev with
  | nil => rfl
  | cons w ws ih => exact ih (dev.land w)

theorem failAfter_landAll_of_neg {dev : Blockdev} (h : dev.failAfter < 0)
    (ws : List (ℕ × Block)) : (dev.landAll ws).failAfter = dev.failAfter := by
  induction ws generalizing dev with
  | nil => rfl
  | cons w ws ih =>
    have hw : (dev.land w).failAfter = dev.failAfter := if_neg (by omega)
    rw [← hw]
    exact ih (by omega)

theorem failAfter_landAll_of_le {dev : Blockdev} {ws : List (ℕ × Block)}
    (h : (ws.length : ℤ) ≤ dev.failAfter) :
    (dev.landAll ws).failAfter = dev.failAfter - ws.length := by
  induction ws generalizing dev with
  | nil => simp [Blockdev.landAll]
  | cons w ws ih =>
    rw [List.length_cons] at h ⊢
    have hw : (dev.land w).failAfter = dev.failAfter - 1 := if_pos (by omega)
    have hrest : ((dev.land w).landAll ws).failAfter = (dev.land w).failAfter - ws.length :=
      ih (by omega)
    rw [Blockdev.landAll, List.foldl_cons, ← Blockdev.landAll, hrest, hw]
    push_cast
    ring

theorem landed_eq_iff {cut : ℤ} {n : ℕ} : landed cut n = n ↔ cut < 0 ∨ n ≤ cut := by
  rw [landed]
  split_ifs <;> omega

theorem landed_le_iff {cut : ℤ} {k n : ℕ} (h : k < n) :
    landed cut n ≤ k ↔ 0 ≤ cut ∧ cut ≤ k := by
  rw [landed]
  split_ifs <;> omega

theorem failAfter_landAll_of_landed {dev : Blockdev} {ws : List (ℕ × Block)}
    (h : landed dev.failAfter ws.length = ws.length) :
    dev.failAfter < 0 ∧ (dev.landAll ws).failAfter < 0 ∨
      ws.length ≤ dev.failAfter ∧ (dev.landAll ws).failAfter = dev.failAfter - ws.length := by
  rcases landed_eq_iff.mp h with hneg | hle
  · exact .inl ⟨hneg, (failAfter_landAll_of_neg hneg ws).trans_lt hneg⟩
  · exact .inr ⟨hle, failAfter_landAll_of_le hle⟩

/-- **The crash semantics of a write sequence.** The writes that the counter lets through land in
order, and the sequence succeeds exactly when all of them do. -/
theorem run_writeAll {dev : Blockdev} {ws : List (ℕ × Block)}
    (hvalid : ∀ w ∈ ws, validLba dev w.1) :
    (writeAll ws).run dev =
      if landed dev.failAfter ws.length = ws.length then .ok () (dev.landAll ws)
      else .error .io (dev.landAll (ws.take (landed dev.failAfter ws.length))) := by
  induction ws generalizing dev with
  | nil =>
    have hnone : landed dev.failAfter 0 = 0 := by
      unfold landed
      split
      · rfl
      · exact Nat.min_zero _
    simp [writeAll, Blockdev.landAll, hnone]
  | cons w ws ih =>
    have hw : validLba dev w.1 := hvalid w List.mem_cons_self
    by_cases hf : dev.failAfter = 0
    · have hnone : landed dev.failAfter (w :: ws).length = 0 := by simp [landed, hf]
      rw [writeAll, EStateM.run_bind, run_writeBlock_fail hw hf, hnone,
        if_neg (by simp), List.take_zero]
      rfl
    · have hsucc : landed dev.failAfter (w :: ws).length
          = landed (dev.land w).failAfter ws.length + 1 := by
        simp only [landed, Blockdev.land, List.length_cons]
        split_ifs <;> omega
      rw [writeAll, EStateM.run_bind, run_writeBlock hw hf, hsucc, List.length_cons,
        List.take_succ_cons]
      have hrest := @ih (dev.land w) fun v hv ↦ hvalid v (List.mem_cons_of_mem w hv)
      simp only [Nat.add_right_cancel_iff]
      exact hrest

end M16

end Mcsos
