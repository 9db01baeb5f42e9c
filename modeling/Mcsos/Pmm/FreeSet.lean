import Mcsos.Base.Machine
import Mcsos.Base.Search
import Mcsos.Pmm.Allocator
import Mathlib.Data.Finset.Max

/-!
# The allocator as a set of free frames

`freeSet pmm` is the set of frames below `frame_count` whose bit is clear. Marking a frame inserts
it into the set or erases it, and each function of the interface is described by what it does to
the set.

`Inv` says how the other fields follow from it. The part that carries the allocator is `hint`: no
frame below `next_hint` is free, so the first loop of `pmm_alloc_frame` finds the lowest free frame,
and the second loop never finds anything.
-/

namespace Mcsos

namespace Pmm

/-- The frames below `frame_count` whose bit is clear. -/
def freeSet (pmm : State) : Finset ℕ :=
  (Finset.range pmm.frameCount).filter fun f ↦ Bitmap.test pmm.bitmap f = false

theorem mem_freeSet {pmm : State} {f : ℕ} :
    f ∈ freeSet pmm ↔ f < pmm.frameCount ∧ Bitmap.test pmm.bitmap f = false := by
  rw [freeSet, Finset.mem_filter, Finset.mem_range]

theorem freeSet_subset (pmm : State) : freeSet pmm ⊆ Finset.range pmm.frameCount :=
  Finset.filter_subset _ _

theorem card_freeSet_le (pmm : State) : (freeSet pmm).card ≤ pmm.frameCount := by
  have := Finset.card_le_card (freeSet_subset pmm)
  rwa [Finset.card_range] at this

/-- The fields that describe the memory and not its use. -/
structure SameMemory (pmm pmm' : State) : Prop where
  maxPhys : pmm'.maxPhys = pmm.maxPhys
  frameCount : pmm'.frameCount = pmm.frameCount
  initialized : pmm'.initialized = pmm.initialized

theorem SameMemory.refl (pmm : State) : SameMemory pmm pmm := ⟨rfl, rfl, rfl⟩

theorem SameMemory.trans {p q r : State} (h : SameMemory p q) (h' : SameMemory q r) :
    SameMemory p r :=
  ⟨h'.maxPhys.trans h.maxPhys, h'.frameCount.trans h.frameCount,
    h'.initialized.trans h.initialized⟩

/-- How the counters and the hint follow from the set of free frames. -/
structure Inv (pmm : State) : Prop where
  maxPhys_eq : pmm.maxPhys = pmm.frameCount * pageSize
  maxPhys_lt : pmm.maxPhys < 2 ^ 64
  freeFrames_eq : pmm.freeFrames = (freeSet pmm).card
  usedFrames_add : pmm.usedFrames + (freeSet pmm).card = pmm.frameCount
  hint : ∀ f ∈ freeSet pmm, pmm.nextHint ≤ f

theorem Inv.frameCount_lt {pmm : State} (h : Inv pmm) : pmm.frameCount < 2 ^ 52 := by
  have hlt := h.maxPhys_lt
  rw [h.maxPhys_eq, pageSize] at hlt
  omega

/-! ## Marking one frame -/

theorem sameMemory_markFrameFree (pmm : State) (frame : ℕ) :
    SameMemory pmm (markFrameFree pmm frame) := by
  unfold markFrameFree
  split
  · exact .refl pmm
  · split
    · exact ⟨rfl, rfl, rfl⟩
    · exact .refl pmm

theorem sameMemory_markFrameUsed (pmm : State) (frame : ℕ) :
    SameMemory pmm (markFrameUsed pmm frame) := by
  unfold markFrameUsed
  split
  · exact .refl pmm
  · split
    · exact ⟨rfl, rfl, rfl⟩
    · exact .refl pmm

/-- A frame that is already free, or not of this memory, is left alone. -/
theorem markFrameFree_of {pmm : State} {frame : ℕ}
    (h : frame < pmm.frameCount → frame ∈ freeSet pmm) : markFrameFree pmm frame = pmm := by
  unfold markFrameFree
  split
  · rfl
  · next hlt => rw [if_neg (by rw [(mem_freeSet.mp (h (not_le.mp hlt))).2]; simp)]

theorem markFrameUsed_of_notMem {pmm : State} {frame : ℕ} (h : frame ∉ freeSet pmm) :
    markFrameUsed pmm frame = pmm := by
  unfold markFrameUsed
  split
  · rfl
  · next hlt =>
    have hbit : Bitmap.test pmm.bitmap frame = true := by
      rw [mem_freeSet, not_and, Bool.not_eq_false] at h
      exact h (not_le.mp hlt)
    rw [if_neg (by rw [hbit]; simp)]

theorem markFrameFree_eq {pmm : State} {frame : ℕ} (hlt : frame < pmm.frameCount)
    (h : frame ∉ freeSet pmm) : markFrameFree pmm frame =
      { pmm with
        bitmap := Bitmap.clear pmm.bitmap frame
        freeFrames := (pmm.freeFrames + 1) % 2 ^ 64
        usedFrames := if pmm.usedFrames > 0 then pmm.usedFrames - 1 else pmm.usedFrames
        nextHint := if frame < pmm.nextHint then frame else pmm.nextHint } := by
  have hbit : Bitmap.test pmm.bitmap frame = true := by
    rw [mem_freeSet, not_and, Bool.not_eq_false] at h
    exact h hlt
  rw [markFrameFree, if_neg (not_le.mpr hlt), if_pos hbit]

theorem markFrameUsed_eq {pmm : State} {frame : ℕ} (h : frame ∈ freeSet pmm) :
    markFrameUsed pmm frame =
      { pmm with
        bitmap := Bitmap.set pmm.bitmap frame
        freeFrames := if pmm.freeFrames > 0 then pmm.freeFrames - 1 else pmm.freeFrames
        usedFrames := (pmm.usedFrames + 1) % 2 ^ 64 } := by
  obtain ⟨hlt, hbit⟩ := mem_freeSet.mp h
  rw [markFrameUsed, if_neg (not_le.mpr hlt), if_pos (by rw [hbit]; rfl)]

theorem freeSet_markFrameFree {pmm : State} {frame : ℕ} (hlt : frame < pmm.frameCount) :
    freeSet (markFrameFree pmm frame) = insert frame (freeSet pmm) := by
  by_cases h : frame ∈ freeSet pmm
  · rw [markFrameFree_of fun _ ↦ h, Finset.insert_eq_of_mem h]
  · rw [markFrameFree_eq hlt h]
    ext f
    rw [Finset.mem_insert, mem_freeSet, mem_freeSet]
    by_cases hf : f = frame
    · simp [hf, hlt, Bitmap.test_clear_self]
    · simp [hf, Bitmap.test_clear_of_ne hf]

theorem freeSet_markFrameUsed (pmm : State) (frame : ℕ) :
    freeSet (markFrameUsed pmm frame) = (freeSet pmm).erase frame := by
  by_cases h : frame ∈ freeSet pmm
  · rw [markFrameUsed_eq h]
    ext f
    rw [Finset.mem_erase, mem_freeSet, mem_freeSet]
    by_cases hf : f = frame
    · simp [hf, Bitmap.test_set_self]
    · simp [hf, Bitmap.test_set_of_ne hf]
  · rw [markFrameUsed_of_notMem h, Finset.erase_eq_of_notMem h]

theorem Inv.markFrameFree {pmm : State} (h : Inv pmm) (frame : ℕ) :
    Inv (markFrameFree pmm frame) := by
  by_cases hlt : frame < pmm.frameCount
  · by_cases hmem : frame ∈ freeSet pmm
    · rw [markFrameFree_of fun _ ↦ hmem]
      exact h
    · have hset := freeSet_markFrameFree hlt
      have hcard := Finset.card_insert_of_notMem hmem
      have hle := card_freeSet_le (Pmm.markFrameFree pmm frame)
      have hcount := h.frameCount_lt
      have hadd := h.usedFrames_add
      rw [hset, hcard, (sameMemory_markFrameFree pmm frame).frameCount] at hle
      refine ⟨?_, ?_, ?_, ?_, fun f hf ↦ ?_⟩
      · rw [(sameMemory_markFrameFree pmm frame).maxPhys,
          (sameMemory_markFrameFree pmm frame).frameCount]
        exact h.maxPhys_eq
      · rw [(sameMemory_markFrameFree pmm frame).maxPhys]
        exact h.maxPhys_lt
      · rw [hset, hcard, ← h.freeFrames_eq, markFrameFree_eq hlt hmem]
        refine Nat.mod_eq_of_lt ?_
        rw [h.freeFrames_eq]
        omega
      · rw [hset, hcard, (sameMemory_markFrameFree pmm frame).frameCount,
          markFrameFree_eq hlt hmem]
        simp only [gt_iff_lt]
        split_ifs <;> omega
      · -- the hint moves down to the frame if it was above it
        rw [hset, Finset.mem_insert] at hf
        rw [markFrameFree_eq hlt hmem]
        simp only
        rcases hf with rfl | hf
        · split_ifs <;> omega
        · have := h.hint f hf
          split_ifs <;> omega
  · rw [markFrameFree_of fun h' ↦ absurd h' hlt]
    exact h

theorem Inv.markFrameUsed {pmm : State} (h : Inv pmm) (frame : ℕ) :
    Inv (markFrameUsed pmm frame) := by
  by_cases hmem : frame ∈ freeSet pmm
  · have hset := freeSet_markFrameUsed pmm frame
    have hcard := Finset.card_erase_add_one hmem
    have hcount := h.frameCount_lt
    have hadd := h.usedFrames_add
    refine ⟨?_, ?_, ?_, ?_, fun f hf ↦ ?_⟩
    · rw [(sameMemory_markFrameUsed pmm frame).maxPhys,
        (sameMemory_markFrameUsed pmm frame).frameCount]
      exact h.maxPhys_eq
    · rw [(sameMemory_markFrameUsed pmm frame).maxPhys]
      exact h.maxPhys_lt
    · rw [hset, markFrameUsed_eq hmem]
      simp only [h.freeFrames_eq]
      split_ifs <;> omega
    · rw [hset, (sameMemory_markFrameUsed pmm frame).frameCount, markFrameUsed_eq hmem]
      simp only
      rw [Nat.mod_eq_of_lt (by omega)]
      omega
    · rw [hset] at hf
      rw [markFrameUsed_eq hmem]
      exact h.hint f (Finset.mem_of_mem_erase hf)
  · rw [markFrameUsed_of_notMem hmem]
    exact h

/-! ## Marking a range -/

theorem freeSet_markPageUsed (pmm : State) (addr : ℕ) :
    freeSet (markPageUsed pmm addr) = (freeSet pmm).erase (addr / pageSize) := by
  rw [← freeSet_markFrameUsed, markPageUsed]
  split
  · rfl
  · rfl

theorem sameMemory_markPageUsed (pmm : State) (addr : ℕ) :
    SameMemory pmm (markPageUsed pmm addr) := by
  have h := sameMemory_markFrameUsed pmm (addr / pageSize)
  rw [markPageUsed]
  split
  · exact ⟨h.maxPhys, h.frameCount, h.initialized⟩
  · exact h

theorem Inv.markPageUsed {pmm : State} (h : Inv pmm) (addr : ℕ) : Inv (markPageUsed pmm addr) := by
  have h' := h.markFrameUsed (addr / pageSize)
  rw [Pmm.markPageUsed]
  split
  · -- the counter of reserved frames is in no relation to the others
    exact ⟨h'.maxPhys_eq, h'.maxPhys_lt, h'.freeFrames_eq, h'.usedFrames_add, h'.hint⟩
  · exact h'

theorem foldl_markPageUsed (l : List ℕ) (pmm : State) :
    SameMemory pmm (l.foldl markPageUsed pmm) ∧
    (Inv pmm → Inv (l.foldl markPageUsed pmm)) ∧
    ∀ f, f ∈ freeSet (l.foldl markPageUsed pmm) ↔
      f ∈ freeSet pmm ∧ ¬∃ addr ∈ l, addr / pageSize = f := by
  induction l generalizing pmm with
  | nil => exact ⟨.refl pmm, id, fun f ↦ by simp⟩
  | cons addr l ih =>
    obtain ⟨hsame, hinv, hmem⟩ := ih (markPageUsed pmm addr)
    rw [List.foldl_cons]
    refine ⟨(sameMemory_markPageUsed pmm addr).trans hsame, fun h ↦ hinv (h.markPageUsed addr),
      fun f ↦ ?_⟩
    rw [hmem, freeSet_markPageUsed, Finset.mem_erase, List.exists_mem_cons_iff, not_or, ne_comm]
    tauto

theorem foldl_markFrameFree (l : List ℕ) (pmm : State) :
    SameMemory pmm (l.foldl (fun p addr ↦ markFrameFree p (addr / pageSize)) pmm) ∧
    (Inv pmm → Inv (l.foldl (fun p addr ↦ markFrameFree p (addr / pageSize)) pmm)) := by
  induction l generalizing pmm with
  | nil => exact ⟨.refl pmm, id⟩
  | cons addr l ih =>
    obtain ⟨hsame, hinv⟩ := ih (markFrameFree pmm (addr / pageSize))
    exact ⟨(sameMemory_markFrameFree pmm _).trans hsame, fun h ↦ hinv (h.markFrameFree _)⟩

theorem markRangeFree_spec (pmm : State) (base length : ℕ) :
    SameMemory pmm (markRangeFree pmm base length) ∧
    (Inv pmm → Inv (markRangeFree pmm base length)) := by
  have hid : SameMemory pmm pmm ∧ (Inv pmm → Inv pmm) := ⟨.refl pmm, id⟩
  unfold markRangeFree
  split
  · exact hid
  · split
    · exact hid
    · dsimp only
      split
      · exact hid
      · split
        · exact hid
        · split
          · obtain ⟨hsame, hinv⟩ := foldl_markFrameFree (pages (alignUp base pageSize) _) _
            exact ⟨⟨hsame.maxPhys, hsame.frameCount, hsame.initialized⟩, fun h ↦ hinv
              ⟨h.maxPhys_eq, h.maxPhys_lt, h.freeFrames_eq, h.usedFrames_add, h.hint⟩⟩
          · exact foldl_markFrameFree _ pmm

theorem markRangeUsed_spec (pmm : State) (base length : ℕ) :
    SameMemory pmm (markRangeUsed pmm base length) ∧
    (Inv pmm → Inv (markRangeUsed pmm base length)) ∧
    freeSet (markRangeUsed pmm base length) ⊆ freeSet pmm := by
  have hid : SameMemory pmm pmm ∧ (Inv pmm → Inv pmm) ∧ freeSet pmm ⊆ freeSet pmm :=
    ⟨.refl pmm, id, subset_rfl⟩
  unfold markRangeUsed
  split
  · exact hid
  · split
    · exact hid
    · dsimp only
      split
      · exact hid
      · split
        · exact hid
        · obtain ⟨hsame, hinv, hmem⟩ := foldl_markPageUsed (pages _ _) pmm
          exact ⟨hsame, hinv, fun f hf ↦ ((hmem f).mp hf).1⟩

/-- Some byte of the range lies in frame `f`. -/
def Overlaps (base length f : ℕ) : Prop := ∃ x, base ≤ x ∧ x < base + length ∧ x / pageSize = f

theorem overlaps_iff {base length f : ℕ} (hlength : 0 < length) :
    Overlaps base length f ↔ base / pageSize ≤ f ∧ pageSize * f < base + length := by
  simp only [Overlaps, pageSize]
  constructor
  · rintro ⟨x, hbase, hlt, rfl⟩
    omega
  · rintro ⟨hle, hlt⟩
    exact ⟨max base (4096 * f), by omega, by omega, by omega⟩

/-- The loops run through the frames from that of `start` to the last one that begins before
`stop`. -/
theorem exists_mem_pages_iff {start stop f : ℕ} (hstart : start % pageSize = 0) :
    (∃ addr ∈ pages start stop, addr / pageSize = f) ↔
      start / pageSize ≤ f ∧ pageSize * f < stop := by
  simp only [pages, List.mem_map, List.mem_range, pageSize] at hstart ⊢
  constructor
  · rintro ⟨_, ⟨k, hk, rfl⟩, rfl⟩
    omega
  · rintro ⟨hle, hlt⟩
    exact ⟨_, ⟨f - start / 4096, by omega, rfl⟩, by omega⟩

/-- The end of the range, rounded up to a page, is an address. -/
def EndInRange (base length : ℕ) : Prop :=
  (base + length + (pageSize - 1)) / pageSize * pageSize ≤ 2 ^ 64 - 1

theorem mem_freeSet_markRangeUsed {pmm : State} (h : Inv pmm) {base length : ℕ}
    (hend : EndInRange base length) (f : ℕ) :
    f ∈ freeSet (markRangeUsed pmm base length) ↔
      f ∈ freeSet pmm ∧ ¬Overlaps base length f := by
  have hmax := h.maxPhys_eq
  simp only [EndInRange, pageSize] at hend hmax
  by_cases hlength : length = 0
  · -- nothing overlaps an empty range
    rw [markRangeUsed, if_pos hlength]
    refine ⟨fun hf ↦ ⟨hf, ?_⟩, And.left⟩
    rintro ⟨x, hle, hlt, -⟩
    omega
  have hadd : checkedAddU64 base length = some (base + length) := by
    rw [checkedAddU64, if_neg (by omega)]
  have hstop : alignUp (base + length) pageSize = (base + length + 4095) / 4096 * 4096 := by
    rw [alignUp, alignDown, pageSize]
    omega
  have hstart : alignDown base pageSize = base / 4096 * 4096 := rfl
  rw [markRangeUsed, if_neg hlength, hadd, overlaps_iff (by omega)]
  dsimp only
  rw [if_neg (by rw [hstop, hstart]; omega)]
  by_cases habove : alignDown base pageSize ≥ pmm.maxPhys
  · -- the range lies above the memory
    rw [if_pos habove]
    refine ⟨fun hf ↦ ⟨hf, ?_⟩, And.left⟩
    have := (mem_freeSet.mp hf).1
    rw [hstart] at habove
    simp only [pageSize]
    omega
  · rw [if_neg habove, (foldl_markPageUsed _ pmm).2.2 f, hstop, hstart,
      exists_mem_pages_iff (by rw [pageSize]; omega)]
    refine and_congr_right fun hf ↦ not_congr ?_
    have := (mem_freeSet.mp hf).1
    simp only [pageSize]
    omega

/-! ## The interface -/

/-- A frame allocator that may be used. -/
structure Ready (pmm : State) : Prop extends Inv pmm where
  initialized : pmm.initialized = true
  zero_notMem : 0 ∉ freeSet pmm

theorem allocFrame_of_empty {pmm : State} (h : Inv pmm) (hempty : freeSet pmm = ∅) :
    allocFrame pmm = (invalidFrame, pmm) := by
  rw [allocFrame, if_pos (Or.inr (by rw [h.freeFrames_eq, hempty, Finset.card_empty]))]

/-- The first loop finds the lowest free frame. -/
theorem allocFrame_of_isLeast {pmm : State} (h : Ready pmm) {f : ℕ}
    (hf : IsLeast (freeSet pmm : Set ℕ) f) : allocFrame pmm = takeFrame pmm f := by
  have hmem : f ∈ freeSet pmm := hf.1
  obtain ⟨hlt, hbit⟩ := mem_freeSet.mp hmem
  have hhint := h.hint f hmem
  have hpos : (freeSet pmm).card ≠ 0 := Finset.card_ne_zero_of_mem hmem
  have hfind : (List.range' pmm.nextHint (pmm.frameCount - pmm.nextHint)).find?
      (fun frame ↦ !Bitmap.test pmm.bitmap frame) = some f := by
    rw [List.find?_range'_eq_some]
    refine ⟨by rw [hbit]; rfl, List.mem_range'_1.mpr ⟨hhint, by omega⟩, fun j _ hj ↦ ?_⟩
    rw [Bool.not_not]
    by_contra hclear
    rw [Bool.not_eq_true] at hclear
    exact absurd (hf.2 (mem_freeSet.mpr ⟨hj.trans hlt, hclear⟩)) (not_le.mpr hj)
  rw [allocFrame, if_neg (by rw [h.initialized, h.freeFrames_eq]; simpa using hpos), hfind]

theorem takeFrame_spec {pmm : State} (h : Inv pmm) {f : ℕ}
    (hf : IsLeast (freeSet pmm : Set ℕ) f) :
    (takeFrame pmm f).1 = pageSize * f ∧
    freeSet (takeFrame pmm f).2 = (freeSet pmm).erase f ∧
    SameMemory pmm (takeFrame pmm f).2 ∧ Inv (takeFrame pmm f).2 := by
  have hlt := (mem_freeSet.mp hf.1).1
  have hcount := h.frameCount_lt
  have hinv := h.markFrameUsed f
  have hsame := sameMemory_markFrameUsed pmm f
  have hset : freeSet (takeFrame pmm f).2 = (freeSet pmm).erase f := freeSet_markFrameUsed pmm f
  refine ⟨?_, hset, ⟨hsame.maxPhys, hsame.frameCount, hsame.initialized⟩,
    ⟨hinv.maxPhys_eq, hinv.maxPhys_lt, hinv.freeFrames_eq, hinv.usedFrames_add, fun g hg ↦ ?_⟩⟩
  · rw [takeFrame, pageSize]
    omega
  · -- what is free is above the frame just taken
    rw [hset, Finset.mem_erase] at hg
    have hle : f ≤ g := hf.2 hg.2
    have hne := hg.1
    show (f + 1) % 2 ^ 64 ≤ g
    omega

theorem exists_isLeast {s : Finset ℕ} (h : s ≠ ∅) : ∃ f, IsLeast (s : Set ℕ) f :=
  ⟨_, s.isLeast_min' (Finset.nonempty_iff_ne_empty.mpr h)⟩

theorem Ready.allocFrame {pmm : State} (h : Ready pmm) : Ready (allocFrame pmm).2 := by
  by_cases hempty : freeSet pmm = ∅
  · rw [allocFrame_of_empty h.toInv hempty]
    exact h
  · obtain ⟨f, hf⟩ := exists_isLeast hempty
    obtain ⟨-, hset, hsame, hinv⟩ := takeFrame_spec h.toInv hf
    rw [allocFrame_of_isLeast h hf]
    refine ⟨hinv, hsame.initialized.trans h.initialized, fun hzero ↦ h.zero_notMem ?_⟩
    rw [hset] at hzero
    exact Finset.mem_of_mem_erase hzero

/-- The addresses that `pmm_free_frame` accepts. -/
def Freeable (pmm : State) (a : UInt64) : Prop :=
  a.toNat ≠ 0 ∧ a.toNat % pageSize = 0 ∧ a.toNat < pmm.maxPhys ∧
    a.toNat / pageSize ∉ freeSet pmm

theorem Inv.frame_lt {pmm : State} (h : Inv pmm) {a : ℕ} (ha : a < pmm.maxPhys) :
    a / pageSize < pmm.frameCount := by
  rw [h.maxPhys_eq] at ha
  exact Nat.div_lt_of_lt_mul (by rwa [mul_comm])

theorem freeFrame_of_freeable {pmm : State} (h : Ready pmm) {a : UInt64} (ha : Freeable pmm a) :
    freeFrame pmm a = (true, markFrameFree pmm (a.toNat / pageSize)) := by
  obtain ⟨hne, hmod, hlt, hmem⟩ := ha
  rw [mem_freeSet, not_and, Bool.not_eq_false] at hmem
  rw [freeFrame, if_neg (by rw [h.initialized]; simp), if_neg (by omega),
    if_neg (by rw [hmem (h.frame_lt hlt)]; simp)]

theorem freeFrame_of_not_freeable {pmm : State} {a : UInt64} (ha : ¬Freeable pmm a) :
    freeFrame pmm a = (false, pmm) := by
  unfold freeFrame
  split
  · rfl
  · split
    · rfl
    · split
      · rfl
      · next hargs hbit =>
        rw [not_or, not_or, not_not, not_le] at hargs
        refine absurd ⟨hargs.2.1, hargs.1, hargs.2.2, fun hmem ↦ hbit ?_⟩ ha
        rw [(mem_freeSet.mp hmem).2]
        rfl

theorem Ready.freeFrame {pmm : State} (h : Ready pmm) (a : UInt64) :
    Ready (freeFrame pmm a).2 := by
  by_cases ha : Freeable pmm a
  · rw [freeFrame_of_freeable h ha]
    refine ⟨h.toInv.markFrameFree _,
      (sameMemory_markFrameFree pmm _).initialized.trans h.initialized, ?_⟩
    obtain ⟨hne, hmod, hlt, -⟩ := ha
    rw [freeSet_markFrameFree (h.frame_lt hlt), Finset.mem_insert, not_or]
    refine ⟨?_, h.zero_notMem⟩
    rw [pageSize] at hmod ⊢
    omega
  · rw [freeFrame_of_not_freeable ha]
    exact h

theorem Ready.markRangeUsed {pmm : State} (h : Ready pmm) (base length : ℕ) :
    Ready (markRangeUsed pmm base length) := by
  obtain ⟨hsame, hinv, hsub⟩ := markRangeUsed_spec pmm base length
  exact ⟨hinv h.toInv, hsame.initialized.trans h.initialized, fun h0 ↦ h.zero_notMem (hsub h0)⟩

theorem Ready.step {pmm : State} (h : Ready pmm) (c : Call) : Ready (step c pmm).2 := by
  cases c with
  | allocFrame => exact h.allocFrame
  | freeFrame a => exact h.freeFrame a
  | reserveRange base length =>
    show Ready (reserveRange pmm base length).2
    rw [reserveRange]
    split
    · exact h
    · exact h.markRangeUsed _ _

/-! ## Initialisation -/

theorem inv_initialState (storage : Mem) {maxPhysBytes : ℕ} (hmod : maxPhysBytes % pageSize = 0)
    (hlt : maxPhysBytes < 2 ^ 64) : Inv (initialState storage maxPhysBytes) := by
  have hempty : freeSet (initialState storage maxPhysBytes) = ∅ := by
    refine Finset.eq_empty_of_forall_notMem fun f hf ↦ ?_
    obtain ⟨hcount, hclear⟩ := mem_freeSet.mp hf
    have hbyte : (initialState storage maxPhysBytes).bitmap (f / 8) = 0xff := by
      simp only [initialState] at hcount ⊢
      exact if_pos (by omega)
    rw [Bitmap.test_eq_testBit, hbyte] at hclear
    have hset : ∀ k < 8, (0xff : UInt8).toNat.testBit k = true := by decide
    rw [hset _ (Nat.mod_lt _ (by norm_num))] at hclear
    cases hclear
  refine ⟨?_, hlt, ?_, ?_, fun f hf ↦ Nat.zero_le f⟩
  · exact (Nat.div_mul_cancel (Nat.dvd_of_mod_eq_zero hmod)).symm
  · rw [hempty]
    rfl
  · rw [hempty]
    rfl

private theorem foldl_regions {P : State → Prop} (g : State → BootMemRegion → State)
    (hg : ∀ p r, P p → P (g p r)) (regions : List BootMemRegion) {pmm : State} (h : P pmm) :
    P (regions.foldl g pmm) := by
  induction regions generalizing pmm with
  | nil => exact h
  | cons r regions ih => exact ih (hg pmm r h)

theorem inv_markMap {pmm : State} (h : Inv pmm) (regions : List BootMemRegion) :
    Inv (markMap pmm regions) ∧ 0 ∉ freeSet (markMap pmm regions) := by
  rw [markMap]
  have hfree : Inv (regions.foldl (fun p r ↦ if r.type = bootMemUsable then
      markRangeFree p r.base.toNat r.length.toNat else p) pmm) := by
    refine foldl_regions _ (fun p r hp ↦ ?_) regions h
    split
    · exact (markRangeFree_spec p _ _).2 hp
    · exact hp
  -- frame 0 is marked here, and marking ranges as used keeps it so
  have hzero : 0 ∉ freeSet (markRangeUsed (regions.foldl (fun p r ↦ if r.type = bootMemUsable then
      markRangeFree p r.base.toNat r.length.toNat else p) pmm) 0 pageSize) := by
    rw [mem_freeSet_markRangeUsed hfree (by rw [EndInRange, pageSize]; norm_num), not_and, not_not]
    exact fun _ ↦ ⟨0, le_rfl, by rw [pageSize]; norm_num, Nat.zero_div _⟩
  refine foldl_regions (P := fun p ↦ Inv p ∧ 0 ∉ freeSet p) _ (fun p r hp ↦ ?_) regions
    ⟨(markRangeUsed_spec _ 0 pageSize).2.1 hfree, hzero⟩
  split
  · obtain ⟨-, hinv, hsub⟩ := markRangeUsed_spec p r.base.toNat r.length.toNat
    exact ⟨hinv hp.1, fun h0 ↦ hp.2 (hsub h0)⟩
  · exact hp

theorem sameMemory_markMap (pmm : State) (regions : List BootMemRegion) :
    SameMemory pmm (markMap pmm regions) := by
  rw [markMap]
  refine foldl_regions (P := SameMemory pmm) _ (fun p r hp ↦ ?_) regions
    ((foldl_regions (P := SameMemory pmm) _ (fun p r hp ↦ ?_) regions (.refl pmm)).trans
      (markRangeUsed_spec _ 0 pageSize).1)
  · split
    · exact hp.trans (markRangeUsed_spec p _ _).1
    · exact hp
  · split
    · exact hp.trans (markRangeFree_spec p _ _).1
    · exact hp

theorem eq_of_initFromMap {old pmm : State} {regions : Option (List BootMemRegion)}
    {storage : Option Mem} {bytes maxPhys : UInt64}
    (h : initFromMap old regions storage bytes maxPhys = (true, pmm)) :
    ∃ rs m, regions = some rs ∧ storage = some m ∧ maxPhys.toNat % pageSize = 0 ∧
      pmm = { markMap (initialState m maxPhys.toNat) rs with initialized := true } := by
  match regions, storage with
  | none, _ => cases h
  | some rs, none => cases h
  | some rs, some m =>
    rw [initFromMap] at h
    split_ifs at h with hnone hmax hbytes
    · cases h
    · cases h
    · cases h
    · rw [not_or, not_not] at hmax
      exact ⟨rs, m, rfl, rfl, hmax.2, (Prod.mk.inj h).2.symm⟩

theorem frameCount_of_initFromMap {old pmm : State} {regions : Option (List BootMemRegion)}
    {storage : Option Mem} {bytes maxPhys : UInt64}
    (h : initFromMap old regions storage bytes maxPhys = (true, pmm)) :
    pmm.frameCount = maxPhys.toNat / pageSize := by
  obtain ⟨rs, m, -, -, -, rfl⟩ := eq_of_initFromMap h
  exact (sameMemory_markMap _ rs).frameCount

theorem ready_of_initFromMap {old pmm : State} {regions : Option (List BootMemRegion)}
    {storage : Option Mem} {bytes maxPhys : UInt64}
    (h : initFromMap old regions storage bytes maxPhys = (true, pmm)) : Ready pmm := by
  obtain ⟨rs, m, -, -, hpage, rfl⟩ := eq_of_initFromMap h
  obtain ⟨hinv, hzero⟩ := inv_markMap (inv_initialState m hpage maxPhys.toNat_lt) rs
  exact ⟨⟨hinv.maxPhys_eq, hinv.maxPhys_lt, hinv.freeFrames_eq, hinv.usedFrames_add, hinv.hint⟩,
    rfl, hzero⟩

/-! ## The refinement -/

/-- **The allocator is a set of free frames with lowest-first allocation.** In every state that a
run reaches after a successful initialisation, each function does to the set `F` of free frames
what its name says, the counters are the sizes of `F` and of its complement, and frame 0 is not
in `F`. -/
theorem allocator_refines_freeSet {old pmm₀ pmm : State} {regions : Option (List BootMemRegion)}
    {storage : Option Mem} {bytes maxPhys : UInt64}
    (hinit : initFromMap old regions storage bytes maxPhys = (true, pmm₀))
    {es : List (Call × Ret)} (hrun : Run step (fun _ _ ↦ True) pmm₀ es pmm) :
    (∀ f, IsLeast (freeSet pmm : Set ℕ) f → (allocFrame pmm).1 = pageSize * f ∧
      freeSet (allocFrame pmm).2 = (freeSet pmm).erase f) ∧
    ((allocFrame pmm).1 = invalidFrame ↔ freeSet pmm = ∅) ∧
    (freeSet pmm = ∅ → (allocFrame pmm).2 = pmm) ∧
    (∀ a : UInt64,
      ((freeFrame pmm a).1 = true ↔ a.toNat ≠ 0 ∧ a.toNat % pageSize = 0 ∧ a.toNat < pmm.maxPhys ∧
        a.toNat / pageSize ∉ freeSet pmm) ∧
      ((freeFrame pmm a).1 = true →
        freeSet (freeFrame pmm a).2 = insert (a.toNat / pageSize) (freeSet pmm)) ∧
      ((freeFrame pmm a).1 = false → (freeFrame pmm a).2 = pmm)) ∧
    (∀ base length : UInt64, EndInRange base.toNat length.toNat →
      ∀ f, f ∈ freeSet (reserveRange pmm base length).2 ↔
        f ∈ freeSet pmm ∧ ¬Overlaps base.toNat length.toNat f) ∧
    pmm.freeFrames = (freeSet pmm).card ∧
    pmm.usedFrames = pmm.frameCount - (freeSet pmm).card ∧
    0 ∉ freeSet pmm := by
  have h : Ready pmm := hrun.invariant (ready_of_initFromMap hinit) fun u c hu _ ↦ hu.step c
  refine ⟨fun f hf ↦ ?_, ⟨fun hret ↦ ?_, fun hempty ↦ ?_⟩, fun hempty ↦ ?_, fun a ↦ ?_,
    fun base length hend f ↦ ?_, h.freeFrames_eq, ?_, h.zero_notMem⟩
  · rw [allocFrame_of_isLeast h hf]
    obtain ⟨hret, hset, -⟩ := takeFrame_spec h.toInv hf
    exact ⟨hret, hset⟩
  · -- the address of a frame is never the invalid one
    by_contra hne
    obtain ⟨f, hf⟩ := exists_isLeast hne
    have hlt := (mem_freeSet.mp hf.1).1
    have hcount := h.frameCount_lt
    rw [allocFrame_of_isLeast h hf, (takeFrame_spec h.toInv hf).1, pageSize, invalidFrame] at hret
    omega
  · rw [allocFrame_of_empty h.toInv hempty]
  · rw [allocFrame_of_empty h.toInv hempty]
  · by_cases ha : Freeable pmm a
    · rw [freeFrame_of_freeable h ha]
      exact ⟨iff_of_true rfl ha, fun _ ↦ freeSet_markFrameFree (h.frame_lt ha.2.2.1), nofun⟩
    · rw [freeFrame_of_not_freeable ha]
      exact ⟨iff_of_false nofun ha, nofun, fun _ ↦ rfl⟩
  · rw [reserveRange]
    by_cases hlength : length.toNat = 0
    · rw [if_pos (Or.inr hlength)]
      refine ⟨fun hf ↦ ⟨hf, ?_⟩, And.left⟩
      rintro ⟨x, hle, hlt, -⟩
      omega
    · rw [if_neg (by rw [h.initialized]; simpa using hlength)]
      exact mem_freeSet_markRangeUsed h.toInv hend f
  · have := h.usedFrames_add
    omega

/-- Four frames of usable memory, after one allocation: the next one gets frame 2. -/
theorem allocator_refines_freeSet_four :
    let pmm₀ := (initFromMap zeroState (some [⟨0, 0x4000, 1⟩]) (some fun _ ↦ 0) 1 0x4000).2
    let pmm := (step .allocFrame pmm₀).2
    freeSet pmm = {2, 3} ∧ (allocFrame pmm).1 = pageSize * 2 ∧
      freeSet (allocFrame pmm).2 = (freeSet pmm).erase 2 ∧ pmm.freeFrames = (freeSet pmm).card := by
  intro pmm₀ pmm
  have hset : freeSet pmm = {2, 3} := by decide +kernel
  have hleast : IsLeast (freeSet pmm : Set ℕ) 2 := by
    rw [hset]
    exact ⟨by simp, fun x hx ↦ by simp at hx; omega⟩
  obtain ⟨halloc, -, -, -, -, hfree, -⟩ := @allocator_refines_freeSet zeroState pmm₀ pmm
    (some [⟨0, 0x4000, 1⟩]) (some fun _ ↦ 0) 1 0x4000 rfl _
    (Run.snoc Run.nil Call.allocFrame trivial)
  exact ⟨hset, (halloc 2 hleast).1, (halloc 2 hleast).2, hfree⟩

end Pmm

end Mcsos
