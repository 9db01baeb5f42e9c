import Mcsos.Pmm.FreeSet
import Mathlib.Logic.Function.Iterate

/-!
# Memory that is not usable

Which frames `pmm_alloc_frame` can hand out, seen from the boot memory map. A frame is handed out by
some further allocation if and only if it is free (`Ready.handsOut_iff`), so the question is which
frames are free.

After `pmm_init_from_map` these are the frames that a usable region offers, without frame 0 and
without those that a region of another type covers (`mem_freeSet_initFromMap`). A region of another
type is passed over if its end, rounded up to a page, is not an address (`EndInRange`): such a
region withholds nothing. After that a bit that is set does not say why it is set:
`pmm_free_frame` takes the address of a frame that was never handed out, and frees it.
-/

namespace Mcsos

namespace Pmm

variable {pmm : State} {f base length : ℕ}

/-! ## Allocating on and on -/

/-- The state after `k` allocations. -/
def allocated (k : ℕ) (pmm : State) : State := (fun p ↦ (allocFrame p).2)^[k] pmm

/-- Some further allocation returns frame `f`. -/
def HandsOut (pmm : State) (f : ℕ) : Prop := ∃ k, (allocFrame (allocated k pmm)).1 = pageSize * f

theorem allocated_succ (k : ℕ) : allocated (k + 1) pmm = allocated k (allocFrame pmm).2 := rfl

theorem Ready.mem_of_allocFrame (h : Ready pmm) (hf : (Pmm.allocFrame pmm).1 = pageSize * f) :
    f ∈ freeSet pmm := by
  by_cases hempty : freeSet pmm = ∅
  · rw [allocFrame_of_empty h.toInv hempty, invalidFrame, pageSize] at hf
    omega
  · obtain ⟨g, hg⟩ := exists_isLeast hempty
    rw [allocFrame_of_isLeast h hg, (takeFrame_spec h.toInv hg).1] at hf
    rw [← Nat.eq_of_mul_eq_mul_left (by decide) hf]
    exact hg.1

theorem Ready.freeSet_allocFrame_subset (h : Ready pmm) :
    freeSet (Pmm.allocFrame pmm).2 ⊆ freeSet pmm := by
  by_cases hempty : freeSet pmm = ∅
  · rw [allocFrame_of_empty h.toInv hempty]
  · obtain ⟨g, hg⟩ := exists_isLeast hempty
    rw [allocFrame_of_isLeast h hg, (takeFrame_spec h.toInv hg).2.1]
    exact Finset.erase_subset g _

theorem Ready.mem_of_handsOut (h : Ready pmm) (hf : HandsOut pmm f) : f ∈ freeSet pmm := by
  obtain ⟨k, hk⟩ := hf
  induction k generalizing pmm with
  | zero => exact h.mem_of_allocFrame hk
  | succ k ih =>
    rw [allocated_succ] at hk
    exact h.freeSet_allocFrame_subset (ih h.allocFrame hk)

/-- A free frame is returned once all the lower ones have been. -/
theorem Ready.handsOut_of_mem (h : Ready pmm) (hf : f ∈ freeSet pmm) : HandsOut pmm f := by
  -- The induction is on the number of free frames, which every allocation lowers.
  induction hcard : (freeSet pmm).card generalizing pmm with
  | zero =>
    rw [Finset.card_eq_zero.mp hcard] at hf
    exact absurd hf (Finset.notMem_empty f)
  | succ n ih =>
    obtain ⟨g, hg⟩ := exists_isLeast (Finset.ne_empty_of_mem hf)
    obtain ⟨hret, hset, -⟩ := takeFrame_spec h.toInv hg
    by_cases hfg : f = g
    · refine ⟨0, ?_⟩
      change (Pmm.allocFrame pmm).1 = pageSize * f
      rw [allocFrame_of_isLeast h hg, hret, hfg]
    · rw [← allocFrame_of_isLeast h hg] at hset
      have hmem : f ∈ freeSet (Pmm.allocFrame pmm).2 := by
        rw [hset]
        exact Finset.mem_erase.mpr ⟨hfg, hf⟩
      have hless : (freeSet (Pmm.allocFrame pmm).2).card = n := by
        rw [hset, Finset.card_erase_of_mem hg.1, hcard, Nat.add_sub_cancel]
      obtain ⟨k, hk⟩ := ih h.allocFrame hmem hless
      exact ⟨k + 1, hk⟩

theorem Ready.handsOut_iff (h : Ready pmm) : HandsOut pmm f ↔ f ∈ freeSet pmm :=
  ⟨h.mem_of_handsOut, h.handsOut_of_mem⟩

/-! ## What the memory map says -/

/-- `mark_range_free` frees frame `f`. The start is rounded up in 64 bits: if it wraps around, all
frames below the end are freed. -/
def Frees (base length f : ℕ) : Prop :=
  0 < length ∧ base + length < 2 ^ 64 ∧ alignUp base pageSize ≤ pageSize * f ∧
    pageSize * f < alignDown (base + length) pageSize

/-- A usable region offers frame `f`. -/
def Offered (regions : List BootMemRegion) (f : ℕ) : Prop :=
  ∃ r ∈ regions, r.type = bootMemUsable ∧ Frees r.base.toNat r.length.toNat f

/-- Frame `f` overlaps a region that is not usable. -/
def NonUsable (regions : List BootMemRegion) (f : ℕ) : Prop :=
  ∃ r ∈ regions, r.type ≠ bootMemUsable ∧ Overlaps r.base.toNat r.length.toNat f

/-- Frame `f` overlaps a region that is not usable, and that the initialisation does not pass
over. -/
def Reserved (regions : List BootMemRegion) (f : ℕ) : Prop :=
  ∃ r ∈ regions, r.type ≠ bootMemUsable ∧ EndInRange r.base.toNat r.length.toNat ∧
    Overlaps r.base.toNat r.length.toNat f

/-- The map does not offer a frame that overlaps nothing but regions that are passed over. -/
def Respected (regions : List BootMemRegion) (maxPhys : UInt64) : Prop :=
  ∀ f, 0 < f → f < maxPhys.toNat / pageSize → Offered regions f → NonUsable regions f →
    Reserved regions f

/-! ## What the initialisation makes of it -/

theorem mem_freeSet_foldl_markFrameFree (l : List ℕ)
    (hl : ∀ addr ∈ l, addr / pageSize < pmm.frameCount) :
    f ∈ freeSet (l.foldl (fun p addr ↦ markFrameFree p (addr / pageSize)) pmm) ↔
      f ∈ freeSet pmm ∨ ∃ addr ∈ l, addr / pageSize = f := by
  induction l generalizing pmm with
  | nil => simp
  | cons addr l ih =>
    have hlt := hl addr List.mem_cons_self
    rw [List.foldl_cons, ih, freeSet_markFrameFree hlt, Finset.mem_insert, List.exists_mem_cons_iff,
      eq_comm, or_assoc, or_left_comm]
    intro addr' haddr'
    rw [(sameMemory_markFrameFree pmm _).frameCount]
    exact hl addr' (List.mem_cons_of_mem addr haddr')

theorem Inv.frame_lt_of_mem_pages (h : Inv pmm) {start stop addr : ℕ}
    (hstart : start % pageSize = 0) (haddr : addr ∈ pages start (min stop pmm.maxPhys)) :
    addr / pageSize < pmm.frameCount := by
  obtain ⟨-, hlt⟩ := (exists_mem_pages_iff hstart).mp ⟨addr, haddr, rfl⟩
  have hmax := h.maxPhys_eq
  rw [pageSize] at hlt hmax ⊢
  omega

theorem mem_freeSet_markRangeFree (h : Inv pmm) :
    f ∈ freeSet (markRangeFree pmm base length) ↔
      f ∈ freeSet pmm ∨ f < pmm.frameCount ∧ Frees base length f := by
  have hmax := h.maxPhys_eq
  -- In every early return the range frees no frame of this memory.
  have hreturn : (f < pmm.frameCount → ¬Frees base length f) →
      (f ∈ freeSet pmm ↔ f ∈ freeSet pmm ∨ f < pmm.frameCount ∧ Frees base length f) :=
    fun hnot ↦ ⟨.inl, fun hor ↦ hor.resolve_right fun hand ↦ hnot hand.1 hand.2⟩
  rw [markRangeFree]
  by_cases hlength : length = 0
  · rw [if_pos hlength]
    exact hreturn fun _ hfrees ↦ absurd hlength hfrees.1.ne'
  rw [if_neg hlength, checkedAddU64]
  by_cases hadd : 2 ^ 64 - 1 - base < length
  · rw [if_pos hadd]
    exact hreturn fun _ hfrees ↦ absurd hfrees.2.1 (by omega)
  rw [if_neg hadd]
  dsimp only
  have hmod : alignUp base pageSize % pageSize = 0 := Nat.mul_mod_left _ _
  have hmod' : alignDown (base + length) pageSize % pageSize = 0 := Nat.mul_mod_left _ _
  by_cases hempty : alignDown (base + length) pageSize ≤ alignUp base pageSize
  · rw [if_pos hempty]
    exact hreturn fun _ hfrees ↦ absurd (hfrees.2.2.1.trans_lt hfrees.2.2.2) (not_lt.mpr hempty)
  rw [if_neg hempty]
  by_cases habove : alignUp base pageSize ≥ pmm.maxPhys
  · rw [if_pos habove]
    refine hreturn fun hf hfrees ↦ absurd (habove.trans hfrees.2.2.1) (not_le.mpr ?_)
    rw [hmax, mul_comm]
    exact Nat.mul_lt_mul_of_pos_right hf (by decide)
  rw [if_neg habove]
  -- The counter of ignored frames is in no relation to the free ones.
  have hloop : ∀ p : State, freeSet p = freeSet pmm → p.frameCount = pmm.frameCount →
      (f ∈ freeSet ((pages (alignUp base pageSize) (min (alignDown (base + length) pageSize)
        pmm.maxPhys)).foldl (fun p addr ↦ markFrameFree p (addr / pageSize)) p) ↔
          f ∈ freeSet pmm ∨ f < pmm.frameCount ∧ Frees base length f) := by
    intro p hset hcount
    rw [mem_freeSet_foldl_markFrameFree _ fun addr haddr ↦ hcount ▸
      h.frame_lt_of_mem_pages hmod haddr, exists_mem_pages_iff hmod, hset, Frees, hmax]
    rw [pageSize] at *
    refine or_congr Iff.rfl ⟨?_, ?_⟩
    · rintro ⟨hle, hlt⟩
      exact ⟨by omega, Nat.pos_of_ne_zero hlength, by omega, by omega, by omega⟩
    · rintro ⟨hf, -, -, hle, hlt⟩
      exact ⟨by omega, by omega⟩
  split
  · exact hloop _ rfl rfl
  · exact hloop _ rfl rfl

/-- A range whose end is not an address reserves nothing. -/
theorem markRangeUsed_of_not_endInRange (hbase : base < 2 ^ 64)
    (hend : ¬EndInRange base length) : markRangeUsed pmm base length = pmm := by
  rw [EndInRange, pageSize] at hend
  rw [markRangeUsed, checkedAddU64]
  by_cases hlength : length = 0
  · exact if_pos hlength
  rw [if_neg hlength]
  by_cases hadd : 2 ^ 64 - 1 - base < length
  · rw [if_pos hadd]
  · -- The end is in the last page, and its rounding wraps around to 0.
    have hstop : alignUp (base + length) pageSize = 0 := by
      rw [alignUp, alignDown, pageSize]
      omega
    rw [if_neg hadd]
    dsimp only
    rw [hstop, if_pos (Nat.zero_le _)]

theorem mem_freeSet_markRegion (h : Inv pmm) (r : BootMemRegion) :
    f ∈ freeSet (markRangeUsed pmm r.base.toNat r.length.toNat) ↔ f ∈ freeSet pmm ∧
      ¬(EndInRange r.base.toNat r.length.toNat ∧ Overlaps r.base.toNat r.length.toNat f) := by
  by_cases hend : EndInRange r.base.toNat r.length.toNat
  · rw [mem_freeSet_markRangeUsed h hend, and_iff_right hend]
  · rw [markRangeUsed_of_not_endInRange r.base.toNat_lt hend]
    exact ⟨fun hf ↦ ⟨hf, fun hand ↦ hend hand.1⟩, And.left⟩

theorem foldl_offered (regions : List BootMemRegion) (h : Inv pmm) :
    let marked := regions.foldl (fun p r ↦ if r.type = bootMemUsable then
      markRangeFree p r.base.toNat r.length.toNat else p) pmm
    Inv marked ∧ marked.frameCount = pmm.frameCount ∧ ∀ f, f ∈ freeSet marked ↔
      f ∈ freeSet pmm ∨ f < pmm.frameCount ∧ Offered regions f := by
  induction regions generalizing pmm with
  | nil =>
    refine ⟨h, rfl, fun f ↦ ⟨.inl, fun hor ↦ hor.resolve_right ?_⟩⟩
    rintro ⟨-, r, hr, -⟩
    exact absurd hr List.not_mem_nil
  | cons r regions ih =>
    rw [List.foldl_cons]
    have hoffered : ∀ f, Offered (r :: regions) f ↔
        r.type = bootMemUsable ∧ Frees r.base.toNat r.length.toNat f ∨ Offered regions f :=
      fun f ↦ List.exists_mem_cons_iff ..
    by_cases htype : r.type = bootMemUsable
    · obtain ⟨hsame, hinv⟩ := markRangeFree_spec pmm r.base.toNat r.length.toNat
      rw [if_pos htype]
      obtain ⟨hinv', hcount, hmem⟩ := ih (hinv h)
      refine ⟨hinv', hcount.trans hsame.frameCount, fun f ↦ ?_⟩
      rw [hmem, mem_freeSet_markRangeFree h, hsame.frameCount, hoffered, and_iff_right htype,
        or_assoc, ← and_or_left]
    · rw [if_neg htype]
      obtain ⟨hinv', hcount, hmem⟩ := ih h
      refine ⟨hinv', hcount, fun f ↦ ?_⟩
      rw [hmem, hoffered]
      simp only [htype, false_and, false_or]

theorem foldl_reserved (regions : List BootMemRegion) (h : Inv pmm) (f : ℕ) :
    f ∈ freeSet (regions.foldl (fun p r ↦ if r.type ≠ bootMemUsable then
      markRangeUsed p r.base.toNat r.length.toNat else p) pmm) ↔
        f ∈ freeSet pmm ∧ ¬Reserved regions f := by
  induction regions generalizing pmm with
  | nil =>
    refine ⟨fun hf ↦ ⟨hf, ?_⟩, And.left⟩
    rintro ⟨r, hr, -⟩
    exact absurd hr List.not_mem_nil
  | cons r regions ih =>
    have hreserved : Reserved (r :: regions) f ↔
        r.type ≠ bootMemUsable ∧ EndInRange r.base.toNat r.length.toNat ∧
          Overlaps r.base.toNat r.length.toNat f ∨ Reserved regions f :=
      List.exists_mem_cons_iff ..
    rw [List.foldl_cons, hreserved, not_or]
    by_cases htype : r.type ≠ bootMemUsable
    · obtain ⟨-, hinv, -⟩ := markRangeUsed_spec pmm r.base.toNat r.length.toNat
      rw [if_pos htype, ih (hinv h), mem_freeSet_markRegion h, and_iff_right htype, and_assoc]
    · rw [if_neg htype, ih h]
      simp only [htype, false_and, not_false_iff, true_and]

theorem overlaps_zero_pageSize : Overlaps 0 pageSize f ↔ f = 0 := by
  rw [overlaps_iff (by decide), pageSize]
  omega

/-- The free frames after `pmm_init_from_map`. -/
theorem mem_freeSet_initFromMap {old pmm₀ : State} {regions : List BootMemRegion}
    {storage : Option Mem} {bytes maxPhys : UInt64}
    (hinit : initFromMap old (some regions) storage bytes maxPhys = (true, pmm₀)) :
    f ∈ freeSet pmm₀ ↔
      0 < f ∧ f < maxPhys.toNat / pageSize ∧ Offered regions f ∧ ¬Reserved regions f := by
  obtain ⟨_, m, hsome, -, hpage, rfl⟩ := eq_of_initFromMap hinit
  obtain rfl := Option.some.inj hsome
  have hstart := inv_initialState m hpage maxPhys.toNat_lt
  have hnothing : f ∉ freeSet (initialState m maxPhys.toNat) := by
    intro hf
    have hcard := hstart.freeFrames_eq
    rw [eq_comm, show (initialState m maxPhys.toNat).freeFrames = 0 from rfl,
      Finset.card_eq_zero] at hcard
    rw [hcard] at hf
    exact absurd hf (Finset.notMem_empty f)
  obtain ⟨hinv, hcount, hmem⟩ := foldl_offered regions hstart
  obtain ⟨-, hinv', -⟩ := markRangeUsed_spec (regions.foldl (fun p r ↦
    if r.type = bootMemUsable then markRangeFree p r.base.toNat r.length.toNat else p)
      (initialState m maxPhys.toNat)) 0 pageSize
  have hzero : EndInRange 0 pageSize := by
    rw [EndInRange]
    decide
  change f ∈ freeSet (markMap (initialState m maxPhys.toNat) regions) ↔ _
  rw [markMap, foldl_reserved regions (hinv' hinv), mem_freeSet_markRangeUsed hinv hzero,
    overlaps_zero_pageSize, hmem, or_iff_right hnothing]
  change ((f < maxPhys.toNat / pageSize ∧ _) ∧ ¬f = 0) ∧ _ ↔ _
  rw [Nat.pos_iff_ne_zero]
  tauto

/-! ## Runs -/

/-- The call gives a frame to the allocator that overlaps a region which is not usable. -/
def Leaks (regions : List BootMemRegion) (pmm : State) : Call → Prop
  | .freeFrame a => Freeable pmm a ∧ NonUsable regions (a.toNat / pageSize)
  | _ => False

/-- No frame that overlaps a region which is not usable is ever handed out by allocations. -/
def Withholds (regions : List BootMemRegion) (pmm : State) : Prop :=
  ∀ f, HandsOut pmm f → ¬NonUsable regions f

theorem Ready.withholds_iff {regions : List BootMemRegion} (h : Ready pmm) :
    Withholds regions pmm ↔ ∀ f ∈ freeSet pmm, ¬NonUsable regions f :=
  forall_congr' fun _ ↦ imp_congr h.handsOut_iff Iff.rfl

theorem Ready.withholds_step_iff {regions : List BootMemRegion} (h : Ready pmm)
    (hold : Withholds regions pmm) (c : Call) :
    Withholds regions (Pmm.step c pmm).2 ↔ ¬Leaks regions pmm c := by
  rw [(h.step c).withholds_iff]
  rw [h.withholds_iff] at hold
  cases c with
  | allocFrame =>
    exact iff_of_true (fun f hf ↦ hold f (h.freeSet_allocFrame_subset hf)) not_false
  | reserveRange base length =>
    refine iff_of_true (fun f hf ↦ hold f ?_) not_false
    change f ∈ freeSet (Pmm.reserveRange pmm base length).2 at hf
    rw [Pmm.reserveRange] at hf
    split at hf
    · exact hf
    · exact (markRangeUsed_spec pmm base.toNat length.toNat).2.2 hf
  | freeFrame a =>
    change (∀ f ∈ freeSet (Pmm.freeFrame pmm a).2, _) ↔ _
    by_cases ha : Freeable pmm a
    · rw [freeFrame_of_freeable h ha]
      change (∀ f ∈ freeSet (markFrameFree pmm _), _) ↔ ¬(_ ∧ _)
      rw [freeSet_markFrameFree (h.frame_lt ha.2.2.1), and_iff_right ha, Finset.forall_mem_insert,
        and_iff_left hold]
    · rw [freeFrame_of_not_freeable ha]
      exact iff_of_true hold fun hleak ↦ ha hleak.1

/-- After the initialisation no memory that is not usable is handed out, if and only if the map is
one that `pmm_init_from_map` respects. It stays so as long as no frame of such memory is passed to
`pmm_free_frame`, and the first such call ends it. -/
theorem nonUsable_withheld_iff {old pmm₀ : State} {regions : List BootMemRegion}
    {storage : Option Mem} {bytes maxPhys : UInt64}
    (hinit : initFromMap old (some regions) storage bytes maxPhys = (true, pmm₀)) :
    (Withholds regions pmm₀ ↔ Respected regions maxPhys) ∧
    ∀ (es : List (Call × Ret)) (pmm : State), Respected regions maxPhys →
      Run step (fun u c ↦ ¬Leaks regions u c) pmm₀ es pmm →
        Withholds regions pmm ∧
          ∀ c, Withholds regions (step c pmm).2 ↔ ¬Leaks regions pmm c := by
  have hready := ready_of_initFromMap hinit
  have hstart : Withholds regions pmm₀ ↔ Respected regions maxPhys := by
    rw [hready.withholds_iff]
    constructor
    · intro hold f hpos hlt hoffered hbad
      by_contra hreserved
      exact hold f ((mem_freeSet_initFromMap hinit).mpr ⟨hpos, hlt, hoffered, hreserved⟩) hbad
    · intro hmap f hf hbad
      obtain ⟨hpos, hlt, hoffered, hreserved⟩ := (mem_freeSet_initFromMap hinit).mp hf
      exact hreserved (hmap f hpos hlt hoffered hbad)
  refine ⟨hstart, fun es pmm hmap hrun ↦ ?_⟩
  obtain ⟨hready', hold⟩ : Ready pmm ∧ Withholds regions pmm := by
    refine hrun.invariant (P := fun u ↦ Ready u ∧ Withholds regions u)
      ⟨hready, hstart.mpr hmap⟩ ?_
    rintro u c ⟨hu, hold⟩ hleak
    exact ⟨hu.step c, (hu.withholds_step_iff hold c).mpr hleak⟩
  exact ⟨hold, hready'.withholds_step_iff hold⟩

/-- Four frames of usable memory, of which a second region reserves frame 3. -/
def smallMap : List BootMemRegion := [⟨0, 0x4000, 1⟩, ⟨0x3000, 0x1000, 2⟩]

/-- No frame of it is reserved by a region that is passed over. -/
theorem nonUsable_withheld_iff_small :
    Withholds smallMap (step .allocFrame
      (initFromMap zeroState (some smallMap) (some fun _ ↦ 0) 1 0x4000).2).2 := by
  have hmap : Respected smallMap 0x4000 := by
    rintro f - - - ⟨r, hr, htype, hoverlaps⟩
    refine ⟨r, hr, htype, ?_, hoverlaps⟩
    rcases List.mem_pair.mp hr with rfl | rfl
    · exact absurd rfl htype
    · rw [EndInRange]
      decide
  have hinit : initFromMap zeroState (some smallMap) (some fun _ ↦ 0) 1 0x4000 =
    (true, (initFromMap zeroState (some smallMap) (some fun _ ↦ 0) 1 0x4000).2) := rfl
  exact ((nonUsable_withheld_iff hinit).2 _ _ hmap
    (Run.snoc .nil Call.allocFrame not_false)).1

/-- Frame 3 overlaps the reserved region. It is freed and handed out. -/
theorem nonUsable_frame_allocated :
    let pmm := (initFromMap zeroState (some smallMap) (some fun _ ↦ 0) 1 0x4000).2
    let pmm' := allocated 2 (step (.freeFrame 0x3000) pmm).2
    NonUsable smallMap 3 ∧ (allocFrame pmm').1 = 0x3000 := by
  refine ⟨⟨⟨0x3000, 0x1000, 2⟩, by simp [smallMap], by decide, 0x3000, ?_⟩, by decide +kernel⟩
  decide

end Pmm

end Mcsos
