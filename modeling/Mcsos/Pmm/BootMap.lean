import Mcsos.Pmm.Reserved

/-!
# The boot memory map

What a memory map says about a frame, without the rounding of the code: the frame lies within a
usable region (`Within`), or it overlaps one of another type (`Overlaps`). If every region ends at
or before the last page of the 64-bit address space, `pmm_init_from_map` does exactly what the map
says (`freeSet_eq_available`).

In the last page it does not. `checked_add_u64` guards the sum of base and length, but rounding up
to a page is another sum. A usable region that begins in the last page has its start rounded up to
0, and frees every frame (`Wraps`). A region of another type that ends in the last page has its end
rounded up to 0, and withholds none (`PassedOver`). `pmm_reserve_range` rounds the same way.
-/

namespace Mcsos

namespace Pmm

variable {regions : List BootMemRegion} {base length f : ℕ}

/-! ## What a map says -/

/-- All of frame `f` lies in the range. -/
def Within (base length f : ℕ) : Prop := base ≤ pageSize * f ∧ pageSize * (f + 1) ≤ base + length

/-- The end of the region is a number of 64 bits; otherwise `checked_add_u64` fails. -/
def BootMemRegion.Fits (r : BootMemRegion) : Prop := r.base.toNat + r.length.toNat < 2 ^ 64

/-- Frame `f` may be handed out: it is not frame 0, it lies within a single usable region and it
overlaps no region of another type. -/
def Available (regions : List BootMemRegion) (f : ℕ) : Prop :=
  0 < f ∧ (∃ r ∈ regions, r.type = bootMemUsable ∧ Within r.base.toNat r.length.toNat f) ∧
    ¬NonUsable regions f

/-- Frame `f` lies within a usable region whose end fits. -/
def Usable (regions : List BootMemRegion) (f : ℕ) : Prop :=
  ∃ r ∈ regions, r.type = bootMemUsable ∧ r.Fits ∧ Within r.base.toNat r.length.toNat f

/-- Frame `f` overlaps a region of another type whose end fits. -/
def Excluded (regions : List BootMemRegion) (f : ℕ) : Prop :=
  ∃ r ∈ regions, r.type ≠ bootMemUsable ∧ r.Fits ∧ Overlaps r.base.toNat r.length.toNat f

instance : Decidable (Within base length f) := inferInstanceAs (Decidable (_ ∧ _))

instance : Decidable (Overlaps base length f) :=
  decidable_of_iff (0 < length ∧ base / pageSize ≤ f ∧ pageSize * f < base + length) <| by
    constructor
    · rintro ⟨hlength, h⟩
      exact (overlaps_iff hlength).mpr h
    · intro h
      have hlength : 0 < length := by
        obtain ⟨x, hle, hlt, -⟩ := h
        omega
      exact ⟨hlength, (overlaps_iff hlength).mp h⟩

instance : DecidablePred (NonUsable regions) := fun _ ↦
  inferInstanceAs (Decidable (∃ r ∈ regions, _ ∧ _))

instance : DecidablePred (Available regions) := fun _ ↦
  inferInstanceAs (Decidable (_ ∧ (∃ r ∈ regions, _ ∧ _) ∧ ¬_))

/-! ## Rounding -/

/-- A usable region begins in the last page. -/
def Wraps (regions : List BootMemRegion) : Prop :=
  ∃ r ∈ regions, r.type = bootMemUsable ∧ r.Fits ∧ 0 < r.length.toNat ∧
    2 ^ 64 - pageSize < r.base.toNat

/-- Frame `f` overlaps a region of another type that ends in the last page. -/
def PassedOver (regions : List BootMemRegion) (f : ℕ) : Prop :=
  ∃ r ∈ regions, r.type ≠ bootMemUsable ∧ r.Fits ∧
    2 ^ 64 - pageSize < r.base.toNat + r.length.toNat ∧ Overlaps r.base.toNat r.length.toNat f

/-- The end, rounded up, is an address unless the range ends in the last page. -/
theorem endInRange_iff : EndInRange base length ↔ base + length ≤ 2 ^ 64 - pageSize := by
  rw [EndInRange, pageSize]
  omega

theorem alignUp_of_le {value : ℕ} (h : value ≤ 2 ^ 64 - pageSize) :
    alignUp value pageSize = (value + (pageSize - 1)) / pageSize * pageSize := by
  rw [pageSize] at h
  rw [alignUp, alignDown, pageSize, Nat.mod_eq_of_lt (by omega)]
  omega

theorem alignUp_of_lt {value : ℕ} (h : 2 ^ 64 - pageSize < value) (hvalue : value < 2 ^ 64) :
    alignUp value pageSize = 0 := by
  rw [pageSize] at h
  rw [alignUp, alignDown, pageSize]
  omega

/-- What `mark_range_free` frees below the last page. -/
theorem frees_iff (hf : pageSize * (f + 1) < 2 ^ 64) : Frees base length f ↔
    base + length < 2 ^ 64 ∧
      (Within base length f ∨ 0 < length ∧ 2 ^ 64 - pageSize < base) := by
  by_cases hbase : base ≤ 2 ^ 64 - pageSize
  · rw [Frees, Within, alignUp_of_le hbase, alignDown]
    rw [pageSize] at hbase hf ⊢
    omega
  · constructor
    · rintro ⟨hlength, hadd, -⟩
      exact ⟨hadd, .inr ⟨hlength, not_le.mp hbase⟩⟩
    · rintro ⟨hadd, hor⟩
      have hlength : 0 < length := by
        refine hor.elim (fun hwithin ↦ ?_) And.left
        rw [pageSize] at hbase hf
        rw [Within, pageSize] at hwithin
        omega
      rw [Frees, alignUp_of_lt (not_le.mp hbase) (by omega), alignDown]
      rw [pageSize] at hbase hf ⊢
      omega

theorem offered_iff (hf : pageSize * (f + 1) < 2 ^ 64) :
    Offered regions f ↔ Usable regions f ∨ Wraps regions := by
  constructor
  · rintro ⟨r, hr, htype, hfrees⟩
    obtain ⟨hfits, hwithin | ⟨hlength, hbase⟩⟩ := (frees_iff hf).mp hfrees
    · exact .inl ⟨r, hr, htype, hfits, hwithin⟩
    · exact .inr ⟨r, hr, htype, hfits, hlength, hbase⟩
  · rintro (⟨r, hr, htype, hfits, hwithin⟩ | ⟨r, hr, htype, hfits, hlength, hbase⟩)
    · exact ⟨r, hr, htype, (frees_iff hf).mpr ⟨hfits, .inl hwithin⟩⟩
    · exact ⟨r, hr, htype, (frees_iff hf).mpr ⟨hfits, .inr ⟨hlength, hbase⟩⟩⟩

theorem excluded_iff : Excluded regions f ↔ Reserved regions f ∨ PassedOver regions f := by
  constructor
  · rintro ⟨r, hr, htype, hfits, hoverlaps⟩
    by_cases hend : r.base.toNat + r.length.toNat ≤ 2 ^ 64 - pageSize
    · exact .inl ⟨r, hr, htype, endInRange_iff.mpr hend, hoverlaps⟩
    · exact .inr ⟨r, hr, htype, hfits, not_le.mp hend, hoverlaps⟩
  · rintro (⟨r, hr, htype, hend, hoverlaps⟩ | ⟨r, hr, htype, hfits, -, hoverlaps⟩)
    · refine ⟨r, hr, htype, ?_, hoverlaps⟩
      rw [endInRange_iff, pageSize] at hend
      rw [BootMemRegion.Fits]
      omega
    · exact ⟨r, hr, htype, hfits, hoverlaps⟩

theorem frame_end_lt {maxPhys : UInt64} (hf : f < maxPhys.toNat / pageSize) :
    pageSize * (f + 1) < 2 ^ 64 := by
  have hlt := maxPhys.toNat_lt
  rw [pageSize] at hf ⊢
  omega

/-! ## The map of a machine -/

section Below

variable (hbelow : ∀ r ∈ regions, r.base.toNat + r.length.toNat ≤ 2 ^ 64 - pageSize)

include hbelow

theorem usable_iff_of_below : Usable regions f ↔
    ∃ r ∈ regions, r.type = bootMemUsable ∧ Within r.base.toNat r.length.toNat f := by
  constructor
  · rintro ⟨r, hr, htype, -, hwithin⟩
    exact ⟨r, hr, htype, hwithin⟩
  · rintro ⟨r, hr, htype, hwithin⟩
    refine ⟨r, hr, htype, ?_, hwithin⟩
    have hle := hbelow r hr
    rw [pageSize] at hle
    rw [BootMemRegion.Fits]
    omega

theorem not_wraps_of_below : ¬Wraps regions := by
  rintro ⟨r, hr, -, -, -, hbase⟩
  exact absurd ((Nat.le_add_right _ _).trans (hbelow r hr)) (not_le.mpr hbase)

theorem reserved_iff_of_below : Reserved regions f ↔ NonUsable regions f := by
  constructor
  · rintro ⟨r, hr, htype, -, hoverlaps⟩
    exact ⟨r, hr, htype, hoverlaps⟩
  · rintro ⟨r, hr, htype, hoverlaps⟩
    exact ⟨r, hr, htype, endInRange_iff.mpr (hbelow r hr), hoverlaps⟩

end Below

/-- `pmm_init_from_map` accepts every list of regions that is not empty, and every memory that is
not empty and ends at a page. -/
theorem initFromMap_eq_true_iff (old : State) (storage : Mem) {bytes maxPhys : UInt64}
    (hpage : maxPhys.toNat % pageSize = 0)
    (hbytes : (maxPhys.toNat / pageSize + 7) / 8 ≤ bytes.toNat) :
    (initFromMap old (some regions) (some storage) bytes maxPhys).1 = true ↔
      regions ≠ [] ∧ maxPhys.toNat ≠ 0 := by
  rw [initFromMap]
  by_cases hnone : regions.length = 0
  · rw [if_pos hnone]
    exact iff_of_false Bool.false_ne_true fun h ↦ h.1 (List.length_eq_zero_iff.mp hnone)
  have hregions : regions ≠ [] := fun h ↦ hnone (List.length_eq_zero_iff.mpr h)
  rw [if_neg hnone]
  by_cases hmax : maxPhys.toNat = 0
  · rw [if_pos (.inl hmax)]
    exact iff_of_false Bool.false_ne_true fun h ↦ h.2 hmax
  · rw [if_neg (not_or.mpr ⟨hmax, not_not.mpr hpage⟩), if_neg (not_lt.mpr hbytes)]
    exact iff_of_true rfl ⟨hregions, hmax⟩

/-- **The boot map is interpreted exactly.** Let every region end at or before the last page. Then
the free frames after `pmm_init_from_map` are those that the map makes available, and `free_frames`
is their number. -/
theorem freeSet_eq_available (old : State) (storage : Mem) (bytes maxPhys : UInt64)
    (hbelow : ∀ r ∈ regions, r.base.toNat + r.length.toNat ≤ 2 ^ 64 - pageSize)
    (hpage : maxPhys.toNat % pageSize = 0)
    (hbytes : (maxPhys.toNat / pageSize + 7) / 8 ≤ bytes.toNat) :
    let res := initFromMap old (some regions) (some storage) bytes maxPhys
    (res.1 = true ↔ regions ≠ [] ∧ maxPhys.toNat ≠ 0) ∧
      (res.1 = true → res.2.frameCount = maxPhys.toNat / pageSize ∧
        freeSet res.2 = (Finset.range res.2.frameCount).filter (Available regions) ∧
        res.2.freeFrames = ((Finset.range res.2.frameCount).filter (Available regions)).card) := by
  intro res
  refine ⟨initFromMap_eq_true_iff old storage hpage hbytes, fun hok ↦ ?_⟩
  have hinit : initFromMap old (some regions) (some storage) bytes maxPhys = (true, res.2) :=
    Prod.ext hok rfl
  have hready := ready_of_initFromMap hinit
  have hcount : res.2.frameCount = maxPhys.toNat / pageSize := frameCount_of_initFromMap hinit
  have hset : freeSet res.2 = (Finset.range res.2.frameCount).filter (Available regions) := by
    ext f
    rw [mem_freeSet_initFromMap hinit, Finset.mem_filter, Finset.mem_range, hcount, Available,
      reserved_iff_of_below hbelow]
    constructor
    · rintro ⟨hpos, hlt, hoffered, hnot⟩
      rw [offered_iff (frame_end_lt hlt), or_iff_left (not_wraps_of_below hbelow),
        usable_iff_of_below hbelow] at hoffered
      exact ⟨hlt, hpos, hoffered, hnot⟩
    · rintro ⟨hlt, hpos, husable, hnot⟩
      refine ⟨hpos, hlt, ?_, hnot⟩
      rw [offered_iff (frame_end_lt hlt), or_iff_left (not_wraps_of_below hbelow),
        usable_iff_of_below hbelow]
      exact husable
  exact ⟨hcount, hset, hset ▸ hready.freeFrames_eq⟩

theorem freeSet_eq_available_small :
    freeSet (initFromMap zeroState (some smallMap) (some fun _ ↦ 0) 1 0x4000).2 = {1, 2} := by
  have hbelow : ∀ r ∈ smallMap, r.base.toNat + r.length.toNat ≤ 2 ^ 64 - pageSize := by decide
  obtain ⟨-, hok⟩ := freeSet_eq_available zeroState (fun _ ↦ 0) 1 0x4000 hbelow (by decide)
    (by decide)
  obtain ⟨hcount, hset, -⟩ := hok rfl
  rw [hset, hcount]
  decide

/-! ## Arbitrary maps -/

/-- A frame that no region below the last page reserves is not freed by a usable region in the last
page unless it is usable, and if it is usable, then no region that is passed over reserves it. -/
def Faithful (regions : List BootMemRegion) (maxPhys : UInt64) : Prop :=
  ∀ f, 0 < f → f < maxPhys.toNat / pageSize → ¬Reserved regions f →
    (Wraps regions → Usable regions f) ∧ (Usable regions f → ¬PassedOver regions f)

/-- A map in which no region whose end fits touches the last page. -/
theorem faithful_of_below (maxPhys : UInt64)
    (h : ∀ r ∈ regions, r.Fits → r.base.toNat + r.length.toNat ≤ 2 ^ 64 - pageSize) :
    Faithful regions maxPhys := by
  intro f _ _ _
  constructor
  · rintro ⟨r, hr, -, hfits, -, hbase⟩
    exact absurd ((Nat.le_add_right _ _).trans (h r hr hfits)) (not_le.mpr hbase)
  · rintro - ⟨r, hr, -, hfits, hend, -⟩
    exact absurd (h r hr hfits) (not_le.mpr hend)

/-- Every free frame after `pmm_init_from_map` lies within a usable region and overlaps no other
region, those whose end does not fit left out, if and only if the rounding is faithful. -/
theorem free_described_iff {old pmm₀ : State} {storage : Option Mem} {bytes maxPhys : UInt64}
    (hinit : initFromMap old (some regions) storage bytes maxPhys = (true, pmm₀)) :
    (∀ f ∈ freeSet pmm₀, Usable regions f ∧ ¬Excluded regions f) ↔ Faithful regions maxPhys := by
  constructor
  · intro h f hpos hlt hreserved
    have hmem : Usable regions f ∨ Wraps regions → f ∈ freeSet pmm₀ := fun hor ↦
      (mem_freeSet_initFromMap hinit).mpr
        ⟨hpos, hlt, (offered_iff (frame_end_lt hlt)).mpr hor, hreserved⟩
    constructor
    · intro hwraps
      exact (h f (hmem (.inr hwraps))).1
    · intro husable hpassed
      exact (h f (hmem (.inl husable))).2 (excluded_iff.mpr (.inr hpassed))
  · intro h f hf
    obtain ⟨hpos, hlt, hoffered, hreserved⟩ := (mem_freeSet_initFromMap hinit).mp hf
    obtain ⟨hwraps, hpassed⟩ := h f hpos hlt hreserved
    have husable : Usable regions f := ((offered_iff (frame_end_lt hlt)).mp hoffered).elim id hwraps
    refine ⟨husable, fun hexcluded ↦ ?_⟩
    rcases excluded_iff.mp hexcluded with hres | hpass
    · exact hreserved hres
    · exact hpassed husable hpass

theorem free_described_iff_small :
    (initFromMap zeroState (some smallMap) (some fun _ ↦ 0) 1 0x4000).1 = true ∧
    ∀ f ∈ freeSet (initFromMap zeroState (some smallMap) (some fun _ ↦ 0) 1 0x4000).2,
      Usable smallMap f ∧ ¬Excluded smallMap f := by
  have hbelow : ∀ r ∈ smallMap, r.base.toNat + r.length.toNat ≤ 2 ^ 64 - pageSize := by decide
  have hinit : initFromMap zeroState (some smallMap) (some fun _ ↦ 0) 1 0x4000 =
    (true, (initFromMap zeroState (some smallMap) (some fun _ ↦ 0) 1 0x4000).2) := rfl
  exact ⟨rfl, (free_described_iff hinit).mpr (faithful_of_below _ fun r hr _ ↦ hbelow r hr)⟩

/-- One usable region, of 128 bytes in the last page of the address space. -/
def lastPageMap : List BootMemRegion := [⟨0xffffffffffffff00, 0x80, 1⟩]

/-- Its start is rounded up to 0, so that frame 1 becomes free. -/
theorem last_page_frees_all :
    let pmm := (initFromMap zeroState (some lastPageMap) (some fun _ ↦ 0) 1 0x4000).2
    (∀ r ∈ lastPageMap, r.Fits) ∧ 1 ∈ freeSet pmm ∧ ¬Usable lastPageMap 1 := by
  refine ⟨?_, by decide +kernel, ?_⟩
  · rintro r hr
    rw [List.mem_singleton.mp hr, BootMemRegion.Fits]
    decide
  · rintro ⟨r, hr, -, -, hwithin⟩
    rw [List.mem_singleton.mp hr] at hwithin
    exact absurd hwithin.1 (by decide)

/-! ## Reservations -/

theorem reserveRange_eq {pmm : State} (h : Ready pmm) {base length : UInt64}
    (hlength : length.toNat ≠ 0) :
    reserveRange pmm base length = (true, markRangeUsed pmm base.toNat length.toNat) := by
  rw [reserveRange, if_neg]
  rw [h.initialized]
  exact not_or.mpr ⟨by decide, hlength⟩

/-- A call of `pmm_reserve_range` that returns false changes nothing. If it returns true, then no
frame that overlaps the range is free, if and only if the range does not end in the last page or
beyond, or none of these frames was free. -/
theorem reserved_frames_used_iff {old pmm₀ pmm : State} {regions : Option (List BootMemRegion)}
    {storage : Option Mem} {bytes maxPhys : UInt64}
    (hinit : initFromMap old regions storage bytes maxPhys = (true, pmm₀))
    {es : List (Call × Ret)} (hrun : Run step (fun _ _ ↦ True) pmm₀ es pmm)
    (base length : UInt64) :
    ((reserveRange pmm base length).1 = false → (reserveRange pmm base length).2 = pmm) ∧
    (((reserveRange pmm base length).1 = true → ∀ f, Overlaps base.toNat length.toNat f →
        f ∉ freeSet (reserveRange pmm base length).2) ↔
      base.toNat + length.toNat ≤ 2 ^ 64 - pageSize ∨
        ∀ f, Overlaps base.toNat length.toNat f → f ∉ freeSet pmm) := by
  have h : Ready pmm := hrun.invariant (ready_of_initFromMap hinit) fun u c hu _ ↦ hu.step c
  by_cases hlength : length.toNat = 0
  · -- an empty range is refused, and overlaps no frame
    rw [reserveRange, if_pos (.inr hlength)]
    refine ⟨fun _ ↦ rfl, iff_of_true (fun h ↦ by cases h) (.inr ?_)⟩
    rintro f ⟨x, hle, hlt, -⟩
    omega
  rw [reserveRange_eq h hlength, ← endInRange_iff]
  refine ⟨fun h ↦ (by cases h), ?_⟩
  by_cases hend : EndInRange base.toNat length.toNat
  · refine iff_of_true (fun _ f hf hmem ↦ ?_) (.inl hend)
    exact ((mem_freeSet_markRangeUsed h.toInv hend f).mp hmem).2 hf
  · rw [markRangeUsed_of_not_endInRange base.toNat_lt hend, or_iff_right hend]
    exact ⟨fun hfree ↦ hfree rfl, fun hfree _ ↦ hfree⟩

theorem reserved_frames_used_iff_small :
    let pmm := (initFromMap zeroState (some smallMap) (some fun _ ↦ 0) 1 0x4000).2
    ∀ f, Overlaps 0x1000 0x1000 f → f ∉ freeSet (reserveRange pmm 0x1000 0x1000).2 := by
  intro pmm
  have hinit : initFromMap zeroState (some smallMap) (some fun _ ↦ 0) 1 0x4000 = (true, pmm) := rfl
  exact (reserved_frames_used_iff hinit .nil 0x1000 0x1000).2.mpr (.inl (by decide)) rfl

/-- A range from frame 1 to the last byte of the address space. The call reports success, and
frame 1 stays free. -/
theorem reservation_skipped :
    let pmm := (initFromMap zeroState (some smallMap) (some fun _ ↦ 0) 1 0x4000).2
    let res := reserveRange pmm 0x1000 0xffffffffffffefff
    res.1 = true ∧ Overlaps 0x1000 0xffffffffffffefff 1 ∧ 1 ∈ freeSet res.2 := by
  decide +kernel

end Pmm

end Mcsos
