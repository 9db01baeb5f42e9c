import Mathlib.Data.Nat.ModEq
import Mcsos.Elf.Loader

/-!
# The format that the ELF64 loader accepts

`Format m imageSize region` says what an acceptable image is, in natural numbers that do not wrap
around: the header, the program header table, and each program header of type `PT_LOAD`. The loader
works with 64-bit sums and checks each of them for overflow; since `imageSize` and the limits of the
region are 64-bit numbers themselves, a sum that overflows is out of bounds in any case, and the two
descriptions agree.

The checks are what makes the reads safe: the fields of the header are read after the check of
`image_size`, and the program headers after the check of the table's bounds.
-/

namespace Mcsos.Elf

open Checked

/-! ## What an acceptable image is -/

/-- A program header, as the image has it. -/
structure Phdr where
  type : ℕ
  flags : ℕ
  offset : ℕ
  vaddr : ℕ
  filesz : ℕ
  memsz : ℕ
  align : ℕ

/-- The program header at `a`. -/
def phdrAt (m : Mem) (a : ℕ) : Phdr where
  type := pType.of m a
  flags := pFlags.of m a
  offset := pOffset.of m a
  vaddr := pVaddr.of m a
  filesz := pFilesz.of m a
  memsz := pMemsz.of m a
  align := pAlign.of m a

/-- A table of `n` program headers at `a`. -/
def phdrTable (m : Mem) (a n : ℕ) : List Phdr :=
  (List.range n).map fun i ↦ phdrAt m (a + phdrSize * i)

/-- The headers of a table that ask for a segment, in the order of the table. -/
def loadable (hs : List Phdr) : List Phdr := hs.filter fun ph ↦ ph.type = ptLoad

/-- The segments that an image asks for. -/
def loadHeaders (m : Mem) : List Phdr := loadable (phdrTable m (ePhoff.of m 0) (ePhnum.of m 0))

/-- The slot of the plan for a program header. -/
def Phdr.segment (ph : Phdr) : SegmentPlan :=
  ⟨ph.offset, ph.vaddr, ph.filesz, ph.memsz, ph.align, ph.flags⟩

/-- What a program header of type `PT_LOAD` has to be. -/
structure Phdr.WellFormed (ph : Phdr) (imageSize : ℕ) (region : UserRegion) : Prop where
  flags_rwx : ph.flags &&& (pfR ||| pfW ||| pfX) = ph.flags
  not_wx : ¬(ph.flags &&& pfW ≠ 0 ∧ ph.flags &&& pfX ≠ 0)
  filesz_le : ph.filesz ≤ ph.memsz
  memsz_pos : 0 < ph.memsz
  aligned : ph.align = 0 ∨ ph.align = 1 ∨
    ph.align.isPowerOfTwo ∧ ph.vaddr ≡ ph.offset [MOD ph.align]
  file_le : ph.offset + ph.filesz ≤ imageSize
  base_le : region.base.toNat ≤ ph.vaddr
  le_limit : ph.vaddr + ph.memsz ≤ region.limit.toNat

/-- The identification: magic number, 64-bit class, little-endian data, current version. -/
structure Ident (m : Mem) : Prop where
  mag0 : (eIdent 0).of m 0 = elfmag0
  mag1 : (eIdent 1).of m 0 = elfmag1
  mag2 : (eIdent 2).of m 0 = elfmag2
  mag3 : (eIdent 3).of m 0 = elfmag3
  klass : (eIdent 4).of m 0 = elfclass64
  data : (eIdent 5).of m 0 = elfdata2lsb
  identVersion : (eIdent 6).of m 0 = evCurrent
  version : eVersion.of m 0 = evCurrent

/-- The program header table: its entries have the right size, there is one, and it lies in the
image. -/
structure Table (m : Mem) (imageSize : ℕ) : Prop where
  phnum_pos : 0 < ePhnum.of m 0
  phentsize : ePhentsize.of m 0 = phdrSize
  table_le : ePhoff.of m 0 + phdrSize * ePhnum.of m 0 ≤ imageSize

/-- What is checked before the program headers. -/
structure Header (m : Mem) (imageSize : ℕ) (region : UserRegion) : Prop
    extends Ident m, Table m imageSize where
  size : ehdrSize ≤ imageSize
  type : eType.of m 0 = etExec ∨ eType.of m 0 = etDyn
  machine : eMachine.of m 0 = emX86_64
  ehsize : eEhsize.of m 0 = ehdrSize
  base_le_entry : region.base.toNat ≤ eEntry.of m 0
  entry_lt_limit : eEntry.of m 0 < region.limit.toNat

/-- The image format, with all sums taken in natural numbers. -/
structure Format (m : Mem) (imageSize : ℕ) (region : UserRegion) : Prop
    extends Header m imageSize region where
  segments_pos : 1 ≤ (loadHeaders m).length
  segments_le : (loadHeaders m).length ≤ maxLoadSegments
  segments : ∀ ph ∈ loadHeaders m, ph.WellFormed imageSize region

/-- The plan for an image: its entry point and its loadable segments in the order of the table. -/
def IsPlan (plan : ProcessImagePlan) (m : Mem) : Prop :=
  plan.entry = eEntry.of m 0 ∧ plan.segments = (loadHeaders m).map Phdr.segment

/-! ## The pure checks -/

theorem m11AddOverflowU64_eq {a b : ℕ} (ha : a < 2 ^ 64) (hb : b < 2 ^ 64) :
    m11AddOverflowU64 a b = if a + b < 2 ^ 64 then some (a + b) else none := by
  simp only [m11AddOverflowU64]
  split_ifs with hwrap hlt hlt
  · omega
  · rfl
  · rw [Nat.mod_eq_of_lt hlt]
  · omega

theorem m11IsPowerOfTwoU64_iff (v : ℕ) : m11IsPowerOfTwoU64 v = true ↔ v.isPowerOfTwo := by
  rw [m11IsPowerOfTwoU64, decide_eq_true_iff, Nat.ne_zero_and_sub_one_eq_zero_iff_isPowerOfTwo]

/-- A range that does not wrap around is accepted if it lies in the region; one that does wrap
around would end above the limit. -/
theorem m11ValidateUserRange_ok_iff {region : UserRegion} {base size : ℕ} (hbase : base < 2 ^ 64)
    (hsize : size < 2 ^ 64) :
    m11ValidateUserRange region base size = .ok () ↔
      0 < size ∧ region.base.toNat ≤ base ∧ base + size ≤ region.limit.toNat := by
  have hlimit := region.limit.toNat_lt
  rw [m11ValidateUserRange, m11AddOverflowU64_eq hbase hsize]
  split_ifs with hregion hzero hsum
  · simp only [false_iff]
    omega
  · simp only [false_iff]
    omega
  · dsimp only
    split_ifs with hout
    · simp only [false_iff]
      omega
    · simp only [true_iff]
      omega
  · simp only [false_iff]
    omega

theorem leavesImage_eq_false_iff {imageSize : UInt64} {offset size : ℕ} (hoffset : offset < 2 ^ 64)
    (hsize : size < 2 ^ 64) :
    ¬leavesImage imageSize offset size = true ↔ offset + size ≤ imageSize.toNat := by
  have hlimit := imageSize.toNat_lt
  rw [leavesImage, m11AddOverflowU64_eq hoffset hsize]
  split_ifs with hsum
  · simp only [decide_eq_true_iff]
    omega
  · simp only [not_true_eq_false, false_iff]
    omega

theorem flags_within_iff {flags : ℕ} (h : flags < 2 ^ 32) :
    flags &&& (2 ^ 32 - 1 - (pfR ||| pfW ||| pfX)) = 0 ↔
      flags &&& (pfR ||| pfW ||| pfX) = flags := by
  have hsplit : (2 ^ 32 - 1 - (pfR ||| pfW ||| pfX)) ||| (pfR ||| pfW ||| pfX) = 2 ^ 32 - 1 := by
    decide
  have hdisjoint : (pfR ||| pfW ||| pfX) &&& (2 ^ 32 - 1 - (pfR ||| pfW ||| pfX)) = 0 := by decide
  constructor
  · intro hout
    calc flags &&& (pfR ||| pfW ||| pfX)
        = (flags &&& (2 ^ 32 - 1 - (pfR ||| pfW ||| pfX))) |||
            (flags &&& (pfR ||| pfW ||| pfX)) := by rw [hout, Nat.zero_or]
      _ = flags &&& (2 ^ 32 - 1) := by rw [← Nat.and_or_distrib_left, hsplit]
      _ = flags := Nat.and_two_pow_sub_one_of_lt_two_pow h
  · intro hin
    rw [← hin, Nat.and_assoc, hdisjoint, Nat.and_zero]

/-! ## The checks that read the image -/

section
variable {m : Mem} {imageSize : UInt64} {region : UserRegion}

theorem Field.of_lt (f : Field) (base : ℕ) : f.of m base < 256 ^ f.width := m.load_lt _ _

theorem decides_read_bind {β : Type} {f : Field} {base size : ℕ} {k : ℕ → Checked Err β}
    {D : Prop} {R : β → Prop} (hfits : f.offset + f.width ≤ size)
    (hbase : base + size ≤ imageSize.toNat)
    (hk : Decides (k (f.of m base)) m (· < imageSize.toNat) D R) :
    Decides (f.read base >>= k) m (· < imageSize.toNat) D R :=
  .load_bind (fun i _ hi ↦ by omega) hk

theorem decides_m11ValidateIdent (h : ehdrSize ≤ imageSize.toNat) :
    Decides m11ValidateIdent m (· < imageSize.toNat) (Ident m) fun _ ↦ True := by
  have hbase : 0 + ehdrSize ≤ imageSize.toNat := by omega
  refine Decides.congr
    (decides_read_bind (by decide) hbase <| decides_read_bind (by decide) hbase <|
      decides_read_bind (by decide) hbase <| decides_read_bind (by decide) hbase <|
      .failWhen_bind fun _ ↦ decides_read_bind (by decide) hbase <|
      .failWhen_bind fun _ ↦ decides_read_bind (by decide) hbase <|
      .failWhen_bind fun _ ↦ decides_read_bind (by decide) hbase <|
      decides_read_bind (by decide) hbase decides_failWhen) ?_
  simp only [not_or, not_not]
  exact ⟨fun ⟨⟨h0, h1, h2, h3⟩, h4, h5, h6, h7⟩ ↦ ⟨h0, h1, h2, h3, h4, h5, h6, h7⟩,
    fun h ↦ ⟨⟨h.mag0, h.mag1, h.mag2, h.mag3⟩, h.klass, h.data, h.identVersion, h.version⟩⟩

theorem decides_m11ValidatePhdrBounds (h : ehdrSize ≤ imageSize.toNat) :
    Decides (m11ValidatePhdrBounds imageSize) m (· < imageSize.toNat) (Table m imageSize.toNat)
      fun _ ↦ True := by
  have hbase : 0 + ehdrSize ≤ imageSize.toNat := by omega
  refine Decides.congr
    (decides_read_bind (by decide) hbase <| .failWhen_bind fun _ ↦
      decides_read_bind (by decide) hbase <| .failWhen_bind fun _ ↦ .failWhen_bind fun _ ↦
      decides_read_bind (by decide) hbase decides_failWhen) ?_
  have hphnum : ePhnum.of m 0 < 2 ^ 16 := ePhnum.of_lt 0
  have hphoff : ePhoff.of m 0 < 2 ^ 64 := ePhoff.of_lt 0
  -- The product of two 16-bit numbers does not overflow, so the check by division always passes.
  have hmod : phdrSize * ePhnum.of m 0 % 2 ^ 64 = phdrSize * ePhnum.of m 0 :=
    Nat.mod_eq_of_lt (by rw [phdrSize]; omega)
  have hbytes : phdrSize * ePhnum.of m 0 < 2 ^ 64 := by
    rw [phdrSize]
    omega
  constructor
  · rintro ⟨hpos, hsize, -, hbounds⟩
    rw [not_not.mp hsize, hmod, leavesImage_eq_false_iff hphoff hbytes] at hbounds
    exact ⟨Nat.pos_of_ne_zero hpos, not_not.mp hsize, hbounds⟩
  · intro htable
    rw [htable.phentsize, hmod, leavesImage_eq_false_iff hphoff hbytes,
      Nat.mul_div_cancel _ htable.phnum_pos]
    exact ⟨htable.phnum_pos.ne', not_not.mpr rfl, fun hne ↦ hne.2 rfl, htable.table_le⟩

variable {ph : ℕ}

theorem decides_m11ValidateLoadSegment (h : ph + phdrSize ≤ imageSize.toNat) :
    Decides (m11ValidateLoadSegment ph imageSize region) m (· < imageSize.toNat)
      ((phdrAt m ph).WellFormed imageSize.toNat region) fun _ ↦ True := by
  have hflags : pFlags.of m ph < 2 ^ 32 := pFlags.of_lt ph
  have hoffset : pOffset.of m ph < 2 ^ 64 := pOffset.of_lt ph
  have hvaddr : pVaddr.of m ph < 2 ^ 64 := pVaddr.of_lt ph
  have hfilesz : pFilesz.of m ph < 2 ^ 64 := pFilesz.of_lt ph
  have hmemsz : pMemsz.of m ph < 2 ^ 64 := pMemsz.of_lt ph
  refine Decides.congr
    (decides_read_bind (by decide) h <| .failWhen_bind fun _ ↦ .failWhen_bind fun _ ↦
      decides_read_bind (by decide) h <| decides_read_bind (by decide) h <| .failWhen_bind fun _ ↦
      decides_read_bind (by decide) h <| decides_read_bind (by decide) h <|
      decides_read_bind (by decide) h <| .failWhen_bind fun _ ↦ .failWhen_bind fun _ ↦
      .failWhen_bind fun _ ↦ decides_ofResult (m11ValidateUserRange_ok_iff hvaddr hmemsz)) ?_
  rw [not_not, flags_within_iff hflags, leavesImage_eq_false_iff hoffset hfilesz,
    m11IsPowerOfTwoU64_iff]
  constructor
  · rintro ⟨hrwx, hwx, hle, hpow, hmod, hfile, hpos, hbase, hlimit⟩
    refine ⟨hrwx, hwx, Nat.le_of_not_lt hle, hpos, ?_, hfile, hbase, hlimit⟩
    -- For 0 and 1 the two checks of the alignment are skipped.
    by_cases hzero : pAlign.of m ph = 0
    · exact .inl hzero
    by_cases hone : pAlign.of m ph = 1
    · exact .inr (.inl hone)
    · exact .inr (.inr ⟨not_not.mp fun hn ↦ hpow ⟨⟨hzero, hone⟩, hn⟩,
        not_not.mp fun hn ↦ hmod ⟨⟨hzero, hone⟩, hn⟩⟩)
  · intro hph
    refine ⟨hph.flags_rwx, hph.not_wx, Nat.not_lt.mpr hph.filesz_le, fun hn ↦ ?_, fun hn ↦ ?_,
      hph.file_le, hph.memsz_pos, hph.base_le, hph.le_limit⟩
    · obtain hzero | hone | haligned := hph.aligned
      · exact hn.1.1 hzero
      · exact hn.1.2 hone
      · exact hn.2 haligned.1
    · obtain hzero | hone | haligned := hph.aligned
      · exact hn.1.1 hzero
      · exact hn.1.2 hone
      · exact hn.2 haligned.2

theorem decides_readSegment (h : ph + phdrSize ≤ imageSize.toNat) :
    Decides (readSegment ph) m (· < imageSize.toNat) True (· = (phdrAt m ph).segment) :=
  decides_read_bind (by decide) h <| decides_read_bind (by decide) h <|
    decides_read_bind (by decide) h <| decides_read_bind (by decide) h <|
    decides_read_bind (by decide) h <| decides_read_bind (by decide) h <| decides_pure rfl

/-! ## The loop over the program headers -/

theorem phdrTable_succ (a n : ℕ) :
    phdrTable m a (n + 1) = phdrAt m a :: phdrTable m (a + phdrSize) n := by
  rw [phdrTable, List.range_succ_eq_map, List.map_cons, List.map_map, phdrTable]
  congr 1
  refine List.map_congr_left fun i _ ↦ ?_
  rw [Function.comp_apply, Nat.succ_eq_add_one, Nat.mul_add, Nat.mul_one]
  congr 1
  omega

theorem loadable_cons (hdr : Phdr) (hdrs : List Phdr) : loadable (hdr :: hdrs) =
    if hdr.type = ptLoad then hdr :: loadable hdrs else loadable hdrs := by
  rw [loadable, List.filter_cons]
  simp only [decide_eq_true_eq, loadable]

/-- The loop accepts the rest of the table if its loadable headers are well formed and there are
slots for them, and then it appends them to the plan. The induction is on the number of headers
left. -/
theorem decides_planSegments (n : ℕ) (plan : ProcessImagePlan)
    (h : ph + phdrSize * n ≤ imageSize.toNat) :
    Decides (planSegments imageSize region n ph plan) m (· < imageSize.toNat)
      ((∀ hdr ∈ loadable (phdrTable m ph n), hdr.WellFormed imageSize.toNat region) ∧
        plan.segments.length + (loadable (phdrTable m ph n)).length ≤ maxLoadSegments)
      fun plan' ↦ plan'.entry = plan.entry ∧
        plan'.segments = plan.segments ++ (loadable (phdrTable m ph n)).map Phdr.segment := by
  induction n generalizing ph plan with
  | zero =>
    have hnil : loadable (phdrTable m ph 0) = [] := rfl
    rw [hnil]
    refine (decides_pure ⟨rfl, (List.append_nil _).symm⟩).congr (iff_of_true trivial ⟨?_, ?_⟩)
    · exact fun _ hmem ↦ absurd hmem List.not_mem_nil
    · exact plan.length_le
  | succ n ih =>
    have hfirst : ph + phdrSize ≤ imageSize.toNat := by
      rw [Nat.mul_add] at h
      omega
    have hrest : ph + phdrSize + phdrSize * n ≤ imageSize.toNat := by
      rw [Nat.mul_add] at h
      omega
    rw [planSegments]
    refine decides_read_bind (by decide) hfirst ?_
    -- A header of another type changes neither side.
    by_cases htype : pType.of m ph ≠ ptLoad
    · have hskip : loadable (phdrTable m ph (n + 1)) =
          loadable (phdrTable m (ph + phdrSize) n) := by
        rw [phdrTable_succ, loadable_cons]
        exact if_neg htype
      rw [if_pos htype, hskip]
      exact ih plan hrest
    · have htake : loadable (phdrTable m ph (n + 1)) =
          phdrAt m ph :: loadable (phdrTable m (ph + phdrSize) n) := by
        rw [phdrTable_succ, loadable_cons]
        exact if_pos (not_not.mp htype)
      rw [if_neg htype, htake, List.length_cons, List.forall_mem_cons, List.map_cons]
      split_ifs with hslot
      · have hnext := ih (plan.push (phdrAt m ph).segment hslot) hrest
        have hlength : (plan.push (phdrAt m ph).segment hslot).segments.length =
            plan.segments.length + 1 := List.length_append
        have hsegments : (plan.push (phdrAt m ph).segment hslot).segments =
            plan.segments ++ [(phdrAt m ph).segment] := rfl
        rw [hlength, hsegments, List.append_assoc, List.singleton_append] at hnext
        refine ((decides_m11ValidateLoadSegment hfirst).bind fun _ _ _ ↦
          (decides_readSegment hfirst).bind_eq hnext).congr ?_
        rw [true_and, and_assoc, Nat.add_assoc, Nat.add_comm 1]
      · -- All slots are filled, and this header would need one more.
        exact decides_throw fun hall ↦ hslot (by omega)

/-! ## The loader -/

/-- Up to the end of the loop the loader accepts the format but for the number of segments being
positive, which is checked last. -/
theorem decides_planImage (m : Mem) (imageSize : UInt64) (region : UserRegion) :
    Decides (planImage imageSize region) m (· < imageSize.toNat)
      (Header m imageSize.toNat region ∧
        (∀ ph ∈ loadHeaders m, ph.WellFormed imageSize.toNat region) ∧
        (loadHeaders m).length ≤ maxLoadSegments)
      (IsPlan · m) := by
  have hentry : eEntry.of m 0 < 2 ^ 64 := eEntry.of_lt 0
  have hone : (1 : ℕ) < 2 ^ 64 := by decide
  have hbase (h : ¬imageSize.toNat < ehdrSize) : 0 + ehdrSize ≤ imageSize.toNat := by omega
  refine Decides.congr
    (.failWhen_bind fun h ↦ (decides_m11ValidateIdent (Nat.le_of_not_lt h)).bind fun _ _ _ ↦
      decides_read_bind (by decide) (hbase h) <| .failWhen_bind fun _ ↦
      decides_read_bind (by decide) (hbase h) <| .failWhen_bind fun _ ↦
      decides_read_bind (by decide) (hbase h) <| .failWhen_bind fun _ ↦
      (decides_m11ValidatePhdrBounds (Nat.le_of_not_lt h)).bind fun _ htable _ ↦
      decides_read_bind (by decide) (hbase h) <| .failWhen_bind fun _ ↦
      decides_read_bind (by decide) (hbase h) <| decides_read_bind (by decide) (hbase h) <|
      decides_planSegments _ _ htable.table_le) ?_
  rw [not_not, not_not, not_not, m11ValidateUserRange_ok_iff hentry hone]
  constructor
  · rintro ⟨hsize, hident, htype, hmachine, hehsize, htable, ⟨-, hbase, hlimit⟩, hall, hle⟩
    have htype' := (not_and_or.mp htype).imp not_not.mp not_not.mp
    exact ⟨⟨hident, htable, Nat.le_of_not_lt hsize, htype', hmachine, hehsize, hbase, hlimit⟩,
      hall, (Nat.le_add_left _ _).trans hle⟩
  · rintro ⟨hheader, hall, hle⟩
    have hzero : ProcessImagePlan.zero.segments.length + (loadHeaders m).length ≤
        maxLoadSegments := (Nat.zero_add _).trans_le hle
    exact ⟨Nat.not_lt.mpr hheader.size, hheader.toIdent,
      fun hne ↦ hheader.type.elim hne.1 hne.2, hheader.machine, hheader.ehsize,
      hheader.toTable, ⟨Nat.one_pos, hheader.base_le_entry, hheader.entry_lt_limit⟩, hall, hzero⟩

end

/-- With both pointers given, the loader reads what `planImage` reads and returns its result. -/
theorem m11Elf64PlanLoad_of_run {m : Mem} {imageSize : UInt64} {region : UserRegion}
    {r : Except Err ProcessImagePlan} (h : ((planImage imageSize region).run m).1 = some r)
    (old : ProcessImagePlan) : m11Elf64PlanLoad true imageSize region (some old) m =
      (some (planResult r), ((planImage imageSize region).run m).2) := by
  have hload : m11Elf64PlanLoad true imageSize region (some old) =
      (planImage imageSize region).run >>= fun r ↦ pure (planResult r) := if_neg (by simp)
  rw [hload, Reads.bind_apply_some _ h]
  exact congrArg (Prod.mk _) (List.append_nil _)

/-- The loader always returns. It returns `M11_OK` exactly for the images of the format, and then
the plan holds the entry point and the loadable segments of the image. No byte at or past
`imageSize` is read, whatever the image and the arguments are. -/
theorem m11Elf64PlanLoad_accepts_format (m : Mem) (imageSize : UInt64) (region : UserRegion) :
    (∀ old : ProcessImagePlan, ∃ rc plan,
      (m11Elf64PlanLoad true imageSize region (some old) m).1 = some (rc, some plan) ∧
      (rc = .ok () ↔ Format m imageSize.toNat region) ∧ (rc = .ok () → IsPlan plan m)) ∧
    ∀ image outPlan, ∀ i ∈ (m11Elf64PlanLoad image imageSize region outPlan m).2,
      i < imageSize.toNat := by
  have hplan := decides_planImage m imageSize region
  constructor
  · intro old
    by_cases hC : Header m imageSize.toNat region ∧
        (∀ ph ∈ loadHeaders m, ph.WellFormed imageSize.toNat region) ∧
        (loadHeaders m).length ≤ maxLoadSegments
    · obtain ⟨plan, hrun, hentry, hsegments⟩ := hplan.accepts hC
      have hlength : plan.segments.length = (loadHeaders m).length := by
        rw [hsegments, List.length_map]
      rw [m11Elf64PlanLoad_of_run hrun, planResult, hlength]
      -- What is left is the check after the loop.
      split_ifs with hzero
      · refine ⟨_, plan, rfl, ⟨fun hok ↦ (nomatch hok), fun hformat ↦ ?_⟩, fun hok ↦ (nomatch hok)⟩
        exact absurd hzero (Nat.one_le_iff_ne_zero.mp hformat.segments_pos)
      · exact ⟨_, plan, rfl,
          iff_of_true rfl ⟨hC.1, Nat.one_le_iff_ne_zero.mpr hzero, hC.2.2, hC.2.1⟩,
          fun _ ↦ ⟨hentry, hsegments⟩⟩
    · obtain ⟨e, hrun⟩ := hplan.rejects hC
      rw [m11Elf64PlanLoad_of_run hrun]
      refine ⟨_, .zero, rfl, ⟨fun hok ↦ (nomatch hok), fun hformat ↦ ?_⟩, fun hok ↦ (nomatch hok)⟩
      exact absurd ⟨hformat.toHeader, hformat.segments, hformat.segments_le⟩ hC
  · intro image outPlan i hi
    cases image with
    | false => exact absurd hi List.not_mem_nil
    | true =>
      cases outPlan with
      | none => exact absurd hi List.not_mem_nil
      | some old =>
        obtain ⟨r, hrun⟩ := hplan.ends
        rw [m11Elf64PlanLoad_of_run hrun] at hi
        exact hplan.reads i hi

/-- An image of 120 bytes: a header and one program header, for a segment that may be read and
executed and holds the whole image. -/
def smallImage : Mem :=
  let members : List (Field × ℕ × ℕ) :=
    [(eIdent 0, 0, elfmag0), (eIdent 1, 0, elfmag1), (eIdent 2, 0, elfmag2), (eIdent 3, 0, elfmag3),
      (eIdent 4, 0, elfclass64), (eIdent 5, 0, elfdata2lsb), (eIdent 6, 0, evCurrent),
      (eType, 0, etExec), (eMachine, 0, emX86_64), (eVersion, 0, evCurrent), (eEntry, 0, 0x400078),
      (ePhoff, 0, ehdrSize), (eEhsize, 0, ehdrSize), (ePhentsize, 0, phdrSize), (ePhnum, 0, 1),
      (pType, ehdrSize, ptLoad), (pFlags, ehdrSize, pfR ||| pfX), (pVaddr, ehdrSize, 0x400000),
      (pFilesz, ehdrSize, 120), (pMemsz, ehdrSize, 4096), (pAlign, ehdrSize, 4096)]
  members.foldl (fun m member ↦ m.store member.1.width (member.2.1 + member.1.offset) member.2.2)
    fun _ ↦ 0

theorem m11Elf64PlanLoad_accepts_small :
    Format smallImage 120 ⟨0x400000, 0x800000⟩ ∧ ∃ plan,
      (m11Elf64PlanLoad true 120 ⟨0x400000, 0x800000⟩ (some .zero) smallImage).1 =
        some (.ok (), some plan) ∧ IsPlan plan smallImage := by
  have hcode : (m11Elf64PlanLoad true 120 ⟨0x400000, 0x800000⟩ (some .zero) smallImage).1.map
      Prod.fst = some (.ok ()) := by decide +kernel
  obtain ⟨rc, plan, hrun, hformat, hplan⟩ :=
    (m11Elf64PlanLoad_accepts_format smallImage 120 ⟨0x400000, 0x800000⟩).1 .zero
  rw [hrun] at hcode
  obtain rfl : rc = .ok () := Option.some.inj hcode
  exact ⟨hformat.mp rfl, plan, hrun, hplan rfl⟩

end Mcsos.Elf
