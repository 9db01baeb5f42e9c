import Mcsos.Base.Checked

/-!
# The ELF64 loader

`kernel/user/m11_elf_loader.c` plans the load of a user program: it checks an ELF64 image of
`image_size` bytes against a user region and fills a plan with the entry point and the loadable
segments. The image is untrusted, so the loader is a `Checked` program: it reads the image field by
field, in the order of the source, and the bytes that it reads are part of its result.

The structures `m11_elf64_ehdr` and `m11_elf64_phdr` are packed little-endian; a `Field` is the
offset and the width of one of their members. A condition that joins several comparisons with `||`
reads all of its operands here, whereas the source may stop at the first one that decides it.
-/

namespace Mcsos.Elf

open Checked

/-- The return codes, other than `M11_OK`. -/
inductive Err
  | errNull | errSize | errMagic | errClass | errEndian | errVersion | errType | errMachine
  | errEhsize | errPhentsize | errPhbounds | errAlign | errSegbounds | errSegrange | errSegcount
  | errEntry | errFlags
  deriving DecidableEq, Repr

/-! ## The layout of the two headers -/

/-- A member of a header structure. -/
structure Field where
  offset : ℕ
  width : ℕ

/-- The member `f` of the structure at `base`. -/
def Field.of (f : Field) (m : Mem) (base : ℕ) : ℕ := m.load f.width (base + f.offset)

/-- Read the member `f` of the structure at `base`. -/
def Field.read (f : Field) (base : ℕ) : Checked Err ℕ := load f.width (base + f.offset)

/-- The `i`-th byte of `e_ident`. -/
def eIdent (i : ℕ) : Field := ⟨i, 1⟩
def eType : Field := ⟨16, 2⟩
def eMachine : Field := ⟨18, 2⟩
def eVersion : Field := ⟨20, 4⟩
def eEntry : Field := ⟨24, 8⟩
def ePhoff : Field := ⟨32, 8⟩
def eEhsize : Field := ⟨52, 2⟩
def ePhentsize : Field := ⟨54, 2⟩
def ePhnum : Field := ⟨56, 2⟩

def pType : Field := ⟨0, 4⟩
def pFlags : Field := ⟨4, 4⟩
def pOffset : Field := ⟨8, 8⟩
def pVaddr : Field := ⟨16, 8⟩
def pFilesz : Field := ⟨32, 8⟩
def pMemsz : Field := ⟨40, 8⟩
def pAlign : Field := ⟨48, 8⟩

/-- The size of `m11_elf64_ehdr`. -/
def ehdrSize : ℕ := 64

/-- The size of `m11_elf64_phdr`. -/
def phdrSize : ℕ := 56

def elfmag0 : ℕ := 0x7f
def elfmag1 : ℕ := 0x45
def elfmag2 : ℕ := 0x4c
def elfmag3 : ℕ := 0x46
def elfclass64 : ℕ := 2
def elfdata2lsb : ℕ := 1
def evCurrent : ℕ := 1
def etExec : ℕ := 2
def etDyn : ℕ := 3
def emX86_64 : ℕ := 62
def ptLoad : ℕ := 1
def pfX : ℕ := 1
def pfW : ℕ := 2
def pfR : ℕ := 4
def maxLoadSegments : ℕ := 8

/-! ## The plan -/

/-- The addresses open to user programs, `base` included and `limit` not. -/
structure UserRegion where
  base : UInt64
  limit : UInt64

/-- A segment of the plan. -/
structure SegmentPlan where
  fileOffset : ℕ
  vaddr : ℕ
  filesz : ℕ
  memsz : ℕ
  align : ℕ
  flags : ℕ
  deriving DecidableEq, Repr

/-- The plan. `segments` holds the first `segment_count` slots of the array of the source; the other
slots are zero in every plan that the loader leaves. -/
@[ext] structure ProcessImagePlan where
  entry : ℕ
  segments : List SegmentPlan
  length_le : segments.length ≤ maxLoadSegments

namespace ProcessImagePlan

/-- `m11_zero_plan`. -/
def zero : ProcessImagePlan := ⟨0, [], Nat.zero_le _⟩

def push (plan : ProcessImagePlan) (seg : SegmentPlan)
    (h : plan.segments.length < maxLoadSegments) : ProcessImagePlan :=
  ⟨plan.entry, plan.segments ++ [seg], by rw [List.length_append]; exact h⟩

end ProcessImagePlan

/-! ## The checks -/

/-- The sum of two 64-bit numbers, if it did not wrap around. -/
def m11AddOverflowU64 (a b : ℕ) : Option ℕ :=
  let r := (a + b) % 2 ^ 64
  if r < a then none else some r

def m11IsPowerOfTwoU64 (v : ℕ) : Bool := v ≠ 0 ∧ v &&& (v - 1) = 0

def m11ValidateUserRange (region : UserRegion) (base size : ℕ) : Except Err Unit :=
  if region.limit.toNat ≤ region.base.toNat then .error .errSegrange
  else if size = 0 then .error .errSegrange
  else
    match m11AddOverflowU64 base size with
    | none => .error .errSegrange
    | some stop =>
      if base < region.base.toNat ∨ region.limit.toNat < stop ∨ stop ≤ base then
        .error .errSegrange
      else .ok ()

def m11ValidateIdent : Checked Err Unit := do
  let mag0 ← (eIdent 0).read 0
  let mag1 ← (eIdent 1).read 0
  let mag2 ← (eIdent 2).read 0
  let mag3 ← (eIdent 3).read 0
  failWhen (mag0 ≠ elfmag0 ∨ mag1 ≠ elfmag1 ∨ mag2 ≠ elfmag2 ∨ mag3 ≠ elfmag3) .errMagic
  let klass ← (eIdent 4).read 0
  failWhen (klass ≠ elfclass64) .errClass
  let data ← (eIdent 5).read 0
  failWhen (data ≠ elfdata2lsb) .errEndian
  let identVersion ← (eIdent 6).read 0
  let version ← eVersion.read 0
  failWhen (identVersion ≠ evCurrent ∨ version ≠ evCurrent) .errVersion

/-- Whether the bytes `[offset, offset + size)` leave the image, as two of the checks ask it. -/
def leavesImage (imageSize : UInt64) (offset size : ℕ) : Bool :=
  match m11AddOverflowU64 offset size with
  | none => true
  | some stop => imageSize.toNat < stop ∨ imageSize.toNat < offset

def m11ValidatePhdrBounds (imageSize : UInt64) : Checked Err Unit := do
  let phnum ← ePhnum.read 0
  failWhen (phnum = 0) .errPhbounds
  let phentsize ← ePhentsize.read 0
  failWhen (phentsize ≠ phdrSize) .errPhentsize
  let phTableBytes := phentsize * phnum % 2 ^ 64
  failWhen (phnum ≠ 0 ∧ phTableBytes / phnum ≠ phentsize) .errPhbounds
  let phoff ← ePhoff.read 0
  failWhen (leavesImage imageSize phoff phTableBytes) .errPhbounds

/-- The check of the program header at `ph`. -/
def m11ValidateLoadSegment (ph : ℕ) (imageSize : UInt64) (region : UserRegion) :
    Checked Err Unit := do
  let flags ← pFlags.read ph
  -- The mask is the 32-bit complement of `R | W | X`.
  failWhen (flags &&& (2 ^ 32 - 1 - (pfR ||| pfW ||| pfX)) ≠ 0) .errFlags
  failWhen (flags &&& pfW ≠ 0 ∧ flags &&& pfX ≠ 0) .errFlags
  let memsz ← pMemsz.read ph
  let filesz ← pFilesz.read ph
  failWhen (memsz < filesz) .errSegbounds
  let align ← pAlign.read ph
  let vaddr ← pVaddr.read ph
  let offset ← pOffset.read ph
  failWhen ((align ≠ 0 ∧ align ≠ 1) ∧ ¬m11IsPowerOfTwoU64 align) .errAlign
  failWhen ((align ≠ 0 ∧ align ≠ 1) ∧ vaddr % align ≠ offset % align) .errAlign
  failWhen (leavesImage imageSize offset filesz) .errSegbounds
  ofResult (m11ValidateUserRange region vaddr memsz)

/-- The slot that the loop fills from the program header at `ph`. -/
def readSegment (ph : ℕ) : Checked Err SegmentPlan := do
  let fileOffset ← pOffset.read ph
  let vaddr ← pVaddr.read ph
  let filesz ← pFilesz.read ph
  let memsz ← pMemsz.read ph
  let align ← pAlign.read ph
  let flags ← pFlags.read ph
  return ⟨fileOffset, vaddr, filesz, memsz, align, flags⟩

/-- The loop over the program headers, with `n` of them left and `ph` the address of the next. -/
def planSegments (imageSize : UInt64) (region : UserRegion) :
    ℕ → ℕ → ProcessImagePlan → Checked Err ProcessImagePlan
  | 0, _, plan => pure plan
  | n + 1, ph, plan => do
    let type ← pType.read ph
    if type ≠ ptLoad then planSegments imageSize region n (ph + phdrSize) plan
    -- The slot is checked before the header, so a ninth segment is not looked at.
    else if h : plan.segments.length < maxLoadSegments then do
      m11ValidateLoadSegment ph imageSize region
      let seg ← readSegment ph
      planSegments imageSize region n (ph + phdrSize) (plan.push seg h)
    else throw .errSegcount

/-- The loader from the check of `image_size` to the end of the loop. Whatever error ends this part,
it leaves a zero plan. -/
def planImage (imageSize : UInt64) (region : UserRegion) : Checked Err ProcessImagePlan := do
  failWhen (imageSize.toNat < ehdrSize) .errSize
  m11ValidateIdent
  let type ← eType.read 0
  failWhen (type ≠ etExec ∧ type ≠ etDyn) .errType
  let machine ← eMachine.read 0
  failWhen (machine ≠ emX86_64) .errMachine
  let ehsize ← eEhsize.read 0
  failWhen (ehsize ≠ ehdrSize) .errEhsize
  m11ValidatePhdrBounds imageSize
  let entry ← eEntry.read 0
  -- The code of the range check is replaced.
  failWhen (m11ValidateUserRange region entry 1 ≠ .ok ()) .errEntry
  let phoff ← ePhoff.read 0
  let phnum ← ePhnum.read 0
  planSegments imageSize region phnum phoff { ProcessImagePlan.zero with entry := entry }

/-- What the loader returns after that part, and the plan that it leaves. An image without loadable
segments is the one error after which the plan is not zero: its entry point has been set. -/
def planResult : Except Err ProcessImagePlan → Except Err Unit × Option ProcessImagePlan
  | .error e => (.error e, some .zero)
  | .ok plan =>
    if plan.segments.length = 0 then (.error .errSegcount, some plan) else (.ok (), some plan)

/-- `m11_elf64_plan_load`: its return code and the plan that it leaves behind `out_plan`. The flag
`image` says that the image is not a null pointer, and `outPlan` is `none` for a null pointer. -/
def m11Elf64PlanLoad (image : Bool) (imageSize : UInt64) (region : UserRegion)
    (outPlan : Option ProcessImagePlan) : Reads (Except Err Unit × Option ProcessImagePlan) :=
  if image = false ∨ outPlan.isNone then pure (.error .errNull, outPlan)
  else do
    return planResult (← (planImage imageSize region).run)

end Mcsos.Elf
