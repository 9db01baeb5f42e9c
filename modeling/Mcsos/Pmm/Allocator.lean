import Mcsos.Base.Bitmap
import Mathlib.Data.List.Range

/-!
# The physical frame allocator

`pmm.c`: a bitmap with one bit for each frame below `frame_count`, set when the frame is in use,
with counters and a hint where the search for a free frame starts. The `uint64_t` fields are
natural numbers, and sums are taken modulo `2 ^ 64` where the source computes them. Arguments have
their machine type.
-/

namespace Mcsos

namespace Pmm

def pageSize : ℕ := 4096

def invalidFrame : ℕ := 2 ^ 64 - 1

def bootMemUsable : UInt32 := 1

structure BootMemRegion where
  base : UInt64
  length : UInt64
  type : UInt32

/-- `struct pmm_state`, with the memory that `bitmap` points to. -/
structure State where
  bitmap : Mem
  bitmapBytes : ℕ
  maxPhys : ℕ
  frameCount : ℕ
  freeFrames : ℕ
  usedFrames : ℕ
  reservedFrames : ℕ
  ignoredFrames : ℕ
  nextHint : ℕ
  initialized : Bool

/-! ## Arithmetic -/

/-- `align_down`. The alignment is a power of two, so the mask clears the remainder. -/
def alignDown (value align : ℕ) : ℕ := value / align * align

/-- `align_up`; the sum wraps around. -/
def alignUp (value align : ℕ) : ℕ := alignDown ((value + align - 1) % 2 ^ 64) align

def checkedAddU64 (a b : ℕ) : Option ℕ := if 2 ^ 64 - 1 - a < b then none else some (a + b)

/-! ## Marking frames -/

def markFrameFree (pmm : State) (frame : ℕ) : State :=
  if frame ≥ pmm.frameCount then pmm
  else if Bitmap.test pmm.bitmap frame then
    { pmm with
      bitmap := Bitmap.clear pmm.bitmap frame
      freeFrames := (pmm.freeFrames + 1) % 2 ^ 64
      usedFrames := if pmm.usedFrames > 0 then pmm.usedFrames - 1 else pmm.usedFrames
      nextHint := if frame < pmm.nextHint then frame else pmm.nextHint }
  else pmm

def markFrameUsed (pmm : State) (frame : ℕ) : State :=
  if frame ≥ pmm.frameCount then pmm
  else if !Bitmap.test pmm.bitmap frame then
    { pmm with
      bitmap := Bitmap.set pmm.bitmap frame
      freeFrames := if pmm.freeFrames > 0 then pmm.freeFrames - 1 else pmm.freeFrames
      usedFrames := (pmm.usedFrames + 1) % 2 ^ 64 }
  else pmm

/-- The addresses of the loops `for (addr = start; addr < stop; addr += PMM_PAGE_SIZE)`. In both
loops `stop` is at most `max_phys`, so `addr` does not wrap around. -/
def pages (start stop : ℕ) : List ℕ :=
  (List.range ((stop - start + pageSize - 1) / pageSize)).map (start + pageSize * ·)

def markRangeFree (pmm : State) (base length : ℕ) : State :=
  if length = 0 then pmm
  else match checkedAddU64 base length with
  | none => pmm
  | some last =>
    let start := alignUp base pageSize
    let stop := alignDown last pageSize
    if stop ≤ start then pmm
    else if start ≥ pmm.maxPhys then pmm
    else
      let pmm' := if stop > pmm.maxPhys then
          { pmm with ignoredFrames :=
              (pmm.ignoredFrames + (alignDown last pageSize - pmm.maxPhys) / pageSize) % 2 ^ 64 }
        else pmm
      (pages start (min stop pmm.maxPhys)).foldl
        (fun p addr ↦ markFrameFree p (addr / pageSize)) pmm'

/-- The body of the loop of `mark_range_used`. -/
def markPageUsed (pmm : State) (addr : ℕ) : State :=
  let wasFree := !Bitmap.test pmm.bitmap (addr / pageSize)
  let pmm := markFrameUsed pmm (addr / pageSize)
  if wasFree then { pmm with reservedFrames := (pmm.reservedFrames + 1) % 2 ^ 64 } else pmm

def markRangeUsed (pmm : State) (base length : ℕ) : State :=
  if length = 0 then pmm
  else match checkedAddU64 base length with
  | none => pmm
  | some last =>
    let start := alignDown base pageSize
    let stop := alignUp last pageSize
    if stop ≤ start then pmm
    else if start ≥ pmm.maxPhys then pmm
    else (pages start (min stop pmm.maxPhys)).foldl markPageUsed pmm

/-! ## The interface -/

/-- `pmm_zero_state`. There is no bitmap behind the null pointer; it is not read before
`initialized` is set. -/
def zeroState : State where
  bitmap _ := 0
  bitmapBytes := 0
  maxPhys := 0
  frameCount := 0
  freeFrames := 0
  usedFrames := 0
  reservedFrames := 0
  ignoredFrames := 0
  nextHint := 0
  initialized := false

/-- The state in which `pmm_init_from_map` has set the first `required_bitmap_bytes` bytes of the
storage, and not yet looked at the memory map. -/
def initialState (storage : Mem) (maxPhysBytes : ℕ) : State :=
  { zeroState with
    bitmap := fun i ↦ if i < (maxPhysBytes / pageSize + 7) / 8 then 0xff else storage i
    bitmapBytes := (maxPhysBytes / pageSize + 7) / 8
    maxPhys := maxPhysBytes
    frameCount := maxPhysBytes / pageSize
    usedFrames := maxPhysBytes / pageSize }

/-- The two loops over the memory map, with frame 0 marked in between. -/
def markMap (pmm : State) (regions : List BootMemRegion) : State :=
  let pmm := regions.foldl (fun p r ↦
    if r.type = bootMemUsable then markRangeFree p r.base.toNat r.length.toNat else p) pmm
  let pmm := markRangeUsed pmm 0 pageSize
  regions.foldl (fun p r ↦
    if r.type ≠ bootMemUsable then markRangeUsed p r.base.toNat r.length.toNat else p) pmm

/-- `pmm_init_from_map`. A null pointer is `none`; the list has `region_count` elements. -/
def initFromMap (pmm : State) (regions : Option (List BootMemRegion)) (bitmapStorage : Option Mem)
    (bitmapStorageBytes maxPhysBytes : UInt64) : Bool × State :=
  match regions, bitmapStorage with
  | some regions, some storage =>
    if regions.length = 0 then (false, pmm)
    else if maxPhysBytes.toNat = 0 ∨ maxPhysBytes.toNat % pageSize ≠ 0 then (false, pmm)
    else if bitmapStorageBytes.toNat < (maxPhysBytes.toNat / pageSize + 7) / 8 then (false, pmm)
    else (true, { markMap (initialState storage maxPhysBytes.toNat) regions with
      initialized := true })
  | _, _ => (false, pmm)

/-- What both loops of `pmm_alloc_frame` do with the frame they find. -/
def takeFrame (pmm : State) (frame : ℕ) : ℕ × State :=
  (frame * pageSize % 2 ^ 64, { markFrameUsed pmm frame with nextHint := (frame + 1) % 2 ^ 64 })

def allocFrame (pmm : State) : ℕ × State :=
  if pmm.initialized = false ∨ pmm.freeFrames = 0 then (invalidFrame, pmm)
  else
    match (List.range' pmm.nextHint (pmm.frameCount - pmm.nextHint)).find?
      fun frame ↦ !Bitmap.test pmm.bitmap frame with
    | some frame => takeFrame pmm frame
    | none =>
      match (List.range' 0 pmm.nextHint).find? fun frame ↦ !Bitmap.test pmm.bitmap frame with
      | some frame => takeFrame pmm frame
      | none => (invalidFrame, pmm)

def freeFrame (pmm : State) (physAddr : UInt64) : Bool × State :=
  if pmm.initialized = false then (false, pmm)
  else if physAddr.toNat % pageSize ≠ 0 ∨ physAddr.toNat = 0 ∨ physAddr.toNat ≥ pmm.maxPhys then
    (false, pmm)
  else if !Bitmap.test pmm.bitmap (physAddr.toNat / pageSize) then (false, pmm)
  else (true, markFrameFree pmm (physAddr.toNat / pageSize))

def reserveRange (pmm : State) (base length : UInt64) : Bool × State :=
  if pmm.initialized = false ∨ length.toNat = 0 then (false, pmm)
  else (true, markRangeUsed pmm base.toNat length.toNat)

inductive Call where
  | allocFrame
  | freeFrame (physAddr : UInt64)
  | reserveRange (base length : UInt64)

/-- What a call returns: an address or a truth value. -/
inductive Ret where
  | addr (a : ℕ)
  | bool (b : Bool)

def step : Call → State → Ret × State
  | .allocFrame, pmm => ((allocFrame pmm).1 |> .addr, (allocFrame pmm).2)
  | .freeFrame a, pmm => ((freeFrame pmm a).1 |> .bool, (freeFrame pmm a).2)
  | .reserveRange base length, pmm =>
    ((reserveRange pmm base length).1 |> .bool, (reserveRange pmm base length).2)

end Pmm

end Mcsos
