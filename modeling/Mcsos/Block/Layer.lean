import Mcsos.Base.Bytes
import Mathlib.Data.List.Range

/-!
# The block layer

`block.c`: a registry of block devices and a write-back buffer cache of 32 entries in front of
their drivers. The cache never evicts an entry.

A `struct block_device *` is the address of a device, `none` for `NULL`. What the source reads of a
device (`block_count`, and which of its callbacks are not `NULL`) does not change, and neither does
what the drivers will answer: both are in `Drivers`. Each device has blocks of its own, which the
state keeps. A call that does not return `BLK_OK` gives its code; the caller's buffer after such a
call is not modelled.
-/

namespace Mcsos

namespace Blk

/-- The bytes of one block, `MCSOS_BLOCK_SIZE` of them. -/
abbrev Block := Buf 512

def maxBlockDevices : ℕ := 16

def bufferCacheEntries : ℕ := 32

/-! ## Error codes

A driver's own code can be returned to the caller, so that codes are numbers. -/

def blkOk : ℤ := 0

def blkErrInvalidLba : ℤ := -1

def blkErrInvalidDev : ℤ := -2

def blkErrDriverFail : ℤ := -4

/-- How a call ends that does not return `BLK_OK`. -/
inductive Fail
  | code (c : ℤ)
  /-- A call through a `NULL` function pointer. -/
  | nullCall
deriving DecidableEq

/-! ## Devices and drivers -/

/-- `struct block_driver_ops`: which callbacks are not `NULL`. -/
structure BlockDriverOps where
  read : Bool
  write : Bool
  flush : Bool

structure BlockDevice where
  blockCount : ℕ
  ops : Option BlockDriverOps

/-- The devices and the answers of their drivers. -/
structure Drivers where
  /-- The device at each address. -/
  device : ℕ → BlockDevice
  /-- The code that the driver call with this number returns, counting all driver calls. -/
  answer : ℕ → ℤ

namespace Drivers

variable (d : Drivers)

/-- `dev->ops && dev->ops->read` -/
def hasRead (dev : ℕ) : Bool := ((d.device dev).ops.map BlockDriverOps.read).getD false

/-- `dev->ops && dev->ops->write` -/
def hasWrite (dev : ℕ) : Bool := ((d.device dev).ops.map BlockDriverOps.write).getD false

/-- `dev->ops && dev->ops->flush` -/
def hasFlush (dev : ℕ) : Bool := ((d.device dev).ops.map BlockDriverOps.flush).getD false

end Drivers

structure BufferCacheEntry where
  devId : ℕ
  lba : ℕ
  valid : Bool
  dirty : Bool
  data : Block

/-- An entry of zero bytes. -/
def BufferCacheEntry.zero : BufferCacheEntry := ⟨0, 0, false, false, Buf.zero 512⟩

/-- The variables of `block.c`, with the blocks behind the drivers. -/
structure State where
  /-- `block_device_table` -/
  blockDeviceTable : ℕ → Option ℕ
  /-- `num_registered_devices` -/
  numRegisteredDevices : ℕ
  /-- The field `dev_id` of the device at each address. -/
  devId : ℕ → ℕ
  /-- `buffer_cache` -/
  bufferCache : ℕ → BufferCacheEntry
  /-- The blocks that the driver of the device at each address stores. -/
  storage : ℕ → ℕ → Block
  /-- The number of driver calls made. -/
  driverCalls : ℕ

namespace State

def setEntry (s : State) (i : ℕ) (e : BufferCacheEntry) : State :=
  { s with bufferCache := Function.update s.bufferCache i e }

def clearDirty (s : State) (i : ℕ) : State :=
  s.setEntry i { s.bufferCache i with dirty := false }

end State

/-! ## Driver calls -/

/-- `dev->ops->read(lba, buf)` -/
def driverRead (d : Drivers) (dev lba : ℕ) (s : State) : ℤ × Block × State :=
  (d.answer s.driverCalls, s.storage dev lba, { s with driverCalls := s.driverCalls + 1 })

/-- `dev->ops->write(lba, buf)`: a write that fails leaves the block as it is. -/
def driverWrite (d : Drivers) (dev lba : ℕ) (data : Block) (s : State) : ℤ × State :=
  let err := d.answer s.driverCalls
  let storage :=
    if err = blkOk then
      Function.update s.storage dev (Function.update (s.storage dev) lba data)
    else s.storage
  (err, { s with storage := storage, driverCalls := s.driverCalls + 1 })

/-- `dev->ops->flush()` -/
def driverFlush (d : Drivers) (s : State) : ℤ × State :=
  (d.answer s.driverCalls, { s with driverCalls := s.driverCalls + 1 })

/-! ## Device registry -/

def blkRegisterDevice (d : Drivers) (dev : Option ℕ) (s : State) : Except Fail Unit × State :=
  match dev with
  | none => (.error (.code blkErrInvalidDev), s)
  | some dev =>
    if (d.device dev).ops.isNone then (.error (.code blkErrInvalidDev), s)
    else if s.numRegisteredDevices ≥ maxBlockDevices then (.error (.code blkErrInvalidDev), s)
    else (.ok (), { s with
      devId := Function.update s.devId dev s.numRegisteredDevices
      blockDeviceTable := Function.update s.blockDeviceTable s.numRegisteredDevices (some dev)
      numRegisteredDevices := s.numRegisteredDevices + 1 })

def blkGetDevice (s : State) (devId : ℕ) : Option ℕ :=
  if devId ≥ maxBlockDevices then none else s.blockDeviceTable devId

/-! ## Buffer cache -/

def blkCacheInit (s : State) : State := { s with bufferCache := fun _ ↦ .zero }

/-- The entry is the valid one of block `lba` of device `devId`. -/
def BufferCacheEntry.holds (e : BufferCacheEntry) (devId lba : ℕ) : Bool :=
  e.valid && e.devId == devId && e.lba == lba

/-- `blk_cache_lookup`: the index of the entry. -/
def blkCacheLookup (s : State) (devId lba : ℕ) : Option ℕ :=
  (List.range bufferCacheEntries).find? fun i ↦ (s.bufferCache i).holds devId lba

/-- `blk_cache_find_empty`: the index of the entry. -/
def blkCacheFindEmpty (s : State) : Option ℕ :=
  (List.range bufferCacheEntries).find? fun i ↦ !(s.bufferCache i).valid

/-- One round of the loop of `blk_cache_flush_all`, with the result so far. -/
def flushAllEntry (d : Drivers) (r : ℤ × State) (i : ℕ) : ℤ × State :=
  let e := r.2.bufferCache i
  if e.valid && e.dirty then
    match blkGetDevice r.2 e.devId with
    | none => (blkErrDriverFail, r.2)
    | some dev =>
      if !d.hasWrite dev then (blkErrDriverFail, r.2)
      else
        let (err, s) := driverWrite d dev e.lba e.data r.2
        if err ≠ blkOk then (blkErrDriverFail, s) else (r.1, s.clearDirty i)
  else r

def blkCacheFlushAll (d : Drivers) (s : State) : ℤ × State :=
  (List.range bufferCacheEntries).foldl (flushAllEntry d) (blkOk, s)

/-! ## Block input and output -/

/-- `blk_read`. The flag says whether `buf` is not `NULL`; the block is what `buf` receives. -/
def blkRead (d : Drivers) (devId lba : ℕ) (buf : Bool) (s : State) : Except Fail Block × State :=
  if !buf then (.error (.code blkErrInvalidLba), s)
  else match blkGetDevice s devId with
  | none => (.error (.code blkErrInvalidDev), s)
  | some dev =>
    if lba ≥ (d.device dev).blockCount then (.error (.code blkErrInvalidLba), s)
    else match blkCacheLookup s devId lba with
    | some i => (.ok (s.bufferCache i).data, s)
    | none =>
      if !d.hasRead dev then (.error (.code blkErrDriverFail), s)
      else
        let (err, data, s) := driverRead d dev lba s
        if err ≠ blkOk then (.error (.code err), s)
        else match blkCacheFindEmpty s with
        | some i => (.ok data, s.setEntry i ⟨devId, lba, true, false, data⟩)
        | none => (.ok data, s)

/-- `blk_write`; `buf` is `none` for `NULL`. -/
def blkWrite (d : Drivers) (devId lba : ℕ) (buf : Option Block) (s : State) :
    Except Fail Unit × State :=
  match buf with
  | none => (.error (.code blkErrInvalidLba), s)
  | some data =>
    match blkGetDevice s devId with
    | none => (.error (.code blkErrInvalidDev), s)
    | some dev =>
      if lba ≥ (d.device dev).blockCount then (.error (.code blkErrInvalidLba), s)
      else match (blkCacheLookup s devId lba).or (blkCacheFindEmpty s) with
      | some i => (.ok (), s.setEntry i ⟨devId, lba, true, true, data⟩)
      | none => (.ok (), s)

/-- The loop of `blk_flush` over the entries listed, with its early return. `blk_flush` does not
check that the driver has a `write`. -/
def flushEntries (d : Drivers) (dev devId : ℕ) : List ℕ → State → Except Fail Unit × State
  | [], s => (.ok (), s)
  | i :: is, s =>
    let e := s.bufferCache i
    if e.valid && e.devId == devId && e.dirty then
      if !d.hasWrite dev then (.error .nullCall, s)
      else
        let (err, s) := driverWrite d dev e.lba e.data s
        if err ≠ blkOk then (.error (.code blkErrDriverFail), s)
        else flushEntries d dev devId is (s.clearDirty i)
    else flushEntries d dev devId is s

def blkFlush (d : Drivers) (devId : ℕ) (s : State) : Except Fail Unit × State :=
  match blkGetDevice s devId with
  | none => (.error (.code blkErrInvalidDev), s)
  | some dev =>
    if !d.hasFlush dev then (.error (.code blkErrDriverFail), s)
    else match flushEntries d dev devId (List.range bufferCacheEntries) s with
    | (.error e, s) => (.error e, s)
    | (.ok (), s) =>
      let (err, s) := driverFlush d s
      (if err = blkOk then .ok () else .error (.code err), s)

/-- `blk_init`. The device table keeps its pointers. -/
def blkInit (s : State) : State := { blkCacheInit s with numRegisteredDevices := 0 }

/-! ## The layer as a machine -/

/-- A call of the layer's interface after `blk_init`. -/
inductive Call
  | registerDevice (dev : Option ℕ)
  | read (devId lba : ℕ) (buf : Bool)
  | write (devId lba : ℕ) (buf : Option Block)
  | flush (devId : ℕ)
  | cacheFlushAll

inductive Ret
  | status (r : Except Fail Unit)
  | block (r : Except Fail Block)
  | result (c : ℤ)

def step (d : Drivers) : Call → State → Ret × State
  | .registerDevice dev, s => (.status (blkRegisterDevice d dev s).1, (blkRegisterDevice d dev s).2)
  | .read devId lba buf, s => (.block (blkRead d devId lba buf s).1, (blkRead d devId lba buf s).2)
  | .write devId lba buf, s =>
    (.status (blkWrite d devId lba buf s).1, (blkWrite d devId lba buf s).2)
  | .flush devId, s => (.status (blkFlush d devId s).1, (blkFlush d devId s).2)
  | .cacheFlushAll, s => (.result (blkCacheFlushAll d s).1, (blkCacheFlushAll d s).2)

end Blk

end Mcsos
