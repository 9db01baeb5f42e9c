import Mathlib.Data.Finset.Card
import Mcsos.Block.Transparency

/-!
# The RAM disk

`ramblk.c` is the driver that the block layer is used with: 4096 blocks in a static array, which
`ramblk_init` registers as the only device. Driver and cache together are a disk with a buffer of 32
blocks (`BufferedDisk`). A block that is read or written takes a place in the buffer and keeps it
until the next `ramblk_init`, which drops the buffer with everything that was not flushed. A flush
brings the array up to date. Once the buffer is full, other blocks are read from the array, and
writes to them go nowhere.

The checks of the driver never fail here: the layer compares a block number with `block_count` when
the block is asked for, so every number that reaches the driver, at once or with a later flush, is
one of the array (`driverRead_ramblk`, `driverWrite_ramblk`). `ramblk_reset` clears the array behind
the cache; it is there for tests.
-/

namespace Mcsos

namespace Blk

/-! ## The driver -/

def ramblkDeviceSizeBlocks : ℕ := 4096

def ramblkMagic : UInt32 := 0xDEADBEEF

structure RamblkDevice where
  magic : UInt32
  storage : ℕ → Block

/-- `ramblk_read`; the flag says whether `buf` is not `NULL`. -/
def ramblkRead (lba : ℕ) (buf : Bool) (r : RamblkDevice) : Except ℤ Block :=
  if !buf then .error blkErrInvalidLba
  else if lba ≥ ramblkDeviceSizeBlocks then .error blkErrInvalidLba
  else if r.magic ≠ ramblkMagic then .error blkErrDriverFail
  else .ok (r.storage lba)

/-- `ramblk_write`; `buf` is `none` for `NULL`. -/
def ramblkWrite (lba : ℕ) (buf : Option Block) (r : RamblkDevice) : ℤ × RamblkDevice :=
  match buf with
  | none => (blkErrInvalidLba, r)
  | some data =>
    if lba ≥ ramblkDeviceSizeBlocks then (blkErrInvalidLba, r)
    else if r.magic ≠ ramblkMagic then (blkErrDriverFail, r)
    else (blkOk, { r with storage := Function.update r.storage lba data })

def ramblkFlush : ℤ := blkOk

/-- `ramblk_block_device` with `ramblk_ops`. A call that the layer makes is answered with
`BLK_OK`. -/
def ramDrivers : Drivers where
  device _ := ⟨ramblkDeviceSizeBlocks, some ⟨true, true, true⟩⟩
  answer _ := blkOk

/-- `ramblk_dev` in a state of the layer. -/
def State.ramblk (s : State) (ram : ℕ) : RamblkDevice := ⟨ramblkMagic, s.storage ram⟩

variable {ram lba id : ℕ} {s t u : State}

theorem driverRead_ramblk (hlba : lba < ramblkDeviceSizeBlocks) (s : State) :
    ramblkRead lba true (s.ramblk ram) = .ok (driverRead ramDrivers ram lba s).2.1 := by
  rw [ramblkRead, Bool.not_true, if_neg Bool.false_ne_true, if_neg (not_le.mpr hlba)]
  exact if_neg (not_not.mpr rfl)

theorem driverFlush_ramblk (s : State) : (driverFlush ramDrivers s).1 = ramblkFlush := rfl

theorem driverWrite_ramblk (hlba : lba < ramblkDeviceSizeBlocks) (data : Block) (s : State) :
    ramblkWrite lba (some data) (s.ramblk ram) = ((driverWrite ramDrivers ram lba data s).1,
      (driverWrite ramDrivers ram lba data s).2.ramblk ram) := by
  have hstorage : (driverWrite ramDrivers ram lba data s).2.storage ram =
      Function.update (s.storage ram) lba data := Function.update_self ..
  rw [ramblkWrite, State.ramblk, State.ramblk, hstorage]
  dsimp only
  rw [if_neg (not_le.mpr hlba), if_neg (not_not.mpr rfl)]
  rfl

/-! ## A disk with a buffer -/

/-- The calls of a client, `ramblk_init` included. -/
inductive DiskCall
  | init
  | read (devId lba : ℕ) (buf : Bool)
  | write (devId lba : ℕ) (buf : Option Block)
  | flush (devId : ℕ)
  | cacheFlushAll

/-- The effect of a call on the layer, with the device at the address `ram`. -/
def DiskCall.run (ram : ℕ) : DiskCall → State → Ret × State
  | .init => ramblkInit ramDrivers ram
  | .read devId lba buf => step ramDrivers (.read devId lba buf)
  | .write devId lba buf => step ramDrivers (.write devId lba buf)
  | .flush devId => step ramDrivers (.flush devId)
  | .cacheFlushAll => step ramDrivers .cacheFlushAll

/-- A disk with a buffer for some of its blocks. -/
structure BufferedDisk where
  stored : ℕ → Block
  buffer : Finset ℕ
  /-- What the buffer has of a block that is in it. -/
  data : ℕ → Block

namespace BufferedDisk

/-- What a reader gets. -/
def newest (w : BufferedDisk) (lba : ℕ) : Block :=
  if lba ∈ w.buffer then w.data lba else w.stored lba

/-- The block is in the buffer, or there is room for it. -/
def HasPlace (w : BufferedDisk) (lba : ℕ) : Prop :=
  lba ∈ w.buffer ∨ w.buffer.card < bufferCacheEntries

instance (w : BufferedDisk) (lba : ℕ) : Decidable (w.HasPlace lba) :=
  inferInstanceAs (Decidable (_ ∨ _))

/-- The data of a block goes to the buffer, or nowhere. -/
def put (w : BufferedDisk) (lba : ℕ) (b : Block) : BufferedDisk :=
  if w.HasPlace lba then
    { w with buffer := insert lba w.buffer, data := Function.update w.data lba b }
  else w

/-- What is in the buffer is stored. -/
def sync (w : BufferedDisk) : BufferedDisk := { w with stored := w.newest }

/-- The code with which a call for a block is refused. -/
def refusal (devId lba : ℕ) : Option ℤ :=
  if devId ≠ 0 then some blkErrInvalidDev
  else if lba ≥ ramblkDeviceSizeBlocks then some blkErrInvalidLba
  else none

def step : DiskCall → BufferedDisk → Ret × BufferedDisk
  | .init, w => (.status (.ok ()), { w with buffer := ∅ })
  | .read _ _ false, w => (.block (.error (.code blkErrInvalidLba)), w)
  | .read devId lba true, w =>
    match refusal devId lba with
    | some c => (.block (.error (.code c)), w)
    | none => (.block (.ok (w.newest lba)), w.put lba (w.newest lba))
  | .write _ _ none, w => (.status (.error (.code blkErrInvalidLba)), w)
  | .write devId lba (some b), w =>
    match refusal devId lba with
    | some c => (.status (.error (.code c)), w)
    | none => (.status (.ok ()), w.put lba b)
  | .flush devId, w =>
    if devId = 0 then (.status (.ok ()), w.sync)
    else (.status (.error (.code blkErrInvalidDev)), w)
  | .cacheFlushAll, w => (.result blkOk, w.sync)

variable {w : BufferedDisk} {b : Block}

theorem refusal_eq_some {c : ℤ} (h : refusal id lba = some c) :
    id ≠ 0 ∧ c = blkErrInvalidDev ∨
      id = 0 ∧ ramblkDeviceSizeBlocks ≤ lba ∧ c = blkErrInvalidLba := by
  rw [refusal] at h
  split_ifs at h with hid hlba
  · exact .inl ⟨hid, (Option.some_inj.mp h).symm⟩
  · exact .inr ⟨not_not.mp hid, hlba, (Option.some_inj.mp h).symm⟩

theorem refusal_eq_none (h : refusal id lba = none) : id = 0 ∧ lba < ramblkDeviceSizeBlocks := by
  rw [refusal] at h
  split_ifs at h with hid hlba
  exact ⟨not_not.mp hid, not_le.mp hlba⟩

theorem put_of_hasPlace (h : w.HasPlace lba) (b : Block) : w.put lba b =
    { w with buffer := insert lba w.buffer, data := Function.update w.data lba b } := if_pos h

theorem put_of_not (h : ¬w.HasPlace lba) (b : Block) : w.put lba b = w := if_neg h

theorem put_newest_of_mem (h : lba ∈ w.buffer) : w.put lba (w.newest lba) = w := by
  rw [put_of_hasPlace (.inl h), newest, if_pos h, Finset.insert_eq_of_mem h,
    Function.update_eq_self]

theorem newest_put_of_hasPlace (h : w.HasPlace lba) (b : Block) (x : ℕ) :
    (w.put lba b).newest x = if x = lba then b else w.newest x := by
  rw [put_of_hasPlace h, newest, newest]
  dsimp only
  by_cases hx : x = lba
  · rw [if_pos hx, hx, if_pos (Finset.mem_insert_self lba w.buffer), Function.update_self]
  · rw [if_neg hx, Function.update_of_ne hx]
    simp only [Finset.mem_insert, hx, false_or]

theorem newest_sync (w : BufferedDisk) (x : ℕ) : w.sync.newest x = w.newest x := by
  rw [newest, sync]
  dsimp only
  rw [newest]
  split_ifs <;> rfl

end BufferedDisk

/-! ## Places in the cache -/

/-- The entries hold the same blocks. -/
def SameBlocks (s t : State) : Prop :=
  ∀ i id lba, (t.bufferCache i).holds id lba = (s.bufferCache i).holds id lba

namespace SameBlocks

protected theorem refl (s : State) : SameBlocks s s := fun _ _ _ ↦ rfl

protected theorem trans (h : SameBlocks s t) (h' : SameBlocks t u) : SameBlocks s u :=
  fun i id lba ↦ (h' i id lba).trans (h i id lba)

end SameBlocks

section Flush

variable {d : Drivers} {dev : ℕ}

theorem sameBlocks_flushEntries (d : Drivers) (dev id : ℕ) (is : List ℕ) (s : State) :
    SameBlocks s (flushEntries d dev id is s).2 := by
  induction is generalizing s with
  | nil => exact .refl s
  | cons i is ih =>
    rw [flushEntries_cons]
    split_ifs
    · exact .refl s
    · have hentry : SameBlocks s (s.writeBack dev i) := holds_writeBack s dev i
      exact hentry.trans (ih _)
    · exact .refl s
    · exact ih s

theorem sameBlocks_blkFlush (d : Drivers) (id : ℕ) (s : State) :
    SameBlocks s (blkFlush d id s).2 := by
  unfold blkFlush
  split
  · exact .refl s
  next dev hdev =>
  split
  · exact .refl s
  have h := sameBlocks_flushEntries d dev id (List.range bufferCacheEntries) s
  split
  · next heq => rwa [heq] at h
  · next heq =>
    rw [heq] at h
    exact h

/-- A round of `blk_cache_flush_all` for an entry whose device is registered does not fail if the
driver does not. -/
theorem flushAllEntry_of_registered {r : ℤ × State} {i : ℕ} (hwrite : ∀ dev, d.hasWrite dev = true)
    (hok : ∀ n, d.answer n = blkOk) (hs : Inv d r.2) (hi : i < bufferCacheEntries)
    (hget : ∀ id < r.2.numRegisteredDevices, (blkGetDevice r.2 id).isSome) :
    (flushAllEntry d r i).1 = r.1 ∧ SameBlocks r.2 (flushAllEntry d r i).2 := by
  rw [flushAllEntry_eq]
  split
  · next hdirty =>
    rw [Bool.and_eq_true] at hdirty
    obtain ⟨dev, hdev⟩ := Option.isSome_iff_exists.mp (hget _ (hs.registered i hi hdirty.1))
    rw [hdev]
    dsimp only
    rw [hwrite, Bool.not_true, if_neg Bool.false_ne_true, if_pos (hok _)]
    exact ⟨rfl, holds_writeBack r.2 dev i⟩
  · exact ⟨rfl, .refl _⟩

theorem foldl_flushAllEntry_of_registered {r : ℤ × State} {is : List ℕ}
    (hwrite : ∀ dev, d.hasWrite dev = true) (hok : ∀ n, d.answer n = blkOk) (hs : Inv d r.2)
    (his : ∀ i ∈ is, i < bufferCacheEntries)
    (hget : ∀ id < r.2.numRegisteredDevices, (blkGetDevice r.2 id).isSome) :
    (is.foldl (flushAllEntry d) r).1 = r.1 ∧
      SameBlocks r.2 (is.foldl (flushAllEntry d) r).2 := by
  induction is generalizing r with
  | nil => exact ⟨rfl, .refl _⟩
  | cons i is ih =>
    have hi := his i List.mem_cons_self
    obtain ⟨hcode, hblocks⟩ := flushAllEntry_of_registered hwrite hok hs hi hget
    have hround := transparent_flushAllEntry hs hi
    have hget' : ∀ id < (flushAllEntry d r i).2.numRegisteredDevices,
        (blkGetDevice (flushAllEntry d r i).2 id).isSome := by
      intro id hid
      rw [hround.num_eq] at hid
      rw [blkGetDevice, hround.table_eq]
      exact hget id hid
    obtain ⟨hcode', hblocks'⟩ :=
      ih hround.inv (fun j hj ↦ his j (List.mem_cons_of_mem i hj)) hget'
    exact ⟨hcode'.trans hcode, hblocks.trans hblocks'⟩

end Flush

/-! ## The layer and the disk -/

/-- The layer has the RAM disk as device 0 and no other, and is in the state `w` of the disk. -/
structure Realizes (ram : ℕ) (w : BufferedDisk) (s : State) : Prop where
  inv : Inv ramDrivers s
  num_eq : s.numRegisteredDevices = 1
  table_eq : ∀ id, s.blockDeviceTable id = if id = 0 then some ram else none
  stored_eq : s.storage ram = w.stored
  newest_eq : ∀ lba, view s ram 0 lba = w.newest lba
  mem_buffer : ∀ lba, lba ∈ w.buffer ↔
    ∃ i < bufferCacheEntries, (s.bufferCache i).holds 0 lba = true

/-- `ramblk_init` drops the buffer, whatever the device was used for before. -/
theorem realizes_init (ram : ℕ) (htable : ∀ id, id ≠ 0 → s.blockDeviceTable id = none)
    (data : ℕ → Block) : (ramblkInit ramDrivers ram s).1 = .status (.ok ()) ∧
      Realizes ram ⟨s.storage ram, ∅, data⟩ (ramblkInit ramDrivers ram s).2 := by
  have heq : ramblkInit ramDrivers ram s = (.status (.ok ()), (blkInit s).register ram) := rfl
  have hnum : (blkInit s).numRegisteredDevices < maxBlockDevices :=
    show 0 < maxBlockDevices by decide
  have hnone : ¬Registered (blkInit s) ram := by
    rintro ⟨id, hid, -⟩
    exact absurd hid (Nat.not_lt_zero id)
  have hinvalid : ∀ i id lba, (((blkInit s).register ram).bufferCache i).holds id lba = false :=
    fun _ _ _ ↦ rfl
  rw [heq]
  refine ⟨rfl, (inv_blkInit ramDrivers s).register hnum hnone, rfl, fun id ↦ ?_, rfl,
    fun lba ↦ ?_, fun lba ↦ ?_⟩
  · by_cases hid : id = 0
    · rw [if_pos hid, hid]
      exact blockDeviceTable_register_self
    · rw [if_neg hid, ← htable id hid]
      exact Function.update_of_ne hid ..
  · rw [view_of_notCached fun i _ ↦ hinvalid i 0 lba, BufferedDisk.newest,
      if_neg (Finset.notMem_empty lba)]
    rfl
  · refine iff_of_false (Finset.notMem_empty lba) ?_
    rintro ⟨i, -, hholds⟩
    rw [hinvalid] at hholds
    cases hholds

namespace Realizes

variable {w : BufferedDisk} (h : Realizes ram w s)
include h

theorem get_zero : blkGetDevice s 0 = some ram := by
  rw [blkGetDevice, if_neg (by decide), h.table_eq, if_pos rfl]

theorem get_of_ne (hid : id ≠ 0) : blkGetDevice s id = none := by
  rw [blkGetDevice, h.table_eq, if_neg hid, ite_self]

theorem table_zero : s.blockDeviceTable 0 = some ram := by rw [h.table_eq, if_pos rfl]

theorem zero_lt : 0 < s.numRegisteredDevices := by rw [h.num_eq]; exact Nat.one_pos

theorem holds_zero {i : ℕ} (hi : i < bufferCacheEntries)
    (hvalid : (s.bufferCache i).valid = true) (hlba : (s.bufferCache i).lba = lba) :
    (s.bufferCache i).holds 0 lba = true := by
  have hid := h.inv.registered i hi hvalid
  rw [h.num_eq, Nat.lt_one_iff] at hid
  exact BufferCacheEntry.holds_iff.mpr ⟨hvalid, hid, hlba⟩

/-- The block numbers that a flush hands to the driver are those of the array. -/
theorem lba_lt {i : ℕ} (hi : i < bufferCacheEntries) (hvalid : (s.bufferCache i).valid = true) :
    (s.bufferCache i).lba < ramblkDeviceSizeBlocks :=
  h.inv.inRange i hi ram 0 _ (h.holds_zero hi hvalid rfl) h.table_zero

theorem buffer_eq : w.buffer = ((Finset.range bufferCacheEntries).filter fun i ↦
    (s.bufferCache i).valid = true).image fun i ↦ (s.bufferCache i).lba := by
  ext lba
  rw [h.mem_buffer]
  simp only [Finset.mem_image, Finset.mem_filter, Finset.mem_range]
  constructor
  · rintro ⟨i, hi, hholds⟩
    obtain ⟨hvalid, -, hlba⟩ := BufferCacheEntry.holds_iff.mp hholds
    exact ⟨i, ⟨hi, hvalid⟩, hlba⟩
  · rintro ⟨i, ⟨hi, hvalid⟩, hlba⟩
    exact ⟨i, hi, h.holds_zero hi hvalid hlba⟩

/-- No block has two entries, so there are as many blocks in the buffer as valid entries. -/
theorem card_buffer : w.buffer.card =
    ((Finset.range bufferCacheEntries).filter fun i ↦ (s.bufferCache i).valid = true).card := by
  rw [h.buffer_eq]
  refine Finset.card_image_of_injOn fun i hi j hj heq ↦ ?_
  obtain ⟨hi, hvi⟩ := Finset.mem_filter.mp hi
  obtain ⟨hj, hvj⟩ := Finset.mem_filter.mp hj
  rw [Finset.mem_range] at hi hj
  exact h.inv.unique i hi j hj 0 (s.bufferCache j).lba (h.holds_zero hi hvi heq)
    (h.holds_zero hj hvj rfl)

theorem card_buffer_lt_iff :
    w.buffer.card < bufferCacheEntries ↔ (blkCacheFindEmpty s).isSome := by
  rw [h.card_buffer]
  constructor
  · intro hlt
    by_contra hnone
    rw [Option.not_isSome_iff_eq_none, blkCacheFindEmpty, List.find?_range_eq_none] at hnone
    rw [Finset.filter_true_of_mem, Finset.card_range] at hlt
    · exact absurd hlt (lt_irrefl _)
    · intro i hi
      simpa using hnone i (Finset.mem_range.mp hi)
  · intro hsome
    obtain ⟨i, hempty⟩ := Option.isSome_iff_exists.mp hsome
    obtain ⟨hi, hinvalid⟩ := blkCacheFindEmpty_eq_some hempty
    have hsub : (Finset.range bufferCacheEntries).filter
        (fun i ↦ (s.bufferCache i).valid = true) ⊂ Finset.range bufferCacheEntries := by
      refine Finset.filter_ssubset.mpr ⟨i, Finset.mem_range.mpr hi, ?_⟩
      rw [hinvalid]
      exact Bool.false_ne_true
    exact (Finset.card_lt_card hsub).trans_eq (Finset.card_range _)

theorem mem_buffer_iff : lba ∈ w.buffer ↔ (blkCacheLookup s 0 lba).isSome := by
  rw [h.mem_buffer]
  constructor
  · rintro ⟨i, hi, hholds⟩
    by_contra hnone
    rw [Option.not_isSome_iff_eq_none, blkCacheLookup_eq_none] at hnone
    rw [hnone i hi] at hholds
    cases hholds
  · intro hsome
    obtain ⟨i, hlookup⟩ := Option.isSome_iff_exists.mp hsome
    exact ⟨i, blkCacheLookup_eq_some hlookup⟩

theorem hasPlace_iff :
    w.HasPlace lba ↔ ((blkCacheLookup s 0 lba).or (blkCacheFindEmpty s)).isSome := by
  rw [BufferedDisk.HasPlace, h.mem_buffer_iff, h.card_buffer_lt_iff, Option.isSome_or,
    Bool.or_eq_true]

/-! ### Calls -/

theorem called : Realizes ram w s.called :=
  ⟨(Transparent.driverCalls h.inv _).inv, h.num_eq, h.table_eq, h.stored_eq, h.newest_eq,
    h.mem_buffer⟩

theorem put {i : ℕ} {dirty : Bool} {b : Block} (hlba : lba < ramblkDeviceSizeBlocks)
    (hi : (blkCacheLookup s 0 lba).or (blkCacheFindEmpty s) = some i)
    (hclean : dirty = false → s.storage ram lba = b) :
    Realizes ram (w.put lba b) (s.setEntry i ⟨0, lba, true, dirty, b⟩) := by
  have hplace : w.HasPlace lba := h.hasPlace_iff.mpr (by rw [hi]; rfl)
  have hslot := h.inv.slot hi
  have hinv : Inv ramDrivers (s.setEntry i ⟨0, lba, true, dirty, b⟩) :=
    h.inv.setEntry hslot h.zero_lt h.table_zero hlba hclean
  refine ⟨hinv, h.num_eq, h.table_eq, ?_, fun x ↦ ?_, fun x ↦ ?_⟩
  · rw [BufferedDisk.put_of_hasPlace hplace]
    exact h.stored_eq
  · rw [h.inv.view_setEntry hslot hinv, BufferedDisk.newest_put_of_hasPlace hplace, h.newest_eq]
    simp only [true_and]
  · rw [BufferedDisk.put_of_hasPlace hplace, Finset.mem_insert, h.mem_buffer]
    constructor
    · rintro (rfl | ⟨j, hj, hholds⟩)
      · refine ⟨i, hslot.lt, ?_⟩
        rw [State.bufferCache_setEntry, if_pos rfl, BufferCacheEntry.holds_iff]
        exact ⟨rfl, rfl, rfl⟩
      · -- an entry that is taken while it is valid has held this block before
        by_cases hji : j = i
        · refine ⟨i, hslot.lt, ?_⟩
          rw [hji] at hholds
          have hown := BufferCacheEntry.holds_iff.mp
            (hslot.own (BufferCacheEntry.holds_iff.mp hholds).1)
          rw [State.bufferCache_setEntry, if_pos rfl, BufferCacheEntry.holds_iff]
          exact ⟨rfl, rfl, hown.2.2.symm.trans (BufferCacheEntry.holds_iff.mp hholds).2.2⟩
        · refine ⟨j, hj, ?_⟩
          rwa [State.bufferCache_setEntry, if_neg hji]
    · rintro ⟨j, hj, hholds⟩
      obtain ⟨-, -, hx⟩ | ⟨-, hholds⟩ := holds_setEntry hholds
      · exact .inl hx
      · exact .inr ⟨j, hj, hholds⟩

theorem sync (ht : Transparent ramDrivers s t) (hblocks : SameBlocks s t)
    (hstored : ∀ lba, t.storage ram lba = view t ram 0 lba) : Realizes ram w.sync t := by
  have hview : ∀ lba, view t ram 0 lba = w.newest lba := fun lba ↦
    (ht.view_eq ram 0 lba h.zero_lt h.table_zero).trans (h.newest_eq lba)
  refine ⟨ht.inv, ht.num_eq.trans h.num_eq, fun id ↦ ?_, funext fun lba ↦ ?_, fun lba ↦ ?_,
    fun lba ↦ ?_⟩
  · rw [ht.table_eq, h.table_eq]
  · rw [hstored, hview]
    rfl
  · rw [hview, BufferedDisk.newest_sync]
  · simp only [hblocks _ 0 lba]
    exact h.mem_buffer lba

theorem read_refused {c : ℤ} (hc : BufferedDisk.refusal id lba = some c) :
    blkRead ramDrivers id lba true s = (.error (.code c), s) := by
  rcases BufferedDisk.refusal_eq_some hc with ⟨hid, rfl⟩ | ⟨rfl, hlba, rfl⟩
  · rw [blkRead, h.get_of_ne hid]
    rfl
  · rw [blkRead, h.get_zero]
    exact if_pos hlba

theorem write_refused {c : ℤ} {b : Block} (hc : BufferedDisk.refusal id lba = some c) :
    blkWrite ramDrivers id lba (some b) s = (.error (.code c), s) := by
  rcases BufferedDisk.refusal_eq_some hc with ⟨hid, rfl⟩ | ⟨rfl, hlba, rfl⟩
  · rw [blkWrite, h.get_of_ne hid]
  · rw [blkWrite, h.get_zero]
    exact if_pos hlba

theorem read (hlba : lba < ramblkDeviceSizeBlocks) :
    (blkRead ramDrivers 0 lba true s).1 = .ok (w.newest lba) ∧
      Realizes ram (w.put lba (w.newest lba)) (blkRead ramDrivers 0 lba true s).2 := by
  refine ⟨(returned_blkRead h.get_zero hlba rfl rfl).trans (by rw [h.newest_eq]), ?_⟩
  cases hlookup : blkCacheLookup s 0 lba with
  | some i =>
    have hmem : lba ∈ w.buffer := h.mem_buffer_iff.mpr (by rw [hlookup]; rfl)
    have hstate : (blkRead ramDrivers 0 lba true s).2 = s := by
      simp only [blkRead, h.get_zero, hlookup, Bool.not_true, Bool.false_eq_true, if_false]
      split_ifs <;> rfl
    rw [hstate, BufferedDisk.put_newest_of_mem hmem]
    exact h
  | none =>
    have hmiss : s.storage ram lba = w.newest lba := by
      rw [← h.newest_eq, view, hlookup]
    rw [blkRead_miss h.get_zero hlba hlookup rfl rfl]
    cases hempty : blkCacheFindEmpty s with
    | some i =>
      have hi : (blkCacheLookup s.called 0 lba).or (blkCacheFindEmpty s.called) = some i := by
        change (blkCacheLookup s 0 lba).or (blkCacheFindEmpty s) = some i
        rw [hlookup, hempty]
        rfl
      rw [← hmiss]
      exact h.called.put hlba hi fun _ ↦ rfl
    | none =>
      have hplace : ¬w.HasPlace lba := by
        rw [h.hasPlace_iff, hlookup, hempty]
        exact Bool.false_ne_true
      rw [BufferedDisk.put_of_not hplace]
      exact h.called

theorem write (hlba : lba < ramblkDeviceSizeBlocks) (b : Block) :
    (blkWrite ramDrivers 0 lba (some b) s).1 = .ok () ∧
      Realizes ram (w.put lba b) (blkWrite ramDrivers 0 lba (some b) s).2 := by
  cases hi : (blkCacheLookup s 0 lba).or (blkCacheFindEmpty s) with
  | some i =>
    rw [blkWrite_slot h.get_zero hlba hi]
    exact ⟨rfl, h.put hlba hi fun hdirty ↦ absurd hdirty.symm Bool.false_ne_true⟩
  | none =>
    have hplace : ¬w.HasPlace lba := by
      rw [h.hasPlace_iff, hi]
      exact Bool.false_ne_true
    obtain ⟨hmiss, hfull⟩ := Option.or_eq_none_iff.mp hi
    have hlost : blkWrite ramDrivers 0 lba (some b) s = (.ok (), s) :=
      blkWrite_full h.get_zero hlba hmiss hfull
    rw [hlost, BufferedDisk.put_of_not hplace]
    exact ⟨rfl, h⟩

theorem flush : (blkFlush ramDrivers 0 s).1 = .ok () ∧
    Realizes ram w.sync (blkFlush ramDrivers 0 s).2 := by
  have hok : (blkFlush ramDrivers 0 s).1 = .ok () :=
    returned_blkFlush h.get_zero rfl rfl fun _ ↦ rfl
  have htransparent : Transparent ramDrivers s (blkFlush ramDrivers 0 s).2 :=
    transparent_blkFlush h.inv
  refine ⟨hok, h.sync htransparent (sameBlocks_blkFlush ramDrivers 0 s) fun lba ↦ ?_⟩
  rw [storage_blkFlush h.inv h.get_zero h.zero_lt hok lba,
    htransparent.view_eq ram 0 lba h.zero_lt h.table_zero]

theorem cacheFlushAll : (blkCacheFlushAll ramDrivers s).1 = blkOk ∧
    Realizes ram w.sync (blkCacheFlushAll ramDrivers s).2 := by
  have hget : ∀ id < s.numRegisteredDevices, (blkGetDevice s id).isSome := by
    intro id hid
    rw [h.num_eq, Nat.lt_one_iff] at hid
    rw [hid, h.get_zero]
    rfl
  obtain ⟨hok, hblocks⟩ : (blkCacheFlushAll ramDrivers s).1 = blkOk ∧
      SameBlocks s (blkCacheFlushAll ramDrivers s).2 :=
    foldl_flushAllEntry_of_registered (r := (blkOk, s)) (fun _ ↦ rfl) (fun _ ↦ rfl) h.inv
      (fun _ ↦ List.mem_range.mp) hget
  exact ⟨hok, h.sync (transparent_blkCacheFlushAll h.inv) hblocks
    (storage_blkCacheFlushAll h.inv hok h.table_zero)⟩

/-- Every call does to the layer what it does to the disk, and returns the same. -/
theorem step (c : DiskCall) : (BufferedDisk.step c w).1 = (c.run ram s).1 ∧
    Realizes ram (BufferedDisk.step c w).2 (c.run ram s).2 := by
  cases c with
  | init =>
    have htable : ∀ id, id ≠ 0 → s.blockDeviceTable id = none := by
      intro id hid
      rw [h.table_eq, if_neg hid]
    obtain ⟨hok, hinit⟩ := realizes_init ram htable w.data
    rw [h.stored_eq] at hinit
    exact ⟨hok.symm, hinit⟩
  | read devId lba buf =>
    cases buf with
    | false => exact ⟨rfl, h⟩
    | true =>
      rw [DiskCall.run, Blk.step, BufferedDisk.step]
      cases hc : BufferedDisk.refusal devId lba with
      | some c =>
        rw [h.read_refused hc]
        exact ⟨rfl, h⟩
      | none =>
        obtain ⟨rfl, hlba⟩ := BufferedDisk.refusal_eq_none hc
        rw [(h.read hlba).1]
        exact ⟨rfl, (h.read hlba).2⟩
  | write devId lba buf =>
    cases buf with
    | none => exact ⟨rfl, h⟩
    | some b =>
      rw [DiskCall.run, Blk.step, BufferedDisk.step]
      cases hc : BufferedDisk.refusal devId lba with
      | some c =>
        rw [h.write_refused hc]
        exact ⟨rfl, h⟩
      | none =>
        obtain ⟨rfl, hlba⟩ := BufferedDisk.refusal_eq_none hc
        rw [(h.write hlba b).1]
        exact ⟨rfl, (h.write hlba b).2⟩
  | flush devId =>
    rw [DiskCall.run, Blk.step, BufferedDisk.step]
    by_cases hid : devId = 0
    · subst hid
      rw [if_pos rfl, h.flush.1]
      exact ⟨rfl, h.flush.2⟩
    · have hrefused : blkFlush ramDrivers devId s = (.error (.code blkErrInvalidDev), s) := by
        rw [blkFlush, h.get_of_ne hid]
      rw [if_neg hid, hrefused]
      exact ⟨rfl, h⟩
  | cacheFlushAll =>
    have hall : DiskCall.cacheFlushAll.run ram s =
        (.result blkOk, (blkCacheFlushAll ramDrivers s).2) := by
      rw [DiskCall.run, Blk.step, h.cacheFlushAll.1]
    have hsync := h.cacheFlushAll.2
    rw [hall]
    generalize (blkCacheFlushAll ramDrivers s).2 = t at hsync
    exact ⟨rfl, hsync⟩

end Realizes

/-! ## Runs -/

variable {es es' : List (DiskCall × Ret)}

theorem realizes_of_run (hs : ∀ id, s.blockDeviceTable id = none)
    (hrun : Run (DiskCall.run ram) (fun _ _ ↦ True) (ramblkInit ramDrivers ram s).2 es t) :
    ∃ w, Run BufferedDisk.step (fun _ _ ↦ True) ⟨s.storage ram, ∅, s.storage ram⟩ es w ∧
      Realizes ram w t := by
  have hinit := (realizes_init ram (fun id _ ↦ hs id) (s.storage ram)).2
  exact hrun.simulates hinit fun _ _ c hc _ ↦ ⟨trivial, hc.step c⟩

/-- **The RAM disk is a disk with a buffer.** In every run of calls after the first `ramblk_init`,
later ones included, the layer over `ramblk.c` returns what the disk returns, and the driver reads
what the disk stores. Whatever a flush will then ask of the driver, the driver does. -/
theorem ramdisk_buffered (hs : ∀ id, s.blockDeviceTable id = none)
    (hrun : Run (DiskCall.run ram) (fun _ _ ↦ True) (ramblkInit ramDrivers ram s).2 es t) :
    ∃ w, Run BufferedDisk.step (fun _ _ ↦ True) ⟨s.storage ram, ∅, s.storage ram⟩ es w ∧
      (∀ lba < ramblkDeviceSizeBlocks,
        ramblkRead lba true (t.ramblk ram) = .ok (w.stored lba)) ∧
      (driverFlush ramDrivers t).1 = ramblkFlush ∧
      ∀ i < bufferCacheEntries, (t.bufferCache i).valid = true →
        ramblkWrite (t.bufferCache i).lba (some (t.bufferCache i).data) (t.ramblk ram) =
          (blkOk, (driverWrite ramDrivers ram (t.bufferCache i).lba (t.bufferCache i).data t
            ).2.ramblk ram) := by
  obtain ⟨w, hdisk, hw⟩ := realizes_of_run hs hrun
  refine ⟨w, hdisk, fun lba hlba ↦ ?_, driverFlush_ramblk t, fun i hi hvalid ↦ ?_⟩
  · rw [driverRead_ramblk hlba, ← hw.stored_eq]
    rfl
  · exact driverWrite_ramblk (hw.lba_lt hi hvalid) _ t

/-- A block is written and read again, with a `ramblk_init` before the second read. -/
theorem ramdisk_buffered_again : ∃ es t w,
    Run (DiskCall.run 7) (fun _ _ ↦ True) (ramblkInit ramDrivers 7 bootState).2 es t ∧
      es.length = 4 ∧
      Run BufferedDisk.step (fun _ _ ↦ True) ⟨bootState.storage 7, ∅, bootState.storage 7⟩ es w ∧
      ramblkRead 5 true (t.ramblk 7) = .ok (w.stored 5) := by
  have hnil : Run (DiskCall.run 7) (fun _ _ ↦ True) (ramblkInit ramDrivers 7 bootState).2 [] _ :=
    .nil
  have hrun := (((hnil.snoc (.write 0 5 (some (Buf.zero 512))) trivial).snoc (.read 0 5 true)
    trivial).snoc .init trivial).snoc (.read 0 5 true) trivial
  obtain ⟨w, hdisk, hstored, -⟩ := ramdisk_buffered (fun _ ↦ rfl) hrun
  exact ⟨_, _, w, hrun, rfl, hdisk, hstored 5 (by decide)⟩

/-! ## What a flush saves -/

/-- The call writes the block `lba` of the disk. -/
def DiskCall.Writes (lba : ℕ) : DiskCall → Prop
  | .write devId x _ => devId = 0 ∧ x = lba
  | _ => False

namespace BufferedDisk

variable {w : BufferedDisk} {b : Block}

/-- Block `lba` is `b`, in the array and for every reader. -/
def Saved (lba : ℕ) (b : Block) (w : BufferedDisk) : Prop :=
  w.stored lba = b ∧ w.newest lba = b

theorem Saved.put {x : ℕ} {c : Block} (h : w.Saved lba b) (hx : x = lba → c = b) :
    (w.put x c).Saved lba b := by
  by_cases hplace : w.HasPlace x
  · refine ⟨?_, ?_⟩
    · rw [put_of_hasPlace hplace]
      exact h.1
    · rw [newest_put_of_hasPlace hplace]
      split_ifs with heq
      · exact hx heq.symm
      · exact h.2
  · rwa [put_of_not hplace]

theorem Saved.sync (h : w.newest lba = b) : w.sync.Saved lba b := ⟨h, (newest_sync w lba).trans h⟩

theorem Saved.step {c : DiskCall} (h : w.Saved lba b) (hc : ¬c.Writes lba) :
    (step c w).2.Saved lba b := by
  cases c with
  | init => exact ⟨h.1, (if_neg (Finset.notMem_empty lba)).trans h.1⟩
  | read devId x buf =>
    cases buf with
    | false => exact h
    | true =>
      rw [BufferedDisk.step]
      cases refusal devId x with
      | some c => exact h
      | none =>
        refine h.put ?_
        rintro rfl
        exact h.2
  | write devId x buf =>
    cases buf with
    | none => exact h
    | some data =>
      rw [BufferedDisk.step]
      cases hrefusal : refusal devId x with
      | some c => exact h
      | none =>
        obtain ⟨hid, -⟩ := refusal_eq_none hrefusal
        exact h.put fun hx ↦ absurd ⟨hid, hx⟩ hc
  | flush devId =>
    rw [BufferedDisk.step]
    split_ifs
    · exact .sync h.2
    · exact h
  | cacheFlushAll => exact .sync h.2

end BufferedDisk

/-- **A flushed block stays.** What a reader sees of a block when the disk is flushed, every later
reader sees too, until the block is written again: other blocks may be read, written and flushed,
the cache may be full, and `ramblk_init` may drop it. -/
theorem flushed_block_kept (hs : ∀ id, s.blockDeviceTable id = none)
    (hrun : Run (DiskCall.run ram) (fun _ _ ↦ True) (ramblkInit ramDrivers ram s).2 es t)
    (hlba : lba < ramblkDeviceSizeBlocks)
    (hafter : Run (DiskCall.run ram) (fun _ c ↦ ¬c.Writes lba) (blkFlush ramDrivers 0 t).2 es' u) :
    ∃ b, (blkRead ramDrivers 0 lba true t).1 = .ok b ∧
      (blkRead ramDrivers 0 lba true u).1 = .ok b ∧ u.storage ram lba = b := by
  obtain ⟨w, -, hw⟩ := realizes_of_run hs hrun
  obtain ⟨v, hv, hsaved⟩ : ∃ v, Realizes ram v u ∧ v.Saved lba (w.newest lba) := by
    refine hafter.invariant (P := fun u ↦ ∃ v, Realizes ram v u ∧ v.Saved lba (w.newest lba))
      ⟨w.sync, hw.flush.2, .sync rfl⟩ ?_
    rintro x c ⟨v, hv, hsaved⟩ hc
    exact ⟨_, (hv.step c).2, hsaved.step hc⟩
  refine ⟨w.newest lba, (hw.read hlba).1, ?_, ?_⟩
  · rw [(hv.read hlba).1, hsaved.2]
  · rw [hv.stored_eq, hsaved.1]

/-- The block is flushed, and `ramblk_init` is called after another block was written. -/
theorem flushed_block_kept_init : ∃ es t es' u,
    Run (DiskCall.run 7) (fun _ _ ↦ True) (ramblkInit ramDrivers 7 bootState).2 es t ∧
      Run (DiskCall.run 7) (fun _ c ↦ ¬c.Writes 5) (blkFlush ramDrivers 0 t).2 es' u ∧
      es.length = 1 ∧ es'.length = 2 ∧
      ∃ b, (blkRead ramDrivers 0 5 true t).1 = .ok b ∧
        (blkRead ramDrivers 0 5 true u).1 = .ok b ∧ u.storage 7 5 = b := by
  have hnil : Run (DiskCall.run 7) (fun _ _ ↦ True) (ramblkInit ramDrivers 7 bootState).2 [] _ :=
    .nil
  obtain ⟨es, t, hrun, hlength⟩ : ∃ es t,
      Run (DiskCall.run 7) (fun _ _ ↦ True) (ramblkInit ramDrivers 7 bootState).2 es t ∧
        es.length = 1 :=
    ⟨_, _, hnil.snoc (.write 0 5 (some (Buf.zero 512))) trivial, rfl⟩
  have hnil' : Run (DiskCall.run 7) (fun _ c ↦ ¬c.Writes 5) (blkFlush ramDrivers 0 t).2 [] _ :=
    .nil
  have hafter := (hnil'.snoc (.write 0 6 (some (Buf.zero 512))) fun h ↦ absurd h.2 (by decide)).snoc
    .init id
  exact ⟨es, t, _, _, hrun, hafter, hlength, rfl,
    flushed_block_kept (fun _ ↦ rfl) hrun (by decide) hafter⟩

end Blk

end Mcsos
