import Mcsos.Base.Search
import Mcsos.Block.Layer

/-!
# The buffer cache is transparent

What a reader of the block layer sees at a block is its `view`: the cached block if there is one,
else the block the driver stores. `Inv` says that a block has at most one entry and that a clean
entry equals the driver's block. It is kept, and no view changes, when a block is read into the
cache and when an entry is written back, whether the driver calls succeed or not.
-/

namespace Mcsos

namespace Blk

variable {d : Drivers} {s t u : State} {dev id lba i j : ℕ} {e : BufferCacheEntry}

/-! ## Searching the cache -/

theorem BufferCacheEntry.holds_iff :
    e.holds id lba = true ↔ e.valid = true ∧ e.devId = id ∧ e.lba = lba := by
  rw [holds, Bool.and_eq_true, Bool.and_eq_true, beq_iff_eq, beq_iff_eq, and_assoc]

theorem blkCacheLookup_eq_some (h : blkCacheLookup s id lba = some i) :
    i < bufferCacheEntries ∧ (s.bufferCache i).holds id lba = true := by
  rw [blkCacheLookup, List.find?_range_eq_some] at h
  exact ⟨List.mem_range.mp h.2.1, h.1⟩

theorem blkCacheLookup_eq_none :
    blkCacheLookup s id lba = none ↔
      ∀ i < bufferCacheEntries, (s.bufferCache i).holds id lba = false := by
  rw [blkCacheLookup, List.find?_range_eq_none]
  simp only [Bool.not_eq_true']

theorem blkCacheFindEmpty_eq_some (h : blkCacheFindEmpty s = some i) :
    i < bufferCacheEntries ∧ (s.bufferCache i).valid = false := by
  rw [blkCacheFindEmpty, List.find?_range_eq_some] at h
  exact ⟨List.mem_range.mp h.2.1, by simpa using h.1⟩

theorem blkGetDevice_eq_some (h : blkGetDevice s id = some dev) :
    s.blockDeviceTable id = some dev := by
  rw [blkGetDevice] at h
  split at h
  · cases h
  · exact h

/-- What a reader sees at block `lba` of the device `dev`, which has the number `id`. -/
def view (s : State) (dev id lba : ℕ) : Block :=
  match blkCacheLookup s id lba with
  | some i => (s.bufferCache i).data
  | none => s.storage dev lba

theorem cached_or_not (s : State) (id lba : ℕ) :
    (∃ i < bufferCacheEntries, (s.bufferCache i).holds id lba = true) ∨
      ∀ i < bufferCacheEntries, (s.bufferCache i).holds id lba = false := by
  cases h : blkCacheLookup s id lba with
  | some i => exact .inl ⟨i, blkCacheLookup_eq_some h⟩
  | none => exact .inr (blkCacheLookup_eq_none.mp h)

theorem view_of_notCached (h : ∀ i < bufferCacheEntries, (s.bufferCache i).holds id lba = false) :
    view s dev id lba = s.storage dev lba := by
  rw [view, blkCacheLookup_eq_none.mpr h]

/-! ## The invariant -/

/-- The invariant of the registry and of the cache. -/
structure Inv (d : Drivers) (s : State) : Prop where
  numRegistered_le : s.numRegisteredDevices ≤ maxBlockDevices
  /-- No device has two numbers. -/
  injective : ∀ id < s.numRegisteredDevices, ∀ id' < s.numRegisteredDevices,
    s.blockDeviceTable id = s.blockDeviceTable id' → id = id'
  /-- No block has two entries. -/
  unique : ∀ i < bufferCacheEntries, ∀ j < bufferCacheEntries, ∀ id lba,
    (s.bufferCache i).holds id lba = true → (s.bufferCache j).holds id lba = true → i = j
  registered : ∀ i < bufferCacheEntries, (s.bufferCache i).valid = true →
    (s.bufferCache i).devId < s.numRegisteredDevices
  inRange : ∀ i < bufferCacheEntries, ∀ dev id lba, (s.bufferCache i).holds id lba = true →
    s.blockDeviceTable id = some dev → lba < (d.device dev).blockCount
  /-- A clean entry equals the driver's block. -/
  clean : ∀ i < bufferCacheEntries, ∀ dev id lba, (s.bufferCache i).holds id lba = true →
    (s.bufferCache i).dirty = false → s.blockDeviceTable id = some dev →
    s.storage dev lba = (s.bufferCache i).data

theorem Inv.view_of_holds (hs : Inv d s) (hi : i < bufferCacheEntries)
    (h : (s.bufferCache i).holds id lba = true) :
    view s dev id lba = (s.bufferCache i).data := by
  have hlookup : blkCacheLookup s id lba = some i := by
    rw [blkCacheLookup, List.range_eq_range']
    refine find?_range'_eq_some_of_unique (Nat.zero_le i) (by omega) h fun j _ hj hne ↦ ?_
    by_contra hholds
    rw [Bool.not_eq_false] at hholds
    exact hne (hs.unique j (by omega) i hi id lba hholds h)
  rw [view, hlookup]

/-- A device whose number in the table is in use. -/
def Registered (s : State) (dev : ℕ) : Prop :=
  ∃ id < s.numRegisteredDevices, s.blockDeviceTable id = some dev

/-- The step from `s` to `t` keeps the invariant and is not seen by any reader. -/
structure Transparent (d : Drivers) (s t : State) : Prop where
  inv : Inv d t
  table_eq : t.blockDeviceTable = s.blockDeviceTable
  num_eq : t.numRegisteredDevices = s.numRegisteredDevices
  view_eq : ∀ dev id lba, id < s.numRegisteredDevices → s.blockDeviceTable id = some dev →
    view t dev id lba = view s dev id lba
  /-- Only the blocks of registered devices are written. -/
  storage_eq : ∀ dev, ¬Registered s dev → t.storage dev = s.storage dev

namespace Transparent

protected theorem refl (hs : Inv d s) : Transparent d s s :=
  ⟨hs, rfl, rfl, fun _ _ _ _ _ ↦ rfl, fun _ _ ↦ rfl⟩

protected theorem trans (h : Transparent d s t) (h' : Transparent d t u) : Transparent d s u where
  inv := h'.inv
  table_eq := h'.table_eq.trans h.table_eq
  num_eq := h'.num_eq.trans h.num_eq
  view_eq dev id lba hid hdev := by
    rw [h'.view_eq dev id lba (by rwa [h.num_eq]) (by rwa [h.table_eq]),
      h.view_eq dev id lba hid hdev]
  storage_eq dev hdev := by
    have hdev' : ¬Registered t dev := by rwa [Registered, h.num_eq, h.table_eq]
    rw [h'.storage_eq dev hdev', h.storage_eq dev hdev]

theorem driverCalls (hs : Inv d s) (n : ℕ) : Transparent d s { s with driverCalls := n } :=
  ⟨⟨hs.numRegistered_le, hs.injective, hs.unique, hs.registered, hs.inRange, hs.clean⟩, rfl, rfl,
    fun _ _ _ _ _ ↦ rfl, fun _ _ ↦ rfl⟩

end Transparent

/-! ## Putting a block into the cache -/

/-- Entry `i` may take block `lba` of device `id`: it is free or the entry of that block, and no
other entry is. -/
structure Slot (s : State) (id lba i : ℕ) : Prop where
  lt : i < bufferCacheEntries
  own : (s.bufferCache i).valid = true → (s.bufferCache i).holds id lba = true
  notCached : ∀ j < bufferCacheEntries, j ≠ i → (s.bufferCache j).holds id lba = false

theorem Inv.slot (hs : Inv d s)
    (h : (blkCacheLookup s id lba).or (blkCacheFindEmpty s) = some i) : Slot s id lba i := by
  cases hlookup : blkCacheLookup s id lba with
  | some k =>
    rw [hlookup, Option.some_or, Option.some_inj] at h
    subst h
    obtain ⟨hk, hholds⟩ := blkCacheLookup_eq_some hlookup
    refine ⟨hk, fun _ ↦ hholds, fun j hj hne ↦ ?_⟩
    by_contra hj'
    rw [Bool.not_eq_false] at hj'
    exact hne (hs.unique j hj k hk id lba hj' hholds)
  | none =>
    rw [hlookup, Option.none_or] at h
    obtain ⟨hi, hempty⟩ := blkCacheFindEmpty_eq_some h
    refine ⟨hi, fun hvalid ↦ ?_, fun j hj _ ↦ blkCacheLookup_eq_none.mp hlookup j hj⟩
    rw [hempty] at hvalid
    cases hvalid

section SetEntry

variable {dirty : Bool} {data : Block}

theorem State.bufferCache_setEntry (s : State) (i : ℕ) (e : BufferCacheEntry) (j : ℕ) :
    (s.setEntry i e).bufferCache j = if j = i then e else s.bufferCache j :=
  Function.update_apply s.bufferCache i e j

theorem holds_setEntry {id' lba' : ℕ}
    (h : ((s.setEntry i ⟨id, lba, true, dirty, data⟩).bufferCache j).holds id' lba' = true) :
    (j = i ∧ id' = id ∧ lba' = lba) ∨ (j ≠ i ∧ (s.bufferCache j).holds id' lba' = true) := by
  rw [State.bufferCache_setEntry] at h
  by_cases hj : j = i
  · rw [if_pos hj, BufferCacheEntry.holds_iff] at h
    exact .inl ⟨hj, h.2.1.symm, h.2.2.symm⟩
  · rw [if_neg hj] at h
    exact .inr ⟨hj, h⟩

theorem Inv.setEntry (hs : Inv d s) (hslot : Slot s id lba i) (hid : id < s.numRegisteredDevices)
    (hdev : s.blockDeviceTable id = some dev) (hlba : lba < (d.device dev).blockCount)
    (hclean : dirty = false → s.storage dev lba = data) :
    Inv d (s.setEntry i ⟨id, lba, true, dirty, data⟩) where
  numRegistered_le := hs.numRegistered_le
  injective := hs.injective
  unique j hj k hk id' lba' hjh hkh := by
    -- an entry other than `i` does not hold the block that `i` has taken
    obtain ⟨rfl, rfl, rfl⟩ | ⟨hji, hjs⟩ := holds_setEntry hjh <;>
      obtain ⟨rfl, hid', hlba'⟩ | ⟨hki, hks⟩ := holds_setEntry hkh
    · rfl
    · rw [hslot.notCached k hk hki] at hks
      cases hks
    · subst hid' hlba'
      rw [hslot.notCached j hj hji] at hjs
      cases hjs
    · exact hs.unique j hj k hk id' lba' hjs hks
  registered j hj hvalid := by
    rw [State.bufferCache_setEntry] at hvalid ⊢
    split_ifs at hvalid ⊢ with hji
    · exact hid
    · exact hs.registered j hj hvalid
  inRange j hj dev' id' lba' hholds hdev' := by
    obtain ⟨-, rfl, rfl⟩ | ⟨-, hholds⟩ := holds_setEntry hholds
    · have hdev'' : s.blockDeviceTable id' = some dev' := hdev'
      rw [hdev, Option.some_inj] at hdev''
      rwa [← hdev'']
    · exact hs.inRange j hj dev' id' lba' hholds hdev'
  clean j hj dev' id' lba' hholds hdirty hdev' := by
    rw [State.bufferCache_setEntry] at hdirty ⊢
    obtain ⟨rfl, rfl, rfl⟩ | ⟨hji, hholds⟩ := holds_setEntry hholds
    · have hdev'' : s.blockDeviceTable id' = some dev' := hdev'
      rw [hdev, Option.some_inj] at hdev''
      rw [if_pos rfl] at hdirty ⊢
      rw [← hdev'']
      exact hclean hdirty
    · rw [if_neg hji] at hdirty ⊢
      exact hs.clean j hj dev' id' lba' hholds hdirty hdev'

theorem Inv.view_setEntry (hs : Inv d s) (hslot : Slot s id lba i)
    (ht : Inv d (s.setEntry i ⟨id, lba, true, dirty, data⟩)) (dev' id' lba' : ℕ) :
    view (s.setEntry i ⟨id, lba, true, dirty, data⟩) dev' id' lba' =
      if id' = id ∧ lba' = lba then data else view s dev' id' lba' := by
  split_ifs with h
  · obtain ⟨rfl, rfl⟩ := h
    have hentry := State.bufferCache_setEntry s i ⟨id', lba', true, dirty, data⟩ i
    rw [if_pos rfl] at hentry
    rw [ht.view_of_holds hslot.lt (i := i), hentry]
    rw [hentry, BufferCacheEntry.holds_iff]
    exact ⟨rfl, rfl, rfl⟩
  · obtain ⟨j, hj, hholds⟩ | hnone := cached_or_not s id' lba'
    · have hji : j ≠ i := by
        rintro rfl
        have hown := hslot.own (BufferCacheEntry.holds_iff.mp hholds).1
        rw [BufferCacheEntry.holds_iff] at hown hholds
        exact h ⟨hholds.2.1.symm.trans hown.2.1, hholds.2.2.symm.trans hown.2.2⟩
      have hentry := State.bufferCache_setEntry s i ⟨id, lba, true, dirty, data⟩ j
      rw [if_neg hji] at hentry
      rw [ht.view_of_holds hj (by rw [hentry]; exact hholds), hentry, hs.view_of_holds hj hholds]
    · rw [view_of_notCached hnone, view_of_notCached]
      · rfl
      · intro j hj
        by_contra hholds
        rw [Bool.not_eq_false] at hholds
        obtain ⟨-, hid', hlba'⟩ | ⟨-, hholds⟩ := holds_setEntry hholds
        · exact h ⟨hid', hlba'⟩
        · rw [hnone j hj] at hholds
          cases hholds

end SetEntry

/-! ## Writing an entry back -/

/-- Entry `i` has been written to the device `dev` and marked clean. -/
def State.writeBack (s : State) (dev i : ℕ) : State :=
  { s with
    storage := Function.update s.storage dev
      (Function.update (s.storage dev) (s.bufferCache i).lba (s.bufferCache i).data)
    driverCalls := s.driverCalls + 1 }.clearDirty i

theorem State.bufferCache_writeBack (s : State) (dev i j : ℕ) :
    (s.writeBack dev i).bufferCache j =
      if j = i then { s.bufferCache i with dirty := false } else s.bufferCache j :=
  Function.update_apply s.bufferCache i _ j

theorem holds_writeBack (s : State) (dev i j id lba : ℕ) :
    ((s.writeBack dev i).bufferCache j).holds id lba = (s.bufferCache j).holds id lba := by
  rw [State.bufferCache_writeBack]
  split_ifs with h
  · rw [h]
    rfl
  · rfl

theorem data_writeBack (s : State) (dev i j : ℕ) :
    ((s.writeBack dev i).bufferCache j).data = (s.bufferCache j).data := by
  rw [State.bufferCache_writeBack]
  split_ifs with h
  · rw [h]
  · rfl

theorem storage_writeBack_self (s : State) (dev i : ℕ) :
    (s.writeBack dev i).storage dev (s.bufferCache i).lba = (s.bufferCache i).data := by
  change Function.update s.storage dev _ dev _ = _
  rw [Function.update_self, Function.update_self]

theorem storage_writeBack_of_ne {dev' : ℕ} (h : dev ≠ dev' ∨ lba ≠ (s.bufferCache i).lba) :
    (s.writeBack dev' i).storage dev lba = s.storage dev lba := by
  change Function.update s.storage dev' _ dev lba = _
  by_cases hdev : dev = dev'
  · subst hdev
    rw [Function.update_self, Function.update_of_ne (h.resolve_left fun hne ↦ hne rfl)]
  · rw [Function.update_of_ne hdev]

section WriteBack

variable (hs : Inv d s) (hi : i < bufferCacheEntries) (hvalid : (s.bufferCache i).valid = true)
  (hdev : s.blockDeviceTable (s.bufferCache i).devId = some dev)
include hs hi hvalid hdev

/-- The block written back belongs to no device but the one with the entry's number. -/
theorem Inv.storage_writeBack {dev' id' lba' : ℕ} (hid : id' < s.numRegisteredDevices)
    (hdev' : s.blockDeviceTable id' = some dev')
    (hne : (s.bufferCache i).holds id' lba' = false) :
    (s.writeBack dev i).storage dev' lba' = s.storage dev' lba' := by
  apply storage_writeBack_of_ne
  by_contra hsame
  push Not at hsame
  obtain ⟨rfl, rfl⟩ := hsame
  have hid' : (s.bufferCache i).devId = id' :=
    hs.injective _ (hs.registered i hi hvalid) id' hid (hdev.trans hdev'.symm)
  rw [BufferCacheEntry.holds_iff.mpr ⟨hvalid, hid', rfl⟩] at hne
  cases hne

theorem Inv.writeBack : Inv d (s.writeBack dev i) where
  numRegistered_le := hs.numRegistered_le
  injective := hs.injective
  unique j hj k hk id lba hjh hkh := by
    rw [holds_writeBack] at hjh hkh
    exact hs.unique j hj k hk id lba hjh hkh
  registered j hj hjvalid := by
    rw [State.bufferCache_writeBack] at hjvalid ⊢
    split_ifs at hjvalid ⊢ with hji
    · exact hs.registered i hi hvalid
    · exact hs.registered j hj hjvalid
  inRange j hj dev' id lba hholds hdev' := by
    rw [holds_writeBack] at hholds
    exact hs.inRange j hj dev' id lba hholds hdev'
  clean j hj dev' id lba hholds hdirty hdev' := by
    rw [holds_writeBack] at hholds
    rw [data_writeBack]
    rw [State.bufferCache_writeBack] at hdirty
    obtain ⟨hjvalid, rfl, rfl⟩ := BufferCacheEntry.holds_iff.mp hholds
    split_ifs at hdirty with hji
    · subst hji
      have hsame : dev' = dev := Option.some_inj.mp (hdev'.symm.trans hdev)
      rw [hsame, storage_writeBack_self]
    · -- another entry holds another block
      rw [hs.storage_writeBack hi hvalid hdev (hs.registered j hj hjvalid) hdev',
        hs.clean j hj dev' _ _ hholds hdirty hdev']
      by_contra hiholds
      rw [Bool.not_eq_false] at hiholds
      exact hji (hs.unique j hj i hi _ _ hholds hiholds)

theorem Inv.transparent_writeBack : Transparent d s (s.writeBack dev i) where
  inv := hs.writeBack hi hvalid hdev
  table_eq := rfl
  num_eq := rfl
  view_eq dev' id lba hid hdev' := by
    obtain ⟨j, hj, hholds⟩ | hnone := cached_or_not s id lba
    · have hholds' := (holds_writeBack s dev i j id lba).trans hholds
      rw [(hs.writeBack hi hvalid hdev).view_of_holds hj hholds', data_writeBack,
        hs.view_of_holds hj hholds]
    · rw [view_of_notCached hnone, view_of_notCached,
        hs.storage_writeBack hi hvalid hdev hid hdev' (hnone i hi)]
      intro j hj
      rw [holds_writeBack, hnone j hj]
  storage_eq dev' hdev' := by
    funext lba
    refine storage_writeBack_of_ne (.inl ?_)
    rintro rfl
    exact hdev' ⟨_, hs.registered i hi hvalid, hdev⟩

end WriteBack

/-- A driver call has been made. -/
def State.called (s : State) : State := { s with driverCalls := s.driverCalls + 1 }

theorem flushEntries_cons (d : Drivers) (dev id i : ℕ) (is : List ℕ) (s : State) :
    flushEntries d dev id (i :: is) s =
      if (s.bufferCache i).valid && (s.bufferCache i).devId == id && (s.bufferCache i).dirty then
        if !d.hasWrite dev then (.error .nullCall, s)
        else if d.answer s.driverCalls = blkOk then flushEntries d dev id is (s.writeBack dev i)
        else (.error (.code blkErrDriverFail), s.called)
      else flushEntries d dev id is s := by
  by_cases hok : d.answer s.driverCalls = blkOk
  · simp only [flushEntries, driverWrite, hok, ne_eq, not_true_eq_false, if_true, if_false]
    rfl
  · simp only [flushEntries, driverWrite, hok, ne_eq, not_false_eq_true, if_true, if_false]
    rfl

theorem flushAllEntry_eq (d : Drivers) (r : ℤ × State) (i : ℕ) :
    flushAllEntry d r i =
      if (r.2.bufferCache i).valid && (r.2.bufferCache i).dirty then
        match blkGetDevice r.2 (r.2.bufferCache i).devId with
        | none => (blkErrDriverFail, r.2)
        | some dev =>
          if !d.hasWrite dev then (blkErrDriverFail, r.2)
          else if d.answer r.2.driverCalls = blkOk then (r.1, r.2.writeBack dev i)
          else (blkErrDriverFail, r.2.called)
      else r := by
  by_cases hok : d.answer r.2.driverCalls = blkOk
  · simp only [flushAllEntry, driverWrite, hok, ne_eq, not_true_eq_false, if_true, if_false]
    rfl
  · simp only [flushAllEntry, driverWrite, hok, ne_eq, not_false_eq_true, if_true, if_false]
    rfl

/-! ## The operations -/

theorem transparent_flushAllEntry {r : ℤ × State} (hs : Inv d r.2) (hi : i < bufferCacheEntries) :
    Transparent d r.2 (flushAllEntry d r i).2 := by
  rw [flushAllEntry_eq]
  split
  · next hdirty =>
    rw [Bool.and_eq_true] at hdirty
    split
    · exact .refl hs
    · next dev hdev =>
      split_ifs
      · exact .refl hs
      · exact hs.transparent_writeBack hi hdirty.1 (blkGetDevice_eq_some hdev)
      · exact .driverCalls hs _
  · exact .refl hs

theorem transparent_foldl_flushAllEntry {is : List ℕ} {r : ℤ × State} (hs : Inv d r.2)
    (his : ∀ i ∈ is, i < bufferCacheEntries) :
    Transparent d r.2 (is.foldl (flushAllEntry d) r).2 := by
  induction is generalizing r with
  | nil => exact .refl hs
  | cons i is ih =>
    have hround := transparent_flushAllEntry hs (his i List.mem_cons_self)
    exact hround.trans (ih hround.inv fun j hj ↦ his j (List.mem_cons_of_mem i hj))

theorem transparent_blkCacheFlushAll (hs : Inv d s) : Transparent d s (blkCacheFlushAll d s).2 :=
  transparent_foldl_flushAllEntry (r := (blkOk, s)) hs fun _ ↦ List.mem_range.mp

/-- No reader sees that `blk_flush` writes entries back, also when it stops early. -/
theorem transparent_flushEntries {is : List ℕ} (hs : Inv d s)
    (hdev : s.blockDeviceTable id = some dev) (his : ∀ i ∈ is, i < bufferCacheEntries) :
    Transparent d s (flushEntries d dev id is s).2 := by
  induction is generalizing s with
  | nil => exact .refl hs
  | cons i is ih =>
    have his' : ∀ j ∈ is, j < bufferCacheEntries := fun j hj ↦ his j (List.mem_cons_of_mem i hj)
    rw [flushEntries_cons]
    split_ifs with hdirty
    · exact .refl hs
    · rw [Bool.and_eq_true, Bool.and_eq_true, beq_iff_eq] at hdirty
      obtain ⟨⟨hvalid, rfl⟩, -⟩ := hdirty
      have hentry := hs.transparent_writeBack (his i List.mem_cons_self) hvalid hdev
      exact hentry.trans (ih hentry.inv hdev his')
    · exact .driverCalls hs _
    · exact ih hs hdev his'

theorem transparent_blkFlush (hs : Inv d s) : Transparent d s (blkFlush d id s).2 := by
  unfold blkFlush
  split
  · exact .refl hs
  next dev hdev =>
  split
  · exact .refl hs
  have h := transparent_flushEntries (d := d) hs (blkGetDevice_eq_some hdev)
    fun _ ↦ List.mem_range.mp
  split
  · next heq => rwa [heq] at h
  · next heq =>
    rw [heq] at h
    exact h.trans (.driverCalls h.inv _)

theorem blkRead_miss (hdev : blkGetDevice s id = some dev) (hlba : lba < (d.device dev).blockCount)
    (hmiss : blkCacheLookup s id lba = none) (hread : d.hasRead dev = true)
    (hok : d.answer s.driverCalls = blkOk) :
    blkRead d id lba true s = (.ok (s.storage dev lba),
      match blkCacheFindEmpty s with
      | some i => s.called.setEntry i ⟨id, lba, true, false, s.storage dev lba⟩
      | none => s.called) := by
  have hempty : blkCacheFindEmpty { s with driverCalls := s.driverCalls + 1 } =
    blkCacheFindEmpty s := rfl
  simp only [blkRead, hdev, hmiss, hread, driverRead, hok, hempty, Nat.not_le.mpr hlba,
    ne_eq, not_true_eq_false, if_false, Bool.not_true, Bool.false_eq_true]
  cases blkCacheFindEmpty s <;> rfl

/-- No reader sees that an entry takes the driver's block. -/
theorem Inv.transparent_fill (hs : Inv d s) (hslot : Slot s id lba i)
    (hmiss : blkCacheLookup s id lba = none) (hid : id < s.numRegisteredDevices)
    (hdev : s.blockDeviceTable id = some dev) (hlba : lba < (d.device dev).blockCount) :
    Transparent d s (s.setEntry i ⟨id, lba, true, false, s.storage dev lba⟩) := by
  have ht : Inv d (s.setEntry i ⟨id, lba, true, false, s.storage dev lba⟩) :=
    hs.setEntry hslot hid hdev hlba fun _ ↦ rfl
  refine ⟨ht, rfl, rfl, fun dev' id' lba' _ hdev' ↦ ?_, fun _ _ ↦ rfl⟩
  rw [hs.view_setEntry hslot ht]
  split_ifs with h
  · obtain ⟨rfl, rfl⟩ := h
    rw [hdev, Option.some_inj] at hdev'
    rw [view, hmiss, hdev']
  · rfl

/-- No reader sees that a block is read into the cache. -/
theorem transparent_blkRead {buf : Bool} (hs : Inv d s)
    (hid : (blkGetDevice s id).isSome → id < s.numRegisteredDevices) :
    Transparent d s (blkRead d id lba buf s).2 := by
  unfold blkRead
  split
  · exact .refl hs
  split
  · exact .refl hs
  next dev hdev =>
  rw [hdev] at hid
  split
  · exact .refl hs
  next hlba =>
  split
  · exact .refl hs
  next hmiss =>
  split
  · exact .refl hs
  have hcall : Transparent d s s.called := .driverCalls hs _
  rw [show driverRead d dev lba s = (d.answer s.driverCalls, s.storage dev lba, s.called) from rfl]
  dsimp only
  split
  · exact hcall
  · split
    · next i hempty =>
      have hmiss' : blkCacheLookup s.called id lba = none := hmiss
      have hslot : Slot s.called id lba i := hcall.inv.slot (by rwa [hmiss', Option.none_or])
      exact hcall.trans (hcall.inv.transparent_fill hslot hmiss' (hid rfl)
        (blkGetDevice_eq_some hdev) (not_le.mp hlba))
    · exact hcall

/-! ## What the operations return -/

theorem returned_blkRead (hdev : blkGetDevice s id = some dev)
    (hlba : lba < (d.device dev).blockCount) (hread : d.hasRead dev = true)
    (hok : d.answer s.driverCalls = blkOk) :
    (blkRead d id lba true s).1 = .ok (view s dev id lba) := by
  cases hlookup : blkCacheLookup s id lba with
  | some i =>
    simp only [blkRead, hdev, hlookup, view, Nat.not_le.mpr hlba, if_false, Bool.not_true,
      Bool.false_eq_true]
  | none => rw [blkRead_miss hdev hlba hlookup hread hok, view, hlookup]

theorem returned_flushEntries {is : List ℕ} (hwrite : d.hasWrite dev = true)
    (hok : ∀ n, d.answer n = blkOk) : (flushEntries d dev id is s).1 = .ok () := by
  induction is generalizing s with
  | nil => rfl
  | cons i is ih =>
    rw [flushEntries_cons, hwrite, if_pos (hok _), Bool.not_true, if_neg Bool.false_ne_true]
    split_ifs
    · exact ih
    · exact ih

theorem returned_blkFlush (hdev : blkGetDevice s id = some dev) (hwrite : d.hasWrite dev = true)
    (hflush : d.hasFlush dev = true) (hok : ∀ n, d.answer n = blkOk) :
    (blkFlush d id s).1 = .ok () := by
  have hloop : (flushEntries d dev id (List.range bufferCacheEntries) s).1 = .ok () :=
    returned_flushEntries hwrite hok
  unfold blkFlush
  rw [hdev]
  dsimp only
  rw [hflush, Bool.not_true, if_neg Bool.false_ne_true]
  split
  · next heq =>
    rw [heq] at hloop
    cases hloop
  · exact if_pos (hok _)

/-- `blk_flush` of device `id` has to write the entry back. -/
def BufferCacheEntry.dirtyOf (e : BufferCacheEntry) (id : ℕ) : Bool :=
  e.valid && e.devId == id && e.dirty

theorem dirtyOf_flushEntries {is : List ℕ} (h : flushEntries d dev id is s = (.ok (), t))
    (hi : i ∈ is ∨ (s.bufferCache i).dirtyOf id = false) :
    (t.bufferCache i).dirtyOf id = false := by
  induction is generalizing s with
  | nil =>
    cases h
    exact hi.resolve_left List.not_mem_nil
  | cons j is ih =>
    rw [flushEntries_cons] at h
    split_ifs at h with hdirty hwrite hok
    · cases h
    · -- entry `j` is written back
      apply ih h
      rw [State.bufferCache_writeBack]
      split_ifs with hij
      · exact .inr (Bool.and_false _)
      · exact hi.imp_left fun hmem ↦ (List.mem_cons.mp hmem).resolve_left hij
    · cases h
    · apply ih h
      rcases hi with hmem | hclean
      · rcases List.mem_cons.mp hmem with rfl | hmem
        · exact .inr (Bool.not_eq_true _ ▸ hdirty)
        · exact .inl hmem
      · exact .inr hclean

/-- When the entries of a device are clean, the driver stores the view. -/
theorem Inv.storage_eq_view (hs : Inv d s) (hdev : s.blockDeviceTable id = some dev)
    (hclean : ∀ i < bufferCacheEntries, (s.bufferCache i).dirtyOf id = false) (lba : ℕ) :
    s.storage dev lba = view s dev id lba := by
  obtain ⟨i, hi, hholds⟩ | hnone := cached_or_not s id lba
  · have hdirty : (s.bufferCache i).dirty = false := by
      have hi' := hclean i hi
      obtain ⟨hvalid, hid, -⟩ := BufferCacheEntry.holds_iff.mp hholds
      rwa [BufferCacheEntry.dirtyOf, hvalid, hid, beq_self_eq_true, Bool.true_and,
        Bool.true_and] at hi'
    rw [hs.clean i hi dev id lba hholds hdirty hdev, hs.view_of_holds hi hholds]
  · rw [view_of_notCached hnone]

/-- After `blk_flush` has returned `BLK_OK` the driver stores the view. -/
theorem storage_blkFlush (hs : Inv d s) (hdev : blkGetDevice s id = some dev)
    (hid : id < s.numRegisteredDevices) (h : (blkFlush d id s).1 = .ok ()) (lba : ℕ) :
    (blkFlush d id s).2.storage dev lba = view s dev id lba := by
  have hflush : Transparent d s (blkFlush d id s).2 := transparent_blkFlush hs
  have hdev' := blkGetDevice_eq_some hdev
  rw [← hflush.view_eq dev id lba hid hdev']
  apply hflush.inv.storage_eq_view (by rwa [hflush.table_eq])
  intro i hi
  clear hflush
  simp only [blkFlush, hdev] at h ⊢
  split at h
  · cases h
  next hhas =>
  rw [if_neg hhas]
  split at h
  · cases h
  next heq =>
  have hclean := dirtyOf_flushEntries heq (.inl (List.mem_range.mpr hi))
  exact hclean

end Blk

end Mcsos
