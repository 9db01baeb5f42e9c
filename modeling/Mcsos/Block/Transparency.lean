import Mcsos.Block.Registry

/-!
# What readers see of the cache

A run in which any driver call may fail. `Sound` says what the cache promises in each state: its
entries are those of different blocks and in range, the clean ones equal what the drivers store, no
call but `blk_write` changes what a reader sees, and a flush that reports success has brought the
drivers up to date.

`blk_init` clears the cache and starts to number devices anew, but it leaves the device table as it
is. A number that was not given out since then still names the old device. A block of that device
which is read into the cache turns up as a block of the device that gets the number next
(`stale_entry_of_register`). From an empty table, as it is when the system starts, there is no such
number (`current_of_run`).
-/

namespace Mcsos

namespace Blk

variable {d : Drivers} {s t u : State} {dev id lba i j : ℕ} {es : List (Call × Ret)}

/-! ## `blk_cache_flush_all` -/

/-- The entry has to be written back. -/
def BufferCacheEntry.pending (e : BufferCacheEntry) : Bool := e.valid && e.dirty

theorem dirtyOf_of_pending {e : BufferCacheEntry} (h : e.pending = false) :
    e.dirtyOf id = false := by
  rw [BufferCacheEntry.pending] at h
  rw [BufferCacheEntry.dirtyOf, Bool.and_right_comm, h, Bool.false_and]

theorem flushAllEntry_ok {r : ℤ × State} (h : (flushAllEntry d r j).1 = blkOk) : r.1 = blkOk ∧
    ∀ i, ((flushAllEntry d r j).2.bufferCache i).pending =
      if i = j then false else (r.2.bufferCache i).pending := by
  have hfail : blkErrDriverFail ≠ blkOk := by decide
  rw [flushAllEntry_eq] at h ⊢
  by_cases hpending : ((r.2.bufferCache j).valid && (r.2.bufferCache j).dirty) = true
  · rw [if_pos hpending] at h ⊢
    cases hdev : blkGetDevice r.2 (r.2.bufferCache j).devId with
    | none =>
      rw [hdev] at h
      exact absurd h hfail
    | some dev =>
      rw [hdev] at h
      dsimp only at h ⊢
      split_ifs at h ⊢ with hwrite hok
      · exact absurd h hfail
      · refine ⟨h, fun i ↦ ?_⟩
        rw [State.bufferCache_writeBack]
        split_ifs
        · exact Bool.and_false _
        · rfl
      · exact absurd h hfail
  · rw [if_neg hpending] at h ⊢
    refine ⟨h, fun i ↦ ?_⟩
    split_ifs with hij
    · rw [hij]
      exact Bool.eq_false_of_not_eq_true hpending
    · rfl

theorem foldl_flushAllEntry_ok {is : List ℕ} {r : ℤ × State}
    (h : (is.foldl (flushAllEntry d) r).1 = blkOk) : r.1 = blkOk ∧
    ∀ i, i ∈ is ∨ (r.2.bufferCache i).pending = false →
      ((is.foldl (flushAllEntry d) r).2.bufferCache i).pending = false := by
  induction is generalizing r with
  | nil => exact ⟨h, fun i hi ↦ hi.resolve_left List.not_mem_nil⟩
  | cons j is ih =>
    obtain ⟨hround, hrest⟩ := ih h
    obtain ⟨hr, hentry⟩ := flushAllEntry_ok hround
    refine ⟨hr, fun i hi ↦ hrest i ?_⟩
    rw [hentry]
    split_ifs with hij
    · exact .inr rfl
    · exact hi.imp_left fun hmem ↦ (List.mem_cons.mp hmem).resolve_left hij

theorem storage_blkCacheFlushAll (hs : Inv d s) (h : (blkCacheFlushAll d s).1 = blkOk)
    (hdev : s.blockDeviceTable id = some dev) (lba : ℕ) :
    (blkCacheFlushAll d s).2.storage dev lba = view (blkCacheFlushAll d s).2 dev id lba := by
  have hflush := transparent_blkCacheFlushAll (d := d) hs
  refine hflush.inv.storage_eq_view (by rwa [hflush.table_eq]) (fun i hi ↦ ?_) lba
  rw [blkCacheFlushAll] at h ⊢
  exact dirtyOf_of_pending ((foldl_flushAllEntry_ok h).2 i (.inl (List.mem_range.mpr hi)))

/-! ## What the cache promises -/

/-- Entry `i` is valid and holds block `lba` of the device `dev`. -/
def EntryOf (s : State) (i dev lba : ℕ) : Prop :=
  (s.bufferCache i).valid = true ∧ s.blockDeviceTable (s.bufferCache i).devId = some dev ∧
    (s.bufferCache i).lba = lba

/-- Every block of every registered device looks the same. -/
def SameView (s t : State) : Prop :=
  t.numRegisteredDevices = s.numRegisteredDevices ∧ t.blockDeviceTable = s.blockDeviceTable ∧
    ∀ dev id lba, id < s.numRegisteredDevices → s.blockDeviceTable id = some dev →
      view t dev id lba = view s dev id lba

theorem Transparent.sameView (h : Transparent d s t) : SameView s t :=
  ⟨h.num_eq, h.table_eq, h.view_eq⟩

/-- What the cache promises in a state. -/
structure Sound (d : Drivers) (s : State) : Prop where
  /-- A block has at most one entry. -/
  unique : ∀ i < bufferCacheEntries, ∀ j < bufferCacheEntries, ∀ dev lba,
    EntryOf s i dev lba → EntryOf s j dev lba → i = j
  inRange : ∀ i < bufferCacheEntries, ∀ dev lba, EntryOf s i dev lba →
    lba < (d.device dev).blockCount
  clean : ∀ i < bufferCacheEntries, ∀ dev lba, EntryOf s i dev lba →
    (s.bufferCache i).dirty = false → (s.bufferCache i).data = s.storage dev lba
  read : ∀ id lba buf data, (blkRead d id lba buf s).1 = .ok data →
    ∃ dev, blkGetDevice s id = some dev ∧ data = view s dev id lba
  sameView_read : ∀ id lba buf, Current s id → SameView s (blkRead d id lba buf s).2
  sameView_flush : ∀ id, SameView s (blkFlush d id s).2
  sameView_flushAll : SameView s (blkCacheFlushAll d s).2
  /-- A write that has an entry to go to changes one block. -/
  write : ∀ dev id lba data, Current s id → blkGetDevice s id = some dev →
    lba < (d.device dev).blockCount →
    ((blkCacheLookup s id lba).or (blkCacheFindEmpty s)).isSome →
    (blkWrite d id lba (some data) s).1 = .ok () ∧
      ∀ dev' id' lba', view (blkWrite d id lba (some data) s).2 dev' id' lba' =
        if id' = id ∧ lba' = lba then data else view s dev' id' lba'
  flush : ∀ dev id, id < s.numRegisteredDevices → s.blockDeviceTable id = some dev →
    (blkFlush d id s).1 = .ok () → ∀ lba,
      (blkFlush d id s).2.storage dev lba = view (blkFlush d id s).2 dev id lba
  flushAll : (blkCacheFlushAll d s).1 = blkOk → ∀ dev id, id < s.numRegisteredDevices →
    s.blockDeviceTable id = some dev → ∀ lba,
      (blkCacheFlushAll d s).2.storage dev lba = view (blkCacheFlushAll d s).2 dev id lba

theorem view_of_blkRead {buf : Bool} {data : Block} (h : (blkRead d id lba buf s).1 = .ok data) :
    ∃ dev, blkGetDevice s id = some dev ∧ data = view s dev id lba := by
  unfold blkRead at h
  split at h
  · cases h
  split at h
  · cases h
  next dev hdev =>
  refine ⟨dev, hdev, ?_⟩
  split at h
  · cases h
  split at h
  · next i hi =>
    rw [view, hi]
    exact (Except.ok.inj h).symm
  next hmiss =>
  rw [view, hmiss]
  split at h
  · cases h
  rw [show driverRead d dev lba s = (d.answer s.driverCalls, s.storage dev lba, s.called) from rfl]
    at h
  dsimp only at h
  split at h
  · cases h
  · split at h
    · exact (Except.ok.inj h).symm
    · exact (Except.ok.inj h).symm

theorem blkWrite_slot {data : Block} (hdev : blkGetDevice s id = some dev)
    (hlba : lba < (d.device dev).blockCount)
    (hi : (blkCacheLookup s id lba).or (blkCacheFindEmpty s) = some i) :
    blkWrite d id lba (some data) s = (.ok (), s.setEntry i ⟨id, lba, true, true, data⟩) := by
  simp only [blkWrite, hdev, hi, Nat.not_le.mpr hlba, if_false]

theorem Inv.blkGetDevice_eq (hs : Inv d s) (hid : id < s.numRegisteredDevices) :
    blkGetDevice s id = s.blockDeviceTable id :=
  if_neg (not_le.mpr (hid.trans_le hs.numRegistered_le))

theorem EntryOf.holds (h : EntryOf s i dev lba) :
    (s.bufferCache i).holds (s.bufferCache i).devId lba = true :=
  BufferCacheEntry.holds_iff.mpr ⟨h.1, rfl, h.2.2⟩

theorem Inv.sound (hs : Inv d s) : Sound d s where
  unique i hi j hj dev lba hei hej := by
    have hid := hs.injective _ (hs.registered i hi hei.1) _ (hs.registered j hj hej.1)
      (hei.2.1.trans hej.2.1.symm)
    have hholds := hei.holds
    rw [hid] at hholds
    exact hs.unique i hi j hj _ lba hholds hej.holds
  inRange i hi dev lba he := hs.inRange i hi dev _ lba he.holds he.2.1
  clean i hi dev lba he hdirty := (hs.clean i hi dev _ lba he.holds hdirty he.2.1).symm
  read _ _ _ _ h := view_of_blkRead h
  sameView_read _ _ _ hid := (transparent_blkRead hs hid).sameView
  sameView_flush _ := (transparent_blkFlush hs).sameView
  sameView_flushAll := (transparent_blkCacheFlushAll hs).sameView
  write dev id lba data hcurrent hdev hlba hroom := by
    obtain ⟨i, hi⟩ := Option.isSome_iff_exists.mp hroom
    have hslot := hs.slot hi
    have hid : id < s.numRegisteredDevices := hcurrent (by rw [hdev]; rfl)
    have hinv : Inv d (s.setEntry i ⟨id, lba, true, true, data⟩) :=
      hs.setEntry hslot hid (blkGetDevice_eq_some hdev) hlba
        fun hdirty ↦ absurd hdirty.symm Bool.false_ne_true
    rw [blkWrite_slot hdev hlba hi]
    exact ⟨rfl, hs.view_setEntry hslot hinv⟩
  flush dev id hid hdev hok lba := by
    rw [(transparent_blkFlush hs).view_eq dev id lba hid hdev]
    exact storage_blkFlush hs ((hs.blkGetDevice_eq hid).trans hdev) hid hok lba
  flushAll hok dev id _ hdev lba := storage_blkCacheFlushAll hs hok hdev lba

/-! ## Runs -/

/-- A read or a write names a number in use since `blk_init`, or one that is refused. -/
def NamesCurrent (s : State) : Call → Prop
  | .read id _ _ => Current s id
  | .write id _ _ => Current s id
  | _ => True

theorem inv_blkInit (d : Drivers) (s : State) : Inv d (blkInit s) := (history_blkInit d s).inv

/-- Every call keeps the invariant, whether the driver calls that it makes succeed or not. -/
theorem Inv.step (hs : Inv d s) (c : Call) (hown : OwnStorage s c) (hnames : NamesCurrent s c) :
    Inv d (step d c s).2 := by
  cases c with
  | registerDevice dev =>
    cases dev with
    | none => exact hs
    | some dev =>
      rw [Blk.step, blkRegisterDevice]
      dsimp only
      split_ifs with hops hnum
      · exact hs
      · exact hs
      · exact hs.register (not_le.mp hnum) hown
  | read id lba buf => exact (transparent_blkRead hs hnames).inv
  | write id lba buf =>
    cases buf with
    | none => exact hs
    | some data =>
      rw [Blk.step, blkWrite]
      dsimp only
      split
      · exact hs
      next dev hdev =>
      have hid : id < s.numRegisteredDevices := hnames (by rw [hdev]; rfl)
      split_ifs with hlba
      · exact hs
      split
      · next i hi =>
        exact hs.setEntry (hs.slot hi) hid (blkGetDevice_eq_some hdev) (not_le.mp hlba)
          fun hdirty ↦ absurd hdirty.symm Bool.false_ne_true
      · exact hs
  | flush id => exact (transparent_blkFlush hs).inv
  | cacheFlushAll =>
    simp only [Blk.step]
    exact (transparent_blkCacheFlushAll hs).inv

/-- In every run from `blk_init`, with any failures of the drivers, in which each device is
registered once and no call names a number from before, the cache keeps its promises. -/
theorem cache_sound
    (hrun : Run (step d) (fun u c ↦ OwnStorage u c ∧ NamesCurrent u c) (blkInit s) es t) :
    Sound d t :=
  (hrun.invariant (inv_blkInit d s) fun _ c hu hc ↦ hu.step c hc.1 hc.2).sound

/-! ## A device from before -/

/-- The table has no device but those in use. -/
def NoneLeft (s : State) : Prop := ∀ id, s.numRegisteredDevices ≤ id → s.blockDeviceTable id = none

theorem NoneLeft.current (h : NoneLeft s) (id : ℕ) : Current s id := by
  intro hsome
  by_contra hid
  obtain ⟨dev, hdev⟩ := Option.isSome_iff_exists.mp hsome
  have htable := blkGetDevice_eq_some hdev
  rw [h id (not_lt.mp hid)] at htable
  cases htable

theorem NoneLeft.congr (h : NoneLeft s) (hnum : t.numRegisteredDevices = s.numRegisteredDevices)
    (htable : t.blockDeviceTable = s.blockDeviceTable) : NoneLeft t := by
  rw [NoneLeft, hnum, htable]
  exact h

theorem NoneLeft.step (h : NoneLeft s) (c : Call) : NoneLeft (step d c s).2 := by
  rcases serve_cases d (.call c) s [] with ⟨hinit, -⟩ | ⟨a, -, hregister, -⟩ | ⟨hsame, -⟩
  · cases hinit
  · rw [serve] at hregister
    rw [hregister]
    intro id hid
    have hlt : s.numRegisteredDevices < id := hid
    exact (Function.update_of_ne hlt.ne' _ _).trans (h id hlt.le)
  · exact h.congr hsame.num_eq hsame.table_eq

/-- From an empty device table every number that names a device is in use. -/
theorem current_of_run (hs : ∀ id, s.blockDeviceTable id = none)
    (hrun : Run (step d) OwnStorage (blkInit s) es t) :
    Run (step d) (fun u c ↦ OwnStorage u c ∧ NamesCurrent u c) (blkInit s) es t ∧ NoneLeft t := by
  induction hrun with
  | nil => exact ⟨.nil, fun id _ ↦ hs id⟩
  | @snoc _ u _ c hown ih =>
    obtain ⟨hrun, hleft⟩ := ih
    have hnames : NamesCurrent u c := by
      cases c with
      | read id lba buf => exact hleft.current id
      | write id lba buf => exact hleft.current id
      | _ => trivial
    exact ⟨hrun.snoc c ⟨hown, hnames⟩, hleft.step c⟩

/-- Two devices of 64 blocks, with zeros on the first and ones on the second. -/
def twoDevices : State :=
  { bootState with storage := fun dev _ ↦ if dev = 0 then Buf.zero 512 else Buf.ofFn 512 fun _ ↦ 1 }

/-- Drivers that fail from the second of their calls on. -/
def failingDrivers : Drivers :=
  ⟨fun _ ↦ ⟨64, some ⟨true, true, true⟩⟩, fun n ↦ if n = 0 then blkOk else blkErrDriverFail⟩

theorem not_registered_twoDevices : ¬Registered (blkInit twoDevices) 1 := by
  rintro ⟨id, hid, -⟩
  exact absurd hid (Nat.not_lt_zero id)

/-- A block is read and overwritten, and the flush fails. -/
theorem cache_sound_failing : ∃ es t,
    Run (step failingDrivers) (fun u c ↦ OwnStorage u c ∧ NamesCurrent u c) (blkInit twoDevices)
      es t ∧
    es.map Prod.fst = [.registerDevice (some 1), .read 0 5 true, .write 0 5 (some (Buf.zero 512)),
      .flush 0] ∧
    es.getLast?.map Prod.snd = some (.status (.error (.code blkErrDriverFail))) ∧
    Sound failingDrivers t := by
  have hrun : Run (step failingDrivers) OwnStorage (blkInit twoDevices) _ _ :=
    (((Run.nil.snoc (Call.registerDevice (some 1)) not_registered_twoDevices).snoc
      (Call.read 0 5 true) trivial).snoc (Call.write 0 5 (some (Buf.zero 512))) trivial).snoc
        (Call.flush 0) trivial
  have hcurrent := (current_of_run (fun _ ↦ rfl) hrun).1
  exact ⟨_, _, hcurrent, rfl, rfl, cache_sound hcurrent⟩

/-- The first device is registered before `blk_init` is called again. One of its blocks is read
after that, and then the second device gets its number. -/
theorem stale_entry_of_register :
    ¬∀ (d : Drivers) (s : State) (es : List (Call × Ret)) (t : State),
      Run (step d) OwnStorage (blkInit s) es t → Sound d t := by
  intro h
  have hregistered : ¬Registered (step zeroDrivers (.read 0 0 true)
      (blkInit (twoDevices.register 0))).2 1 := by
    rintro ⟨id, hid, -⟩
    exact absurd hid (Nat.not_lt_zero id)
  have hrun : Run (step zeroDrivers) OwnStorage (blkInit (twoDevices.register 0)) _ _ :=
    (Run.nil.snoc (Call.read 0 0 true) trivial).snoc (Call.registerDevice (some 1)) hregistered
  have hclean := (h _ _ _ _ hrun).clean 0 (by decide) 1 0 ⟨rfl, rfl, rfl⟩ rfl
  have hbyte := congrArg (fun b : Block ↦ b.byte 0) hclean
  exact absurd hbyte (by decide)

end Blk

end Mcsos
