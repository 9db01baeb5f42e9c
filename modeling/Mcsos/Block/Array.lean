import Mcsos.Base.Machine
import Mcsos.Block.Cache

/-!
# The block layer as an array of blocks

A client of the block layer expects an array: a read returns what the last successful write to the
block stored. That holds in every run in which no write meets a full cache and no call uses a number
that was not given out since `blk_init` (`blk_behaves_as_array`).

It does not hold in every run. When all entries hold other blocks, `blk_write` finds no entry,
stores nothing and returns `BLK_OK` (`blkWrite_full`).
-/

namespace Mcsos

namespace Blk

variable {d : Drivers} {s t : State} {dev id lba : ℕ}

/-! ## What a client expects -/

/-- The most recent successful write to each block, after one more event. -/
def record (last : ℕ → ℕ → Option Block) : Call × Ret → ℕ → ℕ → Option Block
  | (.write id lba (some data), .status (.ok ())) =>
    Function.update last id (Function.update (last id) lba (some data))
  | _ => last

/-- The data of the most recent `blk_write` to block `lba` of device `id` that returned `BLK_OK`. -/
def lastWrite (es : List (Call × Ret)) : ℕ → ℕ → Option Block :=
  es.foldl record fun _ _ ↦ none

theorem record_of_ne {c : Call} (hc : ∀ id lba buf, c ≠ .write id lba buf)
    (last : ℕ → ℕ → Option Block) (r : Ret) : record last (c, r) = last := by
  cases c with
  | write id lba buf => exact absurd rfl (hc id lba buf)
  | _ => rfl

theorem lastWrite_snoc (es : List (Call × Ret)) (e : Call × Ret) :
    lastWrite (es ++ [e]) = record (lastWrite es) e := by
  rw [lastWrite, List.foldl_append]
  rfl

/-- Drivers with all callbacks, none of which fails. -/
structure Drivers.NonFailing (d : Drivers) : Prop where
  answer_eq : ∀ n, d.answer n = blkOk
  ops_eq : ∀ dev ops, (d.device dev).ops = some ops → ops = ⟨true, true, true⟩

/-- Each number has storage of its own: no device is registered twice. -/
def OwnStorage (s : State) : Call → Prop
  | .registerDevice (some dev) => ¬Registered s dev
  | _ => True

/-- After the events `es` in state `t`, block `lba` of device `dev` with the number `id` behaves as
the element of an array whose first value was `original`. -/
def BehavesAsArray (d : Drivers) (es : List (Call × Ret)) (t : State) (dev id lba : ℕ)
    (original : Block) : Prop :=
  (blkRead d id lba true t).1 = .ok ((lastWrite es id lba).getD original) ∧
    ((blkFlush d id t).1 = .ok () →
      (blkFlush d id t).2.storage dev lba = (lastWrite es id lba).getD original)

/-! ## A small system

One device of 64 zero blocks behind a driver that does not fail, from the state in which the system
starts. -/

/-- The driver. -/
def zeroDrivers : Drivers := ⟨fun _ ↦ ⟨64, some ⟨true, true, true⟩⟩, fun _ ↦ blkOk⟩

/-- The device is registered and the first `k` entries hold the first `k` blocks, all dirty. -/
def filled (k : ℕ) : State where
  blockDeviceTable := Function.update (fun _ ↦ none) 0 (some 0)
  numRegisteredDevices := 1
  devId := Function.update (fun _ ↦ 0) 0 0
  bufferCache i := if i < k then ⟨0, i, true, true, Buf.zero 512⟩ else .zero
  storage _ _ := Buf.zero 512
  driverCalls := 0

def bootState : State :=
  ⟨fun _ ↦ none, 0, fun _ ↦ 0, fun _ ↦ .zero, fun _ _ ↦ Buf.zero 512, 0⟩

theorem nonFailing_zeroDrivers : zeroDrivers.NonFailing :=
  ⟨fun _ ↦ rfl, fun _ _ h ↦ (Option.some_inj.mp h).symm⟩

theorem not_registered_bootState : ¬Registered (blkInit bootState) 0 := by
  rintro ⟨id, hid, -⟩
  exact absurd hid (Nat.not_lt_zero id)

theorem blkCacheLookup_filled (k : ℕ) : blkCacheLookup (filled k) 0 k = none := by
  rw [blkCacheLookup_eq_none]
  intro i _
  by_cases hik : i < k
  · simp [filled, hik, BufferCacheEntry.holds, hik.ne]
  · simp [filled, hik, BufferCacheEntry.holds, BufferCacheEntry.zero]

theorem blkCacheFindEmpty_filled {k : ℕ} (hk : k < bufferCacheEntries) :
    blkCacheFindEmpty (filled k) = some k := by
  rw [blkCacheFindEmpty, List.range_eq_range', List.find?_range'_eq_some]
  refine ⟨by simp [filled, BufferCacheEntry.zero], by simpa using hk, fun j _ hjk ↦ ?_⟩
  simp [filled, hjk]

theorem blkWrite_filled {k : ℕ} (hk : k < bufferCacheEntries) :
    blkWrite zeroDrivers 0 k (some (Buf.zero 512)) (filled k) = (.ok (), filled (k + 1)) := by
  have hstate : (filled k).setEntry k ⟨0, k, true, true, Buf.zero 512⟩ = filled (k + 1) := by
    rw [State.setEntry, filled, filled]
    congr 1
    funext i
    rw [Function.update_apply]
    rcases Nat.lt_trichotomy i k with hik | hik | hik
    · simp [hik, hik.ne, Nat.lt_succ_of_lt hik]
    · simp [hik]
    · simp [hik.ne', Nat.not_lt.mpr hik.le, Nat.not_lt.mpr (Nat.succ_le_of_lt hik)]
  have hlba : ¬k ≥ (zeroDrivers.device 0).blockCount := by
    change ¬k ≥ 64
    rw [bufferCacheEntries] at hk
    omega
  have hget : blkGetDevice (filled k) 0 = some 0 := rfl
  simp only [blkWrite, hget, hlba, blkCacheLookup_filled, blkCacheFindEmpty_filled hk,
    hstate, if_false, Option.none_or]

theorem run_filled (ok : State → Call → Prop) {k : ℕ} (hk : k ≤ bufferCacheEntries)
    (hregister : ok (blkInit bootState) (.registerDevice (some 0)))
    (hwrite : ∀ j < k, ok (filled j) (.write 0 j (some (Buf.zero 512)))) :
    ∃ es, Run (step zeroDrivers) ok (blkInit bootState) es (filled k) := by
  induction k with
  | zero => exact ⟨_, Run.nil.snoc (Call.registerDevice (some 0)) hregister⟩
  | succ k ih =>
    obtain ⟨es, hrun⟩ := ih (Nat.le_of_succ_le hk) fun j hj ↦ hwrite j (Nat.lt_succ_of_lt hj)
    have hstep := hrun.snoc (.write 0 k (some (Buf.zero 512))) (hwrite k (Nat.lt_succ_self k))
    rw [step, blkWrite_filled hk] at hstep
    exact ⟨_, hstep⟩

/-! ## A write into a full cache is lost -/

/-- When all entries hold other blocks, `blk_write` stores nothing and returns `BLK_OK`. -/
theorem blkWrite_full {data : Block} (hdev : blkGetDevice s id = some dev)
    (hlba : lba < (d.device dev).blockCount) (hmiss : blkCacheLookup s id lba = none)
    (hfull : blkCacheFindEmpty s = none) : blkWrite d id lba (some data) s = (.ok (), s) := by
  simp only [blkWrite, hdev, hmiss, hfull, Nat.not_le.mpr hlba, if_false, Option.none_or]

/-- With 32 dirty blocks in the cache, a write to a 33rd block returns `BLK_OK` and a read of that
block then returns what the driver stored before. -/
theorem blk_write_lost :
    ¬∀ (d : Drivers) (s : State) (es : List (Call × Ret)) (t : State) (dev id lba : ℕ),
      d.NonFailing → Run (step d) OwnStorage (blkInit s) es t → id < t.numRegisteredDevices →
      t.blockDeviceTable id = some dev → lba < (d.device dev).blockCount →
      BehavesAsArray d es t dev id lba (s.storage dev lba) := by
  intro h
  have hlba : bufferCacheEntries < (zeroDrivers.device 0).blockCount := by decide
  have hmiss := blkCacheLookup_filled bufferCacheEntries
  have hfull : blkCacheFindEmpty (filled bufferCacheEntries) = none := by decide
  obtain ⟨es, hrun⟩ := run_filled OwnStorage le_rfl not_registered_bootState
    fun _ _ ↦ trivial
  have hrun' := hrun.snoc (.write 0 bufferCacheEntries (some (Buf.ofFn 512 fun _ ↦ 1))) trivial
  rw [step, blkWrite_full rfl hlba hmiss hfull] at hrun'
  have hread := (h zeroDrivers bootState _ _ 0 0 bufferCacheEntries nonFailing_zeroDrivers hrun'
    Nat.one_pos rfl hlba).1
  rw [returned_blkRead rfl hlba rfl rfl, view, hmiss, lastWrite_snoc, record, Function.update_self,
    Function.update_self, Option.getD_some, Except.ok.injEq] at hread
  have hbyte := congrArg (fun b : Block ↦ b.byte 0) hread
  exact absurd hbyte (by decide)

/-! ## Runs that never meet a full cache -/

/-- A number in use since `blk_init`, or one that `blk_get_device` refuses. -/
def Current (s : State) (id : ℕ) : Prop :=
  (blkGetDevice s id).isSome → id < s.numRegisteredDevices

/-- A call that the layer carries out as an array would: it names no device left in the table by
`blk_init`, and a `blk_write` that passes its checks has an entry to go to. -/
def Served (d : Drivers) (s : State) : Call → Prop
  | .read id _ _ => Current s id
  | .write id lba _ => Current s id ∧
    ∀ dev, blkGetDevice s id = some dev → lba < (d.device dev).blockCount →
      ((blkCacheLookup s id lba).or (blkCacheFindEmpty s)).isSome
  | _ => True

/-- The layer's state against the history `es` of a run from `s`. -/
structure History (d : Drivers) (s : State) (es : List (Call × Ret)) (t : State) : Prop where
  inv : Inv d t
  ops : ∀ id < t.numRegisteredDevices, ∀ dev, t.blockDeviceTable id = some dev →
    (d.device dev).ops.isSome
  view_eq : ∀ dev id lba, id < t.numRegisteredDevices → t.blockDeviceTable id = some dev →
    view t dev id lba = (lastWrite es id lba).getD (s.storage dev lba)
  storage_eq : ∀ dev, ¬Registered t dev → t.storage dev = s.storage dev
  notWritten : ∀ id lba, t.numRegisteredDevices ≤ id → lastWrite es id lba = none

theorem history_blkInit (d : Drivers) (s : State) : History d s [] (blkInit s) := by
  have hinvalid : ∀ i, ¬((blkInit s).bufferCache i).valid = true := fun _ ↦ Bool.false_ne_true
  refine ⟨⟨Nat.zero_le _, ?_, ?_, ?_, ?_, ?_⟩, ?_, ?_, fun _ _ ↦ rfl, fun _ _ _ ↦ rfl⟩
  · intro id hid
    exact absurd hid (Nat.not_lt_zero id)
  · intro i _ j _ id lba hi
    exact absurd (BufferCacheEntry.holds_iff.mp hi).1 (hinvalid i)
  · intro i _ hi
    exact absurd hi (hinvalid i)
  · intro i _ dev id lba hi
    exact absurd (BufferCacheEntry.holds_iff.mp hi).1 (hinvalid i)
  · intro i _ dev id lba hi
    exact absurd (BufferCacheEntry.holds_iff.mp hi).1 (hinvalid i)
  · intro id hid
    exact absurd hid (Nat.not_lt_zero id)
  · intro dev id lba hid
    exact absurd hid (Nat.not_lt_zero id)

variable {es : List (Call × Ret)}

theorem History.of_transparent {u : State} {e : Call × Ret} (h : History d s es t)
    (htu : Transparent d t u) (he : record (lastWrite es) e = lastWrite es) :
    History d s (es ++ [e]) u where
  inv := htu.inv
  ops := by
    rw [htu.num_eq, htu.table_eq]
    exact h.ops
  view_eq dev id lba hid hdev := by
    rw [htu.num_eq] at hid
    rw [htu.table_eq] at hdev
    rw [htu.view_eq dev id lba hid hdev, h.view_eq dev id lba hid hdev, lastWrite_snoc, he]
  storage_eq dev hdev := by
    have hdev' : ¬Registered t dev := by rwa [Registered, ← htu.num_eq, ← htu.table_eq]
    rw [htu.storage_eq dev hdev', h.storage_eq dev hdev']
  notWritten id lba hid := by
    rw [htu.num_eq] at hid
    rw [lastWrite_snoc, he, h.notWritten id lba hid]

/-- The state after the device `dev` has been registered. -/
def State.register (s : State) (dev : ℕ) : State :=
  { s with
    devId := Function.update s.devId dev s.numRegisteredDevices
    blockDeviceTable := Function.update s.blockDeviceTable s.numRegisteredDevices (some dev)
    numRegisteredDevices := s.numRegisteredDevices + 1 }

theorem blockDeviceTable_register_self :
    (s.register dev).blockDeviceTable s.numRegisteredDevices = some dev :=
  Function.update_self _ _ s.blockDeviceTable

theorem blockDeviceTable_register_of_lt (hid : id < s.numRegisteredDevices) :
    (s.register dev).blockDeviceTable id = s.blockDeviceTable id :=
  Function.update_of_ne hid.ne _ s.blockDeviceTable

/-- Registering a device that has no number yet keeps the invariant: entries belong to numbers
already given out, so none is of the new number. -/
theorem Inv.register (hs : Inv d s) (hnum : s.numRegisteredDevices < maxBlockDevices)
    (hdev : ¬Registered s dev) : Inv d (s.register dev) where
  numRegistered_le := hnum
  injective id hid id' hid' heq := by
    rcases Nat.lt_succ_iff_lt_or_eq.mp hid with hid | rfl <;>
      rcases Nat.lt_succ_iff_lt_or_eq.mp hid' with hid' | rfl
    · rw [blockDeviceTable_register_of_lt hid, blockDeviceTable_register_of_lt hid'] at heq
      exact hs.injective id hid id' hid' heq
    · rw [blockDeviceTable_register_of_lt hid, blockDeviceTable_register_self] at heq
      exact absurd ⟨id, hid, heq⟩ hdev
    · rw [blockDeviceTable_register_of_lt hid', blockDeviceTable_register_self] at heq
      exact absurd ⟨id', hid', heq.symm⟩ hdev
    · rfl
  unique := hs.unique
  registered i hi hvalid := Nat.lt_succ_of_lt (hs.registered i hi hvalid)
  inRange i hi dev' id lba hholds hdev' := by
    obtain ⟨hvalid, rfl, -⟩ := BufferCacheEntry.holds_iff.mp hholds
    have hold := hs.registered i hi hvalid
    exact hs.inRange i hi dev' _ lba hholds
      ((blockDeviceTable_register_of_lt hold).symm.trans hdev')
  clean i hi dev' id lba hholds hdirty hdev' := by
    obtain ⟨hvalid, rfl, -⟩ := BufferCacheEntry.holds_iff.mp hholds
    have hold := hs.registered i hi hvalid
    exact hs.clean i hi dev' _ lba hholds hdirty
      ((blockDeviceTable_register_of_lt hold).symm.trans hdev')

theorem History.register {e : Call × Ret} (h : History d s es t)
    (hnum : t.numRegisteredDevices < maxBlockDevices) (hops : (d.device dev).ops.isSome)
    (hdev : ¬Registered t dev) (he : record (lastWrite es) e = lastWrite es) :
    History d s (es ++ [e]) (t.register dev) where
  inv := h.inv.register hnum hdev
  ops id hid dev' hdev' := by
    rcases Nat.lt_succ_iff_lt_or_eq.mp hid with hid | rfl
    · rw [blockDeviceTable_register_of_lt hid] at hdev'
      exact h.ops id hid dev' hdev'
    · rw [blockDeviceTable_register_self, Option.some_inj] at hdev'
      rwa [← hdev']
  view_eq dev' id lba hid hdev' := by
    rw [lastWrite_snoc, he]
    rcases Nat.lt_succ_iff_lt_or_eq.mp hid with hid | rfl
    · rw [blockDeviceTable_register_of_lt hid] at hdev'
      exact h.view_eq dev' id lba hid hdev'
    · rw [blockDeviceTable_register_self, Option.some_inj] at hdev'
      subst hdev'
      rw [h.notWritten _ lba le_rfl, Option.getD_none, view_of_notCached]
      · exact congrFun (h.storage_eq dev hdev) lba
      · intro i hi
        by_contra hholds
        rw [Bool.not_eq_false] at hholds
        obtain ⟨hvalid, hid', -⟩ := BufferCacheEntry.holds_iff.mp hholds
        exact absurd hid' (h.inv.registered i hi hvalid).ne
  storage_eq dev' hdev' := by
    refine h.storage_eq dev' ?_
    rintro ⟨id, hid, hid'⟩
    exact hdev' ⟨id, Nat.lt_succ_of_lt hid, by rwa [blockDeviceTable_register_of_lt hid]⟩
  notWritten id lba hid := by
    rw [lastWrite_snoc, he, h.notWritten id lba (Nat.le_of_succ_le hid)]

/-- A write that has an entry to go to sets the block and no other. -/
theorem History.write {i : ℕ} (data : Block) (h : History d s es t) (hslot : Slot t id lba i)
    (hid : id < t.numRegisteredDevices) (hdev : t.blockDeviceTable id = some dev)
    (hlba : lba < (d.device dev).blockCount) :
    History d s (es ++ [(.write id lba (some data), .status (.ok ()))])
      (t.setEntry i ⟨id, lba, true, true, data⟩) := by
  have hinv : Inv d (t.setEntry i ⟨id, lba, true, true, data⟩) :=
    h.inv.setEntry hslot hid hdev hlba fun hdirty ↦ absurd hdirty.symm Bool.false_ne_true
  refine ⟨hinv, h.ops, fun dev' id' lba' hid' hdev' ↦ ?_, h.storage_eq, fun id' lba' hid' ↦ ?_⟩
  · rw [h.inv.view_setEntry hslot hinv, lastWrite_snoc, record]
    have hold := h.view_eq dev' id' lba' hid' hdev'
    by_cases hidd : id' = id
    · subst hidd
      rw [Function.update_self]
      by_cases hlbad : lba' = lba
      · rw [if_pos ⟨rfl, hlbad⟩, hlbad, Function.update_self, Option.getD_some]
      · rw [if_neg fun hsame ↦ hlbad hsame.2, Function.update_of_ne hlbad, hold]
    · rw [if_neg fun hsame ↦ hidd hsame.1, Function.update_of_ne hidd, hold]
  · have hne : id' ≠ id := fun heq ↦ absurd hid (not_lt.mpr (heq ▸ hid'))
    rw [lastWrite_snoc, record, Function.update_of_ne hne, h.notWritten id' lba' hid']

/-- Every call that is served keeps the state in step with the history. -/
theorem History.step (h : History d s es t) (c : Call) (hown : OwnStorage t c)
    (hserved : Served d t c) :
    History d s (es ++ [(c, (step d c t).1)]) (step d c t).2 := by
  cases c with
  | registerDevice dev =>
    have hsame : ∀ r, History d s (es ++ [(.registerDevice dev, .status r)]) t :=
      fun r ↦ h.of_transparent (.refl h.inv) (record_of_ne (by rintro _ _ _ ⟨⟩) _ _)
    cases dev with
    | none => exact hsame _
    | some dev =>
      unfold Blk.step blkRegisterDevice
      dsimp only
      split_ifs with hops hnum
      · exact hsame _
      · exact hsame _
      · rw [Option.isNone_iff_eq_none, ← ne_eq, Option.ne_none_iff_isSome] at hops
        exact h.register (not_le.mp hnum) hops hown (record_of_ne (by rintro _ _ _ ⟨⟩) _ _)
  | read id lba buf =>
    exact h.of_transparent (transparent_blkRead h.inv hserved)
      (record_of_ne (by rintro _ _ _ ⟨⟩) _ _)
  | write id lba buf =>
    have hsame : ∀ e, History d s (es ++ [(.write id lba buf, .status (.error e))]) t :=
      fun e ↦ h.of_transparent (.refl h.inv) (by cases buf <;> rfl)
    cases buf with
    | none => exact hsame _
    | some data =>
      obtain ⟨hid, hroom⟩ := hserved
      unfold Blk.step blkWrite
      dsimp only
      split
      · exact hsame _
      next dev hdev =>
      have hid' : id < t.numRegisteredDevices := hid (by rw [hdev]; rfl)
      split_ifs with hlba
      · exact hsame _
      split
      · next i hi =>
        exact h.write data (h.inv.slot hi) hid' (blkGetDevice_eq_some hdev) (not_le.mp hlba)
      · next hnone =>
        have hsome := hroom dev hdev (not_le.mp hlba)
        rw [hnone] at hsome
        cases hsome
  | flush id =>
    exact h.of_transparent (transparent_blkFlush h.inv) (record_of_ne (by rintro _ _ _ ⟨⟩) _ _)
  | cacheFlushAll =>
    simp only [Blk.step]
    exact h.of_transparent (transparent_blkCacheFlushAll h.inv)
      (record_of_ne (by rintro _ _ _ ⟨⟩) _ _)

theorem history_of_run
    (hrun : Run (step d) (fun u c ↦ OwnStorage u c ∧ Served d u c) (blkInit s) es t) :
    History d s es t := by
  induction hrun with
  | nil => exact history_blkInit d s
  | snoc _ c allowed ih => exact ih.step c allowed.1 allowed.2

/-- In every run over drivers that do not fail, in which each device is registered once and each
call is served, every block of every device behaves as the element of an array, and `blk_flush` of
the device succeeds. -/
theorem blk_behaves_as_array (hd : d.NonFailing)
    (hrun : Run (step d) (fun u c ↦ OwnStorage u c ∧ Served d u c) (blkInit s) es t)
    (hid : id < t.numRegisteredDevices) (hdev : t.blockDeviceTable id = some dev)
    (hlba : lba < (d.device dev).blockCount) :
    BehavesAsArray d es t dev id lba (s.storage dev lba) ∧ (blkFlush d id t).1 = .ok () := by
  have h := history_of_run hrun
  have hget : blkGetDevice t id = some dev := by
    have hmax : ¬id ≥ maxBlockDevices := not_le.mpr (hid.trans_le h.inv.numRegistered_le)
    rw [blkGetDevice, if_neg hmax, hdev]
  obtain ⟨ops, hops⟩ := Option.isSome_iff_exists.mp (h.ops id hid dev hdev)
  have hall := hd.ops_eq dev ops hops
  subst hall
  have hread : d.hasRead dev = true := by rw [Drivers.hasRead, hops]; rfl
  have hwrite : d.hasWrite dev = true := by rw [Drivers.hasWrite, hops]; rfl
  have hflush : d.hasFlush dev = true := by rw [Drivers.hasFlush, hops]; rfl
  refine ⟨⟨?_, fun hok ↦ ?_⟩, ?_⟩
  · rw [returned_blkRead hget hlba hread (hd.answer_eq _), h.view_eq dev id lba hid hdev]
  · rw [storage_blkFlush h.inv hget hid hok, h.view_eq dev id lba hid hdev]
  · rw [returned_blkFlush hget hwrite hflush hd.answer_eq]

/-- The first 32 blocks of a device, each written once. -/
theorem blk_behaves_as_array_filled : ∃ es, Run (step zeroDrivers)
      (fun u c ↦ OwnStorage u c ∧ Served zeroDrivers u c) (blkInit bootState) es
      (filled bufferCacheEntries) ∧
    BehavesAsArray zeroDrivers es (filled bufferCacheEntries) 0 0 5 (Buf.zero 512) ∧
    (blkFlush zeroDrivers 0 (filled bufferCacheEntries)).1 = .ok () := by
  obtain ⟨es, hrun⟩ :=
    run_filled (fun u c ↦ OwnStorage u c ∧ Served zeroDrivers u c)
      (le_refl bufferCacheEntries) ⟨not_registered_bootState, trivial⟩ fun j hj ↦
        ⟨trivial, fun _ ↦ Nat.one_pos, fun dev _ _ ↦ by
          rw [blkCacheLookup_filled, blkCacheFindEmpty_filled hj]
          rfl⟩
  exact ⟨es, hrun, blk_behaves_as_array nonFailing_zeroDrivers hrun Nat.one_pos rfl (by decide)⟩

end Blk

end Mcsos
