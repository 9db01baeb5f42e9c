import Mcsos.Block.Array
import Mathlib.Data.List.Infix

/-!
# Device numbers across resets

The registry has two parts: `num_registered_devices`, which `blk_init` sets back to zero, and
`block_device_table`, which it leaves. A run with resets therefore has two histories. The devices
registered since the last reset (`registeredSince`) are in the first places of the table, in the
order of their numbers. Above them the table has what the earlier periods left, up to the place of
the longest one.

So the numbers are exactly those of the devices registered since the last reset just when no earlier
period was longer (`numbersExactly_iff`). Otherwise `blk_get_device`, `blk_read` and `blk_write`
still reach a device that the reset was to drop (`dropped_device_served`).
-/

namespace Mcsos

namespace Blk

variable {d : Drivers} {s t u : State} {dev id lba : ℕ}

/-! ## Calls that do not register -/

/-- The registry is as it was. -/
structure SameRegistry (s t : State) : Prop where
  table_eq : t.blockDeviceTable = s.blockDeviceTable
  num_eq : t.numRegisteredDevices = s.numRegisteredDevices

namespace SameRegistry

protected theorem refl (s : State) : SameRegistry s s := ⟨rfl, rfl⟩

protected theorem trans (h : SameRegistry s t) (h' : SameRegistry t u) : SameRegistry s u :=
  ⟨h'.table_eq.trans h.table_eq, h'.num_eq.trans h.num_eq⟩

end SameRegistry

theorem sameRegistry_flushAllEntry (d : Drivers) (r : ℤ × State) (i : ℕ) :
    SameRegistry r.2 (flushAllEntry d r i).2 := by
  rw [flushAllEntry_eq]
  split
  · split
    · exact .refl _
    · split_ifs
      · exact .refl _
      · exact ⟨rfl, rfl⟩
      · exact ⟨rfl, rfl⟩
  · exact .refl _

theorem sameRegistry_blkCacheFlushAll (d : Drivers) (s : State) :
    SameRegistry s (blkCacheFlushAll d s).2 := by
  rw [blkCacheFlushAll]
  generalize List.range bufferCacheEntries = is
  generalize hr : (blkOk, s) = r
  obtain rfl : r.2 = s := congrArg Prod.snd hr.symm
  clear hr
  induction is generalizing r with
  | nil => exact .refl _
  | cons i is ih => exact (sameRegistry_flushAllEntry d r i).trans (ih _)

theorem sameRegistry_flushEntries (d : Drivers) (dev id : ℕ) (is : List ℕ) (s : State) :
    SameRegistry s (flushEntries d dev id is s).2 := by
  induction is generalizing s with
  | nil => exact .refl s
  | cons i is ih =>
    rw [flushEntries_cons]
    split_ifs
    · exact .refl s
    · have hback : SameRegistry s (s.writeBack dev i) := ⟨rfl, rfl⟩
      exact hback.trans (ih _)
    · exact ⟨rfl, rfl⟩
    · exact ih s

theorem sameRegistry_blkFlush (d : Drivers) (id : ℕ) (s : State) :
    SameRegistry s (blkFlush d id s).2 := by
  rw [blkFlush]
  split
  · exact .refl s
  next dev _ =>
  split
  · exact .refl s
  have h := sameRegistry_flushEntries d dev id (List.range bufferCacheEntries) s
  split
  · next heq => rwa [heq] at h
  · next heq =>
    rw [heq] at h
    exact h.trans ⟨rfl, rfl⟩

theorem sameRegistry_blkRead (d : Drivers) (id lba : ℕ) (buf : Bool) (s : State) :
    SameRegistry s (blkRead d id lba buf s).2 := by
  rw [blkRead]
  split
  · exact .refl s
  split
  · exact .refl s
  split
  · exact .refl s
  split
  · exact .refl s
  split
  · exact .refl s
  dsimp only [driverRead]
  split
  · exact ⟨rfl, rfl⟩
  · split <;> exact ⟨rfl, rfl⟩

theorem sameRegistry_blkWrite (d : Drivers) (id lba : ℕ) (buf : Option Block) (s : State) :
    SameRegistry s (blkWrite d id lba buf s).2 := by
  unfold blkWrite
  split
  · exact .refl s
  split
  · exact .refl s
  split
  · exact .refl s
  split
  · exact ⟨rfl, rfl⟩
  · exact .refl s

/-- A registration succeeds and takes the next number, or it changes nothing. -/
theorem blkRegisterDevice_cases (d : Drivers) (dev : Option ℕ) (s : State) :
    (∃ a, dev = some a ∧ s.numRegisteredDevices < maxBlockDevices ∧
        blkRegisterDevice d dev s = (.ok (), s.register a)) ∨
      blkRegisterDevice d dev s = (.error (.code blkErrInvalidDev), s) := by
  cases dev with
  | none => exact .inr rfl
  | some a =>
    rw [blkRegisterDevice]
    split_ifs with hops hnum
    · exact .inr rfl
    · exact .inr rfl
    · exact .inl ⟨a, rfl, not_le.mp hnum, rfl⟩

/-! ## Runs with resets -/

/-- A call of the layer's interface, `blk_init` included. -/
inductive Request
  | init
  | call (c : Call)

def serve (d : Drivers) : Request → State → Ret × State
  | .init, s => (.status (.ok ()), blkInit s)
  | .call c, s => step d c s

/-- `ramblk_init`: two requests, a reset and the registration of the static device at `dev`. -/
def ramblkInit (d : Drivers) (dev : ℕ) (s : State) : Ret × State :=
  serve d (.call (.registerDevice (some dev))) (serve d .init s).2

/-- The devices registered since the last reset, after one more event. -/
def enrol (devs : List ℕ) : Request × Ret → List ℕ
  | (.init, _) => []
  | (.call (.registerDevice (some dev)), .status (.ok ())) => devs ++ [dev]
  | _ => devs

/-- The devices whose registration succeeded since the last reset, in the order of their numbers. -/
def registeredSince (es : List (Request × Ret)) : List ℕ := es.foldl enrol []

theorem registeredSince_snoc (es : List (Request × Ret)) (e : Request × Ret) :
    registeredSince (es ++ [e]) = enrol (registeredSince es) e := by
  rw [registeredSince, List.foldl_append]
  rfl

theorem serve_cases (d : Drivers) (q : Request) (s : State) (devs : List ℕ) :
    (q = .init ∧ (serve d q s).2 = blkInit s ∧ enrol devs (q, (serve d q s).1) = []) ∨
      (∃ a, s.numRegisteredDevices < maxBlockDevices ∧ (serve d q s).2 = s.register a ∧
        enrol devs (q, (serve d q s).1) = devs ++ [a]) ∨
      (SameRegistry s (serve d q s).2 ∧ enrol devs (q, (serve d q s).1) = devs) := by
  cases q with
  | init => exact .inl ⟨rfl, rfl, rfl⟩
  | call c =>
    right
    cases c with
    | registerDevice dev =>
      rcases blkRegisterDevice_cases d dev s with ⟨a, rfl, hnum, heq⟩ | heq
      · exact .inl ⟨a, hnum, by rw [serve, step, heq], by rw [serve, step, heq]; rfl⟩
      · right
        rw [serve, step, heq]
        refine ⟨.refl s, ?_⟩
        cases dev <;> rfl
    | read id lba buf => exact .inr ⟨sameRegistry_blkRead d id lba buf s, rfl⟩
    | write id lba buf => exact .inr ⟨sameRegistry_blkWrite d id lba buf s, rfl⟩
    | flush id => exact .inr ⟨sameRegistry_blkFlush d id s, rfl⟩
    | cacheFlushAll =>
      simp only [serve, step]
      exact .inr ⟨sameRegistry_blkCacheFlushAll d s, rfl⟩

/-- The number was given out at some time of the run, before the last reset or after it. -/
def GivenOut (es : List (Request × Ret)) (id : ℕ) : Prop :=
  ∃ es', es' <+: es ∧ id < (registeredSince es').length

variable {es : List (Request × Ret)} {e : Request × Ret}

theorem givenOut_of_lt (h : id < (registeredSince es).length) : GivenOut es id :=
  ⟨es, List.prefix_rfl, h⟩

theorem not_givenOut_nil : ¬GivenOut [] id := by
  rintro ⟨es', hes, hid⟩
  rw [List.prefix_nil.mp hes] at hid
  exact Nat.not_lt_zero id hid

theorem givenOut_snoc :
    GivenOut (es ++ [e]) id ↔ GivenOut es id ∨ id < (registeredSince (es ++ [e])).length := by
  constructor
  · rintro ⟨es', hes, hid⟩
    rcases List.prefix_concat_iff.mp hes with rfl | hes
    · exact .inr hid
    · exact .inl ⟨es', hes, hid⟩
  · rintro (⟨es', hes, hid⟩ | hid)
    · exact ⟨es', hes.trans (List.prefix_append es [e]), hid⟩
    · exact givenOut_of_lt hid

/-- The registry after the events `es`: the devices registered since the last reset are the first
of the table, and a place of the table is taken once its number has been given out. -/
structure Lists (es : List (Request × Ret)) (s : State) : Prop where
  num_eq : s.numRegisteredDevices = (registeredSince es).length
  num_le : (registeredSince es).length ≤ maxBlockDevices
  current : ∀ id < (registeredSince es).length, s.blockDeviceTable id = (registeredSince es)[id]?
  taken : ∀ id, (s.blockDeviceTable id).isSome ↔ GivenOut es id

namespace Lists

theorem init (h : Lists es s) (he : registeredSince (es ++ [e]) = []) :
    Lists (es ++ [e]) (blkInit s) where
  num_eq := by rw [he]; rfl
  num_le := by rw [he]; exact Nat.zero_le _
  current id hid := by
    rw [he] at hid
    exact absurd hid (Nat.not_lt_zero id)
  taken id := by
    rw [givenOut_snoc, he]
    exact (h.taken id).trans (or_iff_left (Nat.not_lt_zero id)).symm

theorem register (h : Lists es s) (hnum : s.numRegisteredDevices < maxBlockDevices)
    (he : registeredSince (es ++ [e]) = registeredSince es ++ [dev]) :
    Lists (es ++ [e]) (s.register dev) where
  num_eq := by
    rw [he, List.length_append, ← h.num_eq]
    rfl
  num_le := by
    rw [he, List.length_append, ← h.num_eq]
    exact hnum
  current id hid := by
    rw [he, List.length_append] at hid
    rw [he]
    rcases Nat.lt_succ_iff_lt_or_eq.mp hid with hid | rfl
    · rw [blockDeviceTable_register_of_lt (hid.trans_eq h.num_eq.symm), h.current id hid,
        List.getElem?_append_left hid]
    · rw [List.getElem?_concat_length, ← h.num_eq, blockDeviceTable_register_self]
  taken id := by
    rw [givenOut_snoc, he, List.length_append, ← h.taken id, ← h.num_eq]
    by_cases hid : id = s.numRegisteredDevices
    · subst hid
      rw [blockDeviceTable_register_self]
      exact iff_of_true rfl (.inr (Nat.lt_succ_self _))
    · have htable : (s.register dev).blockDeviceTable id = s.blockDeviceTable id :=
        Function.update_of_ne hid _ s.blockDeviceTable
      rw [htable]
      -- A number below the new one is in the table already.
      refine (or_iff_left_of_imp fun hlt ↦ ?_).symm
      have hbelow : id < s.numRegisteredDevices := lt_of_le_of_ne (Nat.le_of_lt_succ hlt) hid
      exact (h.taken id).mpr (givenOut_of_lt (hbelow.trans_eq h.num_eq))

theorem same (h : Lists es s) (hst : SameRegistry s t)
    (he : registeredSince (es ++ [e]) = registeredSince es) : Lists (es ++ [e]) t where
  num_eq := by rw [hst.num_eq, he, h.num_eq]
  num_le := by rw [he]; exact h.num_le
  current := by
    rw [he, hst.table_eq]
    exact h.current
  taken id := by
    rw [givenOut_snoc, he, hst.table_eq, h.taken id]
    exact (or_iff_left_of_imp givenOut_of_lt).symm

theorem serve (h : Lists es s) (d : Drivers) (q : Request) :
    Lists (es ++ [(q, (serve d q s).1)]) (Blk.serve d q s).2 := by
  rcases serve_cases d q s (registeredSince es) with
    ⟨-, hstate, he⟩ | ⟨a, hnum, hstate, he⟩ | ⟨hsame, he⟩ <;> rw [← registeredSince_snoc] at he
  · rw [hstate]
    exact h.init he
  · rw [hstate]
    exact h.register hnum he
  · exact h.same hsame he

/-- `blk_get_device` answers for exactly the numbers given out at some time. -/
theorem isSome_blkGetDevice (h : Lists es s) (hle : ∀ id, GivenOut es id → id < maxBlockDevices)
    (id : ℕ) : (blkGetDevice s id).isSome ↔ GivenOut es id := by
  rw [blkGetDevice]
  split_ifs with hid
  · exact iff_of_false Bool.false_ne_true fun hgiven ↦ absurd (hle id hgiven) (not_lt.mpr hid)
  · exact h.taken id

end Lists

theorem lists_of_run (hs : ∀ id, s.blockDeviceTable id = none) (hnum : s.numRegisteredDevices = 0)
    (hrun : Run (serve d) (fun _ _ ↦ True) s es t) :
    Lists es t ∧ ∀ id, GivenOut es id → id < maxBlockDevices := by
  induction hrun with
  | nil =>
    refine ⟨⟨hnum, Nat.zero_le _, fun id hid ↦ absurd hid (Nat.not_lt_zero id), fun id ↦ ?_⟩,
      fun id hid ↦ absurd hid not_givenOut_nil⟩
    rw [hs id]
    exact iff_of_false Bool.false_ne_true not_givenOut_nil
  | snoc _ q _ ih =>
    have hnext := ih.1.serve d q
    refine ⟨hnext, fun id hid ↦ ?_⟩
    rcases givenOut_snoc.mp hid with hid | hid
    · exact ih.2 id hid
    · exact hid.trans_le hnext.num_le

/-! ## Valid numbers -/

/-- The numbers are those of the devices `devs`, in their order. Reads and writes with any other
number are refused. -/
structure NumbersExactly (d : Drivers) (s : State) (devs : List ℕ) : Prop where
  get : ∀ id, blkGetDevice s id = devs[id]?
  read : ∀ id lba, devs.length ≤ id →
    blkRead d id lba true s = (.error (.code blkErrInvalidDev), s)
  write : ∀ id lba data, devs.length ≤ id →
    blkWrite d id lba (some data) s = (.error (.code blkErrInvalidDev), s)

theorem numbersExactly_of_get {devs : List ℕ} (h : ∀ id, blkGetDevice s id = devs[id]?) :
    NumbersExactly d s devs where
  get := h
  read id lba hid := by
    have hnone : blkGetDevice s id = none := (h id).trans (List.getElem?_eq_none hid)
    rw [blkRead, hnone]
    rfl
  write id lba data hid := by
    have hnone : blkGetDevice s id = none := (h id).trans (List.getElem?_eq_none hid)
    rw [blkWrite, hnone]

/-- In every run from the start of the system, the valid numbers are exactly those of the devices
registered since the last reset if and only if no earlier period had registered more devices. -/
theorem numbersExactly_iff (hs : ∀ id, s.blockDeviceTable id = none)
    (hnum : s.numRegisteredDevices = 0) (hrun : Run (serve d) (fun _ _ ↦ True) s es t) :
    NumbersExactly d t (registeredSince es) ↔
      ∀ es', es' <+: es → (registeredSince es').length ≤ (registeredSince es).length := by
  obtain ⟨hlists, hle⟩ := lists_of_run hs hnum hrun
  have hsome := hlists.isSome_blkGetDevice hle
  constructor
  · intro h es' hes
    by_contra hlong
    -- The first number that no device has now was given out before.
    have hgiven := (hsome (registeredSince es).length).mpr ⟨es', hes, not_le.mp hlong⟩
    rw [h.get, List.getElem?_eq_none le_rfl] at hgiven
    exact Bool.false_ne_true hgiven
  · intro h
    refine numbersExactly_of_get fun id ↦ ?_
    by_cases hid : id < (registeredSince es).length
    · rw [blkGetDevice, if_neg (not_le.mpr (hid.trans_le hlists.num_le)), hlists.current id hid]
    · rw [List.getElem?_eq_none (not_lt.mp hid), ← Option.not_isSome_iff_eq_none, hsome]
      rintro ⟨es', hes, hid'⟩
      exact hid (hid'.trans_le (h es' hes))

/-- The RAM device is initialised twice, and no other device is registered. -/
theorem numbersExactly_iff_twice : ∃ es t,
    Run (serve zeroDrivers) (fun _ _ ↦ True) bootState es t ∧ registeredSince es = [0] ∧
      NumbersExactly zeroDrivers t [0] := by
  have hrun : Run (serve zeroDrivers) (fun _ _ ↦ True) bootState _ _ :=
    (((Run.nil.snoc .init trivial).snoc (.call (.registerDevice (some 0))) trivial).snoc .init
      trivial).snoc (.call (.registerDevice (some 0))) trivial
  refine ⟨_, _, hrun, rfl, (numbersExactly_iff (fun _ ↦ rfl) rfl hrun).mpr fun es' hes ↦ ?_⟩
  rw [← List.mem_inits] at hes
  revert es'
  decide

/-- A second device is registered after the RAM device, which is then initialised again. The reset
drops the second device, but its number still reaches it. -/
theorem dropped_device_served :
    ¬∀ (d : Drivers) (es : List (Request × Ret)) (t : State),
      Run (serve d) (fun _ _ ↦ True) bootState es t → NumbersExactly d t (registeredSince es) := by
  intro h
  have hrun : Run (serve zeroDrivers) (fun _ _ ↦ True) bootState _ _ :=
    ((((Run.nil.snoc .init trivial).snoc (.call (.registerDevice (some 0))) trivial).snoc
      (.call (.registerDevice (some 1))) trivial).snoc .init trivial).snoc
        (.call (.registerDevice (some 0))) trivial
  have hget := (h _ _ _ hrun).get 1
  exact absurd hget (by decide)

end Blk

end Mcsos
