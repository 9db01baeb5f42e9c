import Mcsos.Pmm.Reserved
import Mcsos.Vmm.Kernel

/-!
# Page tables and clients that share the frame allocator

The address space takes its tables from the same allocator as its clients. The tables are seen here
as frames: `reach` follows the entries from the root frame, and what a frame holds is read through
`phys_to_virt`. That function is only assumed to be injective; where it gives `NULL`, the frame is
given back and the call fails.

`Inv` joins the two components: the tables form a tree of frames that are neither free nor in the
hands of a client. A new table comes from the free frames, so it is in neither set.
-/

namespace Mcsos

namespace Vmm

open TableTree

variable (physToVirt : BitVec 64 → Option ℕ) (root : BitVec 64)

/-- The address space with the frame allocator as its callbacks. -/
def pmmSpace : VmmSpace Pmm.State :=
  ⟨root, some kernelVmmAlloc, some kernelVmmFree, some physToVirt⟩

/-- What the table in a frame holds. A frame without a pointer cannot be read. -/
def frameMem (mem : ℕ → Fin entriesPerTable → BitVec 64) (a : BitVec 64)
    (i : Fin entriesPerTable) : BitVec 64 :=
  match physToVirt a with
  | none => 0
  | some table => mem table i

def storeFrame (mem : ℕ → Fin entriesPerTable → BitVec 64) (a : BitVec 64)
    (i : Fin entriesPerTable) (e : BitVec 64) : ℕ → Fin entriesPerTable → BitVec 64 :=
  match physToVirt a with
  | none => mem
  | some table => write mem table i e

/-- The frame that an entry above the last level refers to. -/
def nextFrame (e : BitVec 64) : Option (BitVec 64) :=
  if e &&& ptePresent = 0 ∨ e &&& pteHuge ≠ 0 then none else some (e &&& pteAddrMask)

/-- The frame reached from the root by following the indices. -/
def reachFrame (mem : ℕ → Fin entriesPerTable → BitVec 64) (p : List (Fin entriesPerTable)) :
    Option (BitVec 64) := walk nextFrame (frameMem physToVirt mem) root p

/-! ## The system -/

namespace Frames

/-- The address space, with the allocator as its context, and the frames that the clients have
obtained and not freed. -/
structure System where
  vmm : State Pmm.State
  client : Finset (BitVec 64)

/-- A call on the address space or the allocator, or a store of a client into one of its frames. -/
inductive Op
  | space (c : Call)
  | allocFrame
  | freeFrame (a : BitVec 64)
  | store (a : BitVec 64) (i : Fin entriesPerTable) (e : BitVec 64)

inductive Answer
  | space (r : Ret)
  | frame (a : BitVec 64)
  | freed (r : Bool)
  | stored

def step : Op → System → Answer × System
  | .space c, s =>
    let r := Vmm.step (pmmSpace physToVirt root) c s.vmm
    (.space r.1, { s with vmm := r.2 })
  | .allocFrame, s =>
    let (a, pmm) := kernelVmmAlloc s.vmm.ctx
    (.frame a, ⟨{ s.vmm with ctx := pmm }, if a = invalidPhys then s.client else insert a s.client⟩)
  | .freeFrame a, s =>
    let (freed, pmm) := Pmm.freeFrame s.vmm.ctx (UInt64.ofBitVec a)
    (.freed freed, ⟨{ s.vmm with ctx := pmm }, if freed then s.client.erase a else s.client⟩)
  | .store a i e, s =>
    (.stored, { s with vmm := { s.vmm with mem := storeFrame physToVirt s.vmm.mem a i e } })

/-- Clients free frames, and store into frames, that they have obtained and not freed. -/
def Allowed (s : System) : Op → Prop
  | .space _ => True
  | .allocFrame => True
  | .freeFrame a => a ∈ s.client
  | .store a _ _ => a ∈ s.client

/-- The frames that are tables. -/
def tables (s : System) : Set (BitVec 64) :=
  {a | ∃ p, p.length ≤ 3 ∧ reachFrame physToVirt root s.vmm.mem p = some a}

/-- The entry `x.2` of the table in frame `x.1`, which is above the last level, is present, is not a
large page and refers to frame `a`. -/
def Refers (s : System) (a : BitVec 64) (x : BitVec 64 × Fin entriesPerTable) : Prop :=
  (∃ p, p.length < 3 ∧ reachFrame physToVirt root s.vmm.mem p = some x.1) ∧
    nextFrame (frameMem physToVirt s.vmm.mem x.1 x.2) = some a

/-- No table is in the hands of a client or free, and each one but the root has one entry that
refers to it. -/
structure Exclusive (s : System) : Prop where
  notMem_client : ∀ a ∈ tables physToVirt root s, a ∉ s.client
  notMem_freeSet : ∀ a ∈ tables physToVirt root s, ∀ f ∈ Pmm.freeSet s.vmm.ctx,
    a.toNat ≠ Pmm.pageSize * f
  existsUnique_refers : ∀ a ∈ tables physToVirt root s, a ≠ root →
    ∃! x, Refers physToVirt root s a x

end Frames

/-! ## Reading frames -/

section FrameMem

variable {physToVirt} (hinj : Function.Injective physToVirt)
  {mem : ℕ → Fin entriesPerTable → BitVec 64} {a : BitVec 64} {table : ℕ}
  (ha : physToVirt a = some table)

include ha in
theorem frameMem_of_eq_some (i : Fin entriesPerTable) :
    frameMem physToVirt mem a i = mem table i := by
  rw [frameMem, ha]

include hinj ha

/-- What is stored through the pointer of a frame changes this frame only. -/
theorem frameMem_update (x : Fin entriesPerTable → BitVec 64) :
    frameMem physToVirt (Function.update mem table x) =
      Function.update (frameMem physToVirt mem) a x := by
  funext b i
  by_cases hba : b = a
  · rw [hba, frameMem_of_eq_some ha, Function.update_self, Function.update_self]
  · rw [Function.update_of_ne hba, frameMem, frameMem]
    cases hb : physToVirt b with
    | none => rfl
    | some table' =>
      have hne : table' ≠ table := by
        rintro rfl
        exact hba (hinj (hb.trans ha.symm))
      dsimp only
      rw [Function.update_of_ne hne]

theorem frameMem_write (i : Fin entriesPerTable) (e : BitVec 64) :
    frameMem physToVirt (write mem table i e) = write (frameMem physToVirt mem) a i e := by
  have hmem : mem table = frameMem physToVirt mem a :=
    funext fun i ↦ (frameMem_of_eq_some ha i).symm
  rw [write, write, frameMem_update hinj ha, hmem]

theorem frameMem_fill (e : BitVec 64) :
    frameMem physToVirt (fill mem table e) = fill (frameMem physToVirt mem) a e :=
  frameMem_update hinj ha _

end FrameMem

theorem nextFrame_zero : nextFrame 0 = none := if_pos (.inl BitVec.zero_and)

theorem nextFrame_entry {a : BitVec 64} (ha : IsFrame a) :
    nextFrame (entry a pteWritable) = some a := by
  have hwritable : pteWritable &&& pteAddrMask = 0#64 := by decide
  rw [nextFrame, if_neg, entry_and_pteAddrMask a hwritable, ha.and_pteAddrMask]
  rintro (h | h)
  · exact entry_present a _ h
  · exact h (entry_pteWritable_huge a)

/-! ## The allocator -/

namespace Frames

/-- The address of a frame of the memory that is not free. -/
def Taken (pmm : Pmm.State) (a : BitVec 64) : Prop :=
  a.toNat % Pmm.pageSize = 0 ∧ a.toNat < pmm.maxPhys ∧ a.toNat / Pmm.pageSize ∉ Pmm.freeSet pmm

/-- An allocator whose frames fit into an entry. -/
structure Addressable (pmm : Pmm.State) : Prop where
  ready : Pmm.Ready pmm
  maxPhys_le : pmm.maxPhys ≤ 2 ^ 52

variable {pmm : Pmm.State} {a b : BitVec 64}

theorem Addressable.isFrame (h : Addressable pmm) (ha : Taken pmm a) : IsFrame a :=
  ⟨(vmmIsAligned4k_iff a).mpr ha.1, ha.2.1.trans_le h.maxPhys_le⟩

theorem Addressable.kernelVmmAlloc (h : Addressable pmm) :
    Addressable (kernelVmmAlloc pmm).2 ∧ (∀ b, Taken pmm b → Taken (kernelVmmAlloc pmm).2 b) ∧
      ((kernelVmmAlloc pmm).1 = invalidPhys ∨
        Taken (kernelVmmAlloc pmm).2 (kernelVmmAlloc pmm).1 ∧
          ¬Taken pmm (kernelVmmAlloc pmm).1) := by
  by_cases hempty : Pmm.freeSet pmm = ∅
  · rw [Vmm.kernelVmmAlloc, Pmm.allocFrame_of_empty h.ready.toInv hempty]
    exact ⟨h, fun _ ↦ id, .inl rfl⟩
  obtain ⟨f, hf⟩ := Pmm.exists_isLeast hempty
  obtain ⟨haddr, hset, hsame, -⟩ := Pmm.takeFrame_spec h.ready.toInv hf
  have hready := h.ready.allocFrame
  have hlt : Pmm.pageSize * f < pmm.maxPhys := by
    rw [h.ready.maxPhys_eq, mul_comm]
    exact Nat.mul_lt_mul_of_pos_right (Pmm.mem_freeSet.mp hf.1).1 (by decide)
  rw [Vmm.kernelVmmAlloc]
  rw [Pmm.allocFrame_of_isLeast h.ready hf] at hready ⊢
  rw [haddr]
  refine ⟨⟨hready, hsame.maxPhys.trans_le h.maxPhys_le⟩, fun b hb ↦ ?_, .inr ⟨?_, ?_⟩⟩
  · rw [Taken, hsame.maxPhys, hset]
    exact ⟨hb.1, hb.2.1, fun hmem ↦ hb.2.2 (Finset.mem_of_mem_erase hmem)⟩
  · rw [Taken, toNat_frameAddr h.ready.toInv hf.1, hsame.maxPhys, hset,
      Nat.mul_div_cancel_left f (by decide)]
    exact ⟨Nat.mul_mod_right _ _, hlt, Finset.notMem_erase f _⟩
  · rintro ⟨-, -, hnot⟩
    rw [toNat_frameAddr h.ready.toInv hf.1, Nat.mul_div_cancel_left f (by decide)] at hnot
    exact hnot hf.1

theorem Addressable.freeFrame (h : Addressable pmm) (a : BitVec 64) :
    Addressable (Pmm.freeFrame pmm (UInt64.ofBitVec a)).2 ∧
      ∀ b, b ≠ a → Taken pmm b → Taken (Pmm.freeFrame pmm (UInt64.ofBitVec a)).2 b := by
  have hready := h.ready.freeFrame (UInt64.ofBitVec a)
  by_cases ha : Pmm.Freeable pmm (UInt64.ofBitVec a)
  · have hlt := h.ready.frame_lt ha.2.2.1
    have hsame := Pmm.sameMemory_markFrameFree pmm (a.toNat / Pmm.pageSize)
    rw [Pmm.freeFrame_of_freeable h.ready ha] at hready ⊢
    refine ⟨⟨hready, hsame.maxPhys.trans_le h.maxPhys_le⟩, fun b hba hb ↦ ?_⟩
    refine ⟨hb.1, hb.2.1.trans_eq hsame.maxPhys.symm, ?_⟩
    rw [Pmm.freeSet_markFrameFree hlt, Finset.mem_insert, not_or]
    refine ⟨fun hdiv ↦ hba ?_, hb.2.2⟩
    -- Both addresses are multiples of the page size.
    have haligned : a.toNat % Pmm.pageSize = 0 := ha.2.1
    have hdiv' : b.toNat / Pmm.pageSize = a.toNat / Pmm.pageSize := hdiv
    apply BitVec.eq_of_toNat_eq
    rw [← Nat.div_add_mod b.toNat Pmm.pageSize, ← Nat.div_add_mod a.toNat Pmm.pageSize, hdiv',
      hb.1, haligned]
  · rw [Pmm.freeFrame_of_not_freeable ha]
    exact ⟨h, fun _ _ ↦ id⟩

/-! ## The invariant -/

/-- The tables form a tree of frames that are neither free nor in the hands of a client, and the
entries above the last level are empty or point to tables. -/
structure Inv (s : State Pmm.State) (client : Finset (BitVec 64)) : Prop where
  addressable : Addressable s.ctx
  unshared : Unshared nextFrame (frameMem physToVirt s.mem) root 3
  table : ∀ p a, p.length ≤ 3 → reachFrame physToVirt root s.mem p = some a →
    Taken s.ctx a ∧ a ∉ client
  entries : ∀ p a, p.length < 3 → reachFrame physToVirt root s.mem p = some a →
    ∀ i, frameMem physToVirt s.mem a i = 0 ∨
      ∃ b, IsFrame b ∧ frameMem physToVirt s.mem a i = entry b pteWritable
  client : ∀ a ∈ client, Taken s.ctx a

variable {physToVirt root} {s : State Pmm.State} {client : Finset (BitVec 64)}

theorem Inv.exclusive (hs : Inv physToVirt root s client) :
    Exclusive physToVirt root ⟨s, client⟩ where
  notMem_client := by
    rintro a ⟨p, hp, ha⟩
    exact (hs.table p a hp ha).2
  notMem_freeSet := by
    rintro a ⟨p, hp, ha⟩ f hf hfa
    refine (hs.table p a hp ha).1.2.2 ?_
    rw [hfa, Nat.mul_div_cancel_left f (by decide)]
    exact hf
  existsUnique_refers := by
    rintro a ⟨p, hp, ha⟩ hne
    exact hs.unshared.existsUnique_parent hp ha hne

/-- The allocator and the clients go on, and the frames that are tables stay taken. -/
theorem Inv.withCtx (hs : Inv physToVirt root s client) {pmm : Pmm.State}
    {client' : Finset (BitVec 64)} (hpmm : Addressable pmm)
    (htable : ∀ a, Taken s.ctx a → a ∉ client → Taken pmm a ∧ a ∉ client')
    (hclient : ∀ a ∈ client', Taken pmm a) : Inv physToVirt root ⟨pmm, s.mem⟩ client' where
  addressable := hpmm
  unshared := hs.unshared
  table p a hp ha := htable a (hs.table p a hp ha).1 (hs.table p a hp ha).2
  entries := hs.entries
  client := hclient

/-! ## Adding tables -/

section Link

variable (hinj : Function.Injective physToVirt) (hs : Inv physToVirt root s client)
  {q : List (Fin entriesPerTable)} {table newTable : ℕ} {i : Fin entriesPerTable}
  (hq : reachFrame physToVirt root s.mem q = some a) (hn : q.length < 3)
  (ha : physToVirt a = some table) (hzero : s.mem table i = 0) (hb : physToVirt b = some newTable)
  (htaken : Taken pmm b) (hnew : ¬Taken s.ctx b) (hpmm : Addressable pmm)
  (hmono : ∀ c, Taken s.ctx c → Taken pmm c)

/-- The memory after the table in frame `b` has been put under entry `i` of a table. -/
def linked (s : State Pmm.State) (table newTable : ℕ) (i : Fin entriesPerTable) (b : BitVec 64) :
    ℕ → Fin entriesPerTable → BitVec 64 :=
  write (fill s.mem newTable 0) table i (entry b pteWritable)

include hinj ha hb in
theorem frameMem_linked : frameMem physToVirt (linked s table newTable i b) =
    link (frameMem physToVirt s.mem) a i b 0 (entry b pteWritable) := by
  rw [linked, frameMem_write hinj ha, frameMem_fill hinj hb, link]

include hs hnew

theorem Inv.fresh (p : List (Fin entriesPerTable)) (hp : p.length ≤ 3) :
    reachFrame physToVirt root s.mem p ≠ some b :=
  fun hreach ↦ hnew (hs.table p b hp hreach).1

include hinj hq hn ha hzero hb htaken hpmm

theorem Inv.reach_linked (p : List (Fin entriesPerTable)) (hp : p.length ≤ 3) :
    reachFrame physToVirt root (linked s table newTable i b) p =
      if p = q ++ [i] then some b else reachFrame physToVirt root s.mem p := by
  have hfree : nextFrame (frameMem physToVirt s.mem a i) = none := by
    rw [frameMem_of_eq_some ha, hzero, nextFrame_zero]
  rw [reachFrame, frameMem_linked hinj ha hb]
  exact hs.unshared.walk_link hq hn hfree (hs.fresh hnew) nextFrame_zero
    (nextFrame_entry (hpmm.isFrame htaken)) p hp

include hmono

theorem Inv.linked : Inv physToVirt root ⟨pmm, linked s table newTable i b⟩ client where
  addressable := hpmm
  unshared := by
    have hfree : nextFrame (frameMem physToVirt s.mem a i) = none := by
      rw [frameMem_of_eq_some ha, hzero, nextFrame_zero]
    rw [frameMem_linked hinj ha hb]
    exact hs.unshared.link hq hn hfree (hs.fresh hnew) nextFrame_zero
      (nextFrame_entry (hpmm.isFrame htaken))
  table p c hp hc := by
    rw [hs.reach_linked hinj hq hn ha hzero hb htaken hnew hpmm p hp] at hc
    split_ifs at hc with hpq
    · obtain rfl := Option.some_inj.mp hc
      exact ⟨htaken, fun hclient ↦ hnew (hs.client b hclient)⟩
    · exact ⟨hmono c (hs.table p c hp hc).1, (hs.table p c hp hc).2⟩
  entries p c hp hc j := by
    rw [hs.reach_linked hinj hq hn ha hzero hb htaken hnew hpmm p hp.le] at hc
    rw [frameMem_linked hinj ha hb]
    split_ifs at hc with hpq
    · obtain rfl := Option.some_inj.mp hc
      exact .inl (link_new hq hn (hs.fresh hnew) j)
    · rw [link_old (hs.fresh hnew) hp.le hc]
      split_ifs
      · exact .inr ⟨b, hpmm.isFrame htaken, rfl⟩
      · exact hs.entries p c hp hc j
  client c hc := hmono c (hs.client c hc)

end Link

/-- The pointer is that of the table at the end of the path. -/
def At (physToVirt : BitVec 64 → Option ℕ) (root : BitVec 64) (client : Finset (BitVec 64))
    (q : List (Fin entriesPerTable)) (table : ℕ) (s : State Pmm.State) : Prop :=
  Inv physToVirt root s client ∧
    ∃ a, reachFrame physToVirt root s.mem q = some a ∧ physToVirt a = some table

theorem tableFromPhys_pmmSpace (ha : vmmIsAligned4k a = true) :
    tableFromPhys (pmmSpace physToVirt root) a = physToVirt a := by
  rw [tableFromPhys, pmmSpace]
  dsimp only
  rw [ha]
  rfl

theorem Inv.follow (hs : Inv physToVirt root s client) {q : List (Fin entriesPerTable)} {table : ℕ}
    {i : Fin entriesPerTable} (hq : reachFrame physToVirt root s.mem q = some a)
    (ha : physToVirt a = some table) (hentry : ¬(s.mem table i &&& ptePresent = 0 ∨
      s.mem table i &&& pteHuge ≠ 0)) :
    Ensures (nonNull (tableFromPhys (pmmSpace physToVirt root) (s.mem table i &&& pteAddrMask))) s
      (At physToVirt root client (q ++ [i])) (Inv physToVirt root · client) := by
  rw [tableFromPhys_pmmSpace (isFrame_and_pteAddrMask _).1]
  cases hnext : physToVirt (s.mem table i &&& pteAddrMask) with
  | none => exact .of_error rfl hs
  | some next =>
    refine .of_ok (run_nonNull next s) ⟨hs, _, ?_, hnext⟩
    rw [reachFrame, walk_concat_of_eq_some hq, frameMem_of_eq_some ha, nextFrame, if_neg hentry]

/-- `get_or_alloc_next_table` goes to the next table of the path. If there is none it puts a new one
there; if that fails, the frames are as before. -/
theorem At.getOrAllocNextTable (hinj : Function.Injective physToVirt)
    {q : List (Fin entriesPerTable)} (hn : q.length < 3) {table : ℕ}
    (hs : At physToVirt root client q table s) (i : Fin entriesPerTable) :
    Ensures (getOrAllocNextTable (pmmSpace physToVirt root) table i) s
      (At physToVirt root client (q ++ [i])) (Inv physToVirt root · client) := by
  obtain ⟨hs, a, hq, ha⟩ := hs
  rw [Vmm.getOrAllocNextTable]
  refine .bind_of_ok (run_readEntry table i s) ?_
  have hentry := hs.entries q a hn hq i
  rw [frameMem_of_eq_some ha] at hentry
  rcases hentry with hzero | ⟨b, -, hentry⟩
  case inr =>
    have hpresent : s.mem table i &&& ptePresent ≠ 0 := by
      rw [hentry]
      exact entry_present b _
    rw [if_pos hpresent]
    refine .bind (.failIf hs) ?_
    rintro - _ ⟨hhuge, rfl⟩
    exact hs.follow hq ha (not_or.mpr ⟨hpresent, hhuge⟩)
  have habsent : ¬(s.mem table i &&& ptePresent ≠ 0) := by
    rw [hzero]
    decide
  obtain ⟨hpmm, hmono, hresult⟩ := hs.addressable.kernelVmmAlloc
  rw [if_neg habsent]
  change Ensures (callAllocFrame kernelVmmAlloc >>= _) s _ _
  refine .bind_of_ok (run_callAllocFrame _ s) ?_
  refine .bind (.failIf (hs.withCtx hpmm (fun c hc hnot ↦ ⟨hmono c hc, hnot⟩)
    fun c hc ↦ hmono c (hs.client c hc))) ?_
  rintro - _ ⟨hvalid, rfl⟩
  rw [not_or, Bool.not_eq_false] at hvalid
  obtain ⟨htaken, hnew⟩ := hresult.resolve_left hvalid.1
  rw [installTable, tableFromPhys_pmmSpace hvalid.2]
  cases hb : physToVirt (kernelVmmAlloc s.ctx).1 with
  | none =>
    -- The frame has no pointer and is given back.
    obtain ⟨hpmm', hmono'⟩ := hpmm.freeFrame (kernelVmmAlloc s.ctx).1
    have hkept : ∀ c, Taken s.ctx c → Taken (kernelVmmFree (kernelVmmAlloc s.ctx).2
        (kernelVmmAlloc s.ctx).1) c := by
      intro c hc
      refine hmono' c ?_ (hmono c hc)
      rintro rfl
      exact hnew hc
    exact .of_error rfl (hs.withCtx hpmm' (fun c hc hnot ↦ ⟨hkept c hc, hnot⟩)
      fun c hc ↦ hkept c (hs.client c hc))
  | some newTable =>
    refine .of_ok (a := newTable) rfl ⟨hs.linked hinj hq hn ha hzero hb htaken hnew hpmm hmono, _,
      ?_, hb⟩
    have hlength : (q ++ [i]).length ≤ 3 := by
      rw [List.length_append, List.length_singleton]
      omega
    exact (hs.reach_linked hinj hq hn ha hzero hb htaken hnew hpmm _ hlength).trans (if_pos rfl)

/-! ## The calls on the address space -/

theorem At.writeEntry (hinj : Function.Injective physToVirt) {q : List (Fin entriesPerTable)}
    (hn : q.length = 3) {table : ℕ} (hs : At physToVirt root client q table s)
    (i : Fin entriesPerTable) (e : BitVec 64) :
    Ensures (writeEntry table i e) s (fun _ ↦ (Inv physToVirt root · client))
      (Inv physToVirt root · client) := by
  obtain ⟨hs, a, hq, ha⟩ := hs
  have hwalk : ∀ p, p.length ≤ 3 → reachFrame physToVirt root (write s.mem table i e) p =
      reachFrame physToVirt root s.mem p := by
    intro p hp
    rw [reachFrame, frameMem_write hinj ha]
    exact hs.unshared.walk_write hq hn i e p hp
  refine .of_ok (run_writeEntry table i e s) ⟨hs.addressable, hs.unshared.congr hwalk, ?_, ?_,
    hs.client⟩
  · intro p b hp hb
    rw [hwalk p hp] at hb
    exact hs.table p b hp hb
  · intro p b hp hb
    rw [hwalk p hp.le] at hb
    -- A table above the last level is not the one that was changed.
    have hba : b ≠ a := by
      rintro rfl
      have hpq := hs.unshared p q b hp.le hn.le hb hq
      rw [hpq] at hp
      omega
    rw [frameMem_write hinj ha, write_of_ne hba]
    exact hs.entries p b hp hb

theorem Inv.rootTable (hs : Inv physToVirt root s client) :
    Ensures (nonNull (tableFromPhys (pmmSpace physToVirt root) root)) s
      (At physToVirt root client []) (Inv physToVirt root · client) := by
  have hroot := hs.addressable.isFrame (hs.table [] root (by decide) rfl).1
  rw [tableFromPhys_pmmSpace hroot.1]
  cases hpml4 : physToVirt root with
  | none => exact .of_error rfl hs
  | some pml4 => exact .of_ok (run_nonNull pml4 s) ⟨hs, root, rfl, hpml4⟩

theorem At.nextTable {q : List (Fin entriesPerTable)} {table : ℕ}
    (hs : At physToVirt root client q table s) (i : Fin entriesPerTable) :
    Ensures (nextTable (pmmSpace physToVirt root) table i) s
      (At physToVirt root client (q ++ [i])) (Inv physToVirt root · client) := by
  obtain ⟨hs, a, hq, ha⟩ := hs
  rw [Vmm.nextTable]
  refine .bind_of_ok (run_readEntry table i s) (.bind (.failIf hs) ?_)
  rintro - _ ⟨hentry, rfl⟩
  exact hs.follow hq ha hentry

/-- The search of `vmm_query_page` and `vmm_unmap_page` changes nothing and ends at the last table
of the path. -/
theorem Inv.findEntry (hs : Inv physToVirt root s client) (v : BitVec 64) :
    Ensures (findEntry (pmmSpace physToVirt root) v) s
      (fun r ↦ At physToVirt root client (path v) r.1) (Inv physToVirt root · client) := by
  rw [Vmm.findEntry]
  refine .bind (.failIf hs) ?_
  rintro - _ ⟨-, rfl⟩
  refine .bind hs.rootTable fun pml4 s₀ h₀ ↦ ?_
  refine .bind (h₀.nextTable _) fun pdpt s₁ h₁ ↦ ?_
  refine .bind (h₁.nextTable _) fun pd s₂ h₂ ↦ ?_
  refine .bind (h₂.nextTable _) fun pt s₃ h₃ ↦ ?_
  refine .bind_of_ok (run_readEntry pt _ s₃) (.bind (.failIf h₃.1) ?_)
  rintro - _ ⟨-, rfl⟩
  exact .of_ok rfl h₃

theorem Inv.vmmMapPage (hinj : Function.Injective physToVirt)
    (hs : Inv physToVirt root s client) (v p flags : BitVec 64) :
    Ensures (vmmMapPage (some (pmmSpace physToVirt root)) v p flags) s
      (fun _ ↦ (Inv physToVirt root · client)) (Inv physToVirt root · client) := by
  rw [Vmm.vmmMapPage]
  refine .bind (.failIf hs) ?_
  rintro - _ ⟨-, rfl⟩
  refine .bind hs.rootTable fun pml4 s₀ h₀ ↦ ?_
  refine .bind (h₀.getOrAllocNextTable hinj (by decide) _) fun pdpt s₁ h₁ ↦ ?_
  refine .bind (h₁.getOrAllocNextTable hinj (by simp) _) fun pd s₂ h₂ ↦ ?_
  refine .bind (h₂.getOrAllocNextTable hinj (by simp) _) fun pt s₃ h₃ ↦ ?_
  refine .bind_of_ok (run_readEntry pt _ s₃) (.bind (.failIf h₃.1) ?_)
  rintro - _ ⟨-, rfl⟩
  exact h₃.writeEntry hinj (by rfl) _ _

theorem Inv.vmmUnmapPage (hinj : Function.Injective physToVirt)
    (hs : Inv physToVirt root s client) (v : BitVec 64) :
    Ensures (vmmUnmapPage (some (pmmSpace physToVirt root)) v) s
      (fun _ ↦ (Inv physToVirt root · client)) (Inv physToVirt root · client) := by
  rw [Vmm.vmmUnmapPage]
  exact .bind (hs.findEntry v) fun r t ht ↦ ht.writeEntry hinj (by rfl) _ _

theorem Inv.vmmQueryPage (hs : Inv physToVirt root s client) (v : BitVec 64) :
    Ensures (vmmQueryPage (some (pmmSpace physToVirt root)) v true) s
      (fun _ ↦ (Inv physToVirt root · client)) (Inv physToVirt root · client) := by
  rw [Vmm.vmmQueryPage]
  refine .bind (.failIf hs) ?_
  rintro - _ ⟨-, rfl⟩
  exact .bind (hs.findEntry v) fun r t ht ↦ .of_ok rfl ht.1

/-! ## Runs -/

theorem Inv.storeFrame (hinj : Function.Injective physToVirt) (hs : Inv physToVirt root s client)
    (ha : a ∈ client) (i : Fin entriesPerTable) (e : BitVec 64) :
    Inv physToVirt root { s with mem := storeFrame physToVirt s.mem a i e } client := by
  rw [Vmm.storeFrame]
  cases hptr : physToVirt a with
  | none => exact hs
  | some table =>
    have hmem : ∀ p b, p.length ≤ 3 → reachFrame physToVirt root s.mem p = some b →
        frameMem physToVirt (write s.mem table i e) b = frameMem physToVirt s.mem b := by
      intro p b hp hb
      rw [frameMem_write hinj hptr, write_of_ne]
      rintro rfl
      exact (hs.table p b hp hb).2 ha
    have hwalk : ∀ p, p.length ≤ 3 → reachFrame physToVirt root (write s.mem table i e) p =
        reachFrame physToVirt root s.mem p :=
      walk_congr fun p b hp hb ↦ hmem p b hp.le hb
    refine ⟨hs.addressable, hs.unshared.congr hwalk, fun p b hp hb ↦ ?_, fun p b hp hb ↦ ?_,
      hs.client⟩
    · exact hs.table p b hp ((hwalk p hp).symm.trans hb)
    · have hb' := (hwalk p hp.le).symm.trans hb
      dsimp only
      rw [hmem p b hp.le hb']
      exact hs.entries p b hp hb'

theorem Inv.step (hinj : Function.Injective physToVirt) {s : System}
    (hs : Inv physToVirt root s.vmm s.client) (op : Op) (hop : Allowed s op) :
    Inv physToVirt root (step physToVirt root op s).2.vmm (step physToVirt root op s).2.client := by
  cases op with
  | space c =>
    cases c with
    | mapPage v p flags => exact (hs.vmmMapPage hinj v p flags).finalState
    | unmapPage v => exact (hs.vmmUnmapPage hinj v).finalState
    | queryPage v => exact (hs.vmmQueryPage v).finalState
  | allocFrame =>
    obtain ⟨hpmm, hmono, hresult⟩ := hs.addressable.kernelVmmAlloc
    have hclient : (Frames.step physToVirt root .allocFrame s).2.client =
      if (kernelVmmAlloc s.vmm.ctx).1 = invalidPhys then s.client
      else insert (kernelVmmAlloc s.vmm.ctx).1 s.client := rfl
    rw [hclient]
    refine hs.withCtx hpmm (fun a ha hnot ↦ ⟨hmono a ha, ?_⟩) fun a ha ↦ ?_
    · split_ifs with hinvalid
      · exact hnot
      · rw [Finset.mem_insert, not_or]
        refine ⟨?_, hnot⟩
        rintro rfl
        exact (hresult.resolve_left hinvalid).2 ha
    · split_ifs at ha with hinvalid
      · exact hmono a (hs.client a ha)
      · rcases Finset.mem_insert.mp ha with rfl | ha
        · exact (hresult.resolve_left hinvalid).1
        · exact hmono a (hs.client a ha)
  | freeFrame a =>
    obtain ⟨hpmm, hmono⟩ := hs.addressable.freeFrame a
    by_cases hfree : Pmm.Freeable s.vmm.ctx (UInt64.ofBitVec a)
    · have hfreed := Pmm.freeFrame_of_freeable hs.addressable.ready hfree
      rw [hfreed] at hpmm hmono
      rw [Frames.step, hfreed]
      refine hs.withCtx hpmm (fun b hb hnot ↦ ⟨hmono b ?_ hb, ?_⟩) fun b hb ↦ ?_
      · rintro rfl
        exact hnot hop
      · exact fun hmem ↦ hnot (Finset.mem_of_mem_erase hmem)
      · exact hmono b (Finset.ne_of_mem_erase hb) (hs.client b (Finset.mem_of_mem_erase hb))
    · rw [Frames.step, Pmm.freeFrame_of_not_freeable hfree]
      exact hs
  | store a i e => exact hs.storeFrame hinj hop i e

theorem inv_of_zero (hpmm : Addressable s.ctx) (hroot : Taken s.ctx root)
    (hzero : ∀ table, physToVirt root = some table → ∀ i, s.mem table i = 0)
    (hclient : ∀ a ∈ client, Taken s.ctx a) (hnot : root ∉ client) :
    Inv physToVirt root s client := by
  have hmem : ∀ i, frameMem physToVirt s.mem root i = 0 := by
    intro i
    rw [frameMem]
    cases hptr : physToVirt root with
    | none => rfl
    | some table => exact hzero table hptr i
  have hreach : ∀ p a, reachFrame physToVirt root s.mem p = some a → p = [] ∧ a = root := by
    intro p a ha
    cases p with
    | nil => exact ⟨rfl, (Option.some_inj.mp ha).symm⟩
    | cons i p =>
      rw [reachFrame, walk, hmem, nextFrame_zero] at ha
      cases ha
  refine ⟨hpmm, fun p q a _ _ hp hq ↦ ?_, fun p a _ ha ↦ ?_, fun p a _ ha i ↦ ?_, hclient⟩
  · rw [(hreach p a hp).1, (hreach q a hq).1]
  · rw [(hreach p a ha).2]
    exact ⟨hroot, hnot⟩
  · rw [(hreach p a ha).2]
    exact .inl (hmem i)

/-- The root is a frame that `pmm_alloc_frame` returned, and its table is all zero; clients may hold
other frames by then. In every state reached by calls of the address space, the clients and the
allocator the tables are exclusive. -/
theorem tables_exclusive (hinj : Function.Injective physToVirt) {pmm pmm' : Pmm.State}
    (hready : Pmm.Ready pmm) (hmax : pmm.maxPhys ≤ 2 ^ 52)
    (hroot : kernelVmmAlloc pmm = (root, pmm')) (hvalid : root ≠ invalidPhys)
    {mem : ℕ → Fin entriesPerTable → BitVec 64}
    (hzero : ∀ table, physToVirt root = some table → ∀ i, mem table i = 0)
    (hclient : ∀ a ∈ client, Taken pmm a) {es : List (Op × Answer)} {t : System}
    (hrun : Run (step physToVirt root) Allowed ⟨⟨pmm', mem⟩, client⟩ es t) :
    Exclusive physToVirt root t := by
  have hpmm : Addressable pmm := ⟨hready, hmax⟩
  obtain ⟨hpmm', hmono, hresult⟩ := hpmm.kernelVmmAlloc
  rw [hroot] at hpmm' hmono hresult
  obtain ⟨htaken, hnew⟩ := hresult.resolve_left hvalid
  have hstart : Inv physToVirt root ⟨pmm', mem⟩ client :=
    inv_of_zero hpmm' htaken hzero (fun a ha ↦ hmono a (hclient a ha))
      fun hmem ↦ hnew (hclient root hmem)
  exact (hrun.invariant (P := fun u ↦ Inv physToVirt root u.vmm u.client) hstart
    fun u op hu hop ↦ hu.step hinj op hop).exclusive

/-- Three frames are free. The first is the root, the client takes the second, and there is only one
left for a page that needs three tables. -/
theorem tables_exclusive_small : ∃ es t,
    Run (step (fun a ↦ some a.toNat) 0x1000) Allowed
      ⟨⟨(kernelVmmAlloc smallPmm).2, fun _ _ ↦ 0⟩, ∅⟩ es t ∧
    es.map Prod.fst = [.allocFrame, .space (.mapPage 0x400000 0x2000 pteWritable),
      .freeFrame 0x2000] ∧
    es.map Prod.snd = [.frame 0x2000, .space (.status (.error .nomem)), .freed true] ∧
    Exclusive (fun a ↦ some a.toNat) 0x1000 t := by
  have hinj : Function.Injective fun a : BitVec 64 ↦ some a.toNat :=
    fun a b hab ↦ BitVec.eq_of_toNat_eq (Option.some_inj.mp hab)
  have hrun : Run (step (fun a ↦ some a.toNat) 0x1000) Allowed
      ⟨⟨(kernelVmmAlloc smallPmm).2, fun _ _ ↦ 0⟩, ∅⟩ _ _ :=
    ((Run.nil.snoc Op.allocFrame trivial).snoc
      (Op.space (.mapPage 0x400000 0x2000 pteWritable)) trivial).snoc (Op.freeFrame 0x2000)
        (show _ ∈ insert _ ∅ from Finset.mem_insert_self _ _)
  refine ⟨_, _, hrun, rfl, ?_, tables_exclusive hinj ready_smallPmm (by decide)
    (Prod.ext rfl rfl) (by decide) (fun _ _ _ ↦ rfl) (fun a ha ↦ absurd ha (Finset.notMem_empty a))
    hrun⟩
  rfl

end Frames

end Vmm

end Mcsos
