import Mcsos.Kmem.Safety

/-!
# No fragments are left

Every allocated block of the heap belongs to a live allocation, and no two free blocks are
neighbours (`Exact`). When nothing is live all blocks are free, and a list of free blocks without
neighbours has one element: the block that `kmem_init` made.

The request that overflows, which `Kmem.Safety` describes, is again the only exception: the block it
returns cannot be freed any more.
-/

namespace Mcsos

namespace Kmem

open Tiling

variable {s s₀ : State} {u t : System} {bs bs' : List Blk} {a : Alloc} {base bytes : ℕ}
  {es : List (Call × Answer)}

/-- The allocated blocks are the live allocations, and no free blocks are neighbours. -/
structure Exact (u : System) (bs : List Blk) : Prop extends Inv u bs where
  used : ∀ x d, UsedAt u.heap.heapBase bs x d → ∃ a ∈ u.live, a.ptr = x + headerSize
  merged : Merged bs

/-- What a call does to the heap: the list stays exact, the arena is the same, and no header is
forged if there was none. -/
structure Advances (u : System) (bs : List Blk) (t : System) (bs' : List Blk) : Prop where
  inv : Exact t bs'
  base : t.heap.heapBase = u.heap.heapBase
  stop : t.heap.heapEnd = u.heap.heapEnd
  unforged : Unforged u.heap.mem u.heap.heapBase bs → Unforged t.heap.mem t.heap.heapBase bs'

theorem Exact.advances (h : Exact u bs) : Advances u bs u bs := ⟨h, rfl, rfl, id⟩

theorem Exact.record (h : Exact u bs) {n : ℕ} {r : Option (ℕ × State)}
    (hr : r = some (0, u.heap) ∨ ∃ ptr s bs', r = some (ptr, s) ∧ Allocates u bs ptr n s bs') :
    ∃ bs', Advances u bs (u.record n r).2 bs' := by
  rcases hr with rfl | ⟨ptr, s, bs', rfl, halloc⟩
  · exact ⟨bs, h.advances⟩
  rw [System.record, if_neg halloc.ptr_ne]
  refine ⟨bs', ⟨halloc.inv, fun x d hx ↦ ?_, halloc.merged h.merged⟩, halloc.base, halloc.stop,
    halloc.unforged⟩
  rcases halloc.only x d hx with hold | hnew
  · obtain ⟨a, ha, hptr⟩ := h.used x d hold
    exact ⟨a, List.mem_cons_of_mem _ ha, hptr⟩
  · exact ⟨_, List.mem_cons_self, hnew.symm⟩

theorem Exact.free (h : Exact u bs) (ha : a ∈ u.live) :
    ∃ bs', Advances u bs (step (.free a.ptr) u).2 bs' ∧ bs'.length ≤ bs.length := by
  obtain ⟨t, bs', hstep, hlive, -, hfrees⟩ := h.toInv.frees ha
  rw [hstep]
  refine ⟨bs', ⟨⟨hfrees.inv, fun x d hx ↦ ?_, hfrees.merged h.merged⟩, hfrees.base, hfrees.stop,
    hfrees.unforged⟩, hfrees.length_le⟩
  obtain ⟨hold, hne⟩ := (hfrees.used x d).mp hx
  obtain ⟨a', ha', hptr⟩ := h.used x d hold
  refine ⟨a', ?_, hptr⟩
  rw [hlive, List.mem_filter, hptr]
  exact ⟨ha', decide_eq_true hne⟩

theorem Exact.store (h : Exact u bs) (ha : a ∈ u.live) {addr : ℕ} {v : UInt8} (hlo : a.ptr ≤ addr)
    (hhi : addr < a.ptr + payloadSize u.heap a.ptr) : Exact (step (.store addr v) u).2 bs := by
  obtain ⟨x, d, hx, hptr, -⟩ := h.live a ha
  rw [hptr, h.tiled.payloadSize_eq hx.1] at hhi
  exact ⟨h.toInv.write hx.1 fun i hi ↦ Function.update_of_ne (by omega) _ _, h.used, h.merged⟩

/-- Every call of a client that does not overflow keeps the list exact. -/
theorem Exact.step (h : Exact u bs) {c : Call} (hc : Allowed u c) (hover : ¬Overflows u c) :
    ∃ bs', Exact (step c u).2 bs' ∧ (step c u).2.heap.heapBase = u.heap.heapBase ∧
      (step c u).2.heap.heapEnd = u.heap.heapEnd := by
  cases c with
  | alloc n =>
    obtain ⟨bs', hadv⟩ := h.record (h.toInv.kmemAlloc hover)
    exact ⟨bs', hadv.inv, hadv.base, hadv.stop⟩
  | calloc count n =>
    obtain ⟨bs', hadv⟩ := h.record (h.toInv.kmemCalloc hover)
    exact ⟨bs', hadv.inv, hadv.base, hadv.stop⟩
  | free ptr =>
    obtain ⟨a, ha, rfl⟩ := hc
    obtain ⟨bs', hadv, -⟩ := h.free ha
    exact ⟨bs', hadv.inv, hadv.base, hadv.stop⟩
  | store addr v =>
    obtain ⟨a, ha, hlo, hhi⟩ := hc
    exact ⟨bs, h.store ha hlo hhi, rfl, rfl⟩

/-! ## One block -/

theorem Merged.eq_singleton (h : Merged bs) (hne : bs ≠ []) (hfree : ∀ b ∈ bs, b.free = true) :
    ∃ size, bs = [⟨size, true⟩] := by
  match bs, hne with
  | [b], _ =>
    refine ⟨b.size, ?_⟩
    rw [← hfree b List.mem_cons_self]
  | b :: c :: post, _ =>
    rw [Merged, List.map_cons, List.map_cons, List.isChain_cons_cons] at h
    exact absurd ⟨hfree b List.mem_cons_self, hfree c (List.mem_cons_of_mem _ List.mem_cons_self)⟩
      h.1

/-- When nothing is live the heap is one free block. -/
theorem Exact.single (h : Exact u bs) (hlive : u.live = []) : ∃ size, bs = [⟨size, true⟩] := by
  refine h.merged.eq_singleton h.tiled.nonempty fun b hb ↦ ?_
  by_contra hused
  obtain ⟨pre, post, rfl⟩ := List.append_of_mem hb
  obtain ⟨a, ha, -⟩ := h.used _ b ⟨at_place, Bool.eq_false_of_not_eq_true hused⟩
  rw [hlive] at ha
  exact absurd ha List.not_mem_nil

theorem Tiled.size_eq {size : ℕ} (h : Tiled s [⟨size, true⟩]) :
    s.heapBase + (headerSize + size) = s.heapEnd := by
  have hcovers := h.covers
  rwa [extent_cons, extent_nil, Nat.add_zero] at hcovers

/-- The list of blocks is `bs`: no two neighbours are free, and when nothing is live the heap is one
free block of `size` bytes. -/
structure Coalesced (u : System) (size : ℕ) (bs : List Blk) : Prop where
  tiled : Tiled u.heap bs
  merged : Merged bs
  single : u.live = [] → bs = [⟨size, true⟩]

theorem Exact.coalesced {size : ℕ} (h : Exact u bs)
    (hsize : u.heap.heapBase + (headerSize + size) = u.heap.heapEnd) : Coalesced u size bs := by
  refine ⟨h.tiled, h.merged, fun hlive ↦ ?_⟩
  obtain ⟨size', rfl⟩ := h.single hlive
  have hsize' := h.tiled.size_eq
  rw [Nat.add_left_cancel (Nat.add_left_cancel (hsize.trans hsize'.symm))]

/-! ## Runs -/

/-- Free one after the other. -/
def freeAll (ptrs : List ℕ) (u : System) : System :=
  ptrs.foldl (fun u ptr ↦ (step (.free ptr) u).2) u

theorem Exact.freeAll (h : Exact u bs) {ptrs : List ℕ} (hnodup : ptrs.Nodup)
    (hptrs : ∀ ptr, ptr ∈ ptrs ↔ ∃ a ∈ u.live, a.ptr = ptr) :
    ∃ bs', Exact (freeAll ptrs u) bs' ∧ (freeAll ptrs u).live = [] ∧
      (freeAll ptrs u).heap.heapBase = u.heap.heapBase ∧
      (freeAll ptrs u).heap.heapEnd = u.heap.heapEnd := by
  induction ptrs generalizing u bs with
  | nil =>
    refine ⟨bs, h, List.eq_nil_iff_forall_not_mem.mpr fun a ha ↦ ?_, rfl, rfl⟩
    exact absurd ((hptrs a.ptr).mpr ⟨a, ha, rfl⟩) List.not_mem_nil
  | cons ptr ptrs ih =>
    obtain ⟨a, ha, rfl⟩ := (hptrs ptr).mp List.mem_cons_self
    obtain ⟨t, bs₁, hstep, hlive, -⟩ := h.toInv.frees ha
    obtain ⟨bs', hadv, -⟩ := h.free ha
    rw [hstep] at hadv
    obtain ⟨hnot, hnodup'⟩ := List.nodup_cons.mp hnodup
    have hptrs' : ∀ ptr', ptr' ∈ ptrs ↔ ∃ a' ∈ t.live, a'.ptr = ptr' := by
      intro ptr'
      rw [hlive]
      constructor
      · intro hmem
        obtain ⟨a', ha', rfl⟩ := (hptrs ptr').mp (List.mem_cons_of_mem _ hmem)
        refine ⟨a', List.mem_filter.mpr ⟨ha', decide_eq_true fun heq ↦ hnot ?_⟩, rfl⟩
        rwa [← heq]
      · rintro ⟨a', ha', rfl⟩
        obtain ⟨hmem, hne⟩ := List.mem_filter.mp ha'
        exact (List.mem_cons.mp ((hptrs a'.ptr).mpr ⟨a', hmem, rfl⟩)).resolve_left
          (of_decide_eq_true hne)
    obtain ⟨bs'', hexact, hnone, hbase, hstop⟩ := ih hadv.inv hnodup' hptrs'
    rw [Kmem.freeAll, List.foldl_cons, hstep]
    exact ⟨bs'', hexact, hnone, hbase.trans hadv.base, hstop.trans hadv.stop⟩

theorem exact_of_tiled {size : ℕ} (h : Tiled s [⟨size, true⟩]) : Exact ⟨s, []⟩ [⟨size, true⟩] :=
  ⟨⟨h, fun a ha ↦ absurd ha List.not_mem_nil, List.Pairwise.nil⟩,
    fun x d hx ↦ absurd hx (not_usedAt_of_free fun c hc ↦ by rw [List.mem_singleton.mp hc]),
    merged_singleton _⟩

/-- In every run the list is exact, and the arena is the one of `kmem_init`. -/
theorem exact_of_run (hbase : base < 2 ^ 64) (hbytes : bytes < 2 ^ 64)
    (hinit : kmemInit base bytes s₀ = (0, s))
    (hrun : Run step (fun u c ↦ Allowed u c ∧ ¬Overflows u c) ⟨s, []⟩ es t) :
    (∃ bs, Exact t bs) ∧
      t.heap.heapBase + (headerSize + get s.mem s.head .size) = t.heap.heapEnd := by
  obtain ⟨size, htiled, -⟩ := tiled_of_kmemInit hbase hbytes hinit
  have hsize : get s.mem s.head .size = size := by
    rw [htiled.head]
    exact htiled.laid.1.size
  rw [hsize]
  refine hrun.invariant (P := fun u ↦ (∃ bs, Exact u bs) ∧
    u.heap.heapBase + (headerSize + size) = u.heap.heapEnd)
      ⟨⟨_, exact_of_tiled htiled⟩, htiled.size_eq⟩ ?_
  rintro u c ⟨⟨bs, h⟩, hcovers⟩ ⟨hc, hover⟩
  obtain ⟨bs', h', hbase', hstop'⟩ := h.step hc hover
  exact ⟨⟨bs', h'⟩, by rw [hbase', hstop', hcovers]⟩

/-- From any arena that `kmem_init` accepts, as long as no request overflows, no two neighbouring
blocks are free. When all live allocations are freed, in any order, the heap is the free block that
`kmem_init` made. And the next call returns and leaves such a heap if and only if it does not
overflow. -/
theorem heap_coalesced_iff (hbase : base < 2 ^ 64) (hbytes : bytes < 2 ^ 64)
    (hinit : kmemInit base bytes s₀ = (0, s))
    (hrun : Run step (fun u c ↦ Allowed u c ∧ ¬Overflows u c) ⟨s, []⟩ es t) :
    (∃ bs, Coalesced t (get s.mem s.head .size) bs) ∧
      (∀ ptrs : List ℕ, ptrs.Nodup → (∀ ptr, ptr ∈ ptrs ↔ ∃ a ∈ t.live, a.ptr = ptr) →
        (freeAll ptrs t).live = [] ∧
          Tiled (freeAll ptrs t).heap [⟨get s.mem s.head .size, true⟩]) ∧
      ∀ c, Allowed t c → (((step c t).1 ≠ .never ∧
        ∃ bs, Coalesced (step c t).2 (get s.mem s.head .size) bs) ↔ ¬Overflows t c) := by
  obtain ⟨⟨bs, h⟩, hsize⟩ := exact_of_run hbase hbytes hinit hrun
  refine ⟨⟨bs, h.coalesced hsize⟩, fun ptrs hnodup hptrs ↦ ?_, fun c hc ↦ ⟨?_, fun hover ↦ ?_⟩⟩
  · obtain ⟨bs', h', hnone, hbase', hstop'⟩ := h.freeAll hnodup hptrs
    have hcoalesced := h'.coalesced (by rw [hbase', hstop', hsize])
    rw [← hcoalesced.single hnone]
    exact ⟨hnone, hcoalesced.tiled⟩
  · rintro ⟨-, bs', hcoalesced⟩ hover
    exact h.toInv.not_tiled hover hcoalesced.tiled
  · obtain ⟨bs', h', hbase', hstop'⟩ := h.step hc hover
    exact ⟨(h.toInv.keeps hc hover).2.1, bs', h'.coalesced (by rw [hbase', hstop', hsize])⟩

/-- Two allocations on one page; the first is freed before the second. -/
theorem heap_coalesced_iff_page :
    let u := (step (.calloc 4 25) (step (.alloc 100)
      ⟨(kmemInit 0x1000 0x1000 blank).2, []⟩).2).2
    u.live.map Alloc.ptr = [0x10D0, 0x1030] ∧
      Tiled (freeAll [0x1030, 0x10D0] u).heap [⟨0x1000 - 48, true⟩] := by
  have hinit : kmemInit 0x1000 0x1000 blank = (0, (kmemInit 0x1000 0x1000 blank).2) :=
    Prod.ext (by decide +kernel) rfl
  have hrun : Run step (fun u c ↦ Allowed u c ∧ ¬Overflows u c)
      ⟨(kmemInit 0x1000 0x1000 blank).2, []⟩ _ _ :=
    (Run.nil.snoc (Call.alloc 100) ⟨trivial, fun hw ↦ absurd hw.1 (by decide)⟩).snoc
      (Call.calloc 4 25) ⟨trivial, fun hw ↦ absurd hw.2.1 (by decide)⟩
  have hlive : (step (.calloc 4 25) (step (.alloc 100)
      ⟨(kmemInit 0x1000 0x1000 blank).2, []⟩).2).2.live = [⟨0x10D0, 100⟩, ⟨0x1030, 100⟩] := by
    decide +kernel
  have hsize : get (kmemInit 0x1000 0x1000 blank).2.mem (kmemInit 0x1000 0x1000 blank).2.head
      .size = 0x1000 - 48 := by
    decide +kernel
  dsimp only
  rw [← hsize]
  refine ⟨by rw [hlive]; rfl, ((heap_coalesced_iff (by decide) (by decide) hinit hrun).2.1
    [0x1030, 0x10D0] (by decide) fun ptr ↦ ?_).2⟩
  rw [hlive]
  simp [or_comm, eq_comm]

/-- The block that holds all of the largest heap is not freed. -/
theorem largest_block_stays :
    let u := (step (.alloc (2 ^ 64 - 80)) ⟨(kmemInit 16 (2 ^ 64 - 17) blank).2, []⟩).2
    u.live = [⟨64, 2 ^ 64 - 80⟩] ∧ (step (.free 64) u).1 = .code (-3) ∧
      (step (.free 64) u).2.live = [] ∧ get (step (.free 64) u).2.heap.mem 16 .free = 0 := by
  decide +kernel

end Kmem

end Mcsos
