import Mcsos.Kmem.Coalescing

/-!
# The checks of `kmem_free_checked`

Calls with any pointer at all: one that was freed before, one into the middle of a payload, one that
is not aligned or not in the heap. The function looks for the word `KMEM_MAGIC` in front of the
pointer. As long as clients do not store this word where a header could start, it finds a header
there only if there is one (`Tiled.at_of_magic`), and the header of an allocated block belongs to a
live allocation.
-/

namespace Mcsos

namespace Kmem

open Tiling

variable {s s₀ : State} {u t : System} {bs bs' : List Blk} {a : Alloc} {base bytes ptr : ℕ}
  {es : List (Call × Answer)}

/-- Clients free any pointer. They store into the payloads of live allocations, one byte at a time,
and no store makes an aligned word `KMEM_MAGIC`. (A larger store that does not write the word is a
sequence of such stores: the first of them writes a byte in which the new word differs from it.) -/
def AllowedAny (u : System) : Call → Prop
  | .store addr value => (∃ a ∈ u.live, a.ptr ≤ addr ∧ addr < a.ptr + payloadSize u.heap a.ptr) ∧
    ∀ w, 16 ∣ w → w ≤ addr → addr < w + 8 →
      Mem.load (Function.update u.heap.mem addr value) 8 w ≠ kmemMagic
  | _ => True

/-- `NULL`, or the start of a live allocation. -/
def Freeable (u : System) (ptr : ℕ) : Prop := ptr = 0 ∨ ∃ a ∈ u.live, a.ptr = ptr

/-- The list of blocks is `bs`. As long as it is not too long for `kmem_validate`, the pointers that
`kmem_free_checked` accepts are those that may be freed; it refuses every other one and leaves the
heap as it is. -/
structure Discerns (u : System) (bs : List Blk) : Prop where
  tiled : Tiled u.heap bs
  accepts : bs.length ≤ maxBlocks → ∀ ptr, Freeable u ptr →
    ∃ s, kmemFreeChecked ptr u.heap = some (0, s)
  refuses : ∀ ptr, ¬Freeable u ptr → ∃ code < 0, kmemFreeChecked ptr u.heap = some (code, u.heap)

/-! ## One call -/

theorem kmemFreeChecked_null : kmemFreeChecked 0 s = some (0, s) := if_pos rfl

theorem Exact.refuses (h : Exact u bs) (hclean : Unforged u.heap.mem u.heap.heapBase bs)
    (hptr : ¬Freeable u ptr) : ∃ code < 0, kmemFreeChecked ptr u.heap = some (code, u.heap) := by
  obtain ⟨hnull, hlive⟩ := not_or.mp hptr
  rw [kmemFreeChecked, if_neg hnull]
  by_cases hin : kmemPtrInHeap u.heap ptr
  case neg => exact ⟨-1, by decide, if_pos hin⟩
  rw [if_neg (not_not.mpr hin)]
  by_cases haligned : ptr &&& (kmemAlign - 1) ≠ 0
  · exact ⟨-2, by decide, if_pos haligned⟩
  rw [if_neg haligned]
  dsimp only
  by_cases hheader : ¬kmemPtrInHeap u.heap (kmemHeaderFromPayload ptr) ∨
      get u.heap.mem (kmemHeaderFromPayload ptr) .magic ≠ kmemMagic
  · exact ⟨-3, by decide, if_pos hheader⟩
  rw [if_neg hheader]
  obtain ⟨hblock, hmagic⟩ := not_or.mp hheader
  rw [not_not] at hblock hmagic
  by_cases hfree : get u.heap.mem (kmemHeaderFromPayload ptr) .free ≠ 0
  · exact ⟨-4, by decide, if_pos hfree⟩
  -- What is left is the header of an allocated block, hence of a live allocation.
  have hend := h.tiled.end_lt
  have hdvd : 16 ∣ ptr := by
    rw [not_not, and_fifteen] at haligned
    exact Nat.dvd_of_mod_eq_zero haligned
  have hdvd' : 16 ∣ kmemHeaderFromPayload ptr := by
    rw [kmemHeaderFromPayload, sub, wrap, headerSize]
    omega
  obtain ⟨d, hd⟩ := h.tiled.at_of_magic hclean hdvd' hblock.2.1 hblock.2.2 hmagic
  have hsub : kmemHeaderFromPayload ptr + headerSize = ptr := by
    have hfits := (h.tiled.at_lt hd).2.1
    have hlt := hin.2.2
    rw [kmemHeaderFromPayload, sub, wrap, headerSize] at hfits ⊢
    omega
  obtain ⟨q, hisBlock⟩ := h.tiled.laid.at hd
  have hused : d.free = false := by
    by_contra hnot
    rw [hisBlock.free, flag, if_pos (Bool.eq_true_of_not_eq_false hnot)] at hfree
    exact hfree Nat.one_ne_zero
  obtain ⟨a, ha, haptr⟩ := h.used _ d ⟨hd, hused⟩
  exact absurd ⟨a, ha, haptr.trans hsub⟩ hlive

theorem Exact.discerns (h : Exact u bs) (hclean : Unforged u.heap.mem u.heap.heapBase bs) :
    Discerns u bs where
  tiled := h.tiled
  accepts hlen := by
    rintro ptr (rfl | ⟨a, ha, rfl⟩)
    · exact ⟨u.heap, kmemFreeChecked_null⟩
    · obtain ⟨t, bs', -, -, hres, hfrees⟩ := h.toInv.frees ha
      rw [hfrees.inv.tiled.validate (hfrees.length_le.trans hlen)] at hres
      exact ⟨t.heap, hres⟩
  refuses ptr hptr := h.refuses hclean hptr

theorem Unforged.store {m : Mem} {x addr : ℕ} {v : UInt8} (h : Unforged m x bs)
    (hword : ∀ w, 16 ∣ w → w ≤ addr → addr < w + 8 →
      Mem.load (Function.update m addr v) 8 w ≠ kmemMagic) :
    Unforged (Function.update m addr v) x bs := by
  intro y d hy w hdvd hlo hhi
  by_cases hin : w ≤ addr ∧ addr < w + 8
  · exact hword w hdvd hin.1 hin.2
  · rw [Mem.load_congr fun i hi hlt ↦ Function.update_of_ne (by omega) v m]
    exact h y d hy w hdvd hlo hhi

/-- Every call that does not overflow keeps the list exact and forges no header. -/
theorem Exact.stepAny (h : Exact u bs) (hclean : Unforged u.heap.mem u.heap.heapBase bs) {c : Call}
    (hc : AllowedAny u c) (hover : ¬Overflows u c) :
    ∃ bs', Exact (Kmem.step c u).2 bs' ∧
      Unforged (Kmem.step c u).2.heap.mem (Kmem.step c u).2.heap.heapBase bs' := by
  cases c with
  | alloc n =>
    obtain ⟨bs', hadv⟩ := h.record (h.toInv.kmemAlloc hover)
    exact ⟨bs', hadv.inv, hadv.unforged hclean⟩
  | calloc count n =>
    obtain ⟨bs', hadv⟩ := h.record (h.toInv.kmemCalloc hover)
    exact ⟨bs', hadv.inv, hadv.unforged hclean⟩
  | free ptr =>
    by_cases hlive : ∃ a ∈ u.live, a.ptr = ptr
    · obtain ⟨a, ha, rfl⟩ := hlive
      obtain ⟨bs', hadv, -⟩ := h.free ha
      exact ⟨bs', hadv.inv, hadv.unforged hclean⟩
    · -- Nothing happens: the pointer is `NULL` or is refused.
      have hres : ∃ code, kmemFreeChecked ptr u.heap = some (code, u.heap) := by
        by_cases hnull : ptr = 0
        · rw [hnull]
          exact ⟨0, kmemFreeChecked_null⟩
        · obtain ⟨code, -, hres⟩ := h.refuses hclean (not_or.mpr ⟨hnull, hlive⟩)
          exact ⟨code, hres⟩
      obtain ⟨code, hres⟩ := hres
      have hfilter : u.live.filter (fun a ↦ a.ptr ≠ ptr) = u.live :=
        List.filter_eq_self.mpr fun a ha ↦ decide_eq_true fun heq ↦ hlive ⟨a, ha, heq⟩
      rw [Kmem.step, hres]
      dsimp only
      rw [hfilter]
      exact ⟨bs, h, hclean⟩
  | store addr v =>
    obtain ⟨⟨a, ha, hlo, hhi⟩, hword⟩ := hc
    exact ⟨bs, h.store ha hlo hhi, hclean.store hword⟩

/-! ## Runs -/

/-- The arena has no aligned word `KMEM_MAGIC` before `kmem_init`. From then on, as long as no
request overflows, `kmem_free_checked` accepts the live allocations and nothing else; and it still
does so after the next call if and only if that call does not overflow. -/
theorem checkedFree_discerns_iff (hbase : base < 2 ^ 64) (hbytes : bytes < 2 ^ 64)
    (hclean : Clean s₀.mem base (base + bytes)) (hinit : kmemInit base bytes s₀ = (0, s))
    (hrun : Run step (fun u c ↦ AllowedAny u c ∧ ¬Overflows u c) ⟨s, []⟩ es t) :
    (∃ bs, Discerns t bs) ∧
      ∀ c, AllowedAny t c → ((∃ bs, Discerns (step c t).2 bs) ↔ ¬Overflows t c) := by
  obtain ⟨size, htiled, hunforged⟩ := tiled_of_kmemInit hbase hbytes hinit
  have hstart : Exact ⟨s, []⟩ [⟨size, true⟩] := exact_of_tiled htiled
  obtain ⟨bs, h, hclean'⟩ := hrun.invariant
    (P := fun u ↦ ∃ bs, Exact u bs ∧ Unforged u.heap.mem u.heap.heapBase bs)
    ⟨_, hstart, hunforged hclean⟩ fun u c ⟨bs, h, hu⟩ hc ↦ h.stepAny hu hc.1 hc.2
  refine ⟨⟨bs, h.discerns hclean'⟩, fun c hc ↦ ⟨?_, fun hover ↦ ?_⟩⟩
  · rintro ⟨bs', hdiscerns⟩ hover
    exact h.toInv.not_tiled hover hdiscerns.tiled
  · obtain ⟨bs', h', hu'⟩ := h.stepAny hclean' hc hover
    exact ⟨bs', h'.discerns hu'⟩

/-- An allocation on one page. A pointer into its payload is refused, and so is its pointer after it
was freed. -/
theorem checkedFree_discerns_iff_page :
    let u := (step (.alloc 100) ⟨(kmemInit 0x1000 0x1000 blank).2, []⟩).2
    u.live = [⟨0x1030, 100⟩] ∧
      (∃ code < 0, kmemFreeChecked 0x1040 u.heap = some (code, u.heap)) ∧
      ∃ bs, Discerns (step (.free 0x1030) u).2 bs := by
  have hinit : kmemInit 0x1000 0x1000 blank = (0, (kmemInit 0x1000 0x1000 blank).2) :=
    Prod.ext (by decide +kernel) rfl
  have hzero : Clean blank.mem 0x1000 (0x1000 + 0x1000) := by
    intro w _ _ _ hword
    have hload : blank.mem.load 8 w = 0 := Mem.load_eq_zero fun i _ _ ↦ rfl
    rw [hload] at hword
    exact absurd hword (by decide)
  have hrun : Run step (fun u c ↦ AllowedAny u c ∧ ¬Overflows u c)
      ⟨(kmemInit 0x1000 0x1000 blank).2, []⟩ _ _ :=
    Run.nil.snoc (Call.alloc 100) ⟨trivial, fun hw ↦ absurd hw.1 (by decide)⟩
  have hlive : (step (.alloc 100) ⟨(kmemInit 0x1000 0x1000 blank).2, []⟩).2.live =
      [⟨0x1030, 100⟩] := by
    decide +kernel
  obtain ⟨⟨bs, hdiscerns⟩, hnext⟩ :=
    checkedFree_discerns_iff (by decide) (by decide) hzero hinit hrun
  refine ⟨hlive, hdiscerns.refuses 0x1040 ?_, (hnext (.free 0x1030) trivial).mpr id⟩
  rw [Freeable, hlive]
  simp

/-- The block that holds all of the largest heap is live, and `kmem_free_checked` refuses it. -/
theorem largest_block_refused :
    let u := (step (.alloc (2 ^ 64 - 80)) ⟨(kmemInit 16 (2 ^ 64 - 17) blank).2, []⟩).2
    u.live = [⟨64, 2 ^ 64 - 80⟩] ∧ (kmemFreeChecked 64 u.heap).map Prod.fst = some (-3) := by
  decide +kernel

end Kmem

end Mcsos
