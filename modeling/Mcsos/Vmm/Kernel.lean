import Mcsos.Pmm.FreeSet
import Mcsos.Vmm.PageMap

/-!
# The kernel's address space

`kernel.c`: the frame allocator as the callbacks of the kernel's address space, and
`kernel_vmm_init`, which takes a frame for the root table.

The frame is used as it comes from the allocator: neither `kernel_vmm_init` nor `vmm_space_init`
clears it. What `vmm_query_page` finds in the new address space is what a walk through the old
contents of memory finds (`Misses`, `fresh_space_empty_iff`).
-/

namespace Mcsos

namespace Vmm

/-! ## The callbacks -/

def kernelVmmAlloc (pmm : Pmm.State) : BitVec 64 × Pmm.State :=
  (BitVec.ofNat 64 (Pmm.allocFrame pmm).1, (Pmm.allocFrame pmm).2)

def kernelVmmFree (pmm : Pmm.State) (framePaddr : BitVec 64) : Pmm.State :=
  (Pmm.freeFrame pmm (UInt64.ofBitVec framePaddr)).2

/-- `kernel_phys_to_virt`; the context is the offset. The pointer 0 is `NULL`. -/
def kernelPhysToVirt (off paddr : BitVec 64) : Option ℕ :=
  if off + paddr = 0 then none else some (off + paddr).toNat

/-- `kernel_space`, once it has its root. -/
def kernelSpace (off root : BitVec 64) : VmmSpace Pmm.State :=
  ⟨root, some kernelVmmAlloc, some kernelVmmFree, some (kernelPhysToVirt off)⟩

/-- `kernel_vmm_init`: the address space, if there is one, and the allocator after it. -/
def kernelVmmInit (off : BitVec 64) (pmm : Pmm.State) : Option (VmmSpace Pmm.State) × Pmm.State :=
  let root := (Pmm.allocFrame pmm).1
  let pmm := (Pmm.allocFrame pmm).2
  if root = Pmm.invalidFrame then (none, pmm)
  else
    match vmmSpaceInit (BitVec.ofNat 64 root) (some kernelVmmAlloc) (some kernelVmmFree)
      (some (kernelPhysToVirt off)) with
    | .ok space => (some space, pmm)
    | .error _ => (none, (Pmm.freeFrame pmm (UInt64.ofNat root)).2)

theorem toNat_frameAddr {pmm : Pmm.State} (h : Pmm.Inv pmm) {f : ℕ} (hf : f ∈ Pmm.freeSet pmm) :
    (BitVec.ofNat 64 (Pmm.pageSize * f)).toNat = Pmm.pageSize * f := by
  have hlt := (Pmm.mem_freeSet.mp hf).1
  have hcount := h.frameCount_lt
  rw [BitVec.toNat_ofNat, Pmm.pageSize]
  omega

theorem aligned_frameAddr {pmm : Pmm.State} (h : Pmm.Inv pmm) {f : ℕ} (hf : f ∈ Pmm.freeSet pmm) :
    vmmIsAligned4k (BitVec.ofNat 64 (Pmm.pageSize * f)) = true := by
  rw [vmmIsAligned4k_iff, toNat_frameAddr h hf]
  exact Nat.mul_mod_right _ _

theorem kernelVmmInit_of_isLeast (off : BitVec 64) {pmm : Pmm.State} (h : Pmm.Ready pmm) {f : ℕ}
    (hf : IsLeast (Pmm.freeSet pmm : Set ℕ) f) :
    kernelVmmInit off pmm = (some (kernelSpace off (BitVec.ofNat 64 (Pmm.pageSize * f))),
      (Pmm.allocFrame pmm).2) := by
  have hlt := (Pmm.mem_freeSet.mp hf.1).1
  have hcount := h.frameCount_lt
  have hroot : (Pmm.allocFrame pmm).1 = Pmm.pageSize * f := by
    rw [Pmm.allocFrame_of_isLeast h hf, (Pmm.takeFrame_spec h.toInv hf).1]
  have hvalid : Pmm.pageSize * f ≠ Pmm.invalidFrame := by
    rw [Pmm.pageSize, Pmm.invalidFrame]
    omega
  rw [kernelVmmInit, hroot, if_neg hvalid, vmmSpaceInit, aligned_frameAddr h.toInv hf.1]
  rfl

/-! ## The search of `vmm_query_page` in any memory -/

section Search

variable {κ : Type} {space : VmmSpace κ} {s : State κ}

/-- The search along the indices ends at an entry that is not present or that is a large page. -/
def Misses (space : VmmSpace κ) (mem : ℕ → Fin entriesPerTable → BitVec 64) :
    ℕ → List (Fin entriesPerTable) → Prop
  | _, [] => False
  | table, [i] => mem table i &&& ptePresent = 0
  | table, i :: is => (mem table i &&& ptePresent = 0 ∨ mem table i &&& pteHuge ≠ 0) ∨
    ∃ next, tableFromPhys space (mem table i &&& pteAddrMask) = some next ∧ Misses space mem next is

theorem returned_nonNull_bind_iff {α : Type} {pointer : Option ℕ}
    {f : ℕ → EStateM Err (State κ) α} :
    returned ((nonNull pointer >>= f).run s) = .error .notFound ↔
      ∃ p, pointer = some p ∧ returned ((f p).run s) = .error .notFound := by
  cases pointer with
  | none =>
    refine ⟨fun h ↦ ?_, ?_⟩
    · cases h
    · rintro ⟨p, hp, -⟩
      cases hp
  | some p =>
    rw [run_bind_of_ok (run_nonNull p s)]
    simp only [Option.some.injEq, exists_eq_left']

theorem returned_nextTable_bind_iff {α : Type} {table : ℕ} {i : Fin entriesPerTable}
    {f : ℕ → EStateM Err (State κ) α} :
    returned ((nextTable space table i >>= f).run s) = .error .notFound ↔
      (s.mem table i &&& ptePresent = 0 ∨ s.mem table i &&& pteHuge ≠ 0) ∨
        ∃ next, tableFromPhys space (s.mem table i &&& pteAddrMask) = some next ∧
          returned ((f next).run s) = .error .notFound := by
  rw [nextTable, bind_assoc, run_bind_of_ok (run_readEntry table i s), bind_assoc]
  by_cases h : s.mem table i &&& ptePresent = 0 ∨ s.mem table i &&& pteHuge ≠ 0
  · rw [run_bind_of_error (run_failIf_of h)]
    exact iff_of_true rfl (.inl h)
  · rw [run_bind_of_ok (run_failIf_of_not h), returned_nonNull_bind_iff, or_iff_right h]

theorem returned_vmmQueryPage_iff {v : BitVec 64} (hv : IsPage v) :
    returned ((vmmQueryPage (some space) v true).run s) = .error .notFound ↔
      ∃ pml4, tableFromPhys space space.rootPaddr = some pml4 ∧
        Misses space s.mem pml4 [idxPml4 v, idxPdpt v, idxPd v, idxPt v] := by
  have hcheck : ¬(vmmIsCanonical v = false ∨ vmmIsAligned4k v = false) :=
    fun h ↦ not_isPage_iff.mpr h hv
  rw [vmmQueryPage, run_bind_of_ok (run_failIf_of_not (by simp)), findEntry]
  simp only [bind_assoc]
  rw [run_bind_of_ok (run_failIf_of_not hcheck), returned_nonNull_bind_iff]
  refine exists_congr fun pml4 ↦ and_congr_right fun _ ↦ ?_
  simp only [returned_nextTable_bind_iff, Misses]
  -- Three levels are searched alike; the entry of the last one is only read.
  refine or_congr_right <| exists_congr fun pdpt ↦ and_congr_right fun _ ↦
    or_congr_right <| exists_congr fun pd ↦ and_congr_right fun _ ↦
      or_congr_right <| exists_congr fun pt ↦ and_congr_right fun _ ↦ ?_
  rw [run_bind_of_ok (run_readEntry pt (idxPt v) s)]
  by_cases hpresent : s.mem pt (idxPt v) &&& ptePresent = 0
  · rw [run_bind_of_error (run_failIf_of hpresent)]
    exact iff_of_true rfl hpresent
  · rw [run_bind_of_ok (run_failIf_of_not hpresent)]
    exact iff_of_false (fun h ↦ by cases h) hpresent

theorem exists_isPage (i j k l : Fin entriesPerTable) :
    ∃ v, IsPage v ∧ idxPml4 v = i ∧ idxPdpt v = j ∧ idxPd v = k ∧ idxPt v = l := by
  have hi : i.val < 512 := i.isLt
  have hj : j.val < 512 := j.isLt
  have hk : k.val < 512 := k.isLt
  have hl : l.val < 512 := l.isLt
  -- The sign bit is the highest bit of the first index.
  let n := l.val * 2 ^ 12 + k.val * 2 ^ 21 + j.val * 2 ^ 30 + i.val * 2 ^ 39 +
    if i.val < 256 then 0 else 0xFFFF * 2 ^ 48
  have hn : (BitVec.ofNat 64 n).toNat = n := by
    rw [BitVec.toNat_ofNat, Nat.mod_eq_of_lt]
    simp only [n]
    split_ifs <;> omega
  refine ⟨BitVec.ofNat 64 n, ⟨?_, ?_⟩, ?_, ?_, ?_, ?_⟩
  · rw [vmmIsCanonical_iff, hn]
    simp only [n]
    split_ifs <;> omega
  · rw [vmmIsAligned4k_iff, hn]
    simp only [n]
    split_ifs <;> omega
  all_goals
    apply Fin.ext
    simp only [idxPml4, idxPdpt, idxPd, idxPt]
    rw [val_idx, hn]
    simp only [n]
    split_ifs <;> omega

/-- The walks of all pages from the root end at an entry that is not present. -/
def Barren (space : VmmSpace κ) (mem : ℕ → Fin entriesPerTable → BitVec 64) : Prop :=
  ∃ pml4, tableFromPhys space space.rootPaddr = some pml4 ∧
    ∀ i j k l, Misses space mem pml4 [i, j, k, l]

theorem forall_notFound_iff : (∀ v, IsPage v →
      returned ((vmmQueryPage (some space) v true).run s) = .error .notFound) ↔
    Barren space s.mem := by
  constructor
  · intro h
    obtain ⟨v₀, hv₀, -⟩ := exists_isPage 0 0 0 0
    obtain ⟨pml4, hpml4, -⟩ := (returned_vmmQueryPage_iff hv₀).mp (h v₀ hv₀)
    refine ⟨pml4, hpml4, fun i j k l ↦ ?_⟩
    obtain ⟨v, hv, rfl, rfl, rfl, rfl⟩ := exists_isPage i j k l
    obtain ⟨pml4', hpml4', hmiss⟩ := (returned_vmmQueryPage_iff hv).mp (h v hv)
    rw [hpml4, Option.some_inj] at hpml4'
    rwa [hpml4']
  · rintro ⟨pml4, hpml4, hmiss⟩ v hv
    exact (returned_vmmQueryPage_iff hv).mpr ⟨pml4, hpml4, hmiss _ _ _ _⟩

theorem barren_of_zero {pml4 : ℕ} {mem : ℕ → Fin entriesPerTable → BitVec 64}
    (hroot : tableFromPhys space space.rootPaddr = some pml4) (hzero : ∀ i, mem pml4 i = 0) :
    Barren space mem := by
  refine ⟨pml4, hroot, fun i j k l ↦ .inl (.inl ?_)⟩
  rw [hzero]
  exact BitVec.zero_and

end Search

/-- In the address space that `kernel_vmm_init` makes no page is found, if and only if the old
contents of memory, walked from the frame that the allocator has returned, have no present entry at
the end. -/
theorem fresh_space_empty_iff (off : BitVec 64) {pmm : Pmm.State} (h : Pmm.Ready pmm)
    (hfree : Pmm.freeSet pmm ≠ ∅) (mem : ℕ → Fin entriesPerTable → BitVec 64) :
    let space := kernelSpace off (BitVec.ofNat 64 (Pmm.allocFrame pmm).1)
    kernelVmmInit off pmm = (some space, (Pmm.allocFrame pmm).2) ∧
      ((∀ v, vmmIsCanonical v = true → vmmIsAligned4k v = true →
        returned ((vmmQueryPage (some space) v true).run ⟨(Pmm.allocFrame pmm).2, mem⟩) =
          .error .notFound) ↔ Barren space mem) := by
  obtain ⟨f, hf⟩ := Pmm.exists_isLeast hfree
  have hroot : (Pmm.allocFrame pmm).1 = Pmm.pageSize * f := by
    rw [Pmm.allocFrame_of_isLeast h hf, (Pmm.takeFrame_spec h.toInv hf).1]
  refine ⟨?_, Iff.trans ?_ (forall_notFound_iff (s := ⟨(Pmm.allocFrame pmm).2, mem⟩))⟩
  · rw [hroot]
    exact kernelVmmInit_of_isLeast off h hf
  · exact forall_congr' fun v ↦ and_imp.symm

/-- The allocator of a machine with four frames of usable memory. -/
def smallPmm : Pmm.State :=
  (Pmm.initFromMap Pmm.zeroState (some [⟨0, 0x4000, 1⟩]) (some fun _ ↦ 0) 1 0x4000).2

theorem ready_smallPmm : Pmm.Ready smallPmm := by
  have hinit : Pmm.initFromMap Pmm.zeroState (some [⟨0, 0x4000, 1⟩]) (some fun _ ↦ 0) 1 0x4000 =
    (true, smallPmm) := rfl
  exact Pmm.ready_of_initFromMap hinit

/-- In memory that is all zero the new address space is empty. -/
theorem fresh_space_empty_iff_zero : (Pmm.allocFrame smallPmm).1 = 0x1000 ∧
    ∀ v, vmmIsCanonical v = true → vmmIsAligned4k v = true →
      returned ((vmmQueryPage (some (kernelSpace 0 0x1000)) v true).run
        ⟨(Pmm.allocFrame smallPmm).2, fun _ _ ↦ 0⟩) = .error .notFound := by
  have hroot : (Pmm.allocFrame smallPmm).1 = 0x1000 := by decide +kernel
  have hfree : Pmm.freeSet smallPmm ≠ ∅ := by decide +kernel
  have hiff := (fresh_space_empty_iff 0 ready_smallPmm hfree fun _ _ ↦ 0).2
  rw [hroot] at hiff
  have htable : tableFromPhys (kernelSpace 0 0x1000) 0x1000 = some 0x1000 := rfl
  exact ⟨hroot, hiff.mpr (barren_of_zero htable fun _ ↦ rfl)⟩

/-- The root table is frame 1. Every entry in memory is present and points to this frame, and a page
that nobody has mapped is found. -/
theorem stale_page_found :
    (kernelVmmInit 0 smallPmm).1.map VmmSpace.rootPaddr = some 0x1000 ∧
      returned ((vmmQueryPage (some (kernelSpace 0 0x1000)) 0x400000 true).run
        ⟨(kernelVmmInit 0 smallPmm).2, fun _ _ ↦ 0x1001⟩) = .ok ⟨0x400000, 0x1000, 1⟩ :=
  ⟨by decide +kernel, rfl⟩

end Vmm

end Mcsos
