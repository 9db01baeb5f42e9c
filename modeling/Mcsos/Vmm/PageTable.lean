import Mcsos.Base.Fallible
import Mcsos.Base.TableTree
import Mathlib.Data.BitVec

/-!
# Four-level page tables

`vmm.c`: `vmm_map_page`, `vmm_query_page` and `vmm_unmap_page` on the page tables of an address
space. A `uint64_t` is a `BitVec 64`. A pointer to a table is a natural number, and memory is what
the 512 entries of the table at each pointer hold. The three callbacks of a `struct vmm_space` are
`none` when they are `NULL`; `alloc_frame` and `free_frame` work on a context of any type.

`vmm_invalidate_page` drops a translation from the processor and changes no table; it is left out.
-/

namespace Mcsos

namespace Vmm

def pageSize : BitVec 64 := 4096

abbrev entriesPerTable : ℕ := 512

def invalidPhys : BitVec 64 := BitVec.allOnes 64

/-! ## Bits of an entry -/

def ptePresent : BitVec 64 := 1#64 <<< 0

def pteWritable : BitVec 64 := 1#64 <<< 1

def pteUser : BitVec 64 := 1#64 <<< 2

def pteWriteThrough : BitVec 64 := 1#64 <<< 3

def pteCacheDisable : BitVec 64 := 1#64 <<< 4

def pteHuge : BitVec 64 := 1#64 <<< 7

def pteGlobal : BitVec 64 := 1#64 <<< 8

def pteNoExecute : BitVec 64 := 1#64 <<< 63

def pteAddrMask : BitVec 64 := 0x000FFFFFFFFFF000

/-- The flags that a caller of `vmm_map_page` may set. -/
def allowed : BitVec 64 :=
  pteWritable ||| pteUser ||| pteWriteThrough ||| pteCacheDisable ||| pteGlobal ||| pteNoExecute

/-- `VMM_ERR_*` -/
inductive Err
  | inval
  | nomem
  | exist
  | notFound
deriving DecidableEq

/-! ## Addresses -/

def vmmIsAligned4k (value : BitVec 64) : Bool := value &&& (pageSize - 1) == 0

def vmmIsCanonical (vaddr : BitVec 64) : Bool :=
  let sign := (vaddr >>> 47) &&& 1
  let upper := vaddr >>> 48
  if sign ≠ 0 then upper == 0xFFFF else upper == 0

/-- The nine bits of an address from bit `shift` on. -/
def idx (shift : ℕ) (vaddr : BitVec 64) : Fin entriesPerTable :=
  Fin.ofNat entriesPerTable ((vaddr >>> shift) &&& 0x1FF).toNat

def idxPml4 : BitVec 64 → Fin entriesPerTable := idx 39

def idxPdpt : BitVec 64 → Fin entriesPerTable := idx 30

def idxPd : BitVec 64 → Fin entriesPerTable := idx 21

def idxPt : BitVec 64 → Fin entriesPerTable := idx 12

/-! ## Address spaces -/

/-- `struct vmm_space` without its context. -/
structure VmmSpace (κ : Type) where
  rootPaddr : BitVec 64
  allocFrame : Option (κ → BitVec 64 × κ)
  freeFrame : Option (κ → BitVec 64 → κ)
  physToVirt : Option (BitVec 64 → Option ℕ)

/-- The context of the callbacks and the tables in memory. -/
structure State (κ : Type) where
  ctx : κ
  mem : ℕ → Fin entriesPerTable → BitVec 64

structure VmmMapping where
  vaddr : BitVec 64
  paddr : BitVec 64
  flags : BitVec 64
deriving DecidableEq

variable {κ : Type}

def vmmSpaceInit (rootPaddr : BitVec 64) (allocFrame : Option (κ → BitVec 64 × κ))
    (freeFrame : Option (κ → BitVec 64 → κ)) (physToVirt : Option (BitVec 64 → Option ℕ)) :
    Except Err (VmmSpace κ) :=
  if physToVirt.isNone || !vmmIsAligned4k rootPaddr then .error .inval
  else .ok ⟨rootPaddr, allocFrame, freeFrame, physToVirt⟩

def tableFromPhys (space : VmmSpace κ) (paddr : BitVec 64) : Option ℕ :=
  match space.physToVirt with
  | none => none
  | some physToVirt => if !vmmIsAligned4k paddr then none else physToVirt paddr

/-- `table[index]` -/
def readEntry (table : ℕ) (index : Fin entriesPerTable) :
    EStateM Err (State κ) (BitVec 64) := fun s ↦ .ok (s.mem table index) s

/-- `table[index] = entry` -/
def writeEntry (table : ℕ) (index : Fin entriesPerTable) (entry : BitVec 64) :
    EStateM Err (State κ) Unit := fun s ↦
  .ok () { s with mem := TableTree.write s.mem table index entry }

def vmmZeroPage (page : ℕ) : EStateM Err (State κ) Unit := fun s ↦
  .ok () { s with mem := TableTree.fill s.mem page 0 }

/-- `space->alloc_frame(space->ctx)` -/
def callAllocFrame (allocFrame : κ → BitVec 64 × κ) : EStateM Err (State κ) (BitVec 64) := fun s ↦
  .ok (allocFrame s.ctx).1 { s with ctx := (allocFrame s.ctx).2 }

/-- A pointer that must not be `NULL`. -/
def nonNull (pointer : Option ℕ) : EStateM Err (State κ) ℕ := fun s ↦
  match pointer with
  | none => .error .inval s
  | some p => .ok p s

theorem run_readEntry (table : ℕ) (index : Fin entriesPerTable) (s : State κ) :
    (readEntry table index).run s = .ok (s.mem table index) s := rfl

theorem run_writeEntry (table : ℕ) (index : Fin entriesPerTable) (entry : BitVec 64)
    (s : State κ) : (writeEntry table index entry).run s =
      .ok () { s with mem := TableTree.write s.mem table index entry } := rfl

theorem run_callAllocFrame (allocFrame : κ → BitVec 64 × κ) (s : State κ) :
    (callAllocFrame allocFrame).run s =
      .ok (allocFrame s.ctx).1 { s with ctx := (allocFrame s.ctx).2 } := rfl

theorem run_nonNull (p : ℕ) (s : State κ) : (nonNull (some p)).run s = .ok p s := rfl

/-- The part of `get_or_alloc_next_table` after `alloc_frame` has returned a frame. -/
def installTable (space : VmmSpace κ) (table : ℕ) (index : Fin entriesPerTable)
    (newPaddr : BitVec 64) : EStateM Err (State κ) ℕ :=
  match tableFromPhys space newPaddr with
  | none => fun s ↦
    .error .inval (match space.freeFrame with
      | none => s
      | some freeFrame => { s with ctx := freeFrame s.ctx newPaddr })
  | some newTable => do
    vmmZeroPage newTable
    writeEntry table index ((newPaddr &&& pteAddrMask) ||| ptePresent ||| pteWritable)
    pure newTable

def getOrAllocNextTable (space : VmmSpace κ) (table : ℕ) (index : Fin entriesPerTable) :
    EStateM Err (State κ) ℕ := do
  let entry ← readEntry table index
  if entry &&& ptePresent ≠ 0 then
    failIf (entry &&& pteHuge ≠ 0) .exist
    nonNull (tableFromPhys space (entry &&& pteAddrMask))
  else match space.allocFrame with
    | none => throw .nomem
    | some allocFrame => do
      let newPaddr ← callAllocFrame allocFrame
      failIf (newPaddr = invalidPhys ∨ vmmIsAligned4k newPaddr = false) .nomem
      installTable space table index newPaddr

/-- `vmm_map_page`; `space` is `none` for `NULL`. -/
def vmmMapPage (space : Option (VmmSpace κ)) (vaddr paddr flags : BitVec 64) :
    EStateM Err (State κ) Unit :=
  match space with
  | none => throw .inval
  | some space => do
    failIf (vmmIsCanonical vaddr = false ∨ vmmIsAligned4k vaddr = false ∨
      vmmIsAligned4k paddr = false) .inval
    let pml4 ← nonNull (tableFromPhys space space.rootPaddr)
    let pdpt ← getOrAllocNextTable space pml4 (idxPml4 vaddr)
    let pd ← getOrAllocNextTable space pdpt (idxPdpt vaddr)
    let pt ← getOrAllocNextTable space pd (idxPd vaddr)
    let entry ← readEntry pt (idxPt vaddr)
    failIf (entry &&& ptePresent ≠ 0) .exist
    writeEntry pt (idxPt vaddr) ((paddr &&& pteAddrMask) ||| ptePresent ||| (flags &&& allowed))

/-- One level of the search that `vmm_query_page` and `vmm_unmap_page` make. -/
def nextTable (space : VmmSpace κ) (table : ℕ) (index : Fin entriesPerTable) :
    EStateM Err (State κ) ℕ := do
  let e ← readEntry table index
  failIf (e &&& ptePresent = 0 ∨ e &&& pteHuge ≠ 0) .notFound
  nonNull (tableFromPhys space (e &&& pteAddrMask))

/-- The search that `vmm_query_page` and `vmm_unmap_page` make, with their checks: the last table
and its entry for the address. -/
def findEntry (space : VmmSpace κ) (vaddr : BitVec 64) :
    EStateM Err (State κ) (ℕ × BitVec 64) := do
  failIf (vmmIsCanonical vaddr = false ∨ vmmIsAligned4k vaddr = false) .inval
  let pml4 ← nonNull (tableFromPhys space space.rootPaddr)
  let pdpt ← nextTable space pml4 (idxPml4 vaddr)
  let pd ← nextTable space pdpt (idxPdpt vaddr)
  let pt ← nextTable space pd (idxPd vaddr)
  let e ← readEntry pt (idxPt vaddr)
  failIf (e &&& ptePresent = 0) .notFound
  pure (pt, e)

/-- `vmm_query_page`. The flag says whether `out` is not `NULL`; the mapping is what it receives. -/
def vmmQueryPage (space : Option (VmmSpace κ)) (vaddr : BitVec 64) (out : Bool) :
    EStateM Err (State κ) VmmMapping :=
  match space with
  | none => throw .inval
  | some space => do
    failIf (out = false) .inval
    let (_, e) ← findEntry space vaddr
    pure ⟨vaddr, e &&& pteAddrMask, e &&& ~~~pteAddrMask⟩

def vmmUnmapPage (space : Option (VmmSpace κ)) (vaddr : BitVec 64) : EStateM Err (State κ) Unit :=
  match space with
  | none => throw .inval
  | some space => do
    let (pt, _) ← findEntry space vaddr
    writeEntry pt (idxPt vaddr) 0

/-! ## The address space as a machine -/

inductive Call
  | mapPage (vaddr paddr flags : BitVec 64)
  | unmapPage (vaddr : BitVec 64)
  | queryPage (vaddr : BitVec 64)

inductive Ret
  | status (r : Except Err Unit)
  | mapping (r : Except Err VmmMapping)

def step (space : VmmSpace κ) : Call → State κ → Ret × State κ
  | .mapPage vaddr paddr flags, s =>
    let r := (vmmMapPage (some space) vaddr paddr flags).run s
    (.status (returned r), finalState r)
  | .unmapPage vaddr, s =>
    let r := (vmmUnmapPage (some space) vaddr).run s
    (.status (returned r), finalState r)
  | .queryPage vaddr, s =>
    let r := (vmmQueryPage (some space) vaddr true).run s
    (.mapping (returned r), finalState r)

end Vmm

end Mcsos
