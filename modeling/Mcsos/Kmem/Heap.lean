import Mcsos.Base.Bytes

/-!
# The kernel heap

`kmem.c`: an arena that is cut into blocks, each with a header in front of its payload. The headers
are a doubly linked list in memory. Memory is one array of bytes with 64-bit addresses, which holds
the headers, the payloads and everything else; pointers and sizes are computed modulo `2 ^ 64`.

A loop over the list that nothing bounds runs with the fuel `rounds`. A function that runs out of it
returns `none`, which stands for a call that does not return.
-/

namespace Mcsos

namespace Kmem

/-! ## Constants -/

def kmemAlign : ℕ := 16
def kmemMagic : ℕ := 0x4d43534f53484541
def kmemMinSplit : ℕ := 32
/-- `sizeof(kmem_block_t)` -/
def headerSize : ℕ := 48
/-- `SIZE_MAX` and `UINTPTR_MAX` -/
def sizeMax : ℕ := 2 ^ 64 - 1
/-- The bound of `kmem_validate` on the number of blocks. -/
def maxBlocks : ℕ := 1048576
/-- More rounds than there are addresses. -/
def rounds : ℕ := 2 ^ 64

/-! ## Arithmetic -/

/-- A sum or product in 64 bits. -/
def wrap (n : ℕ) : ℕ := n % 2 ^ 64

/-- A difference in 64 bits. -/
def sub (a b : ℕ) : ℕ := wrap (a + 2 ^ 64 - b)

def kmemAlignUpSize (value align : ℕ) : ℕ :=
  if align = 0 then value
  else
    let mask := sub align 1
    if align &&& mask ≠ 0 then 0
    else if value > sizeMax - mask then 0
    else (value + mask) &&& (sizeMax - mask)

def kmemAlignUpPtr (value align : ℕ) : ℕ :=
  let mask := sub align 1
  if align &&& mask ≠ 0 then 0
  else if value > sizeMax - mask then 0
  else (value + mask) &&& (sizeMax - mask)

/-! ## Headers -/

/-- The fields of `kmem_block_t` that are used. -/
inductive Field
  | magic
  | size
  | free
  | prev
  | next
  deriving DecidableEq

namespace Field

def offset : Field → ℕ
  | magic => 0
  | size => 8
  | free => 16
  | prev => 32
  | next => 40

/-- The width in bytes; `free` is an `int`. -/
def bytes : Field → ℕ
  | free => 4
  | _ => 8

end Field

/-- The value of `block->f`. A header is 8-byte aligned, so that no field crosses the end of the
address space. -/
def get (m : Mem) (block : ℕ) (f : Field) : ℕ := m.load f.bytes (wrap (block + f.offset))

/-- The memory after `block->f = v`. -/
def set (m : Mem) (block : ℕ) (f : Field) (v : ℕ) : Mem :=
  m.store f.bytes (wrap (block + f.offset)) v

/-- The five assignments that fill a header. -/
def fillHeader (m : Mem) (block size free prev next : ℕ) : Mem :=
  let m := set m block .magic kmemMagic
  let m := set m block .size size
  let m := set m block .free free
  let m := set m block .prev prev
  set m block .next next

def kmemPayload (block : ℕ) : ℕ := wrap (block + headerSize)

def kmemHeaderFromPayload (ptr : ℕ) : ℕ := sub ptr headerSize

def kmemMemset (m : Mem) (dst : ℕ) (value : UInt8) : ℕ → Mem
  | 0 => m
  | bytes + 1 => kmemMemset (fun i ↦ if i = dst then value else m i) (wrap (dst + 1)) value bytes

/-! ## State -/

/-- Memory and the variables `g_*`. -/
structure State where
  mem : Mem
  heapBase : ℕ
  heapEnd : ℕ
  head : ℕ
  initialized : Bool

def kmemPtrInHeap (s : State) (ptr : ℕ) : Prop :=
  s.initialized = true ∧ s.heapBase ≤ ptr ∧ ptr < s.heapEnd

instance (s : State) (ptr : ℕ) : Decidable (kmemPtrInHeap s ptr) :=
  inferInstanceAs (Decidable (_ ∧ _))

/-! ## Splitting and coalescing -/

/-- The statement `if (next != NULL) next->prev = block;`. -/
def linkBack (m : Mem) (next block : ℕ) : Mem :=
  if next ≠ 0 then set m next .prev block else m

/-- The assignments of `kmem_split_if_useful`, which make a new block at `newAddr`. -/
def cutBlock (m : Mem) (block newAddr consumed wanted : ℕ) : Mem :=
  let m := set m newAddr .magic kmemMagic
  let m := set m newAddr .size (sub (sub (get m block .size) consumed) headerSize)
  let m := set m newAddr .free 1
  let m := set m newAddr .prev block
  let m := set m newAddr .next (get m block .next)
  let m := linkBack m (get m block .next) newAddr
  let m := set m block .next newAddr
  set m block .size wanted

def kmemSplitIfUseful (s : State) (block wanted : ℕ) : State :=
  let header := kmemAlignUpSize headerSize kmemAlign
  if header = 0 then s
  else if get s.mem block .size < wrap (wanted + header + kmemMinSplit) then s
  else
    let newAddr := kmemAlignUpPtr (wrap (kmemPayload block + wanted)) kmemAlign
    if newAddr = 0 then s
    else if wrap (newAddr + headerSize) ≥ s.heapEnd then s
    else
      let consumed := sub newAddr (kmemPayload block)
      if get s.mem block .size ≤ wrap (consumed + headerSize + kmemMinSplit) then s
      else { s with mem := cutBlock s.mem block newAddr consumed wanted }

/-- One round of the loop of `kmem_coalesce_forward`, in which `next` is `block->next`. -/
def mergeNext (m : Mem) (block next : ℕ) : Mem :=
  let m := set m block .size (wrap (get m block .size + (headerSize + get m next .size)))
  let m := set m block .next (get m next .next)
  let m := linkBack m (get m next .next) block
  let m := set m next .magic 0
  let m := set m next .size 0
  let m := set m next .prev 0
  set m next .next 0

def kmemCoalesceForward (block : ℕ) : ℕ → Mem → Option Mem
  | 0, _ => none
  | fuel + 1, m =>
    if block ≠ 0 ∧ get m block .next ≠ 0 ∧ get m (get m block .next) .free ≠ 0 then
      let expected := kmemAlignUpPtr (wrap (kmemPayload block + get m block .size)) kmemAlign
      if expected ≠ get m block .next then some m
      else kmemCoalesceForward block fuel (mergeNext m block (get m block .next))
    else some m

/-! ## `kmem_validate` and `kmem_init` -/

/-- The loop of `kmem_validate`, with `k` more blocks before the bound is exceeded. -/
def validateFrom (s : State) : ℕ → ℕ → ℕ → ℕ → ℤ
  | k, prev, cursor, cur =>
    if cur = 0 then 0
    else
      match k with
      | 0 => -3
      | k + 1 =>
        if cur ≠ cursor then -4
        else if cur < s.heapBase ∨ wrap (cur + headerSize) > s.heapEnd then -5
        else if get s.mem cur .magic ≠ kmemMagic then -6
        else if get s.mem cur .prev ≠ prev then -7
        else if get s.mem cur .size > sub s.heapEnd (kmemPayload cur) then -8
        else
          let cursor := kmemAlignUpPtr (wrap (kmemPayload cur + get s.mem cur .size)) kmemAlign
          if cursor = 0 ∨ cursor > s.heapEnd then -9
          else validateFrom s k cur cursor (get s.mem cur .next)

def kmemValidate (s : State) : ℤ :=
  if s.initialized = false ∨ s.heapBase = 0 ∨ s.heapEnd ≤ s.heapBase ∨ s.head = 0 then -1
  else if s.head ≠ s.heapBase then -2
  else validateFrom s maxBlocks 0 s.heapBase s.head

/-- `kmem_init`: the code and the state after it. -/
def kmemInit (base bytes : ℕ) (s : State) : ℤ × State :=
  if base = 0 ∨ bytes < headerSize + kmemMinSplit then (-1, s)
  else
    let start := kmemAlignUpPtr base kmemAlign
    if start = 0 ∨ start < base then (-2, s)
    else
      let lost := sub start base
      if bytes ≤ wrap (lost + headerSize + kmemMinSplit) then (-3, s)
      else
        let usable := sub bytes lost &&& (sizeMax - (kmemAlign - 1))
        if usable ≤ headerSize + kmemMinSplit then (-4, s)
        else
          let m := fillHeader s.mem start (usable - headerSize) 1 0 0
          let s' : State := ⟨m, start, wrap (start + usable), start, true⟩
          (kmemValidate s', s')

/-! ## `kmem_alloc`, `kmem_calloc` and `kmem_free_checked` -/

/-- The loop of `kmem_alloc` from the block `cur` on. -/
def allocFrom (s : State) (wanted : ℕ) : ℕ → ℕ → Option (ℕ × State)
  | 0, _ => none
  | fuel + 1, cur =>
    if cur = 0 then some (0, s)
    else if get s.mem cur .magic ≠ kmemMagic then some (0, s)
    else if get s.mem cur .free ≠ 0 ∧ get s.mem cur .size ≥ wanted then
      let s := kmemSplitIfUseful s cur wanted
      some (kmemPayload cur, { s with mem := set s.mem cur .free 0 })
    else allocFrom s wanted fuel (get s.mem cur .next)

/-- `kmem_alloc`: the pointer and the state after it. -/
def kmemAlloc (bytes : ℕ) (s : State) : Option (ℕ × State) :=
  if s.initialized = false ∨ bytes = 0 then some (0, s)
  else
    let wanted := kmemAlignUpSize bytes kmemAlign
    if wanted = 0 then some (0, s)
    else allocFrom s wanted rounds s.head

def kmemCalloc (count bytes : ℕ) (s : State) : Option (ℕ × State) :=
  if count ≠ 0 ∧ bytes > sizeMax / count then some (0, s)
  else
    let total := wrap (count * bytes)
    match kmemAlloc total s with
    | none => none
    | some (ptr, s) =>
      if ptr ≠ 0 then some (ptr, { s with mem := kmemMemset s.mem ptr 0 total })
      else some (ptr, s)

/-- `kmem_free_checked`: the code and the state after it. -/
def kmemFreeChecked (ptr : ℕ) (s : State) : Option (ℤ × State) :=
  if ptr = 0 then some (0, s)
  else if ¬kmemPtrInHeap s ptr then some (-1, s)
  else if ptr &&& (kmemAlign - 1) ≠ 0 then some (-2, s)
  else
    let block := kmemHeaderFromPayload ptr
    if ¬kmemPtrInHeap s block ∨ get s.mem block .magic ≠ kmemMagic then some (-3, s)
    else if get s.mem block .free ≠ 0 then some (-4, s)
    else do
      let m ← kmemCoalesceForward block rounds (set s.mem block .free 1)
      let m ←
        if get m block .prev ≠ 0 ∧ get m (get m block .prev) .free ≠ 0 then
          kmemCoalesceForward (get m block .prev) rounds m
        else some m
      some (kmemValidate { s with mem := m }, { s with mem := m })

/-! ## `kmem_get_stats` -/

/-- `kmem_stats_t` -/
structure Stats where
  totalBytes : ℕ
  usedBytes : ℕ
  freeBytes : ℕ
  blockCount : ℕ
  freeCount : ℕ
  largestFree : ℕ
  deriving DecidableEq

/-- One round of the loop of `kmem_get_stats`. -/
def countBlock (m : Mem) (cur : ℕ) (out : Stats) : Stats :=
  let out := { out with blockCount := wrap (out.blockCount + 1) }
  if get m cur .free ≠ 0 then
    let out := { out with freeCount := wrap (out.freeCount + 1) }
    let out := { out with freeBytes := wrap (out.freeBytes + get m cur .size) }
    if get m cur .size > out.largestFree then { out with largestFree := get m cur .size } else out
  else { out with usedBytes := wrap (out.usedBytes + get m cur .size) }

/-- The loop of `kmem_get_stats` from the block `cur` on. -/
def statsFrom (m : Mem) : ℕ → ℕ → Stats → Option Stats
  | 0, _, _ => none
  | fuel + 1, cur, out =>
    if cur = 0 then some out else statsFrom m fuel (get m cur .next) (countBlock m cur out)

/-- `kmem_get_stats`: what is written to `*out`, which is not null and lies outside the heap. -/
def kmemGetStats (s : State) : Option Stats :=
  if s.initialized = false then some ⟨0, 0, 0, 0, 0, 0⟩
  else statsFrom s.mem rounds s.head ⟨sub s.heapEnd s.heapBase, 0, 0, 0, 0, 0⟩

end Kmem

end Mcsos
