import Mcsos.Base.Machine
import Mcsos.Kmem.Operations

/-!
# Safety of the heap

The heap with the allocations that are live, under calls of `kmem_alloc`, `kmem_calloc` and
`kmem_free_checked` and stores of its clients. `Safe` is what the heap promises. The invariant `Inv`
says that every live allocation is the payload of an allocated block of the list.

There is one request that breaks the heap. `kmem_split_if_useful` adds the header and the smallest
remainder to the number of bytes wanted, and the sum wraps if the request takes up the largest heap
that there is, the one from 16 to `2 ^ 64 - 16`. The header of the remainder is then written behind
the heap, where addresses wrap to the first block (`Wraps`, `magic_brokenMem`).
-/

namespace Mcsos

namespace Kmem

open Tiling

/-! ## The heap and its clients -/

/-- An allocation: the pointer returned and the bytes requested. -/
structure Alloc where
  ptr : ℕ
  bytes : ℕ
  deriving DecidableEq

/-- The heap and the live allocations. -/
structure System where
  heap : State
  live : List Alloc

/-- The calls, and the stores of clients. -/
inductive Call where
  | alloc (bytes : ℕ)
  | calloc (count bytes : ℕ)
  | free (ptr : ℕ)
  | store (addr : ℕ) (value : UInt8)

/-- What a call returns; `never` stands for a call that does not return. -/
inductive Answer where
  | never
  | pointer (ptr : ℕ)
  | code (code : ℤ)
  | done
  deriving DecidableEq

/-- The allocation of `bytes` bytes has returned `ptr`. -/
def System.record (u : System) (bytes : ℕ) : Option (ℕ × State) → Answer × System
  | none => (.never, u)
  | some (ptr, s) => (.pointer ptr, ⟨s, if ptr = 0 then u.live else ⟨ptr, bytes⟩ :: u.live⟩)

def step : Call → System → Answer × System
  | .alloc bytes, u => u.record bytes (kmemAlloc bytes u.heap)
  | .calloc count bytes, u => u.record (count * bytes) (kmemCalloc count bytes u.heap)
  | .free ptr, u =>
    match kmemFreeChecked ptr u.heap with
    | none => (.never, u)
    | some (code, s) => (.code code, ⟨s, u.live.filter fun a ↦ a.ptr ≠ ptr⟩)
  | .store addr value, u =>
    (.done, { u with heap := { u.heap with mem := Function.update u.heap.mem addr value } })

/-- The size of the block whose payload starts at `ptr`. -/
def payloadSize (s : State) (ptr : ℕ) : ℕ := get s.mem (kmemHeaderFromPayload ptr) .size

/-- Clients free live allocations and store into the payloads of live allocations. -/
def Allowed (u : System) : Call → Prop
  | .free ptr => ∃ a ∈ u.live, a.ptr = ptr
  | .store addr _ => ∃ a ∈ u.live, a.ptr ≤ addr ∧ addr < a.ptr + payloadSize u.heap a.ptr
  | _ => True

/-- What the heap promises in a state: the list of blocks is `bs`. -/
structure Safe (u : System) (bs : List Blk) : Prop where
  tiled : Tiled u.heap bs
  validate : bs.length ≤ maxBlocks → kmemValidate u.heap = 0
  aligned : ∀ a ∈ u.live, 16 ∣ a.ptr
  holds : ∀ a ∈ u.live, a.bytes ≤ payloadSize u.heap a.ptr
  inside : ∀ a ∈ u.live,
    u.heap.heapBase ≤ a.ptr ∧ a.ptr + payloadSize u.heap a.ptr ≤ u.heap.heapEnd
  header_apart : ∀ a ∈ u.live, ∀ x b, At Blk.width u.heap.heapBase bs x b →
    x + headerSize ≤ a.ptr ∨ a.ptr + payloadSize u.heap a.ptr ≤ x
  payload_apart : u.live.Pairwise fun a a' ↦
    a.ptr + payloadSize u.heap a.ptr ≤ a'.ptr ∨ a'.ptr + payloadSize u.heap a'.ptr ≤ a.ptr

/-- A call of the allocator leaves the payloads alone that are live before and after it. -/
def Frame (u : System) (c : Call) : Prop :=
  (∀ addr value, c ≠ .store addr value) → ∀ a ∈ u.live, a ∈ (step c u).2.live →
    ∀ i, a.ptr ≤ i → i < a.ptr + payloadSize u.heap a.ptr → (step c u).2.heap.mem i = u.heap.mem i

/-- The sum that `kmem_split_if_useful` computes for the first block wraps. -/
def Wraps (s : State) (bytes : ℕ) : Prop :=
  2 ^ 64 ≤ kmemAlignUpSize bytes kmemAlign + headerSize + kmemMinSplit ∧
    get s.mem s.head .free ≠ 0 ∧ kmemAlignUpSize bytes kmemAlign ≤ get s.mem s.head .size

/-- The call makes such a request. -/
def Overflows (u : System) : Call → Prop
  | .alloc bytes => Wraps u.heap bytes
  | .calloc count bytes =>
    ¬(count ≠ 0 ∧ bytes > sizeMax / count) ∧ Wraps u.heap (wrap (count * bytes))
  | _ => False

/-! ## The invariant -/

/-- Every live allocation is the payload of an allocated block. -/
structure Inv (u : System) (bs : List Blk) : Prop where
  tiled : Tiled u.heap bs
  live : ∀ a ∈ u.live, ∃ x d, UsedAt u.heap.heapBase bs x d ∧ a.ptr = x + headerSize ∧
    a.bytes ≤ d.size
  distinct : u.live.Pairwise fun a a' ↦ a.ptr ≠ a'.ptr

variable {s : State} {u : System} {bs bs' : List Blk} {m' : Mem} {a : Alloc} {x : ℕ} {d : Blk}

theorem Tiled.at_lt (h : Tiled s bs) (hx : At Blk.width s.heapBase bs x d) :
    s.heapBase ≤ x ∧ x + headerSize + d.size ≤ s.heapEnd ∧ 16 ∣ x ∧ 16 ∣ d.size ∧
      get s.mem x .size = d.size := by
  have hle := hx.le
  have hend := hx.end_le
  have hcovers := h.covers
  obtain ⟨q, hblock⟩ := h.laid.at hx
  obtain ⟨pre, post, rfl, rfl⟩ := hx
  rw [Blk.width] at hend
  exact ⟨hle, by omega, h.place_dvd, hblock.dvd, hblock.size⟩

theorem Tiled.payloadSize_eq (h : Tiled s bs) (hx : At Blk.width s.heapBase bs x d) :
    payloadSize s (x + headerSize) = d.size := by
  obtain ⟨-, hend, -, -, hsize⟩ := h.at_lt hx
  have hlt := h.end_lt
  rw [payloadSize, kmemHeaderFromPayload, sub_of_le (Nat.le_add_left _ _) (by omega),
    Nat.add_sub_cancel, hsize]

theorem Inv.safe (h : Inv u bs) : Safe u bs where
  tiled := h.tiled
  validate := h.tiled.validate
  aligned a ha := by
    obtain ⟨x, d, ⟨hx, -⟩, hptr, -⟩ := h.live a ha
    obtain ⟨-, -, hdvd, -, -⟩ := h.tiled.at_lt hx
    rw [hptr]
    exact Nat.dvd_add hdvd (by decide)
  holds a ha := by
    obtain ⟨x, d, ⟨hx, -⟩, hptr, hbytes⟩ := h.live a ha
    rw [hptr, h.tiled.payloadSize_eq hx]
    exact hbytes
  inside a ha := by
    obtain ⟨x, d, ⟨hx, -⟩, hptr, -⟩ := h.live a ha
    obtain ⟨hle, hend, -, -, -⟩ := h.tiled.at_lt hx
    rw [hptr, h.tiled.payloadSize_eq hx]
    exact ⟨by omega, hend⟩
  header_apart a ha y b hy := by
    obtain ⟨x, d, ⟨hx, -⟩, hptr, -⟩ := h.live a ha
    rw [hptr, h.tiled.payloadSize_eq hx]
    have hwidth := headerSize_le_width b
    have hd : d.width = headerSize + d.size := rfl
    rcases hx.apart hy with ⟨rfl, -⟩ | hapart | hapart
    · exact .inl le_rfl
    · exact .inr (by omega)
    · exact .inl (by omega)
  payload_apart := by
    refine h.distinct.imp_of_mem fun {a a'} ha ha' hne ↦ ?_
    obtain ⟨x, d, ⟨hx, -⟩, hptr, -⟩ := h.live a ha
    obtain ⟨y, e, ⟨hy, -⟩, hptr', -⟩ := h.live a' ha'
    rw [hptr, hptr'] at hne ⊢
    rw [h.tiled.payloadSize_eq hx, h.tiled.payloadSize_eq hy]
    have hd : d.width = headerSize + d.size := rfl
    have he : e.width = headerSize + e.size := rfl
    rcases hx.apart hy with ⟨rfl, -⟩ | hapart | hapart
    · exact absurd rfl hne
    · exact .inl (by omega)
    · exact .inr (by omega)

theorem Inv.usedByte (h : Inv u bs) (ha : a ∈ u.live) {i : ℕ} (hlo : a.ptr ≤ i)
    (hhi : i < a.ptr + payloadSize u.heap a.ptr) : UsedByte u.heap.heapBase bs i := by
  obtain ⟨x, d, hx, hptr, -⟩ := h.live a ha
  rw [hptr, h.tiled.payloadSize_eq hx.1, Nat.add_assoc] at hhi
  rw [hptr] at hlo
  exact ⟨x, d, hx, hlo, hhi⟩

theorem Inv.write (h : Inv u bs) (hx : At Blk.width u.heap.heapBase bs x d)
    (hsame : ∀ i, i < x + headerSize ∨ x + headerSize + d.size ≤ i → m' i = u.heap.mem i) :
    Inv { u with heap := { u.heap with mem := m' } } bs := by
  refine ⟨h.tiled.congr fun y b hy i hlo hhi ↦ hsame i ?_, h.live, h.distinct⟩
  by_contra hin
  have hd : d.width = headerSize + d.size := rfl
  rcases notMem_header hy hx (show x + headerSize ≤ i by omega) (by omega) with hlt | hge <;> omega

/-! ## `kmem_alloc` -/

/-- The sum can wrap for the first block only. -/
theorem Tiled.wraps (h : Tiled s bs) {n : ℕ} (hx : At Blk.width s.heapBase bs x d)
    (hfree : d.free = true) (hle : kmemAlignUpSize n kmemAlign ≤ d.size)
    (hsum : 2 ^ 64 ≤ kmemAlignUpSize n kmemAlign + headerSize + kmemMinSplit) : Wraps s n := by
  obtain ⟨hbase, hend, hdvd, -, hsize⟩ := h.at_lt hx
  obtain ⟨q, hblock⟩ := h.laid.at hx
  have hlt := h.end_lt
  have hpos := h.base_pos
  have hbaseDvd := h.base_dvd
  have hheader : headerSize = 48 := rfl
  have hmin : kmemMinSplit = 32 := rfl
  have hhead : s.head = x := by
    rw [h.head]
    omega
  refine ⟨hsum, ?_, ?_⟩
  · rw [hhead, hblock.free, hfree]
    decide
  · rw [hhead, hsize]
    exact hle

/-- What an allocation does to the heap with its live allocations. -/
structure Allocates (u : System) (bs : List Blk) (ptr bytes : ℕ) (s : State) (bs' : List Blk) :
    Prop where
  inv : Inv ⟨s, ⟨ptr, bytes⟩ :: u.live⟩ bs'
  frame : ∀ i, UsedByte u.heap.heapBase bs i → s.mem i = u.heap.mem i
  base : s.heapBase = u.heap.heapBase
  stop : s.heapEnd = u.heap.heapEnd
  used : ∀ x d, UsedAt u.heap.heapBase bs x d → UsedAt s.heapBase bs' x d ∧ x + headerSize ≠ ptr
  only : ∀ x d, UsedAt s.heapBase bs' x d → UsedAt u.heap.heapBase bs x d ∨ x + headerSize = ptr
  ptr_ne : ptr ≠ 0
  unforged : Unforged u.heap.mem u.heap.heapBase bs → Unforged s.mem s.heapBase bs'
  merged : Merged bs → Merged bs'

/-- `kmem_alloc` returns `NULL` or allocates a block, unless the sum wraps. -/
theorem Inv.kmemAlloc (h : Inv u bs) {n : ℕ} (hn : ¬Wraps u.heap n) :
    kmemAlloc n u.heap = some (0, u.heap) ∨
      ∃ ptr s bs', kmemAlloc n u.heap = some (ptr, s) ∧ Allocates u bs ptr n s bs' := by
  rcases h.tiled.kmemAlloc_cases n with ⟨hnull, -⟩ | ⟨hzero, pre, b, post, rfl, -, hfree, hle, hres⟩
  · exact .inl hnull
  obtain ⟨hdvd, hpos, hn'⟩ := wanted_spec hzero
  have hsum : kmemAlignUpSize n kmemAlign + headerSize + kmemMinSplit < 2 ^ 64 := by
    by_contra hge
    exact hn (h.tiled.wraps at_place hfree hle (not_lt.mp hge))
  obtain ⟨m', d, bs', htake, hd, htiled, hused, hdfree, hframe, hclean, hmerged⟩ :=
    h.tiled.take hfree hdvd hpos hle hsum
  rw [htake] at hres
  -- A block that was allocated before is not the free one that was found.
  have hother : ∀ x e, UsedAt u.heap.heapBase (pre ++ b :: post) x e → x ≠ place u.heap pre := by
    rintro x e ⟨hx, he⟩ rfl
    have hb := headerSize_le_width b
    have hwe := headerSize_le_width e
    have hheader : headerSize = 48 := rfl
    rcases hx.apart at_place with ⟨-, rfl⟩ | hapart | hapart
    · exact absurd (hfree.symm.trans he) (by decide)
    all_goals omega
  refine .inr ⟨_, _, bs', hres, ⟨htiled, ?_, ?_⟩, hframe, rfl, rfl, fun x e hx ↦ ?_,
    fun x e hx ↦ ?_, (Nat.add_pos_left h.tiled.place_pos _).ne', hclean, hmerged⟩
  · intro a ha
    rcases List.mem_cons.mp ha with rfl | hold
    · exact ⟨_, d, ⟨((hused _ d).mpr (.inr ⟨rfl, rfl⟩)).1, hdfree⟩, rfl, hn'.trans hd⟩
    · obtain ⟨x, e, hx, hptr, hbytes⟩ := h.live a hold
      exact ⟨x, e, (hused x e).mpr (.inl hx), hptr, hbytes⟩
  · refine List.pairwise_cons.mpr ⟨fun a ha ↦ ?_, h.distinct⟩
    obtain ⟨x, e, hx, hptr, -⟩ := h.live a ha
    have hne := hother x e hx
    rw [hptr]
    change place u.heap pre + headerSize ≠ x + headerSize
    omega
  · have hne := hother x e hx
    exact ⟨(hused x e).mpr (.inl hx), by omega⟩
  · exact ((hused x e).mp hx).imp_right fun hnew ↦ by rw [hnew.1]

/-! ## `kmem_calloc` -/

theorem kmemMemset_of_notMem {m : Mem} {dst n i : ℕ} {v : UInt8} (hlt : dst + n ≤ 2 ^ 64)
    (hi : i < dst ∨ dst + n ≤ i) : kmemMemset m dst v n i = m i := by
  induction n generalizing m dst with
  | zero => rfl
  | succ n ih =>
    have hne : i ≠ dst := by omega
    rw [kmemMemset]
    rcases Nat.eq_zero_or_pos n with rfl | hpos
    · rw [kmemMemset, if_neg hne]
    · rw [wrap_of_lt (by omega), ih (by omega) (by omega), if_neg hne]

theorem kmemMemset_of_mem {m : Mem} {dst n i : ℕ} {v : UInt8} (hlt : dst + n ≤ 2 ^ 64)
    (hlo : dst ≤ i) (hhi : i < dst + n) : kmemMemset m dst v n i = v := by
  induction n generalizing m dst with
  | zero => omega
  | succ n ih =>
    rw [kmemMemset]
    rcases Nat.eq_zero_or_pos n with rfl | hpos
    · rw [kmemMemset, if_pos (by omega)]
    · rw [wrap_of_lt (by omega)]
      rcases Nat.eq_or_lt_of_le hlo with rfl | hgt
      · rw [kmemMemset_of_notMem (by omega) (.inl (Nat.lt_succ_self _)), if_pos rfl]
      · exact ih (by omega) hgt (by omega)

theorem Clean.memset {m : Mem} {dst n lo hi : ℕ} (h : Clean m lo hi) (hdvd : 16 ∣ dst)
    (hlt : dst + n ≤ 2 ^ 64) : Clean (kmemMemset m dst 0 n) lo hi := by
  intro w hw hge hle
  have hout : w + 8 ≤ dst ∨ dst + n ≤ w ∨ dst ≤ w ∧ w < dst + n := by omega
  rcases hout with hout | hout | ⟨hlo, hhi⟩
  · rw [Mem.load_congr fun i _ hi ↦ kmemMemset_of_notMem hlt (.inl (by omega))]
    exact h w hw hge hle
  · rw [Mem.load_congr fun i hi _ ↦ kmemMemset_of_notMem hlt (.inr (by omega))]
    exact h w hw hge hle
  · have hbyte : (kmemMemset m dst 0 n).load 8 w % 256 ^ 1 = 0 := by
      rw [Mem.load_add_mod (kmemMemset m dst 0 n) 1 7 w, Mem.load, Mem.load,
        kmemMemset_of_mem hlt hlo hhi]
      rfl
    rw [kmemMagic]
    omega

theorem Allocates.memset {ptr n : ℕ} (h : Allocates u bs ptr n s bs') :
    Allocates u bs ptr n { s with mem := kmemMemset s.mem ptr 0 n } bs' := by
  obtain ⟨x, d, ⟨hx, hd⟩, hptr, hn⟩ := h.inv.live ⟨ptr, n⟩ List.mem_cons_self
  change At Blk.width s.heapBase bs' x d at hx
  change ptr = x + headerSize at hptr
  change n ≤ d.size at hn
  obtain ⟨-, hend, hdvd, -⟩ := h.inv.tiled.at_lt hx
  have hlt : s.heapEnd < 2 ^ 64 := h.inv.tiled.end_lt
  have hheader : headerSize = 48 := rfl
  change x + headerSize + d.size ≤ s.heapEnd at hend
  refine ⟨h.inv.write hx fun i hi ↦ kmemMemset_of_notMem (by omega) (by omega), fun i hi ↦ ?_,
    h.base, h.stop, h.used, h.only, h.ptr_ne,
    fun hclean y e hy ↦ (h.unforged hclean y e hy).memset (by omega) (by omega), h.merged⟩
  -- The payloads of the blocks that were allocated before lie apart from the new one.
  refine (kmemMemset_of_notMem (by omega) ?_).trans (h.frame i hi)
  obtain ⟨y, e, hy, hlo, hhi⟩ := hi
  obtain ⟨⟨hy', -⟩, hne⟩ := h.used y e hy
  have hwidth : d.width = headerSize + d.size := rfl
  rcases hx.apart hy' with ⟨rfl, -⟩ | hapart | hapart <;> omega

theorem Inv.kmemCalloc (h : Inv u bs) {count n : ℕ} (hn : ¬Overflows u (.calloc count n)) :
    kmemCalloc count n u.heap = some (0, u.heap) ∨
      ∃ ptr s bs', kmemCalloc count n u.heap = some (ptr, s) ∧
        Allocates u bs ptr (count * n) s bs' := by
  rw [Kmem.kmemCalloc]
  by_cases hlarge : count ≠ 0 ∧ n > sizeMax / count
  · exact .inl (if_pos hlarge)
  have htotal : wrap (count * n) = count * n := by
    refine wrap_of_lt ?_
    rcases Nat.eq_zero_or_pos count with rfl | hpos
    · rw [Nat.zero_mul]
      decide
    · have hle : n ≤ sizeMax / count := not_lt.mp fun hgt ↦ hlarge ⟨hpos.ne', hgt⟩
      have hmul : count * n ≤ sizeMax :=
        (Nat.mul_comm count n).trans_le ((Nat.le_div_iff_mul_le hpos).mp hle)
      rw [sizeMax] at hmul
      omega
  have hwraps : ¬Wraps u.heap (count * n) := fun hw ↦ hn ⟨hlarge, by rwa [htotal]⟩
  rw [if_neg hlarge, htotal]
  dsimp only
  rcases h.kmemAlloc hwraps with hnull | ⟨ptr, s, bs', hres, halloc⟩
  · rw [hnull]
    exact .inl rfl
  · rw [hres]
    refine .inr ⟨ptr, _, bs', if_pos halloc.ptr_ne, halloc.memset⟩

/-! ## One call -/

/-- A call returns, and keeps the invariant and the payloads of others. -/
def Keeps (u : System) (c : Call) : Prop :=
  (∃ bs, Inv (step c u).2 bs) ∧ (step c u).1 ≠ .never ∧ Frame u c

theorem Inv.record (h : Inv u bs) {n : ℕ} {r : Option (ℕ × State)}
    (hr : r = some (0, u.heap) ∨ ∃ ptr s bs', r = some (ptr, s) ∧ Allocates u bs ptr n s bs') :
    (∃ bs', Inv (u.record n r).2 bs') ∧ (u.record n r).1 ≠ .never ∧
      ∀ i, UsedByte u.heap.heapBase bs i → (u.record n r).2.heap.mem i = u.heap.mem i := by
  rcases hr with rfl | ⟨ptr, s, bs', rfl, halloc⟩
  · exact ⟨⟨bs, h⟩, Answer.noConfusion, fun _ _ ↦ rfl⟩
  · refine ⟨⟨bs', ?_⟩, Answer.noConfusion, halloc.frame⟩
    rw [System.record, if_neg halloc.ptr_ne]
    exact halloc.inv

/-- What freeing `ptr` does to the heap with its live allocations. -/
structure Frees (u : System) (bs : List Blk) (ptr : ℕ) (t : System) (bs' : List Blk) : Prop where
  inv : Inv t bs'
  frame : ∀ i, UsedByte u.heap.heapBase bs' i → t.heap.mem i = u.heap.mem i
  used : ∀ x d, UsedAt t.heap.heapBase bs' x d ↔
    UsedAt u.heap.heapBase bs x d ∧ x + headerSize ≠ ptr
  base : t.heap.heapBase = u.heap.heapBase
  stop : t.heap.heapEnd = u.heap.heapEnd
  unforged : Unforged u.heap.mem u.heap.heapBase bs → Unforged t.heap.mem t.heap.heapBase bs'
  merged : Merged bs → Merged bs'
  length_le : bs'.length ≤ bs.length

theorem Inv.frees (h : Inv u bs) (ha : a ∈ u.live) : ∃ t bs',
    step (.free a.ptr) u = (.code (kmemValidate t.heap), t) ∧
      t.live = u.live.filter (fun a' ↦ a'.ptr ≠ a.ptr) ∧
      kmemFreeChecked a.ptr u.heap = some (kmemValidate t.heap, t.heap) ∧
      Frees u bs a.ptr t bs' := by
  obtain ⟨x, d, ⟨⟨pre, post, rfl, rfl⟩, hd⟩, hptr, -⟩ := h.live a ha
  obtain ⟨m', bs', hres, htiled, hused, hframe, hclean, hmerged, hlen⟩ := h.tiled.kmemFreeChecked hd
  have hptr' : a.ptr = place u.heap pre + headerSize := hptr
  rw [← hptr'] at hres
  have hiff : ∀ y e, UsedAt u.heap.heapBase bs' y e ↔
      UsedAt u.heap.heapBase (pre ++ d :: post) y e ∧ y + headerSize ≠ a.ptr := by
    intro y e
    rw [hused, hptr', Ne, Ne, Nat.add_left_inj]
  refine ⟨⟨{ u.heap with mem := m' }, u.live.filter fun a' ↦ a'.ptr ≠ a.ptr⟩, bs', ?_, rfl, hres,
    ⟨htiled, fun a' ha' ↦ ?_, h.distinct.filter _⟩, hframe, hiff, rfl, rfl, hclean, hmerged, hlen⟩
  · rw [step, hres]
  · -- The other live allocations are still allocated.
    obtain ⟨hmem, hne⟩ := List.mem_filter.mp ha'
    obtain ⟨y, e, hy, hptr'', hbytes⟩ := h.live a' hmem
    rw [hptr''] at hne
    exact ⟨y, e, (hiff y e).mpr ⟨hy, of_decide_eq_true hne⟩, hptr'', hbytes⟩

theorem Inv.keeps_free (h : Inv u bs) (ha : a ∈ u.live) : Keeps u (.free a.ptr) := by
  obtain ⟨t, bs', hstep, hlive, -, hfrees⟩ := h.frees ha
  rw [Keeps, Frame, hstep]
  refine ⟨⟨bs', hfrees.inv⟩, Answer.noConfusion, fun _ a' _ ha' i hlo hhi ↦ hfrees.frame i ?_⟩
  obtain ⟨y, e, hy, hptr, -⟩ := hfrees.inv.live a' ha'
  rw [hptr, h.tiled.payloadSize_eq ((hfrees.used y e).mp hy).1.1, Nat.add_assoc] at hhi
  rw [hptr] at hlo
  rw [hfrees.base] at hy
  exact ⟨y, e, hy, hlo, hhi⟩

theorem Inv.keeps_store (h : Inv u bs) (ha : a ∈ u.live) {addr : ℕ} {v : UInt8}
    (hlo : a.ptr ≤ addr) (hhi : addr < a.ptr + payloadSize u.heap a.ptr) :
    Keeps u (.store addr v) := by
  obtain ⟨x, d, hx, hptr, -⟩ := h.live a ha
  rw [hptr, h.tiled.payloadSize_eq hx.1] at hhi
  refine ⟨⟨bs, h.write hx.1 fun i hi ↦ Function.update_of_ne (by omega) _ _⟩,
    Answer.noConfusion, ?_⟩
  exact fun hc ↦ absurd rfl (hc addr v)

/-- Every call of a client that does not overflow keeps the heap in order. -/
theorem Inv.keeps (h : Inv u bs) {c : Call} (hc : Allowed u c) (hover : ¬Overflows u c) :
    Keeps u c := by
  cases c with
  | alloc n =>
    obtain ⟨hinv, hret, hframe⟩ := h.record (h.kmemAlloc hover)
    exact ⟨hinv, hret, fun _ a ha _ i hlo hhi ↦ hframe i (h.usedByte ha hlo hhi)⟩
  | calloc count n =>
    obtain ⟨hinv, hret, hframe⟩ := h.record (h.kmemCalloc hover)
    exact ⟨hinv, hret, fun _ a ha _ i hlo hhi ↦ hframe i (h.usedByte ha hlo hhi)⟩
  | free ptr =>
    obtain ⟨a, ha, rfl⟩ := hc
    exact h.keeps_free ha
  | store addr v =>
    obtain ⟨a, ha, hlo, hhi⟩ := hc
    exact h.keeps_store ha hlo hhi

/-! ## The request that overflows -/

/-- The sum wraps in one case only: a heap that is one free block from 16 to `2 ^ 64 - 16`, and a
request for all of it. -/
theorem Tiled.of_wraps (h : Tiled s bs) {n : ℕ} (hw : Wraps s n) :
    s.heapBase = 16 ∧ s.heapEnd = 2 ^ 64 - 16 ∧ kmemAlignUpSize n kmemAlign = 2 ^ 64 - 80 ∧
      get s.mem 16 .magic = kmemMagic ∧ get s.mem 16 .size = 2 ^ 64 - 80 ∧
      get s.mem 16 .next = 0 := by
  obtain ⟨b, post, rfl⟩ := List.exists_cons_of_ne_nil h.nonempty
  obtain ⟨hsum, -, hle⟩ := hw
  have hblock : IsBlock s.mem s.heapEnd 0 s.heapBase b := h.laid.1
  have hcovers := h.covers
  have hlt := h.end_lt
  have hpos := h.base_pos
  have hbase := h.base_dvd
  have hsize := hblock.dvd
  have hrest := dvd_extent h.laid.2
  have hwidth : b.width = headerSize + b.size := rfl
  have hheader : headerSize = 48 := rfl
  have hmin : kmemMinSplit = 32 := rfl
  rw [h.head, hblock.size] at hle
  rw [extent_cons] at hcovers
  have h16 : s.heapBase = 16 := by omega
  have hnext := hblock.next
  rw [link, if_pos (by omega), h16] at hnext
  have hmagic := hblock.magic
  have hfull := hblock.size
  rw [h16] at hmagic hfull
  exact ⟨h16, by omega, by omega, hmagic, by omega, hnext⟩

/-- The fields of a header at the end of such a heap wrap to the addresses below 32. -/
theorem get_set_behind {m : Mem} {f : Field} {v : ℕ} :
    get (set m (2 ^ 64 - 16) f v) 16 .next = get m 16 .next := by
  rw [get, set, Mem.load_store_of_disjoint, get]
  cases f <;> decide

/-- The field `prev` of the new header is the field `magic` of the first block. -/
theorem magic_cutBlock {m : Mem} (consumed : ℕ) {wanted : ℕ} (hnext : get m 16 .next = 0)
    (hwanted : wanted < 2 ^ 64) :
    get (cutBlock m 16 (2 ^ 64 - 16) consumed wanted) 16 .magic = 16 := by
  have hlt : 16 + headerSize ≤ 2 ^ 64 := by decide
  have hmagic : ∀ (m : Mem) (v : ℕ),
      get (set (set m (2 ^ 64 - 16) .prev 16) (2 ^ 64 - 16) .next v) 16 .magic = 16 := by
    intro m v
    rw [get, set, Mem.load_store_of_disjoint (by decide), set]
    exact Mem.load_store_self_of_lt (by decide)
  rw [cutBlock, get_set_self hlt hwanted, Function.update_of_ne (by decide),
    get_set_self hlt (by decide), Function.update_of_ne (by decide)]
  simp only [get_set_behind, hnext, linkBack]
  rw [if_neg (not_not.mpr rfl)]
  exact hmagic _ _

/-- The memory after the request for all of the largest heap. -/
def brokenMem (m : Mem) : Mem :=
  set (cutBlock m 16 (2 ^ 64 - 16) (2 ^ 64 - 80) (2 ^ 64 - 80)) 16 .free 0

/-- The first block is cut although nothing is left of it. -/
theorem Tiled.kmemAlloc_of_wraps (h : Tiled s bs) {n : ℕ} (hw : Wraps s n) :
    kmemAlloc n s = some (64, { s with mem := brokenMem s.mem }) := by
  obtain ⟨hbase, hend, hwanted, hmagic, hsize, hnext⟩ := h.of_wraps hw
  have hhead : s.head = 16 := h.head.trans hbase
  have hfree := hw.2.1
  rw [hhead] at hfree
  have hn : n ≠ 0 := by
    rintro rfl
    exact absurd hwanted (by decide)
  have hsplit : kmemSplitIfUseful s 16 (2 ^ 64 - 80) =
      { s with mem := cutBlock s.mem 16 (2 ^ 64 - 16) (2 ^ 64 - 80) (2 ^ 64 - 80) } := by
    rw [kmemSplitIfUseful, alignUpSize_header, if_neg (by decide), hsize]
    dsimp only
    have hnew : kmemAlignUpPtr (wrap (kmemPayload 16 + (2 ^ 64 - 80))) kmemAlign = 2 ^ 64 - 16 := by
      decide
    rw [if_neg (by decide), hnew, if_neg (by decide), hend, if_neg (by decide), if_neg (by decide)]
    rfl
  obtain ⟨fuel, hfuel⟩ : ∃ k, rounds = k + 1 := ⟨2 ^ 64 - 1, rfl⟩
  have hfrom : allocFrom s (2 ^ 64 - 80) (fuel + 1) 16 =
      some (kmemPayload 16, { s with mem := brokenMem s.mem }) := by
    rw [allocFrom, if_neg (by decide), if_neg (not_not.mpr hmagic), if_pos ⟨hfree, hsize.ge⟩,
      hsplit, brokenMem]
  have huse : ¬(s.initialized = false ∨ n = 0) := by
    rw [h.initialized]
    exact fun hor ↦ hor.elim Bool.noConfusion hn
  rw [kmemAlloc, if_neg huse, hwanted, if_neg (by decide), hfuel]
  exact (congrArg _ hhead).trans hfrom

/-- The request for all of the largest heap overwrites the field `magic` of the first block. -/
theorem magic_brokenMem {m : Mem} (hnext : get m 16 .next = 0) :
    get (brokenMem m) 16 .magic = 16 := by
  rw [brokenMem, get_set_self (by decide) (by decide), Function.update_of_ne (by decide),
    magic_cutBlock _ hnext (by decide)]

theorem not_tiled_of_magic (hbase : s.heapBase = 16) (hmagic : get s.mem 16 .magic = 16) :
    ¬Tiled s bs := by
  intro h
  obtain ⟨b, post, rfl⟩ := List.exists_cons_of_ne_nil h.nonempty
  have hblock : IsBlock s.mem s.heapEnd 0 s.heapBase b := h.laid.1
  have hmagic' := hblock.magic
  rw [hbase, hmagic] at hmagic'
  exact absurd hmagic' (by decide)

theorem Tiled.step_of_overflows (h : Tiled u.heap bs) {c : Call} (hover : Overflows u c) :
    get u.heap.mem 16 .size = 2 ^ 64 - 80 ∧ get u.heap.mem 16 .next = 0 ∧ u.heap.heapBase = 16 ∧
      ∃ m', (step c u).2.heap = { u.heap with mem := m' } ∧
        ∀ i, i < 64 ∨ 2 ^ 64 - 16 ≤ i → m' i = brokenMem u.heap.mem i := by
  cases c with
  | alloc n =>
    obtain ⟨hbase, -, -, -, hsize, hnext⟩ := h.of_wraps hover
    refine ⟨hsize, hnext, hbase, brokenMem u.heap.mem, ?_, fun _ _ ↦ rfl⟩
    rw [step, h.kmemAlloc_of_wraps hover]
    rfl
  | calloc count n =>
    obtain ⟨hsmall, hw⟩ := hover
    obtain ⟨hbase, -, hwanted, -, hsize, hnext⟩ := h.of_wraps hw
    obtain ⟨-, -, hle⟩ := wanted_spec (show kmemAlignUpSize (wrap (count * n)) kmemAlign ≠ 0 by
      rw [hwanted]; decide)
    refine ⟨hsize, hnext, hbase, kmemMemset (brokenMem u.heap.mem) 64 0 (wrap (count * n)), ?_,
      fun i hi ↦ kmemMemset_of_notMem (by omega) (by omega)⟩
    rw [step, Kmem.kmemCalloc, if_neg hsmall]
    dsimp only
    rw [h.kmemAlloc_of_wraps hw]
    rfl
  | free ptr => exact hover.elim
  | store addr v => exact hover.elim

/-- A call that overflows leaves a heap that is not in order. -/
theorem Inv.not_tiled (h : Inv u bs) {c : Call} (hover : Overflows u c) :
    ¬Tiled (step c u).2.heap bs' := by
  obtain ⟨-, hnext, hbase, m', hheap, hsame⟩ := h.tiled.step_of_overflows hover
  rw [hheap]
  -- The memory that is cleared starts behind the first header.
  refine not_tiled_of_magic hbase ((get_congr (by decide) fun i _ hi ↦ ?_).trans
    (magic_brokenMem hnext))
  exact hsame i (.inl hi)

/-! ## Runs -/

/-- What the heap promises about a call: it returns, the heap is safe after it, and it leaves the
payloads of others alone. -/
def Serves (u : System) (c : Call) : Prop :=
  (∃ bs, Safe (step c u).2 bs) ∧ (step c u).1 ≠ .never ∧ Frame u c

variable {base bytes : ℕ} {s₀ : State} {t : System} {es : List (Call × Answer)}

theorem inv_of_run (hbase : base < 2 ^ 64) (hbytes : bytes < 2 ^ 64)
    (hinit : kmemInit base bytes s₀ = (0, s))
    (hrun : Run step (fun u c ↦ Allowed u c ∧ ¬Overflows u c) ⟨s, []⟩ es t) : ∃ bs, Inv t bs := by
  have hstart : ∃ bs, Inv ⟨s, []⟩ bs := by
    obtain ⟨size, htiled, -⟩ := tiled_of_kmemInit hbase hbytes hinit
    exact ⟨_, htiled, fun a ha ↦ absurd ha List.not_mem_nil, List.Pairwise.nil⟩
  refine hrun.invariant (P := fun u ↦ ∃ bs, Inv u bs) hstart ?_
  rintro u c ⟨bs, h⟩ ⟨hc, hover⟩
  exact (h.keeps hc hover).1

/-- From any arena that `kmem_init` accepts, as long as no request overflows, the heap is safe; and
the next call of a client is served if and only if it does not overflow. -/
theorem heap_safe_iff (hlt : base + bytes < 2 ^ 64) (hinit : kmemInit base bytes s₀ = (0, s))
    (hrun : Run step (fun u c ↦ Allowed u c ∧ ¬Overflows u c) ⟨s, []⟩ es t) :
    (∃ bs, Safe t bs) ∧ ∀ c, Allowed t c → (Serves t c ↔ ¬Overflows t c) := by
  obtain ⟨bs, h⟩ := inv_of_run (by omega) (by omega) hinit hrun
  refine ⟨⟨bs, h.safe⟩, fun c hc ↦ ⟨?_, fun hover ↦ ?_⟩⟩
  · rintro ⟨⟨bs', hsafe⟩, -, -⟩ hover
    exact h.not_tiled hover hsafe.tiled
  · obtain ⟨⟨bs', hinv⟩, hret, hframe⟩ := h.keeps hc hover
    exact ⟨⟨bs', hinv.safe⟩, hret, hframe⟩

/-- Memory before `kmem_init`. -/
def blank : State := ⟨fun _ ↦ 0, 0, 0, 0, false⟩

/-- An arena of one page, with one allocation, serves a second one. -/
theorem heap_safe_iff_page :
    (step (.alloc 100) ⟨(kmemInit 0x1000 0x1000 blank).2, []⟩).1 = .pointer 0x1030 ∧
      Serves (step (.alloc 100) ⟨(kmemInit 0x1000 0x1000 blank).2, []⟩).2 (.calloc 4 25) := by
  have hinit : kmemInit 0x1000 0x1000 blank = (0, (kmemInit 0x1000 0x1000 blank).2) :=
    Prod.ext (by decide +kernel) rfl
  have hrun : Run step (fun u c ↦ Allowed u c ∧ ¬Overflows u c)
      ⟨(kmemInit 0x1000 0x1000 blank).2, []⟩ _ _ :=
    Run.nil.snoc (Call.alloc 100) ⟨trivial, fun hw ↦ absurd hw.1 (by decide)⟩
  refine ⟨by decide +kernel, ?_⟩
  refine ((heap_safe_iff (by decide) hinit hrun).2 (.calloc 4 25) trivial).mpr fun hw ↦ ?_
  exact absurd hw.2.1 (by decide)

/-- All of the largest heap is requested, and `kmem_validate` then finds the first block broken. -/
theorem largest_request_breaks_heap :
    (kmemInit 16 (2 ^ 64 - 17) blank).1 = 0 ∧
      (step (.alloc (2 ^ 64 - 80)) ⟨(kmemInit 16 (2 ^ 64 - 17) blank).2, []⟩).1 = .pointer 64 ∧
      kmemValidate (step (.alloc (2 ^ 64 - 80))
        ⟨(kmemInit 16 (2 ^ 64 - 17) blank).2, []⟩).2.heap = -6 := by
  decide +kernel

end Kmem

end Mcsos
