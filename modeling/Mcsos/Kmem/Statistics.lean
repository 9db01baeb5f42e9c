import Mathlib.Order.Bounds.Defs
import Mcsos.Kmem.Safety

/-!
# The statistics of the heap

`kmem_get_stats` walks the list of blocks and adds up their sizes. On a tiled heap the sums are
those of the blocks (`Counts`), none of them wraps, and together with the headers they make up the
arena. The largest free block decides which requests `kmem_alloc` can serve, and the walk of
`kmem_alloc` goes upwards in memory, so that it takes the lowest block that is large enough
(`Tiled.available`).

After the one request that breaks the heap the two functions disagree. `kmem_alloc` stops at the
first block, whose field `magic` is lost. `kmem_get_stats` does not look at that field, goes on to
the header behind the heap and reports a free block there (`not_available`).
-/

namespace Mcsos

namespace Kmem

open Tiling

variable {s : State} {u : System} {bs pre : List Blk} {b : Blk} {m : Mem} {out out' : Stats}
  {fuel w x : ℕ}

/-! ## Sums over the blocks -/

/-- The payload bytes of the blocks that are free, or of those that are not. -/
def sizes (free : Bool) (bs : List Blk) : ℕ :=
  ((bs.filter fun b ↦ b.free = free).map Blk.size).sum

theorem sizes_concat (free : Bool) (pre : List Blk) (b : Blk) :
    sizes free (pre ++ [b]) = sizes free pre + if b.free = free then b.size else 0 := by
  rw [sizes, sizes, List.filter_append, List.map_append, List.sum_append, List.filter_singleton]
  split_ifs with h <;> simp [h]

theorem lacks_concat : Lacks w (pre ++ [b]) ↔ Lacks w pre ∧ (b.free = true → b.size < w) := by
  rw [Lacks, Lacks, List.forall_mem_append, List.forall_mem_singleton]

theorem sizes_add_headers (bs : List Blk) :
    sizes false bs + sizes true bs + headerSize * bs.length = extent Blk.width bs := by
  induction bs using List.reverseRecOn with
  | nil => rfl
  | append_singleton pre b ih =>
    rw [sizes_concat, sizes_concat, List.length_append, extent_append, ← ih, extent_cons,
      extent_nil, Blk.width, List.length_singleton, Nat.mul_add]
    cases b.free
    · rw [if_pos rfl, if_neg (by decide)]
      omega
    · rw [if_neg (by decide), if_pos rfl]
      omega

/-- The statistics are those of the blocks. -/
structure Counts (total : ℕ) (out : Stats) (bs : List Blk) : Prop where
  total : out.totalBytes = total
  used : out.usedBytes = sizes false bs
  free : out.freeBytes = sizes true bs
  count : out.blockCount = bs.length
  freeCount : out.freeCount = bs.countP Blk.free
  largest : ∀ w, 0 < w → (w ≤ out.largestFree ↔ ¬Lacks w bs)

theorem counts_nil (total : ℕ) : Counts total ⟨total, 0, 0, 0, 0, 0⟩ [] :=
  ⟨rfl, rfl, rfl, rfl, rfl, fun _ hw ↦ iff_of_false (by exact Nat.not_le.mpr hw)
    (not_not.mpr fun _ h ↦ absurd h List.not_mem_nil)⟩

/-! ## One block -/

theorem countBlock_of_free (hfree : get m x .free ≠ 0) : countBlock m x out =
    ⟨out.totalBytes, out.usedBytes, wrap (out.freeBytes + get m x .size),
      wrap (out.blockCount + 1), wrap (out.freeCount + 1),
      max out.largestFree (get m x .size)⟩ := by
  rw [countBlock, if_pos hfree]
  dsimp only
  split_ifs with hlarger
  · rw [max_eq_right hlarger.le]
  · rw [max_eq_left (not_lt.mp hlarger)]

theorem countBlock_of_used (hused : get m x .free = 0) : countBlock m x out =
    ⟨out.totalBytes, wrap (out.usedBytes + get m x .size), out.freeBytes,
      wrap (out.blockCount + 1), out.freeCount, out.largestFree⟩ :=
  if_neg (not_not.mpr hused)

/-- A round counts the block at which the walk is. No sum wraps, since the blocks lie in memory. -/
theorem Counts.step {total e p a : ℕ} (h : Counts total out pre) (hb : IsBlock m e p a b)
    (hlt : extent Blk.width (pre ++ [b]) < 2 ^ 64) :
    Counts total (countBlock m a out) (pre ++ [b]) := by
  have hsum := sizes_add_headers (pre ++ [b])
  have hcount : pre.countP Blk.free ≤ pre.length := List.countP_le_length
  have hheader : headerSize = 48 := rfl
  rw [sizes_concat, sizes_concat, List.length_append, List.length_singleton, hheader] at hsum
  cases hfree : b.free with
  | false =>
    rw [hfree, if_pos rfl, if_neg (by decide)] at hsum
    rw [countBlock_of_used (by rw [hb.free, hfree]; rfl), hb.size, h.used, h.count,
      wrap_of_lt (by omega), wrap_of_lt (by omega)]
    refine ⟨h.total, ?_, ?_, ?_, ?_, fun w hw ↦ ?_⟩
    · rw [sizes_concat, hfree, if_pos rfl]
    · rw [sizes_concat, hfree, if_neg (by decide)]
      exact h.free
    · rw [List.length_append, List.length_singleton]
    · rw [List.countP_append, List.countP_singleton, hfree, if_neg (by decide)]
      exact h.freeCount
    · rw [lacks_concat, hfree, h.largest w hw, and_iff_left (fun hf ↦ Bool.noConfusion hf)]
  | true =>
    rw [hfree, if_neg (by decide), if_pos rfl] at hsum
    rw [countBlock_of_free (by rw [hb.free, hfree]; decide), hb.size, h.free, h.count, h.freeCount,
      wrap_of_lt (by omega), wrap_of_lt (by omega), wrap_of_lt (by omega)]
    refine ⟨h.total, ?_, ?_, ?_, ?_, fun w hw ↦ ?_⟩
    · rw [sizes_concat, hfree, if_neg (by decide)]
      exact h.used
    · rw [sizes_concat, hfree, if_pos rfl]
    · rw [List.length_append, List.length_singleton]
    · rw [List.countP_append, List.countP_singleton, hfree, if_pos rfl]
    · rw [lacks_concat, hfree, le_max_iff, h.largest w hw, not_and_or, not_forall, exists_prop,
        not_lt, and_iff_right rfl]

/-! ## The walks -/

theorem Tiled.statsFrom {total : ℕ} (pre : List Blk) (h : Tiled s (pre ++ bs))
    (hfuel : bs.length < fuel) (hout : Counts total out pre) :
    ∃ out', statsFrom s.mem fuel (link s.heapEnd (place s pre)) out = some out' ∧
      Counts total out' (pre ++ bs) := by
  induction bs generalizing pre fuel out with
  | nil =>
    have hcovers := h.covers
    rw [List.append_nil] at hcovers ⊢
    obtain ⟨fuel, rfl⟩ : ∃ k, fuel = k + 1 := ⟨fuel - 1, by omega⟩
    rw [link, if_pos (show place s pre = s.heapEnd from hcovers), Kmem.statsFrom, if_pos rfl]
    exact ⟨out, rfl, hout⟩
  | cons b post ih =>
    obtain ⟨fuel, rfl⟩ : ∃ k, fuel = k + 1 := ⟨fuel - 1, by omega⟩
    have hb := h.block
    have hcovers := h.place_covers
    have hend := h.end_lt
    have hwidth := headerSize_le_width b
    have hheader : headerSize = 48 := rfl
    have hlt : extent Blk.width (pre ++ [b]) < 2 ^ 64 := by
      rw [extent_append, extent_cons, extent_nil]
      rw [place] at hcovers
      omega
    obtain ⟨out', hres, hout'⟩ := ih (pre ++ [b]) h.shift (Nat.lt_of_succ_lt_succ hfuel)
      (hout.step hb hlt)
    rw [place_step] at hres
    rw [List.append_assoc, List.singleton_append] at hout'
    rw [link, if_neg (by omega), Kmem.statsFrom, if_neg h.place_pos.ne', hb.next]
    exact ⟨out', hres, hout'⟩

theorem Tiled.kmemGetStats (h : Tiled s bs) :
    ∃ out, kmemGetStats s = some out ∧ Counts (extent Blk.width bs) out bs := by
  have hcovers := h.covers
  obtain ⟨out, hres, hout⟩ := Tiled.statsFrom [] h h.length_lt (counts_nil _)
  rw [h.link_base.1] at hres
  refine ⟨out, ?_, hout⟩
  rw [Kmem.kmemGetStats, if_neg (by rw [h.initialized]; decide), sub_of_le (by omega) h.end_lt,
    show s.heapEnd - s.heapBase = extent Blk.width bs by omega, hres]

/-- The blocks of the list that starts at `g_head`. -/
inductive Listed (s : State) : ℕ → Prop
  | head : s.head ≠ 0 → Listed s s.head
  | next {x : ℕ} : Listed s x → get s.mem x .next ≠ 0 → Listed s (get s.mem x .next)

theorem Tiled.listed_iff (h : Tiled s bs) :
    Listed s x ↔ ∃ d, At Blk.width s.heapBase bs x d := by
  constructor
  · intro hx
    induction hx with
    | head _ =>
      obtain ⟨b, post, rfl⟩ := List.exists_cons_of_ne_nil h.nonempty
      exact ⟨b, [], post, rfl, h.head⟩
    | @next y _ hne ih =>
      obtain ⟨d, pre, post, rfl, rfl⟩ := ih
      have hnext := h.block.next
      have hcovers := h.place_covers
      change get s.mem (place s pre) .next ≠ 0 at hne
      cases post with
      | nil => exact absurd (hnext.trans (if_pos hcovers)) hne
      | cons c post =>
        refine ⟨c, pre ++ [d], post, by simp, ?_⟩
        have hc := headerSize_le_width c
        have hheader : headerSize = 48 := rfl
        rw [extent_cons] at hcovers
        rw [link, if_neg (by omega)] at hnext
        exact hnext.trans place_step.symm
  · rintro ⟨d, pre, post, rfl, rfl⟩
    induction pre using List.reverseRecOn generalizing d post with
    | nil =>
      have hbase : s.heapBase + extent Blk.width [] = s.head := h.head.symm
      rw [hbase]
      exact .head (by have := h.base_pos; rw [h.head]; omega)
    | append_singleton pre c ih =>
      rw [List.append_assoc, List.singleton_append] at h
      have hnext := h.block.next
      have hcovers := h.place_covers
      have hd := headerSize_le_width d
      have hheader : headerSize = 48 := rfl
      rw [extent_cons] at hcovers
      rw [link, if_neg (by omega), ← place_step] at hnext
      change Listed s (place s (pre ++ [c]))
      rw [← hnext]
      refine .next (ih c (d :: post) h) ?_
      rw [hnext]
      have := h.shift.place_pos
      omega

/-! ## Availability -/

/-- `n` rounded up to a multiple of 16. -/
def roundUp (n : ℕ) : ℕ := (n + 15) / 16 * 16

/-- The block at `x` is on the list, free and large enough for `w` bytes. -/
def Suits (s : State) (w x : ℕ) : Prop :=
  Listed s x ∧ get s.mem x .free ≠ 0 ∧ w ≤ get s.mem x .size

/-- The statistics account for every byte of the arena, and they say which requests are served:
those for which the lowest free block that is large enough is taken. -/
structure Available (s : State) (out : Stats) : Prop where
  stats : kmemGetStats s = some out
  conserved : out.usedBytes + out.freeBytes + headerSize * out.blockCount = out.totalBytes
  alloc : ∀ n, ∃ ptr s', kmemAlloc n s = some (ptr, s') ∧
    (ptr ≠ 0 ↔ 0 < n ∧ roundUp n ≤ out.largestFree) ∧
    (ptr ≠ 0 → ∃ x, ptr = kmemPayload x ∧ IsLeast {y | Suits s (roundUp n) y} x)

theorem roundUp_pos {n : ℕ} (hn : 0 < n) : 0 < roundUp n := by
  rw [roundUp]
  omega

theorem alignUpSize_cases (n : ℕ) : kmemAlignUpSize n kmemAlign = roundUp n ∨
    kmemAlignUpSize n kmemAlign = 0 ∧ 2 ^ 64 ≤ roundUp n := by
  rw [alignUpSize_eq, roundUp]
  split_ifs with hle
  · exact .inl rfl
  · exact .inr ⟨rfl, by omega⟩

theorem Tiled.lacks_of_le (h : Tiled s bs) (hw : 2 ^ 64 ≤ w) : Lacks w bs := by
  intro b hb _
  obtain ⟨pre, post, rfl⟩ := List.append_of_mem hb
  obtain ⟨-, hend, -⟩ := h.at_lt at_place
  have hlt := h.end_lt
  omega

/-- The first block of the list that is large enough is the lowest one. -/
theorem Tiled.isLeast_suits {post : List Blk} (h : Tiled s (pre ++ b :: post))
    (hlacks : Lacks w pre) (hfree : b.free = true) (hle : w ≤ b.size) :
    IsLeast {y | Suits s w y} (place s pre) := by
  have hb := h.block
  constructor
  · refine ⟨h.listed_iff.mpr ⟨b, at_place⟩, ?_, ?_⟩
    · rw [hb.free, hfree]
      decide
    · rw [hb.size]
      exact hle
  · rintro y ⟨hy, hyfree, hyle⟩
    obtain ⟨d, hd⟩ := h.listed_iff.mp hy
    obtain ⟨q, hblock⟩ := h.laid.at hd
    rw [hblock.free] at hyfree
    rw [hblock.size] at hyle
    -- A block below would be one of those that were passed over.
    rcases at_append.mp hd with hpre | hpost
    · refine absurd (hlacks d hpre.mem ?_) (not_lt.mpr hyle)
      by_contra hused
      exact hyfree (by rw [flag, if_neg hused])
    · exact hpost.le

theorem Tiled.available (h : Tiled s bs) : ∃ out, Available s out := by
  obtain ⟨out, hstats, hcounts⟩ := h.kmemGetStats
  refine ⟨out, hstats, ?_, fun n ↦ ?_⟩
  · rw [hcounts.total, hcounts.used, hcounts.free, hcounts.count]
    exact sizes_add_headers bs
  rcases h.kmemAlloc_cases n with
    ⟨hnull, hwhy⟩ | ⟨hzero, pre, b, post, rfl, hlacks, hfree, hle, hres⟩
  · refine ⟨0, s, hnull, iff_of_false (not_not.mpr rfl) ?_, fun h0 ↦ absurd rfl h0⟩
    rintro ⟨hn, hlarge⟩
    have hpos := roundUp_pos hn
    refine (hcounts.largest _ hpos).mp hlarge ?_
    rcases alignUpSize_cases n with heq | ⟨-, hge⟩
    · rw [heq] at hwhy
      exact (hwhy.resolve_left hn.ne').resolve_left hpos.ne'
    · exact h.lacks_of_le hge
  · have heq : kmemAlignUpSize n kmemAlign = roundUp n :=
      (alignUpSize_cases n).resolve_right fun hno ↦ hzero hno.1
    rw [heq] at hlacks hle hzero
    have hn : 0 < n := by
      by_contra h0
      exact hzero (by rw [Nat.eq_zero_of_not_pos h0]; rfl)
    have hlt := h.place_lt
    refine ⟨_, _, hres, iff_of_true (by have := h.place_pos; omega) ⟨hn, ?_⟩, fun _ ↦
      ⟨place s pre, ?_, h.isLeast_suits hlacks hfree hle⟩⟩
    · refine (hcounts.largest _ (roundUp_pos hn)).mpr fun hno ↦ ?_
      exact absurd (hno b (by simp) hfree) (not_lt.mpr hle)
    · rw [kmemPayload, wrap_of_lt (by omega)]

/-! ## A heap that is not initialized -/

theorem kmemAlloc_of_uninitialized (hinit : s.initialized = false) (n : ℕ) :
    kmemAlloc n s = some (0, s) :=
  if_pos (.inl hinit)

theorem available_of_uninitialized (hinit : s.initialized = false) : ∃ out, Available s out := by
  refine ⟨⟨0, 0, 0, 0, 0, 0⟩, if_pos hinit, rfl, fun n ↦ ?_⟩
  refine ⟨0, s, kmemAlloc_of_uninitialized hinit n, iff_of_false (not_not.mpr rfl) ?_,
    fun h0 ↦ absurd rfl h0⟩
  rintro ⟨hn, hle⟩
  exact absurd hle (Nat.not_le.mpr (roundUp_pos hn))

/-- Without a heap and without allocations no call changes anything. -/
theorem step_of_uninitialized (hinit : u.heap.initialized = false) (hlive : u.live = [])
    {c : Call} (hc : Allowed u c) : (step c u).2 = u := by
  have hnull := kmemAlloc_of_uninitialized hinit
  cases c with
  | alloc n =>
    rw [step, hnull]
    rfl
  | calloc count n =>
    rw [step, kmemCalloc]
    dsimp only
    rw [hnull]
    split_ifs <;> rfl
  | free ptr =>
    obtain ⟨a, ha, -⟩ := hc
    rw [hlive] at ha
    exact absurd ha List.not_mem_nil
  | store addr v =>
    obtain ⟨a, ha, -⟩ := hc
    rw [hlive] at ha
    exact absurd ha List.not_mem_nil

/-! ## The request that breaks the heap -/

theorem largestFree_le_countBlock : out.largestFree ≤ (countBlock m x out).largestFree := by
  by_cases hfree : get m x .free = 0
  · rw [countBlock_of_used hfree]
  · rw [countBlock_of_free hfree]
    exact le_max_left _ _

theorem largestFree_le_statsFrom (h : statsFrom m fuel x out = some out') :
    out.largestFree ≤ out'.largestFree := by
  induction fuel generalizing x out with
  | zero => cases h
  | succ fuel ih =>
    rw [statsFrom] at h
    split_ifs at h with h0
    · cases h
      exact le_rfl
    · exact largestFree_le_countBlock.trans (ih h)

/-- The first block is lost to `kmem_alloc`, and a free block after it is counted. -/
theorem not_available (hinit : s.initialized = true) (hhead : s.head ≠ 0)
    (hmagic : get s.mem s.head .magic ≠ kmemMagic) (hnext : get s.mem s.head .next = x)
    (hx : x ≠ 0) (hfree : get s.mem x .free ≠ 0) (hsize : 16 ≤ get s.mem x .size) :
    ¬Available s out := by
  rintro ⟨hstats, -, halloc⟩
  obtain ⟨fuel, hfuel⟩ : ∃ k, rounds = k + 1 + 1 := ⟨2 ^ 64 - 2, rfl⟩
  have hlargest : 16 ≤ out.largestFree := by
    rw [kmemGetStats, if_neg (by rw [hinit]; decide), hfuel, statsFrom, if_neg hhead, hnext,
      statsFrom, if_neg hx, countBlock_of_free hfree] at hstats
    exact hsize.trans ((le_max_right _ _).trans (largestFree_le_statsFrom hstats))
  have hnull : kmemAlloc 1 s = some (0, s) := by
    rw [kmemAlloc, if_neg (by rw [hinit]; decide), hfuel]
    dsimp only
    rw [if_neg (by decide), allocFrom, if_neg hhead, if_pos hmagic]
  obtain ⟨ptr, s', hres, hiff, -⟩ := halloc 1
  obtain ⟨rfl, -⟩ := Prod.mk.inj (Option.some.inj (hnull.symm.trans hres))
  exact hiff.mpr ⟨Nat.one_pos, hlargest⟩ rfl

theorem get_set_of_disjoint {a v : ℕ} {f g : Field}
    (h : wrap (x + g.offset) + g.bytes ≤ wrap (a + f.offset) ∨
      wrap (a + f.offset) + f.bytes ≤ wrap (x + g.offset)) : get (set m a f v) x g = get m x g :=
  Mem.load_store_of_disjoint h

theorem get_set_same {a v : ℕ} {f : Field} (hv : v < 256 ^ f.bytes) : get (set m a f v) a f = v :=
  Mem.load_store_self_of_lt hv

/-- What the request leaves in the header behind the heap, and the way there. -/
theorem get_brokenMem (hsize : get m 16 .size = 2 ^ 64 - 80) (hnext : get m 16 .next = 0) :
    get (brokenMem m) 16 .next = 2 ^ 64 - 16 ∧ get (brokenMem m) (2 ^ 64 - 16) .free = 1 ∧
      get (brokenMem m) (2 ^ 64 - 16) .size = 2 ^ 64 - 48 := by
  simp (disch := decide) only [brokenMem, cutBlock, linkBack, get_set_of_disjoint, get_set_same,
    hnext, hsize, ne_eq, not_true, if_false]
  decide

theorem Tiled.not_available_of_overflows (h : Tiled u.heap bs) {c : Call} (hover : Overflows u c) :
    ¬Available (step c u).2.heap out := by
  obtain ⟨hsize, hnext, hbase, m', hheap, hsame⟩ := h.step_of_overflows hover
  obtain ⟨hnext', hfree', hsize'⟩ := get_brokenMem hsize hnext
  have hhead : u.heap.head = 16 := h.head.trans hbase
  have hfirst : ∀ f, get m' 16 f = get (brokenMem u.heap.mem) 16 f := fun f ↦
    get_congr (by decide) fun i _ hi ↦ hsame i (.inl hi)
  rw [hheap]
  have hbehind : ∀ f, f = .free ∨ f = .size →
      get m' (2 ^ 64 - 16) f = get (brokenMem u.heap.mem) (2 ^ 64 - 16) f := by
    rintro f (rfl | rfl)
    · exact Mem.load_congr fun i _ hi ↦ hsame i (.inl (by
        have hlt : i < 0 + 4 := hi
        omega))
    · exact Mem.load_congr fun i hi _ ↦ hsame i (.inr (by
        have hge : 2 ^ 64 - 8 ≤ i := hi
        omega))
  refine not_available h.initialized (x := 2 ^ 64 - 16) ?_ ?_ ?_ (by decide) ?_ ?_
  · exact hhead.trans_ne (by decide)
  · rw [hhead, hfirst, magic_brokenMem hnext]
    decide
  · rw [hhead, hfirst, hnext']
  · rw [hbehind _ (.inl rfl), hfree']
    decide
  · rw [hbehind _ (.inr rfl), hsize']
    decide

/-! ## Runs -/

/-- The call makes the request that breaks the heap. -/
def Breaks (u : System) (c : Call) : Prop := u.heap.initialized = true ∧ Overflows u c

/-- The heap is in order, or there is none. -/
def Settled (u : System) : Prop := (∃ bs, Inv u bs) ∨ u.heap.initialized = false ∧ u.live = []

theorem Settled.available (h : Settled u) : ∃ out, Available u.heap out := by
  rcases h with ⟨bs, hinv⟩ | ⟨hinit, -⟩
  · exact hinv.tiled.available
  · exact available_of_uninitialized hinit

theorem Settled.step (h : Settled u) {c : Call} (hc : Allowed u c) (hbreaks : ¬Breaks u c) :
    Settled (step c u).2 := by
  rcases h with ⟨bs, hinv⟩ | ⟨hinit, hlive⟩
  · exact .inl (hinv.keeps hc fun hover ↦ hbreaks ⟨hinv.tiled.initialized, hover⟩).1
  · rw [step_of_uninitialized hinit hlive hc]
    exact .inr ⟨hinit, hlive⟩

variable {base bytes : ℕ} {s₀ : State} {t : System} {es : List (Call × Answer)} {code : ℤ}

/-- After `kmem_init`, whether it has accepted the arena or left the heap uninitialized, and after
any calls that do not break the heap, the statistics say what is available; and they still do after
the next call if and only if it does not break the heap. -/
theorem heap_available_iff (hbase : base < 2 ^ 64) (hbytes : bytes < 2 ^ 64)
    (hinit : kmemInit base bytes s₀ = (code, s)) (hok : code = 0 ∨ s.initialized = false)
    (hrun : Run step (fun u c ↦ Allowed u c ∧ ¬Breaks u c) ⟨s, []⟩ es t) :
    (∃ out, Available t.heap out) ∧
      ∀ c, Allowed t c → ((∃ out, Available (step c t).2.heap out) ↔ ¬Breaks t c) := by
  have hstart : Settled ⟨s, []⟩ := by
    rcases hok with rfl | hnone
    · obtain ⟨size, htiled, -⟩ := tiled_of_kmemInit hbase hbytes hinit
      exact .inl ⟨_, htiled, fun a ha ↦ absurd ha List.not_mem_nil, List.Pairwise.nil⟩
    · exact .inr ⟨hnone, rfl⟩
  have h : Settled t := hrun.invariant (P := Settled) hstart fun u c h ⟨hc, hbreaks⟩ ↦
    h.step hc hbreaks
  refine ⟨h.available, fun c hc ↦ ⟨?_, fun hbreaks ↦ (h.step hc hbreaks).available⟩⟩
  rintro ⟨out, hout⟩ ⟨hinitialized, hover⟩
  rcases h with ⟨bs, hinv⟩ | ⟨hno, -⟩
  · exact hinv.tiled.not_available_of_overflows hover hout
  · exact absurd (hno.symm.trans hinitialized) (by decide)

/-- An arena of one page with one allocation. -/
theorem heap_available_iff_page :
    let t := (step (.alloc 100) ⟨(kmemInit 0x1000 0x1000 blank).2, []⟩).2
    kmemGetStats t.heap = some ⟨4096, 112, 3888, 2, 1, 3888⟩ ∧ ∃ out, Available t.heap out := by
  have hinit : kmemInit 0x1000 0x1000 blank = (0, (kmemInit 0x1000 0x1000 blank).2) :=
    Prod.ext (by decide +kernel) rfl
  have hrun : Run step (fun u c ↦ Allowed u c ∧ ¬Breaks u c)
      ⟨(kmemInit 0x1000 0x1000 blank).2, []⟩ _ _ :=
    Run.nil.snoc (Call.alloc 100) ⟨trivial, fun hw ↦ absurd hw.2.1 (by decide)⟩
  exact ⟨by decide +kernel,
    (heap_available_iff (by decide) (by decide) hinit (.inl rfl) hrun).1⟩

/-- All of the largest heap is requested. The statistics then add up to more than the arena and
report a free block of `2 ^ 64 - 48` bytes, and `kmem_alloc` returns `NULL` for one byte. -/
theorem largest_request_breaks_stats :
    let u := (step (.alloc (2 ^ 64 - 80)) ⟨(kmemInit 16 (2 ^ 64 - 17) blank).2, []⟩).2
    kmemGetStats u.heap = some ⟨2 ^ 64 - 32, 2 ^ 64 - 80, 2 ^ 64 - 48, 3, 1, 2 ^ 64 - 48⟩ ∧
      (kmemAlloc 1 u.heap).map Prod.fst = some 0 := by
  decide +kernel

end Kmem

end Mcsos
