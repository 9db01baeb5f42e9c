import Mathlib.Algebra.Order.Group.Nat
import Mathlib.Tactic.SplitIfs
import Mcsos.Base.Tiling
import Mcsos.Kmem.Heap

/-!
# The blocks of the heap

The heap as a list of blocks that tile the arena. `Tiled s bs` says that the headers in memory are
those of the list `bs`. Marking a block, cutting one in two and merging two neighbours exchange a
part of the list for another of the same extent; each is an instance of `Tiled.edit`.
-/

namespace Mcsos

namespace Kmem

open Tiling

/-! ## Arithmetic -/

theorem wrap_of_lt {n : ℕ} (h : n < 2 ^ 64) : wrap n = n := Nat.mod_eq_of_lt h

theorem wrap_lt (n : ℕ) : wrap n < 2 ^ 64 := Nat.mod_lt n (by decide)

theorem sub_lt (a b : ℕ) : sub a b < 2 ^ 64 := wrap_lt _

theorem sub_of_le {a b : ℕ} (hb : b ≤ a) (ha : a < 2 ^ 64) : sub a b = a - b := by
  rw [sub, wrap]
  omega

theorem and_alignMask {x : ℕ} (hx : x < 2 ^ 64) : x &&& (sizeMax - 15) = x / 16 * 16 :=
  and_highMask (w := 64) (k := 4) hx (by decide)

theorem alignUpPtr_eq {v : ℕ} (hv : v ≤ 2 ^ 64 - 16) :
    kmemAlignUpPtr v kmemAlign = (v + 15) / 16 * 16 := by
  have hmask : sub kmemAlign 1 = 15 := by decide
  rw [kmemAlignUpPtr, hmask, if_neg (by decide), if_neg (by rw [sizeMax]; omega),
    and_alignMask (by omega)]

theorem alignUpPtr_of_gt {v : ℕ} (hv : 2 ^ 64 - 16 < v) : kmemAlignUpPtr v kmemAlign = 0 := by
  have hmask : sub kmemAlign 1 = 15 := by decide
  rw [kmemAlignUpPtr, hmask, if_neg (by decide), if_pos (by rw [sizeMax]; omega)]

theorem alignUpPtr_of_dvd {v : ℕ} (hv : v < 2 ^ 64) (hdvd : 16 ∣ v) :
    kmemAlignUpPtr v kmemAlign = v := by
  rw [alignUpPtr_eq (by omega)]
  omega

theorem alignUpSize_eq (n : ℕ) : kmemAlignUpSize n kmemAlign =
    if n ≤ 2 ^ 64 - 16 then (n + 15) / 16 * 16 else 0 := by
  have hmask : sub kmemAlign 1 = 15 := by decide
  rw [kmemAlignUpSize, if_neg (by decide), hmask, if_neg (by decide)]
  split_ifs with hlarge hle hle
  · rw [sizeMax] at hlarge
    omega
  · rfl
  · rw [and_alignMask (by omega)]
  · rw [sizeMax] at hlarge
    omega

/-! ## Headers -/

section Headers

variable {m m' : Mem} {a x v : ℕ} {f g : Field}

theorem field_le (f : Field) : f.offset + f.bytes ≤ headerSize := by
  cases f <;> decide

theorem fields_apart (hfg : g ≠ f) :
    g.offset + g.bytes ≤ f.offset ∨ f.offset + f.bytes ≤ g.offset := by
  cases f <;> cases g <;> first | exact absurd rfl hfg | decide

theorem wrap_field (ha : a + headerSize ≤ 2 ^ 64) (f : Field) :
    wrap (a + f.offset) = a + f.offset := by
  have hpos : 0 < f.bytes := by cases f <;> decide
  have hle := field_le f
  exact wrap_of_lt (by omega)

theorem set_of_notMem (ha : a + headerSize ≤ 2 ^ 64) {i : ℕ} (hi : i < a ∨ a + headerSize ≤ i) :
    set m a f v i = m i := by
  have hle := field_le f
  rw [set, wrap_field ha, Mem.store_of_notMem (by omega)]

theorem get_congr (ha : a + headerSize ≤ 2 ^ 64)
    (h : ∀ i, a ≤ i → i < a + headerSize → m' i = m i) : get m' a f = get m a f := by
  have hle := field_le f
  rw [get, get, wrap_field ha]
  exact Mem.load_congr fun i hi hlt ↦ h i (by omega) (by omega)

theorem get_set_self (ha : a + headerSize ≤ 2 ^ 64) (hv : v < 256 ^ f.bytes) :
    get (set m a f v) a = Function.update (get m a) f v := by
  funext g
  rw [Function.update_apply]
  split_ifs with hfg
  · rw [hfg, get, set, Mem.load_store_self_of_lt hv]
  · have hapart := fields_apart hfg
    rw [get, set, wrap_field ha, wrap_field ha, Mem.load_store_of_disjoint (by omega), get,
      wrap_field ha]

theorem get_set_of_apart (ha : a + headerSize ≤ 2 ^ 64) (hx : x + headerSize ≤ 2 ^ 64)
    (hapart : x + headerSize ≤ a ∨ a + headerSize ≤ x) : get (set m a f v) x = get m x :=
  funext fun _ ↦ get_congr hx fun i hi hlt ↦ set_of_notMem ha (by omega)

/-- What the fields of a header are set to. -/
def headerOf (size free prev next : ℕ) : Field → ℕ
  | .magic => kmemMagic
  | .size => size
  | .free => free
  | .prev => prev
  | .next => next

theorem get_fillHeader {size free prev next : ℕ} (ha : a + headerSize ≤ 2 ^ 64)
    (hsize : size < 2 ^ 64) (hfree : free < 2 ^ 32) (hprev : prev < 2 ^ 64)
    (hnext : next < 2 ^ 64) :
    get (fillHeader m a size free prev next) a = headerOf size free prev next := by
  rw [fillHeader, get_set_self ha hnext, get_set_self ha hprev, get_set_self ha hfree,
    get_set_self ha hsize, get_set_self ha (by decide)]
  funext f
  cases f <;> rfl

theorem fillHeader_of_notMem {size free prev next i : ℕ} (ha : a + headerSize ≤ 2 ^ 64)
    (hi : i < a ∨ a + headerSize ≤ i) : fillHeader m a size free prev next i = m i := by
  rw [fillHeader, set_of_notMem ha hi, set_of_notMem ha hi, set_of_notMem ha hi,
    set_of_notMem ha hi, set_of_notMem ha hi]

theorem get_fillHeader_of_apart {size free prev next : ℕ} (ha : a + headerSize ≤ 2 ^ 64)
    (hx : x + headerSize ≤ 2 ^ 64) (hapart : x + headerSize ≤ a ∨ a + headerSize ≤ x) :
    get (fillHeader m a size free prev next) x = get m x :=
  funext fun _ ↦ get_congr hx fun i hi hlt ↦ fillHeader_of_notMem ha (by omega)

section LinkBack

variable {next : ℕ} (hnext : next = 0 ∨ next + headerSize ≤ 2 ^ 64)
include hnext

theorem get_linkBack_of_apart (hx : x + headerSize ≤ 2 ^ 64)
    (hapart : next = 0 ∨ x + headerSize ≤ next ∨ next + headerSize ≤ x) :
    get (linkBack m next v) x = get m x := by
  rw [linkBack]
  split_ifs with h0
  · exact get_set_of_apart (hnext.resolve_left h0) hx (hapart.resolve_left h0)
  · rfl

theorem linkBack_of_notMem {i : ℕ} (hi : next = 0 ∨ i < next ∨ next + headerSize ≤ i) :
    linkBack m next v i = m i := by
  rw [linkBack]
  split_ifs with h0
  · exact set_of_notMem (hnext.resolve_left h0) (hi.resolve_left h0)
  · rfl

theorem get_linkBack_self (h0 : next ≠ 0) (hv : v < 2 ^ 64) :
    get (linkBack m next v) next = Function.update (get m next) .prev v := by
  rw [linkBack, if_pos h0]
  exact get_set_self (hnext.resolve_left h0) hv

end LinkBack

/-! ### The assignments of `kmem_split_if_useful` -/

section Cut

variable {new consumed wanted : ℕ} (hnew : a + headerSize ≤ new) (hlt : new + headerSize ≤ 2 ^ 64)
  (hnext : get m a .next = 0 ∨
    new + headerSize ≤ get m a .next ∧ get m a .next + headerSize ≤ 2 ^ 64)
include hnew hlt

/-- The assignments to the new block do not change what is read from the old one. -/
theorem cutBlock_eq : cutBlock m a new consumed wanted =
    set (set (linkBack (fillHeader m new (sub (sub (get m a .size) consumed) headerSize) 1 a
      (get m a .next)) (get m a .next) new) a .next new) a .size wanted := by
  have hread : ∀ (m : Mem) (f : Field) (v : ℕ), get (set m new f v) a = get m a :=
    fun m f v ↦ get_set_of_apart hlt (by omega) (by omega)
  simp only [cutBlock, hread, fillHeader]

include hnext

theorem get_cutBlock_block (hwanted : wanted < 2 ^ 64) :
    get (cutBlock m a new consumed wanted) a =
      Function.update (Function.update (get m a) .next new) .size wanted := by
  have ha : a + headerSize ≤ 2 ^ 64 := by omega
  rw [cutBlock_eq hnew hlt, get_set_self ha hwanted,
    get_set_self ha (show new < 2 ^ 64 by rw [headerSize] at hlt; omega),
    get_linkBack_of_apart (hnext.imp_right And.right) ha (by omega),
    get_fillHeader_of_apart hlt ha (by omega)]

theorem get_cutBlock_new : get (cutBlock m a new consumed wanted) new =
    headerOf (sub (sub (get m a .size) consumed) headerSize) 1 a (get m a .next) := by
  have ha : a + headerSize ≤ 2 ^ 64 := by omega
  have hltNext : get m a .next < 2 ^ 64 := by
    rw [headerSize] at hnext
    omega
  rw [cutBlock_eq hnew hlt, get_set_of_apart ha hlt (by omega), get_set_of_apart ha hlt (by omega),
    get_linkBack_of_apart (hnext.imp_right And.right) hlt (by omega),
    get_fillHeader hlt (sub_lt _ _) (by decide)
      (show a < 2 ^ 64 by rw [headerSize] at ha; omega) hltNext]

theorem get_cutBlock_next (h0 : get m a .next ≠ 0) :
    get (cutBlock m a new consumed wanted) (get m a .next) =
      Function.update (get m (get m a .next)) .prev new := by
  have ha : a + headerSize ≤ 2 ^ 64 := by omega
  obtain ⟨hge, hle⟩ := hnext.resolve_left h0
  rw [cutBlock_eq hnew hlt, get_set_of_apart ha hle (by omega), get_set_of_apart ha hle (by omega),
    get_linkBack_self (.inr hle) h0 (show new < 2 ^ 64 by rw [headerSize] at hlt; omega),
    get_fillHeader_of_apart hlt hle (by omega)]

theorem cutBlock_of_notMem {i : ℕ} (hi : (i < a ∨ a + headerSize ≤ i) ∧
      (i < new ∨ new + headerSize ≤ i) ∧
      (get m a .next = 0 ∨ i < get m a .next ∨ get m a .next + headerSize ≤ i)) :
    cutBlock m a new consumed wanted i = m i := by
  have ha : a + headerSize ≤ 2 ^ 64 := by omega
  rw [cutBlock_eq hnew hlt, set_of_notMem ha (by omega), set_of_notMem ha (by omega),
    linkBack_of_notMem (hnext.imp_right And.right) (by omega), fillHeader_of_notMem hlt (by omega)]

end Cut

/-! ### The assignments of `kmem_coalesce_forward` -/

section Merge

variable (hx : a + headerSize ≤ x) (hlt : x + headerSize ≤ 2 ^ 64)
  (hnext : get m x .next = 0 ∨
    x + headerSize ≤ get m x .next ∧ get m x .next + headerSize ≤ 2 ^ 64)
include hx hlt

/-- The assignments to the first block do not change what is read from the second. -/
theorem mergeNext_eq : mergeNext m a x =
    set (set (set (set (linkBack (set (set m a .size
      (wrap (get m a .size + (headerSize + get m x .size)))) a .next (get m x .next))
        (get m x .next) a) x .magic 0) x .size 0) x .prev 0) x .next 0 := by
  have ha : a + headerSize ≤ 2 ^ 64 := by omega
  have hread : ∀ (m : Mem) (f : Field) (v : ℕ), get (set m a f v) x = get m x :=
    fun m f v ↦ get_set_of_apart ha hlt (by omega)
  simp only [mergeNext, hread]

include hnext

theorem get_mergeNext_block : get (mergeNext m a x) a = Function.update (Function.update (get m a)
    .size (wrap (get m a .size + (headerSize + get m x .size)))) .next (get m x .next) := by
  have ha : a + headerSize ≤ 2 ^ 64 := by omega
  have hltNext : get m x .next < 2 ^ 64 := by
    rw [headerSize] at hnext
    omega
  have hskip : ∀ (m : Mem) (f : Field) (v : ℕ), get (set m x f v) a = get m a :=
    fun m f v ↦ get_set_of_apart hlt ha (by omega)
  rw [mergeNext_eq hx hlt, hskip, hskip, hskip, hskip,
    get_linkBack_of_apart (hnext.imp_right And.right) ha (by omega), get_set_self ha hltNext,
    get_set_self ha (show wrap _ < 256 ^ 8 from wrap_lt _)]

theorem get_mergeNext_next (h0 : get m x .next ≠ 0) :
    get (mergeNext m a x) (get m x .next) =
      Function.update (get m (get m x .next)) .prev a := by
  have ha : a + headerSize ≤ 2 ^ 64 := by omega
  obtain ⟨hge, hle⟩ := hnext.resolve_left h0
  have hskip : ∀ (m' : Mem) (f : Field) (v : ℕ),
      get (set m' x f v) (get m x .next) = get m' (get m x .next) :=
    fun m' f v ↦ get_set_of_apart hlt hle (by omega)
  rw [mergeNext_eq hx hlt, hskip, hskip, hskip, hskip,
    get_linkBack_self (.inr hle) h0 (show a < 2 ^ 64 by rw [headerSize] at ha; omega),
    get_set_of_apart ha hle (by omega), get_set_of_apart ha hle (by omega)]

theorem get_mergeNext_second : get (mergeNext m a x) x .magic = 0 ∧
    get (mergeNext m a x) x .free = get m x .free ∧ get (mergeNext m a x) x .prev = 0 := by
  have ha : a + headerSize ≤ 2 ^ 64 := by omega
  have hread : get (mergeNext m a x) x = Function.update (Function.update (Function.update
      (Function.update (get m x) .magic 0) .size 0) .prev 0) .next 0 := by
    rw [mergeNext_eq hx hlt, get_set_self hlt (by decide), get_set_self hlt (by decide),
      get_set_self hlt (by decide), get_set_self hlt (by decide),
      get_linkBack_of_apart (hnext.imp_right And.right) hlt (by omega),
      get_set_of_apart ha hlt (by omega), get_set_of_apart ha hlt (by omega)]
  rw [hread]
  exact ⟨rfl, rfl, rfl⟩

theorem mergeNext_of_notMem {i : ℕ} (hi : (i < a ∨ a + headerSize ≤ i) ∧
      (i < x ∨ x + headerSize ≤ i) ∧
      (get m x .next = 0 ∨ i < get m x .next ∨ get m x .next + headerSize ≤ i)) :
    mergeNext m a x i = m i := by
  have ha : a + headerSize ≤ 2 ^ 64 := by omega
  have hskip : ∀ (m : Mem) (f : Field) (v : ℕ), set m x f v i = m i :=
    fun m f v ↦ set_of_notMem hlt (by omega)
  rw [mergeNext_eq hx hlt, hskip, hskip, hskip, hskip,
    linkBack_of_notMem (hnext.imp_right And.right) (by omega), set_of_notMem ha (by omega),
    set_of_notMem ha (by omega)]

end Merge

end Headers

/-! ## Blocks -/

/-- A block: the size of its payload and whether it is free. -/
structure Blk where
  size : ℕ
  free : Bool

/-- The bytes of a block with its header. -/
def Blk.width (b : Blk) : ℕ := headerSize + b.size

/-- The value of the field `free`. -/
def flag (free : Bool) : ℕ := if free then 1 else 0

/-- The pointer to what starts at `x`: the list ends where the heap does. -/
def link (heapEnd x : ℕ) : ℕ := if x = heapEnd then 0 else x

/-- The header at `a` is that of the block `b`, after a block at `p`. -/
structure IsBlock (m : Mem) (heapEnd p a : ℕ) (b : Blk) : Prop where
  magic : get m a .magic = kmemMagic
  size : get m a .size = b.size
  free : get m a .free = flag b.free
  prev : get m a .prev = p
  next : get m a .next = link heapEnd (a + b.width)
  dvd : 16 ∣ b.size
  pos : 0 < b.size

/-- The list of the headers in memory is `bs`, and the blocks tile the heap. -/
structure Tiled (s : State) (bs : List Blk) : Prop where
  initialized : s.initialized = true
  head : s.head = s.heapBase
  base_pos : 0 < s.heapBase
  base_dvd : 16 ∣ s.heapBase
  end_lt : s.heapEnd < 2 ^ 64
  nonempty : bs ≠ []
  covers : s.heapBase + extent Blk.width bs = s.heapEnd
  laid : Laid Blk.width (IsBlock s.mem s.heapEnd) 0 s.heapBase bs

variable {s : State} {m' : Mem} {b c : Blk} {pre post bs : List Blk} {e p a : ℕ} {m : Mem}

theorem headerSize_le_width (b : Blk) : headerSize ≤ b.width := Nat.le_add_right _ _

theorem width_merged (b c : Blk) (free : Bool) :
    (⟨b.size + c.width, free⟩ : Blk).width = b.width + c.width :=
  (Nat.add_assoc headerSize b.size c.width).symm

theorem IsBlock.congr (h : IsBlock m e p a b) (ha : a + headerSize ≤ 2 ^ 64)
    (hsame : ∀ i, a ≤ i → i < a + headerSize → m' i = m i) : IsBlock m' e p a b := by
  have hget : ∀ f, get m' a f = get m a f := fun f ↦ get_congr ha hsame
  exact ⟨by rw [hget, h.magic], by rw [hget, h.size], by rw [hget, h.free], by rw [hget, h.prev],
    by rw [hget, h.next], h.dvd, h.pos⟩

theorem laid_congr (h : Laid Blk.width (IsBlock m e) p a bs) (he : a + extent Blk.width bs < 2 ^ 64)
    (hsame : ∀ i, a ≤ i → i < a + extent Blk.width bs → m' i = m i) :
    Laid Blk.width (IsBlock m' e) p a bs := by
  refine h.congr fun q x b hb hblock ↦ ?_
  have hle := hb.le
  have hend := hb.end_le
  have hwidth := headerSize_le_width b
  exact hblock.congr (by omega) fun i hi hlt ↦ hsame i (by omega) (by omega)

theorem laid_relink {q : ℕ} (h : Laid Blk.width (IsBlock m e) p a bs)
    (he : a + extent Blk.width bs < 2 ^ 64)
    (hhead : bs ≠ [] → ∀ f, get m' a f = if f = .prev then q else get m a f)
    (hsame : ∀ i, a + headerSize ≤ i → i < a + extent Blk.width bs → m' i = m i) :
    Laid Blk.width (IsBlock m' e) q a bs := by
  cases bs with
  | nil => trivial
  | cons b bs =>
    obtain ⟨hb, hrest⟩ := h
    have hget := hhead (List.cons_ne_nil b bs)
    have hwidth := headerSize_le_width b
    rw [extent_cons] at he hsame
    refine ⟨⟨?_, ?_, ?_, ?_, ?_, hb.dvd, hb.pos⟩, ?_⟩
    · rw [hget, if_neg (by decide), hb.magic]
    · rw [hget, if_neg (by decide), hb.size]
    · rw [hget, if_neg (by decide), hb.free]
    · rw [hget, if_pos rfl]
    · rw [hget, if_neg (by decide), hb.next]
    · exact laid_congr hrest (by omega) fun i hi hlt ↦ hsame i (by omega) (by omega)

theorem dvd_extent (h : Laid Blk.width (IsBlock m e) p a bs) : 16 ∣ extent Blk.width bs := by
  induction bs generalizing p a with
  | nil => exact Nat.dvd_zero 16
  | cons b bs ih =>
    rw [extent_cons, Blk.width]
    exact Nat.dvd_add (Nat.dvd_add (by decide) h.1.dvd) (ih h.2)

/-- The address of the block after the blocks `pre`. -/
def place (s : State) (pre : List Blk) : ℕ := s.heapBase + extent Blk.width pre

theorem place_step : place s (pre ++ [b]) = place s pre + b.width := by
  rw [place, place, extent_append, extent_cons, extent_nil, Nat.add_assoc, Nat.add_zero]

/-- The address of the last of the blocks `pre`, `NULL` when there is none. -/
def before (s : State) (pre : List Blk) : ℕ := lastOf Blk.width 0 s.heapBase pre

theorem before_step : before s (pre ++ [b]) = place s pre := lastOf_concat

namespace Tiled

/-! ## One block of the list -/

section Focus

variable (h : Tiled s (pre ++ b :: post))
include h

theorem block : IsBlock s.mem s.heapEnd (before s pre) (place s pre) b :=
  (laid_append.mp h.laid).2.1

theorem rest : Laid Blk.width (IsBlock s.mem s.heapEnd) (place s pre)
    (place s pre + b.width) post :=
  (laid_append.mp h.laid).2.2

theorem place_covers : place s pre + b.width + extent Blk.width post = s.heapEnd := by
  have hcovers := h.covers
  rw [extent_append, extent_cons] at hcovers
  rw [place]
  omega

theorem place_pos : 0 < place s pre := Nat.add_pos_left h.base_pos _

theorem place_dvd : 16 ∣ place s pre :=
  Nat.dvd_add h.base_dvd (dvd_extent (laid_append.mp h.laid).1)

theorem place_lt : place s pre + headerSize + b.size < 2 ^ 64 := by
  have hcovers := h.place_covers
  have hend := h.end_lt
  rw [Blk.width] at hcovers
  omega

theorem next_eq : post = [] ∧ get s.mem (place s pre) .next = 0 ∨
    post ≠ [] ∧ get s.mem (place s pre) .next = place s pre + b.width ∧
      place s pre + b.width + headerSize ≤ s.heapEnd := by
  have hnext := h.block.next
  have hcovers := h.place_covers
  rw [link] at hnext
  cases post with
  | nil =>
    rw [extent_nil] at hcovers
    rw [if_pos (by omega)] at hnext
    exact .inl ⟨rfl, hnext⟩
  | cons c post =>
    have hwidth := headerSize_le_width c
    rw [extent_cons] at hcovers
    rw [if_neg (by rw [headerSize] at hwidth; omega)] at hnext
    exact .inr ⟨List.cons_ne_nil c post, hnext, by omega⟩

end Focus

theorem shift (h : Tiled s (pre ++ b :: post)) : Tiled s ((pre ++ [b]) ++ post) := by
  rwa [List.append_assoc, List.singleton_append]

theorem next_apart (h : Tiled s (pre ++ b :: post)) : get s.mem (place s pre) .next = 0 ∨
    get s.mem (place s pre) .next = place s pre + b.width ∧
      place s pre + b.width + headerSize ≤ 2 ^ 64 := by
  have hend := h.end_lt
  rcases h.next_eq with ⟨-, h0⟩ | ⟨-, hz, hle⟩
  · exact .inl h0
  · exact .inr ⟨hz, by omega⟩

/-! ## Edits -/

theorem edit {old new : List Blk} (h : Tiled s (pre ++ old))
    (hbelow : ∀ i < place s pre, m' i = s.mem i)
    (hnew : Laid Blk.width (IsBlock m' s.heapEnd) (before s pre) (place s pre) new)
    (hextent : extent Blk.width new = extent Blk.width old) (hne : pre ++ new ≠ []) :
    Tiled { s with mem := m' } (pre ++ new) := by
  have hcovers := h.covers
  rw [extent_append] at hcovers
  have hlt : s.heapBase + extent Blk.width pre < 2 ^ 64 := by
    have hend := h.end_lt
    omega
  obtain ⟨hpre, -⟩ := laid_append.mp h.laid
  refine ⟨h.initialized, h.head, h.base_pos, h.base_dvd, h.end_lt, hne, ?_, ?_⟩
  · rw [extent_append, hextent]
    exact hcovers
  · exact laid_append.mpr ⟨laid_congr hpre hlt fun i _ hi ↦ hbelow i hi, hnew⟩

theorem mark (h : Tiled s (pre ++ b :: post)) (free : Bool) :
    Tiled { s with mem := set s.mem (place s pre) .free (flag free) }
      (pre ++ ⟨b.size, free⟩ :: post) := by
  have hlt := h.place_lt
  have hcovers := h.place_covers
  have hend := h.end_lt
  have hb := h.block
  have hflag : flag free < 256 ^ Field.free.bytes := by cases free <;> decide
  have hget := @get_set_self s.mem (place s pre) _ .free (by omega) hflag
  have hwidth : (⟨b.size, free⟩ : Blk).width = b.width := rfl
  refine h.edit (fun i hi ↦ set_of_notMem (by omega) (.inl hi))
    ⟨⟨?_, ?_, ?_, ?_, ?_, hb.dvd, hb.pos⟩,
    ?_⟩ ?_ (List.append_ne_nil_of_right_ne_nil pre (List.cons_ne_nil _ _))
  · rw [hget]
    exact hb.magic
  · rw [hget]
    exact hb.size
  · rw [hget, Function.update_self]
  · rw [hget]
    exact hb.prev
  · rw [hget]
    exact hb.next
  · rw [hwidth]
    refine laid_congr h.rest (by omega) fun i hi _ ↦ set_of_notMem (by omega) (.inr ?_)
    rw [Blk.width] at hi
    omega
  · rw [extent_cons, extent_cons, hwidth]

theorem cut (h : Tiled s (pre ++ b :: post)) {w : ℕ} (hdvd : 16 ∣ w) (hpos : 0 < w)
    (hsize : w + headerSize < b.size) :
    Tiled { s with mem := cutBlock s.mem (place s pre) (place s pre + headerSize + w) w w }
      (pre ++ ⟨w, b.free⟩ :: ⟨b.size - w - headerSize, true⟩ :: post) := by
  have hlt := h.place_lt
  have hcovers := h.place_covers
  have hend := h.end_lt
  have hb := h.block
  have hbdvd := hb.dvd
  have hnext := h.next_eq
  have hwidth : b.width = headerSize + b.size := rfl
  have hltNew : place s pre + headerSize + w + headerSize ≤ 2 ^ 64 := by omega
  have hplace : get s.mem (place s pre) .next = 0 ∨
      place s pre + headerSize + w + headerSize ≤ get s.mem (place s pre) .next ∧
        get s.mem (place s pre) .next + headerSize ≤ 2 ^ 64 :=
    h.next_apart.imp_right fun ⟨hz, hle⟩ ↦ ⟨by omega, by omega⟩
  have hrest : sub (sub (get s.mem (place s pre) .size) w) headerSize =
      b.size - w - headerSize := by
    rw [hb.size, sub_of_le (show w ≤ b.size by omega) (by omega), sub_of_le (by omega) (by omega)]
  have hfirst : place s pre + (⟨w, b.free⟩ : Blk).width = place s pre + headerSize + w := by
    rw [Blk.width, Nat.add_assoc]
  have hsecond : place s pre + headerSize + w +
      (⟨b.size - w - headerSize, true⟩ : Blk).width = place s pre + b.width := by
    rw [hwidth]
    change place s pre + headerSize + w + (headerSize + (b.size - w - headerSize)) = _
    omega
  have hnewDvd : 16 ∣ b.size - w - headerSize :=
    Nat.dvd_sub (Nat.dvd_sub hbdvd hdvd) (by decide)
  have hnewPos : 0 < b.size - w - headerSize := by omega
  have hblock := @get_cutBlock_block s.mem (place s pre) _ w w (by omega) hltNew hplace (by omega)
  have hnew := @get_cutBlock_new s.mem (place s pre) _ w w (by omega) hltNew hplace
  refine h.edit (fun i hi ↦ cutBlock_of_notMem (by omega) hltNew hplace (by omega))
    ⟨⟨?_, ?_, ?_, ?_, ?_, hdvd, hpos⟩, ?_⟩ ?_
    (List.append_ne_nil_of_right_ne_nil pre (List.cons_ne_nil _ _))
  · rw [hblock]
    exact hb.magic
  · rw [hblock, Function.update_self]
  · rw [hblock]
    exact hb.free
  · rw [hblock]
    exact hb.prev
  · rw [hblock, hfirst, link, if_neg (by omega), Function.update_of_ne (by decide),
      Function.update_self]
  · rw [hfirst]
    refine ⟨⟨?_, ?_, ?_, ?_, ?_, hnewDvd, hnewPos⟩, ?_⟩
    · rw [hnew, headerOf]
    · rw [hnew, headerOf, hrest]
    · rw [hnew, headerOf, flag, if_pos rfl]
    · rw [hnew, headerOf]
    · rw [hnew, headerOf, hsecond, hb.next]
    · rw [hsecond]
      refine laid_relink h.rest (by omega) (fun hne f ↦ ?_) fun i hi _ ↦ ?_
      · obtain ⟨-, hz, -⟩ := hnext.resolve_left fun h0 ↦ hne h0.1
        have hnextBlock := @get_cutBlock_next s.mem (place s pre) _ w w (by omega) hltNew hplace
          (by omega)
        rw [hz] at hnextBlock
        rw [hnextBlock, Function.update_apply]
      · exact cutBlock_of_notMem (by omega) hltNew hplace (by omega)
  · rw [extent_cons, extent_cons, extent_cons]
    omega

theorem merge (h : Tiled s (pre ++ b :: c :: post)) :
    Tiled { s with mem := mergeNext s.mem (place s pre) (place s pre + b.width) }
      (pre ++ ⟨b.size + c.width, b.free⟩ :: post) := by
  have hcovers := h.place_covers
  have hend := h.end_lt
  have hb := h.block
  have hc : IsBlock s.mem s.heapEnd (place s pre) (place s pre + b.width) c := h.rest.1
  have hpost : Laid Blk.width (IsBlock s.mem s.heapEnd) (place s pre + b.width)
    (place s pre + b.width + c.width) post := h.rest.2
  have hnext := h.shift.next_eq
  rw [place_step] at hnext
  rw [extent_cons] at hcovers
  have hbwidth : b.width = headerSize + b.size := rfl
  have hcwidth : c.width = headerSize + c.size := rfl
  have hx : place s pre + headerSize ≤ place s pre + b.width := by omega
  have hltNext : place s pre + b.width + headerSize ≤ 2 ^ 64 := by omega
  have hplace : get s.mem (place s pre + b.width) .next = 0 ∨
      place s pre + b.width + headerSize ≤ get s.mem (place s pre + b.width) .next ∧
        get s.mem (place s pre + b.width) .next + headerSize ≤ 2 ^ 64 := by
    have hapart := h.shift.next_apart
    rw [place_step] at hapart
    exact hapart.imp_right fun ⟨hz, hle⟩ ↦ ⟨by omega, by omega⟩
  have hsize : wrap (get s.mem (place s pre) .size +
      (headerSize + get s.mem (place s pre + b.width) .size)) = b.size + c.width := by
    rw [hb.size, hc.size, ← hcwidth, wrap_of_lt (by omega)]
  have hwidth := width_merged b c b.free
  have hdvd : 16 ∣ b.size + c.width :=
    Nat.dvd_add hb.dvd (Nat.dvd_add (by decide) hc.dvd)
  have hblock := get_mergeNext_block hx hltNext hplace
  rw [hsize] at hblock
  refine h.edit (fun i hi ↦ mergeNext_of_notMem hx hltNext hplace (by omega))
    ⟨⟨?_, ?_, ?_, ?_, ?_, hdvd, Nat.add_pos_left hb.pos _⟩, ?_⟩ ?_
    (List.append_ne_nil_of_right_ne_nil pre (List.cons_ne_nil _ _))
  · rw [hblock]
    exact hb.magic
  · rw [hblock, Function.update_of_ne (by decide), Function.update_self]
  · rw [hblock]
    exact hb.free
  · rw [hblock]
    exact hb.prev
  · rw [hblock, Function.update_self, hwidth, hc.next, Nat.add_assoc]
  · rw [hwidth, ← Nat.add_assoc]
    refine laid_relink hpost (by omega) (fun hne f ↦ ?_) fun i hi _ ↦ ?_
    · obtain ⟨-, hz, -⟩ := hnext.resolve_left fun h0 ↦ hne h0.1
      have hpos := h.place_pos
      have hnextBlock := get_mergeNext_next hx hltNext hplace (by omega)
      rw [hz] at hnextBlock
      rw [hnextBlock, Function.update_apply]
    · exact mergeNext_of_notMem hx hltNext hplace (by omega)
  · rw [extent_cons, extent_cons, extent_cons, hwidth, Nat.add_assoc]

end Tiled

end Kmem

end Mcsos
