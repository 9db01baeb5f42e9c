import Mathlib.Data.List.Nodup
import Mathlib.Logic.Function.Basic

/-!
# Intrusive queues

A singly linked queue whose links are in the elements: `next` gives the link of every element, and
the queue is known by its first and its last element, both `null` when it is empty.
`Seg next p xs q` says that the links lead from `p` through `xs` to `q`. `IsQueue` is the invariant
of the queue, and its three operations are an append at the back, a removal at the front, and a
change of the links of elements outside the queue.

Only an element that is not in the queue may be appended: the link of the new element is cleared
first, which would cut the queue there.
-/

namespace Mcsos

namespace LinkedQueue

variable {P : Type*} {next next' : P → P} {null p q r x head tail : P} {xs ys : List P}

/-! ## Segments -/

/-- The links lead from `p` through `xs` to `q`. -/
def Seg (next : P → P) : P → List P → P → Prop
  | p, [], q => p = q
  | p, x :: xs, q => p = x ∧ Seg next (next x) xs q

instance instDecidableSeg [DecidableEq P] :
    (p : P) → (xs : List P) → (q : P) → Decidable (Seg next p xs q)
  | p, [], q => inferInstanceAs (Decidable (p = q))
  | p, x :: xs, q =>
    haveI := instDecidableSeg (next x) xs q
    inferInstanceAs (Decidable (p = x ∧ Seg next (next x) xs q))

theorem seg_append : Seg next p (xs ++ ys) r ↔ ∃ q, Seg next p xs q ∧ Seg next q ys r := by
  induction xs generalizing p with
  | nil => exact ⟨fun h ↦ ⟨p, rfl, h⟩, fun ⟨q, hq, h⟩ ↦ hq ▸ h⟩
  | cons x xs ih =>
    simp only [List.cons_append, Seg, ih]
    exact ⟨fun ⟨hp, q, h⟩ ↦ ⟨q, ⟨hp, h.1⟩, h.2⟩, fun ⟨q, ⟨hp, h⟩, h'⟩ ↦ ⟨hp, q, h, h'⟩⟩

theorem seg_snoc : Seg next p (xs ++ [x]) r ↔ Seg next p xs x ∧ next x = r := by
  rw [seg_append]
  exact ⟨fun ⟨q, h, hq, hr⟩ ↦ ⟨hq ▸ h, hr⟩, fun ⟨h, hr⟩ ↦ ⟨x, h, rfl, hr⟩⟩

theorem Seg.congr (h : Seg next p xs q) (hsame : ∀ x ∈ xs, next' x = next x) :
    Seg next' p xs q := by
  induction xs generalizing p with
  | nil => exact h
  | cons x xs ih =>
    obtain ⟨hp, h⟩ := h
    refine ⟨hp, ?_⟩
    rw [hsame x List.mem_cons_self]
    exact ih h fun y hy ↦ hsame y (List.mem_cons_of_mem x hy)

theorem Seg.unique (hxs : Seg next p xs null) (hys : Seg next p ys null) (hnull : null ∉ xs)
    (hnull' : null ∉ ys) : xs = ys := by
  induction xs generalizing p ys with
  | nil =>
    obtain rfl : p = null := hxs
    cases ys with
    | nil => rfl
    | cons y ys => exact absurd (hys.1 ▸ List.mem_cons_self) hnull'
  | cons x xs ih =>
    obtain ⟨rfl, hxs⟩ := hxs
    cases ys with
    | nil => exact absurd (List.mem_cons.mpr (.inl (Eq.symm hys))) hnull
    | cons y ys =>
      obtain ⟨rfl, hys⟩ := hys
      rw [ih hxs hys (mt (List.mem_cons_of_mem p) hnull) (mt (List.mem_cons_of_mem p) hnull')]

/-! ## Queues -/

/-- The elements of the queue from `head` to `tail` are `xs`. -/
structure IsQueue (null : P) (next : P → P) (head tail : P) (xs : List P) : Prop where
  seg : Seg next head xs null
  last : tail = xs.getLast?.getD null
  nodup : xs.Nodup
  null_notMem : null ∉ xs

namespace IsQueue

theorem nil : IsQueue null next null null [] :=
  ⟨rfl, rfl, List.nodup_nil, List.not_mem_nil⟩

theorem congr (h : IsQueue null next head tail xs) (hsame : ∀ x ∈ xs, next' x = next x) :
    IsQueue null next' head tail xs :=
  ⟨h.seg.congr hsame, h.last, h.nodup, h.null_notMem⟩

theorem head_eq_null (h : IsQueue null next head tail xs) : head = null ↔ xs = [] := by
  cases xs with
  | nil => exact ⟨fun _ ↦ rfl, fun _ ↦ h.seg⟩
  | cons x xs =>
    refine ⟨fun hnull ↦ absurd ?_ h.null_notMem, fun hnil ↦ absurd hnil (List.cons_ne_nil x xs)⟩
    rw [← hnull, h.seg.1]
    exact List.mem_cons_self

theorem tail_eq_null (h : IsQueue null next head tail xs) : tail = null ↔ xs = [] := by
  rw [h.last]
  constructor
  · intro hnull
    by_contra hne
    rw [List.getLast?_eq_some_getLast hne, Option.getD_some] at hnull
    exact h.null_notMem (hnull ▸ List.getLast_mem hne)
  · rintro rfl
    rfl

variable [DecidableEq P]

theorem append_nil (hx : x ≠ null) : IsQueue null (Function.update next x null) x x [x] :=
  ⟨⟨rfl, Function.update_self ..⟩, rfl, List.nodup_singleton x, by simpa using hx.symm⟩

theorem append (h : IsQueue null next head tail xs) (hne : xs ≠ []) (hx : x ≠ null)
    (hnotMem : x ∉ xs) :
    IsQueue null (Function.update (Function.update next x null) tail x) head x (xs ++ [x]) := by
  obtain ⟨ys, y, rfl⟩ := (List.eq_nil_or_concat' xs).resolve_left hne
  obtain rfl : tail = y := by rw [h.last, List.getLast?_concat, Option.getD_some]
  have hys : tail ∉ ys := fun hmem ↦ List.disjoint_of_nodup_append h.nodup hmem List.mem_cons_self
  have hne' : x ≠ tail := fun heq ↦ hnotMem (heq ▸ List.mem_append_right ys List.mem_cons_self)
  obtain ⟨hseg, -⟩ := seg_snoc.mp h.seg
  refine ⟨?_, ?_, ?_, ?_⟩
  · -- the links up to the last element are the old ones
    rw [seg_snoc, seg_snoc, Function.update_self, Function.update_of_ne hne', Function.update_self]
    refine ⟨⟨hseg.congr fun z hz ↦ ?_, rfl⟩, rfl⟩
    rw [Function.update_of_ne (ne_of_mem_of_not_mem hz hys),
      Function.update_of_ne (ne_of_mem_of_not_mem (List.mem_append_left _ hz) hnotMem)]
  · rw [List.getLast?_concat, Option.getD_some]
  · exact List.nodup_append_comm.mp (List.nodup_cons.mpr ⟨hnotMem, h.nodup⟩)
  · rw [List.mem_append, List.mem_singleton]
    exact fun hmem ↦ hmem.elim h.null_notMem hx.symm

theorem remove (h : IsQueue null next head tail (x :: xs)) :
    IsQueue null (Function.update next x null) (next x) (if next x = null then null else tail)
      xs := by
  obtain ⟨hx, hnodup⟩ := List.nodup_cons.mp h.nodup
  have hseg : Seg next (next x) xs null := h.seg.2
  have hnull : null ∉ xs := fun hmem ↦ h.null_notMem (List.mem_cons_of_mem x hmem)
  refine ⟨hseg.congr fun y hy ↦ ?_, ?_, hnodup, hnull⟩
  · rw [Function.update_of_ne (ne_of_mem_of_not_mem hy hx)]
  · cases xs with
    | nil => rw [if_pos (show next x = null from hseg), List.getLast?_nil, Option.getD_none]
    | cons y ys =>
      rw [if_neg (fun h0 ↦ hnull (by rw [← h0, hseg.1]; exact List.mem_cons_self)), h.last,
        List.getLast?_cons_cons]

end IsQueue

end LinkedQueue

end Mcsos
