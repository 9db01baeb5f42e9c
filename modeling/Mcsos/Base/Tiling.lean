import Mathlib.Algebra.BigOperators.Group.List.Basic
import Mathlib.Algebra.GroupWithZero.Nat
import Mathlib.Data.Nat.Notation
import Mathlib.Order.Basic

/-!
# Items laid end to end

A list of items of given widths, laid end to end from an address on. `At a bs x b` says that the
item `b` of the list `bs`, laid from `a` on, starts at `x`. Two items are the same or apart
(`At.apart`). `Laid P p a bs` says that every item is as `P` wants it, which is told where the item
starts and where the item before it does; it is the invariant of a chain of records in memory, and
`laid_append` is what lets a part of the chain be exchanged.
-/

namespace Mcsos

namespace Tiling

variable {β : Type*} {width : β → ℕ} {a x y : ℕ} {b c : β} {bs xs ys : List β}

/-- The sum of the widths. -/
def extent (width : β → ℕ) (bs : List β) : ℕ := (bs.map width).sum

@[simp] theorem extent_nil : extent width [] = 0 := rfl

@[simp] theorem extent_cons : extent width (b :: bs) = width b + extent width bs := by
  rw [extent, List.map_cons, List.sum_cons, extent]

@[simp] theorem extent_append : extent width (xs ++ ys) = extent width xs + extent width ys := by
  rw [extent, List.map_append, List.sum_append, extent, extent]

/-! ## Places -/

/-- The item `b` starts at `x`. -/
def At (width : β → ℕ) (a : ℕ) (bs : List β) (x : ℕ) (b : β) : Prop :=
  ∃ pre post, bs = pre ++ b :: post ∧ x = a + extent width pre

theorem not_at_nil : ¬At width a [] x b := by
  rintro ⟨pre, post, h, -⟩
  exact List.append_ne_nil_of_right_ne_nil pre (List.cons_ne_nil b post) h.symm

theorem at_cons : At width a (c :: bs) x b ↔ x = a ∧ b = c ∨ At width (a + width c) bs x b := by
  constructor
  · rintro ⟨_ | ⟨d, pre⟩, post, h, rfl⟩
    · obtain ⟨rfl, -⟩ := List.cons.inj h
      exact .inl ⟨rfl, rfl⟩
    · obtain ⟨rfl, rfl⟩ := List.cons.inj h
      refine .inr ⟨pre, post, rfl, ?_⟩
      rw [extent_cons, Nat.add_assoc]
  · rintro (⟨rfl, rfl⟩ | ⟨pre, post, rfl, rfl⟩)
    · exact ⟨[], bs, rfl, rfl⟩
    · refine ⟨c :: pre, post, rfl, ?_⟩
      rw [extent_cons, Nat.add_assoc]

theorem at_append : At width a (xs ++ ys) x b ↔
    At width a xs x b ∨ At width (a + extent width xs) ys x b := by
  induction xs generalizing a with
  | nil => exact ⟨.inr, fun h ↦ h.resolve_left not_at_nil⟩
  | cons c xs ih =>
    rw [List.cons_append, at_cons, at_cons, ih, extent_cons, Nat.add_assoc, or_assoc]

theorem At.mem (h : At width a bs x b) : b ∈ bs := by
  obtain ⟨pre, post, rfl, -⟩ := h
  exact List.mem_append_right pre List.mem_cons_self

theorem At.le (h : At width a bs x b) : a ≤ x := by
  obtain ⟨pre, post, -, rfl⟩ := h
  exact Nat.le_add_right a _

theorem At.end_le (h : At width a bs x b) : x + width b ≤ a + extent width bs := by
  obtain ⟨pre, post, rfl, rfl⟩ := h
  rw [extent_append, extent_cons]
  omega

theorem exists_at (hle : a ≤ y) (hlt : y < a + extent width bs) :
    ∃ x b, At width a bs x b ∧ x ≤ y ∧ y < x + width b := by
  induction bs generalizing a with
  | nil =>
    rw [extent_nil] at hlt
    omega
  | cons c bs ih =>
    by_cases hc : y < a + width c
    · exact ⟨a, c, at_cons.mpr (.inl ⟨rfl, rfl⟩), hle, hc⟩
    · rw [extent_cons, ← Nat.add_assoc] at hlt
      obtain ⟨x, b, hb, hx⟩ := ih (Nat.le_of_not_lt hc) hlt
      exact ⟨x, b, at_cons.mpr (.inr hb), hx⟩

theorem At.apart (hb : At width a bs x b) (hc : At width a bs y c) :
    x = y ∧ b = c ∨ x + width b ≤ y ∨ y + width c ≤ x := by
  induction bs generalizing a with
  | nil => exact absurd hb not_at_nil
  | cons d bs ih =>
    rcases at_cons.mp hb with ⟨rfl, rfl⟩ | hb'
    · rcases at_cons.mp hc with ⟨rfl, rfl⟩ | hc'
      · exact .inl ⟨rfl, rfl⟩
      · exact .inr (.inl hc'.le)
    · rcases at_cons.mp hc with ⟨rfl, rfl⟩ | hc'
      · exact .inr (.inr hb'.le)
      · exact ih hb' hc'

/-! ## Chains -/

variable {P Q : ℕ → ℕ → β → Prop} {p : ℕ}

/-- Every item is as `P` wants it; `p` is the address of the item before the first. -/
def Laid (width : β → ℕ) (P : ℕ → ℕ → β → Prop) : ℕ → ℕ → List β → Prop
  | _, _, [] => True
  | p, a, b :: bs => P p a b ∧ Laid width P a (a + width b) bs

/-- The address of the last item. -/
def lastOf (width : β → ℕ) : ℕ → ℕ → List β → ℕ
  | p, _, [] => p
  | _, a, b :: bs => lastOf width a (a + width b) bs

theorem lastOf_concat : lastOf width p a (xs ++ [b]) = a + extent width xs := by
  induction xs generalizing p a with
  | nil => rfl
  | cons c xs ih => rw [List.cons_append, lastOf, ih, extent_cons, Nat.add_assoc]

theorem laid_append : Laid width P p a (xs ++ ys) ↔
    Laid width P p a xs ∧ Laid width P (lastOf width p a xs) (a + extent width xs) ys := by
  induction xs generalizing p a with
  | nil => exact ⟨fun h ↦ ⟨trivial, h⟩, fun h ↦ h.2⟩
  | cons c xs ih =>
    rw [List.cons_append, Laid, Laid, lastOf, ih, extent_cons, Nat.add_assoc, and_assoc]

theorem Laid.at (h : Laid width P p a bs) (hb : At width a bs x b) : ∃ q, P q x b := by
  induction bs generalizing p a with
  | nil => exact absurd hb not_at_nil
  | cons c bs ih =>
    rcases at_cons.mp hb with ⟨rfl, rfl⟩ | hb'
    · exact ⟨p, h.1⟩
    · exact ih h.2 hb'

theorem Laid.congr (h : Laid width P p a bs)
    (hPQ : ∀ q x b, At width a bs x b → P q x b → Q q x b) : Laid width Q p a bs := by
  induction bs generalizing p a with
  | nil => trivial
  | cons c bs ih =>
    refine ⟨hPQ p a c (at_cons.mpr (.inl ⟨rfl, rfl⟩)) h.1, ih h.2 fun q x b hb ↦ ?_⟩
    exact hPQ q x b (at_cons.mpr (.inr hb))

end Tiling

end Mcsos
