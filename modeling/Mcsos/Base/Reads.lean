import Mcsos.Base.Bytes

/-!
# Programs that read memory

A program that is given a pointer and reads the memory behind it, with the indices that it reads.
`Reads α` is a function of that memory: it gives the result, or `none` when the program does not
end, and the list of the indices read in order.

`Spec x m P Q` says that `x`, run on `m`, reads indices with the property `P` only, and that its
result has the property `Q` if there is one. There is one rule for each way to build a program.
`Rel R x y m` says that two programs both end on `m`, with results that `R` relates, or both do not.
`Local x` says that `x` does the same on every memory with the same bytes at the indices that it
reads.
-/

namespace Mcsos

/-- A program that reads memory. -/
def Reads (α : Type) : Type := Mem → Option α × List ℕ

namespace Reads

variable {α β : Type}

def get (i : ℕ) : Reads UInt8 := fun m ↦ (some (m i), [i])

/-- A program that never ends and reads nothing more. -/
def diverge : Reads α := fun _ ↦ (none, [])

instance : Monad Reads where
  pure a := fun _ ↦ (some a, [])
  bind x f := fun m ↦
    match x m with
    | (none, is) => (none, is)
    | (some a, is) => ((f a m).1, is ++ (f a m).2)

theorem bind_apply_none {x : Reads α} {m : Mem} (f : α → Reads β) (h : (x m).1 = none) :
    (x >>= f) m = (none, (x m).2) := by
  change (match x m with
    | (none, is) => (none, is)
    | (some a, is) => ((f a m).1, is ++ (f a m).2)) = _
  cases hx : x m with
  | mk r is =>
    rw [hx] at h
    obtain rfl : r = none := h
    rfl

theorem bind_apply_some {x : Reads α} {m : Mem} (f : α → Reads β) {a : α} (h : (x m).1 = some a) :
    (x >>= f) m = ((f a m).1, (x m).2 ++ (f a m).2) := by
  change (match x m with
    | (none, is) => (none, is)
    | (some a, is) => ((f a m).1, is ++ (f a m).2)) = _
  cases hx : x m with
  | mk r is =>
    rw [hx] at h
    obtain rfl : r = some a := h
    rfl

theorem bind_fst (x : Reads α) (f : α → Reads β) (m : Mem) :
    ((x >>= f) m).1 = (x m).1.bind fun a ↦ (f a m).1 := by
  cases hx : (x m).1 with
  | none => rw [bind_apply_none f hx, Option.bind_none]
  | some a => rw [bind_apply_some f hx, Option.bind_some]

theorem pure_fst (a : α) (m : Mem) : ((pure a : Reads α) m).1 = some a := rfl

theorem get_fst (i : ℕ) (m : Mem) : (get i m).1 = some (m i) := rfl

theorem ite_fst {c : Prop} [Decidable c] (x y : Reads α) (m : Mem) :
    ((if c then x else y) m).1 = if c then (x m).1 else (y m).1 := by
  split_ifs <;> rfl

theorem mem_bind {x : Reads α} {m : Mem} (f : α → Reads β) {i : ℕ} (h : i ∈ (x m).2) :
    i ∈ ((x >>= f) m).2 := by
  cases hx : (x m).1 with
  | none => rwa [bind_apply_none f hx]
  | some a =>
    rw [bind_apply_some f hx]
    exact List.mem_append_left _ h

/-- The indices that a program reads and the result that it gives. -/
structure Spec (x : Reads α) (m : Mem) (P : ℕ → Prop) (Q : α → Prop) : Prop where
  reads : ∀ i ∈ (x m).2, P i
  result : ∀ a, (x m).1 = some a → Q a

variable {m : Mem} {P : ℕ → Prop} {Q Q' : α → Prop}

theorem spec_pure {a : α} (h : Q a) : Spec (pure a) m P Q where
  reads _ hi := absurd hi List.not_mem_nil
  result b hb := by
    obtain rfl := Option.some.inj hb
    exact h

theorem spec_diverge : Spec diverge m P Q where
  reads _ hi := absurd hi List.not_mem_nil
  result _ hb := nomatch hb

theorem spec_get {i : ℕ} {Q : UInt8 → Prop} (hi : P i) (h : Q (m i)) : Spec (get i) m P Q where
  reads j hj := by rwa [List.mem_singleton.mp hj]
  result b hb := by
    obtain rfl := Option.some.inj hb
    exact h

theorem spec_bind {x : Reads α} {f : α → Reads β} {Q : β → Prop}
    (h : Spec x m P fun a ↦ Spec (f a) m P Q) : Spec (x >>= f) m P Q := by
  cases hx : (x m).1 with
  | none =>
    have hbind := bind_apply_none f hx
    refine ⟨fun i hi ↦ ?_, fun b hb ↦ ?_⟩
    · rw [hbind] at hi
      exact h.reads i hi
    · rw [hbind] at hb
      cases hb
  | some a =>
    have hbind := bind_apply_some f hx
    have hf := h.result a hx
    refine ⟨fun i hi ↦ ?_, fun b hb ↦ ?_⟩
    · rw [hbind] at hi
      exact (List.mem_append.mp hi).elim (h.reads i) (hf.reads i)
    · rw [hbind] at hb
      exact hf.result b hb

theorem spec_mono {x : Reads α} (h : Spec x m P Q) (hQ : ∀ a, Q a → Q' a) : Spec x m P Q' :=
  ⟨h.reads, fun a ha ↦ hQ a (h.result a ha)⟩

theorem spec_ite {c : Prop} [Decidable c] {x y : Reads α} (hx : c → Spec x m P Q)
    (hy : ¬c → Spec y m P Q) : Spec (if c then x else y) m P Q := by
  split_ifs with hc
  · exact hx hc
  · exact hy hc

/-! ## Two programs -/

/-- Two programs on one memory: both end, with related results, or neither does. -/
def Rel (R : α → β → Prop) (x : Reads α) (y : Reads β) (m : Mem) : Prop :=
  Option.Rel R (x m).1 (y m).1

theorem rel_pure {R : α → β → Prop} {a : α} {b : β} (h : R a b) : Rel R (pure a) (pure b) m :=
  .some h

theorem rel_bind {γ δ : Type} {R : α → β → Prop} {S : γ → δ → Prop} {x : Reads α} {y : Reads β}
    {f : α → Reads γ} {g : β → Reads δ} (h : Rel R x y m)
    (hf : ∀ a b, (x m).1 = some a → R a b → Rel S (f a) (g b) m) :
    Rel S (x >>= f) (y >>= g) m := by
  rw [Rel] at h ⊢
  cases hx : (x m).1 with
  | none =>
    cases hy : (y m).1 with
    | none =>
      rw [bind_apply_none f hx, bind_apply_none g hy]
      exact .none
    | some b =>
      rw [hx, hy] at h
      cases h
  | some a =>
    cases hy : (y m).1 with
    | none =>
      rw [hx, hy] at h
      cases h
    | some b =>
      rw [hx, hy] at h
      cases h with
      | some hab =>
        rw [bind_apply_some f hx, bind_apply_some g hy]
        exact hf a b hx hab

theorem rel_refl (x : Reads α) : Rel Eq x x m := by
  rw [Rel]
  cases (x m).1 with
  | none => exact .none
  | some a => exact .some rfl

theorem rel_ite {R : α → β → Prop} {c : Prop} [Decidable c] {x x' : Reads α} {y y' : Reads β}
    (h : c → Rel R x y m) (h' : ¬c → Rel R x' y' m) :
    Rel R (if c then x else x') (if c then y else y') m := by
  split_ifs with hc
  · exact h hc
  · exact h' hc

/-! ## Two memories -/

/-- What a program does depends on the bytes that it reads and on nothing else. -/
def Local (x : Reads α) : Prop := ∀ m m' : Mem, (∀ i ∈ (x m).2, m i = m' i) → x m' = x m

end Reads

end Mcsos
