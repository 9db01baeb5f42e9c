import Mathlib.Data.List.Basic

/-!
# Runs of a machine

A component with an interface is a transition function: a call and a state give an output and the
next state. `Run step ok s es t` is a run from `s` to `t` with the calls and outputs `es`, each call
made in a state in which `ok` allows it.

A property that every allowed call keeps holds in every state reached (`Run.invariant`). A relation
that every allowed call keeps, with a step of an abstract specification on the other side, turns a
run into a behaviour of the specification with the same outputs (`Run.refines`).
-/

namespace Mcsos

variable {ι ο σ α : Type*} {step : ι → σ → ο × σ} {ok : σ → ι → Prop}

/-- The runs of a machine, with their calls and outputs in order. -/
inductive Run (step : ι → σ → ο × σ) (ok : σ → ι → Prop) (s : σ) : List (ι × ο) → σ → Prop
  | nil : Run step ok s [] s
  | snoc {es : List (ι × ο)} {t : σ} (run : Run step ok s es t) (i : ι) (allowed : ok t i) :
    Run step ok s (es ++ [(i, (step i t).1)]) (step i t).2

/-- A property that holds at the start and that every call keeps holds in every state reached. -/
theorem Run.invariant {P : σ → Prop} {s t : σ} {es : List (ι × ο)} (hrun : Run step ok s es t)
    (hs : P s) (hstep : ∀ u i, P u → ok u i → P (step i u).2) : P t := by
  induction hrun with
  | nil => exact hs
  | snoc _ i allowed ih => exact hstep _ i ih allowed

theorem Run.mono {ok' : σ → ι → Prop} {s t : σ} {es : List (ι × ο)} (hrun : Run step ok s es t)
    (hok : ∀ u i, ok u i → ok' u i) : Run step ok' s es t := by
  induction hrun with
  | nil => exact .nil
  | snoc _ i allowed ih => exact ih.snoc i (hok _ i allowed)

theorem Run.map {ι' σ' : Type*} {step' : ι' → σ' → ο × σ'} {ok' : σ' → ι' → Prop} {f : σ → σ'}
    {g : ι → ι'} {s t : σ} {es : List (ι × ο)} (hrun : Run step ok s es t)
    (hstep : ∀ i u, step' (g i) (f u) = ((step i u).1, f (step i u).2))
    (hok : ∀ u i, ok u i → ok' (f u) (g i)) :
    Run step' ok' (f s) (es.map fun e ↦ (g e.1, e.2)) (f t) := by
  induction hrun with
  | nil => exact .nil
  | snoc _ i allowed ih =>
    have hsnoc := ih.snoc (g i) (hok _ i allowed)
    rw [hstep] at hsnoc
    rwa [List.map_append, List.map_singleton]

/-- A machine whose every call is matched by one of another machine, with the same output, has no
other runs than that machine. -/
theorem Run.simulates {σ' : Type*} {step' : ι → σ' → ο × σ'} {ok' : σ' → ι → Prop}
    {R : σ' → σ → Prop} {s t : σ} {a : σ'} {es : List (ι × ο)} (hrun : Run step ok s es t)
    (hs : R a s) (hstep : ∀ b u i, R b u → ok u i →
      ok' b i ∧ (step' i b).1 = (step i u).1 ∧ R (step' i b).2 (step i u).2) :
    ∃ b, Run step' ok' a es b ∧ R b t := by
  induction hrun with
  | nil => exact ⟨a, .nil, hs⟩
  | snoc _ i allowed ih =>
    obtain ⟨b, hb, hR⟩ := ih
    obtain ⟨hok, hout, hR'⟩ := hstep b _ i hR allowed
    have hsnoc := hb.snoc i hok
    rw [hout] at hsnoc
    exact ⟨_, hsnoc, hR'⟩

/-- The behaviours of a specification: `spec i o a b` says that the call `i` may return `o` and
take the abstract state from `a` to `b`. -/
inductive Behaviour (spec : ι → ο → α → α → Prop) (a : α) : List (ι × ο) → α → Prop
  | nil : Behaviour spec a [] a
  | snoc {es : List (ι × ο)} {b c : α} {i : ι} {o : ο} (behaviour : Behaviour spec a es b)
    (allowed : spec i o b c) : Behaviour spec a (es ++ [(i, o)]) c

/-- A machine whose every call is matched by a step of the specification refines it. -/
theorem Run.refines {spec : ι → ο → α → α → Prop} {R : α → σ → Prop} {s t : σ} {a : α}
    {es : List (ι × ο)} (hrun : Run step ok s es t) (hs : R a s)
    (hstep : ∀ b u i, R b u → ok u i → ∃ c, spec i (step i u).1 b c ∧ R c (step i u).2) :
    ∃ b, Behaviour spec a es b ∧ R b t := by
  induction hrun with
  | nil => exact ⟨a, .nil, hs⟩
  | snoc _ i allowed ih =>
    obtain ⟨b, hb, hR⟩ := ih
    obtain ⟨c, hc, hR'⟩ := hstep b _ i hR allowed
    exact ⟨c, hb.snoc hc, hR'⟩

end Mcsos
