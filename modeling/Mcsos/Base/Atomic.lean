import Mathlib.Logic.Function.Basic
import Mcsos.Base.Machine

/-!
# Objects whose calls happen at one moment

A component that several threads call at the same time, and what its clients see of it: the calls
and the returns. It is linearizable if they could as well be those of an object on which every call
is executed without interruption, at one moment between the call and its return. That object is a
transition system of its own (`Atomic.Step`); a relation that every step of the component keeps
(`Exec.simulates`) shows that it can make the same calls and returns.

The object keeps the order of the moments. In that order the calls are a run of the sequential
function (`Atomic.run_order`), and every thread finds its own calls there with the answers that
were returned to it (`Atomic.order_thread`).
-/

namespace Mcsos

/-! ## Executions with labels -/

section Exec

variable {σ σ' ε : Type*} {Step : σ → Option ε → σ → Prop} {Step' : σ' → Option ε → σ' → Prop}
  {s t u : σ} {h h' : List ε}

/-- The executions of a transition system and their visible labels in order. -/
inductive Exec (Step : σ → Option ε → σ → Prop) (s : σ) : List ε → σ → Prop
  | nil : Exec Step s [] s
  | snoc {h : List ε} {t u : σ} {l : Option ε} (exec : Exec Step s h t) (step : Step t l u) :
    Exec Step s (h ++ l.toList) u

theorem Exec.append (hs : Exec Step s h t) (ht : Exec Step t h' u) : Exec Step s (h ++ h') u := by
  induction ht with
  | nil => rwa [List.append_nil]
  | snoc _ step ih =>
    rw [← List.append_assoc]
    exact ih.snoc step

theorem Exec.visible {e : ε} (hstep : Step s (some e) t) : Exec Step s [e] t := Exec.nil.snoc hstep

theorem Exec.hidden (hstep : Step s none t) : Exec Step s [] t := Exec.nil.snoc hstep

/-- A system whose every step is matched by steps of another one with the same visible label has
only histories of that system. -/
theorem Exec.simulates {R : σ' → σ → Prop} {a : σ'} (hexec : Exec Step s h t) (hs : R a s)
    (hstep : ∀ b u l v, R b u → Step u l v → ∃ c, Exec Step' b l.toList c ∧ R c v) :
    ∃ b, Exec Step' a h b ∧ R b t := by
  induction hexec with
  | nil => exact ⟨a, .nil, hs⟩
  | snoc _ step ih =>
    obtain ⟨b, hb, hR⟩ := ih
    obtain ⟨c, hc, hR'⟩ := hstep b _ _ _ hR step
    exact ⟨c, hb.append hc, hR'⟩

end Exec

/-- What the clients of a component see. -/
inductive Visible (τ ι ο : Type*) where
  | call (t : τ) (i : ι)
  | ret (t : τ) (i : ι) (o : ο)

namespace Atomic

variable {τ ι ο σ : Type*}

/-- Where a thread is in a call. -/
inductive Phase (ι ο : Type*) where
  | idle
  | called (i : ι)
  /-- The call has happened; its answer is still to be returned. -/
  | decided (i : ι) (o : ο)

/-- An object, the calls of the threads, and those that have happened in their order. -/
structure Object (τ ι ο σ : Type*) where
  value : σ
  phase : τ → Phase ι ο
  order : List ((τ × ι) × ο)

/-- The object before the first call. -/
def init (v : σ) : Object τ ι ο σ := ⟨v, fun _ ↦ .idle, []⟩

section Step

variable [DecidableEq τ]

/-- A thread goes on. -/
def Object.setPhase (a : Object τ ι ο σ) (t : τ) (p : Phase ι ο) : Object τ ι ο σ :=
  { a with phase := Function.update a.phase t p }

/-- A call of `t` happens. -/
def Object.happen (apply : τ × ι → σ → ο × σ) (a : Object τ ι ο σ) (t : τ) (i : ι) :
    Object τ ι ο σ where
  value := (apply (t, i) a.value).2
  phase := Function.update a.phase t (.decided i (apply (t, i) a.value).1)
  order := a.order ++ [((t, i), (apply (t, i) a.value).1)]

/-- A thread calls, its call happens, and the answer is returned. -/
inductive Step (apply : τ × ι → σ → ο × σ) :
    Object τ ι ο σ → Option (Visible τ ι ο) → Object τ ι ο σ → Prop
  | call {a : Object τ ι ο σ} (t : τ) (i : ι) (idle : a.phase t = .idle) :
    Step apply a (some (.call t i)) (a.setPhase t (.called i))
  | happen {a : Object τ ι ο σ} (t : τ) (i : ι) (called : a.phase t = .called i) :
    Step apply a none (a.happen apply t i)
  | ret {a : Object τ ι ο σ} (t : τ) (i : ι) (o : ο) (decided : a.phase t = .decided i o) :
    Step apply a (some (.ret t i o)) (a.setPhase t .idle)

variable {apply : τ × ι → σ → ο × σ} {a b : Object τ ι ο σ} {v : σ} {h : List (Visible τ ι ο)}

theorem exec_happen_ret (apply : τ × ι → σ → ο × σ) {t : τ} {i : ι}
    (called : a.phase t = .called i) :
    Exec (Step apply) a [.ret t i (apply (t, i) a.value).1]
      ((a.happen apply t i).setPhase t .idle) :=
  (Exec.hidden (.happen t i called)).append
    (Exec.visible (.ret t i _ (Function.update_self _ _ _)))

/-! ## The order of the calls -/

/-- The calls that have happened are a run of the sequential function. -/
theorem run_order (hexec : Exec (Step apply) (init v) h a) :
    Run apply (fun _ _ ↦ True) v a.order a.value := by
  induction hexec with
  | nil => exact .nil
  | snoc _ step ih =>
    cases step with
    | call t i => exact ih
    | happen t i => exact ih.snoc (t, i) trivial
    | ret t i o => exact ih

/-- The calls of a thread that have returned, with their answers. -/
def returnsOf (t : τ) : Visible τ ι ο → Option (ι × ο)
  | .call _ _ => none
  | .ret u i o => if u = t then some (i, o) else none

/-- The call of a thread that has happened and has not returned. -/
def Phase.pending : Phase ι ο → List (ι × ο)
  | .decided i o => [(i, o)]
  | _ => []

/-- The calls of a thread in the order are those that have returned, with the answers that were
returned, and possibly one that has not returned yet. -/
theorem order_thread (hexec : Exec (Step apply) (init v) h a) (t : τ) :
    (a.order.filter fun e ↦ decide (e.1.1 = t)).map (fun e ↦ (e.1.2, e.2)) =
      h.filterMap (returnsOf t) ++ (a.phase t).pending := by
  induction hexec with
  | nil => rfl
  | @snoc h b _ _ _ step ih =>
    cases step with
    | call u i idle =>
      have hnone : [Visible.call u i].filterMap (returnsOf t) = ([] : List (ι × ο)) := rfl
      rw [Option.toList_some, List.filterMap_append, hnone, List.append_nil]
      by_cases hu : t = u
      · subst hu
        rw [idle] at ih
        simpa [Object.setPhase, Phase.pending] using ih
      · simpa [Object.setPhase, Function.update_of_ne hu] using ih
    | happen u i called =>
      rw [Option.toList_none, List.append_nil]
      by_cases hu : t = u
      · subst hu
        rw [called] at ih
        simpa [Object.happen, Phase.pending] using ih
      · simpa [Object.happen, Function.update_of_ne hu, Ne.symm hu] using ih
    | ret u i o decided =>
      rw [Option.toList_some, List.filterMap_append]
      by_cases hu : t = u
      · subst hu
        rw [decided] at ih
        simpa [Object.setPhase, returnsOf, Phase.pending] using ih
      · simpa [Object.setPhase, returnsOf, Function.update_of_ne hu, Ne.symm hu] using ih

end Step

end Atomic

end Mcsos
