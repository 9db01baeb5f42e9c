import Mathlib.Logic.Basic

/-!
# Functions that return an error code

A function of the source that works on a state and returns an error code is a computation in
`EStateM ε σ`: the state it has reached is kept when it returns early. `failIf c e` is the
statement `if (c) return e;`.
-/

namespace Mcsos

variable {ε σ α β : Type}

/-- Return early with the error `e` when `c` holds. -/
def failIf (c : Prop) [Decidable c] (e : ε) : EStateM ε σ Unit := fun s ↦
  if c then .error e s else .ok () s

/-- Return the result of a function that does not use the state. -/
def ofExcept : Except ε α → EStateM ε σ α
  | .ok a => pure a
  | .error e => throw e

theorem failIf_of_not {c : Prop} [Decidable c] {e : ε} (h : ¬c) :
    (failIf c e : EStateM ε σ Unit) = pure () := funext fun _ ↦ if_neg h

theorem run_failIf_of_not {c : Prop} [Decidable c] {e : ε} {s : σ} (h : ¬c) :
    (failIf c e).run s = .ok () s := if_neg h

theorem run_failIf_of {c : Prop} [Decidable c] {e : ε} {s : σ} (h : c) :
    (failIf c e).run s = .error e s := if_pos h

theorem run_bind_of_ok {x : EStateM ε σ α} {f : α → EStateM ε σ β} {s s' : σ} {a : α}
    (h : x.run s = .ok a s') : (x >>= f).run s = (f a).run s' := by
  rw [EStateM.run_bind, h]

theorem run_bind_of_error {x : EStateM ε σ α} {f : α → EStateM ε σ β} {s s' : σ} {e : ε}
    (h : x.run s = .error e s') : (x >>= f).run s = .error e s' := by
  rw [EStateM.run_bind, h]

theorem run_bind_eq_ok {x : EStateM ε σ α} {f : α → EStateM ε σ β} {s s' : σ} {b : β}
    (h : (x >>= f).run s = .ok b s') :
    ∃ a t, x.run s = .ok a t ∧ (f a).run t = .ok b s' := by
  rw [EStateM.run_bind] at h
  cases hx : x.run s with
  | ok a t => rw [hx] at h; exact ⟨a, t, rfl, h⟩
  | error e t => rw [hx] at h; cases h

theorem run_failIf_eq_ok {c : Prop} [Decidable c] {e : ε} {s t : σ}
    (h : (failIf c e).run s = .ok () t) : ¬c ∧ t = s := by
  by_cases hc : c
  · rw [run_failIf_of hc] at h; cases h
  · rw [run_failIf_of_not hc] at h; cases h; exact ⟨hc, rfl⟩

theorem run_failIf_bind_eq_ok {c : Prop} [Decidable c] {e : ε} {f : Unit → EStateM ε σ β} {s s' : σ}
    {b : β} (h : (failIf c e >>= f).run s = .ok b s') : ¬c ∧ (f ()).run s = .ok b s' := by
  obtain ⟨_, t, hcheck, hrest⟩ := run_bind_eq_ok h
  obtain ⟨hc, rfl⟩ := run_failIf_eq_ok hcheck
  exact ⟨hc, hrest⟩

/-- The state a computation ends in, whether it succeeds or fails. -/
def finalState : EStateM.Result ε σ α → σ
  | .ok _ s => s
  | .error _ s => s

/-- What a computation returns, without the state. -/
def returned : EStateM.Result ε σ α → Except ε α
  | .ok a _ => .ok a
  | .error e _ => .error e

@[simp] theorem finalState_ok (a : α) (s : σ) :
    finalState (.ok a s : EStateM.Result ε σ α) = s := rfl

@[simp] theorem finalState_error (e : ε) (s : σ) :
    finalState (.error e s : EStateM.Result ε σ α) = s := rfl

@[simp] theorem returned_ok (a : α) (s : σ) :
    returned (.ok a s : EStateM.Result ε σ α) = .ok a := rfl

@[simp] theorem returned_error (e : ε) (s : σ) :
    returned (.error e s : EStateM.Result ε σ α) = .error e := rfl

theorem eq_ok_of_returned {r : EStateM.Result ε σ α} {a : α} (h : returned r = .ok a) :
    r = .ok a (finalState r) := by
  cases r with
  | ok b s =>
    rw [returned_ok, Except.ok.injEq] at h
    rw [h, finalState_ok]
  | error e s => cases h

theorem eq_error_of_returned {r : EStateM.Result ε σ α} {e : ε} (h : returned r = .error e) :
    r = .error e (finalState r) := by
  cases r with
  | ok b s => cases h
  | error e' s =>
    rw [returned_error, Except.error.injEq] at h
    rw [h, finalState_error]

/-! ## What a computation ensures -/

/-- From `s` the computation succeeds with a result and a state as in `Q`, or fails in a state as in
`E`. -/
def Ensures (x : EStateM ε σ α) (s : σ) (Q : α → σ → Prop) (E : σ → Prop) : Prop :=
  match x.run s with
  | .ok a t => Q a t
  | .error _ t => E t

variable {x : EStateM ε σ α} {f : α → EStateM ε σ β} {s t : σ} {E : σ → Prop}

theorem Ensures.of_ok {a : α} {Q : α → σ → Prop} (h : x.run s = .ok a t) (hQ : Q a t) :
    Ensures x s Q E := by
  rw [Ensures, h]
  exact hQ

theorem Ensures.of_error {e : ε} {Q : α → σ → Prop} (h : x.run s = .error e t) (hE : E t) :
    Ensures x s Q E := by
  rw [Ensures, h]
  exact hE

/-- A sequence ensures what its second part ensures from each state that the first one may reach. -/
theorem Ensures.bind {R : α → σ → Prop} {Q : β → σ → Prop} (hx : Ensures x s R E)
    (hf : ∀ a t, R a t → Ensures (f a) t Q E) : Ensures (x >>= f) s Q E := by
  rw [Ensures, EStateM.run_bind]
  rw [Ensures] at hx
  cases hrun : x.run s with
  | ok a t =>
    rw [hrun] at hx
    exact hf a t hx
  | error e t =>
    rw [hrun] at hx
    exact hx

theorem Ensures.bind_of_ok {a : α} {Q : β → σ → Prop} (h : x.run s = .ok a t)
    (hf : Ensures (f a) t Q E) : Ensures (x >>= f) s Q E := by
  rw [Ensures, run_bind_of_ok h]
  exact hf

theorem Ensures.failIf {c : Prop} [Decidable c] {e : ε} (hE : E s) :
    Ensures (failIf c e : EStateM ε σ Unit) s (fun _ t ↦ ¬c ∧ t = s) E := by
  by_cases hc : c
  · exact .of_error (run_failIf_of hc) hE
  · exact .of_ok (run_failIf_of_not hc) ⟨hc, rfl⟩

/-- A property that holds whether the computation succeeds or fails holds in the end. -/
theorem Ensures.finalState {P : σ → Prop} (h : Ensures x s (fun _ ↦ P) P) :
    P (finalState (x.run s)) := by
  rw [Ensures] at h
  cases hrun : x.run s with
  | ok a t =>
    rw [hrun] at h
    exact h
  | error e t =>
    rw [hrun] at h
    exact h

end Mcsos
