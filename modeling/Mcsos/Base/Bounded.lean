import Mcsos.Base.FaultyDisk

/-!
# Accesses outside an array

A function may index an array with a number that it has not checked, and what it does then is not
defined. `Stop` adds this end to its error codes: with the check `inside` in front of each access,
the function stops there.

`Agrees x y` says that the function `y` with such checks does what `x` does unless it stops at one
of them. There is one rule for each way to compose the two. So what `y` does when it stays inside is
what `x` does, and nothing is said of `x` otherwise.
-/

namespace Mcsos

namespace Bounded

variable {ε σ α β : Type}

/-- How a function may fail: with an error code, or at an access with the index `i`. -/
inductive Stop (ε : Type) where
  | code (e : ε)
  | outside (i : ℕ)
  deriving DecidableEq, Repr

/-- A function without such accesses. -/
def lift (x : EStateM ε σ α) : EStateM (Stop ε) σ α := fun s ↦
  match x.run s with
  | .ok a t => .ok a t
  | .error e t => .error (.code e) t

/-- The access with index `i` to an array of length `n`. -/
def inside (i n : ℕ) : EStateM (Stop ε) σ Unit := failIf (n ≤ i) (.outside i)

section Lift

variable {x : EStateM ε σ α} {s t : σ}

theorem run_lift_of_ok {a : α} (h : x.run s = .ok a t) : (lift x).run s = .ok a t := by
  rw [EStateM.run, lift, h]

theorem run_lift_of_error {e : ε} (h : x.run s = .error e t) :
    (lift x).run s = .error (.code e) t := by
  rw [EStateM.run, lift, h]

end Lift

/-- The function `y` stops outside or does what `x` does. -/
def Agrees (x : EStateM ε σ α) (y : EStateM (Stop ε) σ α) : Prop :=
  ∀ s, (∃ i t, y.run s = .error (.outside i) t) ∨ y.run s = (lift x).run s

section Agrees

variable {x : EStateM ε σ α} {y : EStateM (Stop ε) σ α}

theorem agrees_lift (x : EStateM ε σ α) : Agrees x (lift x) := fun _ ↦ .inr rfl

theorem agrees_pure (a : α) : Agrees (pure a : EStateM ε σ α) (pure a) := fun _ ↦ .inr rfl

theorem agrees_throw (e : ε) : Agrees (throw e : EStateM ε σ α) (throw (.code e)) :=
  fun _ ↦ .inr rfl

theorem agrees_failIf (c : Prop) [Decidable c] (e : ε) :
    Agrees (failIf c e : EStateM ε σ Unit) (failIf c (.code e)) := by
  intro s
  by_cases hc : c
  · exact .inr ((run_failIf_of hc).trans (run_lift_of_error (run_failIf_of hc)).symm)
  · exact .inr ((run_failIf_of_not hc).trans (run_lift_of_ok (run_failIf_of_not hc)).symm)

theorem Agrees.bind {f : α → EStateM ε σ β} {g : α → EStateM (Stop ε) σ β} (h : Agrees x y)
    (hf : ∀ a, Agrees (f a) (g a)) : Agrees (x >>= f) (y >>= g) := by
  intro s
  rcases h s with ⟨i, t, hy⟩ | hy
  · exact .inl ⟨i, t, run_bind_of_error hy⟩
  cases hx : x.run s with
  | ok a t =>
    rw [run_lift_of_ok hx] at hy
    rw [run_bind_of_ok hy]
    refine (hf a t).imp_right fun hg ↦ hg.trans ?_
    have hxf : (x >>= f).run s = (f a).run t := run_bind_of_ok hx
    cases hfa : (f a).run t with
    | ok b u => rw [run_lift_of_ok hfa, run_lift_of_ok (hxf.trans hfa)]
    | error e u => rw [run_lift_of_error hfa, run_lift_of_error (hxf.trans hfa)]
  | error e t =>
    rw [run_lift_of_error hx] at hy
    rw [run_bind_of_error hy, run_lift_of_error (run_bind_of_error hx)]
    exact .inr rfl

theorem Agrees.inside_bind (h : Agrees x y) (i n : ℕ) : Agrees x (inside i n >>= fun _ ↦ y) := by
  intro s
  by_cases hi : n ≤ i
  · exact .inl ⟨i, s, run_bind_of_error (run_failIf_of hi)⟩
  · rw [inside, run_bind_of_ok (run_failIf_of_not hi)]
    exact h s

theorem Agrees.of_ok (h : Agrees x y) {s t : σ} {a : α} (hy : y.run s = .ok a t) :
    x.run s = .ok a t := by
  rcases h s with ⟨i, u, hstop⟩ | hsame
  · cases hy.symm.trans hstop
  · cases hx : x.run s with
    | ok b u =>
      cases (run_lift_of_ok hx).symm.trans (hsame.symm.trans hy)
      rfl
    | error e u => cases (run_lift_of_error hx).symm.trans (hsame.symm.trans hy)

theorem Agrees.of_code (h : Agrees x y) {s t : σ} {e : ε} (hy : y.run s = .error (.code e) t) :
    x.run s = .error e t := by
  rcases h s with ⟨i, u, hstop⟩ | hsame
  · cases hy.symm.trans hstop
  · cases hx : x.run s with
    | ok b u => cases (run_lift_of_ok hx).symm.trans (hsame.symm.trans hy)
    | error e u =>
      cases (run_lift_of_error hx).symm.trans (hsame.symm.trans hy)
      rfl

end Agrees

/-! ## On a disk -/

open FaultyDisk

variable {γ : Type} {C : (ℕ → γ) → Prop} {err : Stop ε → (ℕ → γ) → Prop} {d : ℕ → γ}

theorem wp_lift {x : EStateM ε (Disk γ) α} {ok : α → (ℕ → γ) → Prop}
    (h : wp C x ok (fun e ↦ err (.code e)) d) : wp C (lift x) ok err d := by
  constructor
  intro s hd hs
  have hx := h.ends s hd hs
  cases hrun : x.run s with
  | ok a t =>
    rw [hrun] at hx
    rw [run_lift_of_ok hrun]
    exact hx
  | error e t =>
    rw [hrun] at hx
    rw [run_lift_of_error hrun]
    exact hx

theorem wp_inside {i n : ℕ} {ok : Unit → (ℕ → γ) → Prop} (hout : n ≤ i → err (.outside i) d)
    (hin : i < n → ok () d) : wp C (inside i n) ok err d :=
  wp_failIf hout fun h ↦ hin (Nat.lt_of_not_le h)

end Bounded

end Mcsos
