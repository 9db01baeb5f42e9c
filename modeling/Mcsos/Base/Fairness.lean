import Mathlib.Data.List.Basic
import Mathlib.Order.WellFounded

/-!
# Fair schedules

Participants that take turns, and what they reach if nobody is left out. The argument behind
progress under waiting: a turn leaves the state as it is, or makes a measure smaller; and as long as
there is something to do, some participant has a turn that makes it smaller. Turns without effect do
not take that away, so the participant finds it when its turn comes (`Fair.exists_done`).
-/

namespace Mcsos

variable {σ τ α : Type*} {next : σ → τ → σ} {P done : σ → Prop} {schedule : ℕ → τ} {s : σ}

/-- Every participant has a turn after every moment. -/
def Fair (schedule : ℕ → τ) : Prop := ∀ t n, ∃ m, n ≤ m ∧ schedule m = t

/-- The state after the first `n` turns. -/
def after (next : σ → τ → σ) (s : σ) (schedule : ℕ → τ) (n : ℕ) : σ :=
  ((List.range n).map schedule).foldl next s

theorem after_succ (next : σ → τ → σ) (s : σ) (schedule : ℕ → τ) (n : ℕ) :
    after next s schedule (n + 1) = next (after next s schedule n) (schedule n) := by
  rw [after, List.range_succ, List.map_append, List.foldl_append]
  rfl

theorem after_invariant (hs : P s) (hP : ∀ s t, P s → P (next s t)) (n : ℕ) :
    P (after next s schedule n) := by
  induction n with
  | zero => exact hs
  | succ n ih =>
    rw [after_succ]
    exact hP _ _ ih

theorem after_eq_of_le {n m : ℕ} (hfix : ∀ t, next (after next s schedule n) t =
    after next s schedule n) (hle : n ≤ m) :
    after next s schedule m = after next s schedule n := by
  induction m, hle using Nat.le_induction with
  | base => rfl
  | succ m _ ih => rw [after_succ, ih, hfix]

variable [Preorder α] {μ : σ → α}

/-- The turn of `t` is still one that makes the measure smaller when it comes, or the measure has
become smaller before. -/
theorem exists_lt_of_turn {n m : ℕ} (hP : ∀ k, P (after next s schedule k))
    (hstep : ∀ s t, P s → next s t = s ∨ μ (next s t) < μ s) (hle : n ≤ m)
    (hturn : μ (next (after next s schedule n) (schedule m)) < μ (after next s schedule n)) :
    ∃ k, n < k ∧ μ (after next s schedule k) < μ (after next s schedule n) := by
  induction hd : m - n generalizing n with
  | zero =>
    obtain rfl : m = n := by omega
    rw [← after_succ next s schedule] at hturn
    exact ⟨m + 1, Nat.lt_succ_self m, hturn⟩
  | succ d ih =>
    rcases hstep _ (schedule n) (hP n) with hsame | hlt
    · -- nothing happens at `n`, so the same turn is ahead at `n + 1`
      rw [← after_succ next s schedule] at hsame
      rw [← hsame] at hturn ⊢
      obtain ⟨k, hk, hlt⟩ := ih (by omega) hturn (by omega)
      exact ⟨k, by omega, hlt⟩
    · rw [← after_succ next s schedule] at hlt
      exact ⟨n + 1, Nat.lt_succ_self n, hlt⟩

/-- **Progress.** If every turn changes nothing or makes the measure smaller, and somebody has such
a turn unless all is done, then under a fair schedule all is done at some moment. -/
theorem Fair.exists_done [WellFoundedLT α] (hfair : Fair schedule) (hs : P s)
    (hP : ∀ s t, P s → P (next s t)) (hstep : ∀ s t, P s → next s t = s ∨ μ (next s t) < μ s)
    (hhelp : ∀ s, P s → ¬done s → ∃ t, μ (next s t) < μ s) :
    ∃ n, done (after next s schedule n) := by
  have hinv : ∀ n, P (after next s schedule n) := after_invariant hs hP
  -- on the measure, from any moment on
  suffices h : ∀ a n, μ (after next s schedule n) = a → ∃ m, done (after next s schedule m) from
    h _ 0 rfl
  intro a
  induction a using WellFoundedLT.induction with
  | ind a ih =>
    rintro n rfl
    by_cases hdone : done (after next s schedule n)
    · exact ⟨n, hdone⟩
    obtain ⟨t, ht⟩ := hhelp _ (hinv n) hdone
    obtain ⟨m, hle, rfl⟩ := hfair t n
    obtain ⟨k, -, hlt⟩ := exists_lt_of_turn hinv hstep hle ht
    exact ih _ hlt k rfl

end Mcsos
