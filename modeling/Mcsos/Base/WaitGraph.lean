import Mathlib.Logic.Relation
import Mathlib.Order.Nat

/-!
# Waits that go up

The argument behind lock ordering, for an arbitrary relation. If a participant that waits has a
level, and waits only for participants that are not waiting or wait at a higher level, then there
is no circular wait; if the levels are bounded, every chain of waits ends.
-/

namespace Mcsos

variable {τ : Type*} {W : τ → τ → Prop} {level : τ → Option ℕ}

/-- A participant that waits has a level, below the level of whom it waits for. -/
def Ascending (W : τ → τ → Prop) (level : τ → Option ℕ) : Prop :=
  ∀ t u, W t u → ∃ c, level t = some c ∧ ∀ d, level u = some d → c < d

theorem Ascending.lt_of_transGen (h : Ascending W level) {t u : τ} (hw : Relation.TransGen W t u) :
    ∃ c, level t = some c ∧ ∀ d, level u = some d → c < d := by
  induction hw with
  | single hw => exact h _ _ hw
  | tail _ hw ih =>
    obtain ⟨c, hc, hlt⟩ := ih
    obtain ⟨d, hd, hlt'⟩ := h _ _ hw
    exact ⟨c, hc, fun e he ↦ (hlt d hd).trans (hlt' e he)⟩

theorem Ascending.not_transGen_self (h : Ascending W level) (t : τ) :
    ¬Relation.TransGen W t t := by
  intro hw
  obtain ⟨c, hc, hlt⟩ := h.lt_of_transGen hw
  exact lt_irrefl c (hlt c hc)

/-- With bounded levels, whoever waits is at the start of a chain of waits that ends. -/
theorem Ascending.exists_not_waiting (h : Ascending W level) {n : ℕ}
    (hbound : ∀ t c, level t = some c → c < n) {t u : τ} (hw : W t u) :
    ∃ v v', W v v' ∧ ∀ w, ¬W v' w := by
  obtain ⟨c, hc, -⟩ := h t u hw
  -- on the distance of the level to the bound
  induction hk : n - c using Nat.strongRecOn generalizing t u c with
  | _ k ih =>
    by_cases hu : ∃ w, W u w
    · obtain ⟨w, hw'⟩ := hu
      obtain ⟨c', hc', hlt⟩ := h t u hw
      obtain ⟨d, hd, -⟩ := h u w hw'
      have hcd := hlt d hd
      have hdn := hbound u d hd
      have hcc : c' = c := Option.some.inj (hc'.symm.trans hc)
      exact ih (n - d) (by omega) hw' d hd rfl
    · exact ⟨t, u, hw, fun w hw' ↦ hu ⟨w, hw'⟩⟩

end Mcsos
