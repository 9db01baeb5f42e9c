import Mathlib.Data.List.Basic

/-!
# First index with a property

A loop that stops at the first index of a range with a property is `List.find?` over the range.
-/

namespace Mcsos

theorem find?_range'_congr {p q : ℕ → Bool} {s n : ℕ} (h : ∀ i, s ≤ i → i < s + n → p i = q i) :
    (List.range' s n).find? p = (List.range' s n).find? q := by
  cases hq : (List.range' s n).find? q with
  | none =>
    rw [List.find?_range'_eq_none] at hq ⊢
    intro i hi hi'
    rw [h i hi hi', hq i hi hi']
  | some k =>
    rw [List.find?_range'_eq_some] at hq ⊢
    obtain ⟨hk, hmem, hbefore⟩ := hq
    rw [List.mem_range'_1] at hmem
    refine ⟨by rw [h k hmem.1 hmem.2, hk], List.mem_range'_1.mpr hmem, fun j hj hjk ↦ ?_⟩
    rw [h j hj (by omega), hbefore j hj hjk]

theorem find?_range'_eq_some_of_unique {p : ℕ → Bool} {s n k : ℕ} (hs : s ≤ k) (hn : k < s + n)
    (hk : p k = true) (hne : ∀ i, s ≤ i → i < s + n → i ≠ k → p i = false) :
    (List.range' s n).find? p = some k := by
  rw [List.find?_range'_eq_some]
  refine ⟨hk, List.mem_range'_1.mpr ⟨hs, hn⟩, fun j hj hjk ↦ ?_⟩
  rw [hne j hj (by omega) (by omega), Bool.not_false]

end Mcsos
