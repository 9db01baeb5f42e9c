import Mcsos.Base.Bytes

/-!
# Bitmaps over byte memory

Bit `i` of a bitmap is bit `i % 8` of its byte `i / 8`. The three operations are written on bytes,
with the masks a C program uses; the lemmas say that they are the membership test, the insertion
and the removal of a set of indices.
-/

namespace Mcsos

namespace Bitmap

/-- The byte with only bit `k` set. -/
def mask (k : ℕ) : UInt8 := UInt8.ofNat (1 <<< k)

def test (m : Mem) (i : ℕ) : Bool := (m (i / 8) &&& mask (i % 8)) != 0

def set (m : Mem) (i : ℕ) : Mem := Function.update m (i / 8) (m (i / 8) ||| mask (i % 8))

def clear (m : Mem) (i : ℕ) : Mem := Function.update m (i / 8) (m (i / 8) &&& ~~~mask (i % 8))

private theorem testBit_mask {k : ℕ} (hk : k < 8) (j : ℕ) :
    (mask k).toNat.testBit j = decide (k = j) := by
  have hlt : 2 ^ k < 2 ^ 8 := Nat.pow_lt_pow_right (by norm_num) hk
  rw [mask, UInt8.toNat_ofNat', Nat.one_shiftLeft, Nat.mod_eq_of_lt hlt, Nat.testBit_two_pow]

theorem test_eq_testBit (m : Mem) (i : ℕ) : test m i = (m (i / 8)).toNat.testBit (i % 8) := by
  have hmod : i % 8 < 8 := Nat.mod_lt i (by norm_num)
  have hand : (m (i / 8) &&& mask (i % 8) = 0) ↔ (m (i / 8)).toNat.testBit (i % 8) = false := by
    rw [← UInt8.toNat_inj, UInt8.toNat_and, UInt8.toNat_zero]
    constructor
    · intro h
      have hbit := congrArg (Nat.testBit · (i % 8)) h
      simpa [Nat.testBit_and, testBit_mask hmod] using hbit
    · intro h
      refine Nat.eq_of_testBit_eq fun j ↦ ?_
      rw [Nat.testBit_and, testBit_mask hmod, Nat.zero_testBit]
      by_cases hj : i % 8 = j
      · rw [← hj, h, Bool.false_and]
      · simp [hj]
  rw [test]
  cases hbit : (m (i / 8)).toNat.testBit (i % 8) with
  | false => rw [hand.mpr hbit]; rfl
  | true =>
    have hne : ¬(m (i / 8) &&& mask (i % 8) = 0) := by rw [hand, hbit]; simp
    simpa using hne

theorem test_set (m : Mem) (i j : ℕ) : test (set m i) j = (decide (j = i) || test m j) := by
  have hmod : i % 8 < 8 := Nat.mod_lt i (by norm_num)
  rw [test_eq_testBit, test_eq_testBit, set]
  by_cases hdiv : j / 8 = i / 8
  · rw [hdiv, Function.update_self, UInt8.toNat_or, Nat.testBit_or, testBit_mask hmod,
      Bool.or_comm]
    congr 1
    exact decide_eq_decide.mpr ⟨fun h ↦ by omega, fun h ↦ by rw [h]⟩
  · have hne : j ≠ i := fun h ↦ hdiv (by rw [h])
    rw [Function.update_of_ne hdiv, decide_eq_false hne, Bool.false_or]

theorem test_clear (m : Mem) (i j : ℕ) : test (clear m i) j = (decide (j ≠ i) && test m j) := by
  have hmod : i % 8 < 8 := Nat.mod_lt i (by norm_num)
  rw [test_eq_testBit, test_eq_testBit, clear]
  by_cases hdiv : j / 8 = i / 8
  · have hnot : (~~~mask (i % 8)).toNat.testBit (j % 8) = !decide (i % 8 = j % 8) := by
      have hcompl : (~~~mask (i % 8)).toNat = 2 ^ 8 - ((mask (i % 8)).toNat + 1) := by
        rw [UInt8.toNat_not]
        simp [UInt8.size]
      rw [hcompl, Nat.testBit_two_pow_sub_succ (mask (i % 8)).toNat_lt, testBit_mask hmod,
        decide_eq_true (show j % 8 < 8 by omega), Bool.true_and]
    rw [hdiv, Function.update_self, UInt8.toNat_and, Nat.testBit_and, hnot, Bool.and_comm]
    congr 1
    rw [← decide_not]
    exact decide_eq_decide.mpr ⟨fun h ↦ by rintro rfl; exact h rfl, fun h ↦ by omega⟩
  · have hne : j ≠ i := fun h ↦ hdiv (by rw [h])
    rw [Function.update_of_ne hdiv, decide_eq_true hne, Bool.true_and]

theorem test_set_self (m : Mem) (i : ℕ) : test (set m i) i = true := by
  rw [test_set, decide_eq_true rfl, Bool.true_or]

theorem test_set_of_ne {m : Mem} {i j : ℕ} (h : j ≠ i) : test (set m i) j = test m j := by
  rw [test_set, decide_eq_false h, Bool.false_or]

theorem test_clear_self (m : Mem) (i : ℕ) : test (clear m i) i = false := by
  rw [test_clear, decide_eq_false (by simp), Bool.false_and]

theorem test_clear_of_ne {m : Mem} {i j : ℕ} (h : j ≠ i) : test (clear m i) j = test m j := by
  rw [test_clear, decide_eq_true h, Bool.true_and]

theorem test_congr {m m' : Mem} {i : ℕ} (h : m (i / 8) = m' (i / 8)) : test m i = test m' i := by
  rw [test, test, h]

theorem ext_of_test {m m' : Mem} (h : ∀ i, test m i = test m' i) : m = m' := by
  funext j
  refine UInt8.toNat_inj.mp (Nat.eq_of_testBit_eq fun k ↦ ?_)
  by_cases hk : k < 8
  · have hbit := h (8 * j + k)
    rwa [test_eq_testBit, test_eq_testBit, show (8 * j + k) / 8 = j by omega,
      show (8 * j + k) % 8 = k by omega] at hbit
  · have hbound (b : UInt8) : b.toNat < 2 ^ k :=
      b.toNat_lt.trans_le (Nat.pow_le_pow_right (by decide) (by omega))
    rw [Nat.testBit_lt_two_pow (hbound _), Nat.testBit_lt_two_pow (hbound _)]

end Bitmap

end Mcsos
