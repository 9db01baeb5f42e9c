import Mathlib.Data.Nat.Digits.Lemmas

/-!
# Printing numbers

A number is printed digit by digit, with the most significant digit first. `digitLoop` is the loop
that divides by the base and fills a buffer from its end; it has room for a given number of digits
and stops when the buffer is full. `fixedDigits` takes each digit by its weight, leading zeros
included. `numeral` is what a reader makes of the digits.
-/

namespace Mcsos

/-- Prepend the digits of `v` to `buf`, as long as there is room. -/
def digitLoop (b : ℕ) : ℕ → ℕ → List ℕ → List ℕ
  | 0, _, buf => buf
  | room + 1, v, buf => if v = 0 then buf else digitLoop b room (v / b) (v % b :: buf)

/-- The last `n` digits of `v`. -/
def fixedDigits (b n v : ℕ) : List ℕ := (List.range n).reverse.map fun i ↦ v / b ^ i % b

/-- The number that digits stand for. -/
def numeral (b : ℕ) (ds : List ℕ) : ℕ := Nat.ofDigits b ds.reverse

variable {b v : ℕ}

theorem digitLoop_eq (hb : 1 < b) {room : ℕ} (hv : v < b ^ room) (buf : List ℕ) :
    digitLoop b room v buf = (Nat.digits b v).reverse ++ buf := by
  induction room generalizing v buf with
  | zero =>
    obtain rfl : v = 0 := by simpa using hv
    simp [digitLoop]
  | succ room ih =>
    rw [digitLoop]
    split_ifs with h0
    · rw [h0]
      simp
    · have hdiv : v / b < b ^ room := by
        rw [Nat.div_lt_iff_lt_mul (by omega), ← pow_succ]
        exact hv
      rw [ih hdiv, Nat.digits_def' hb (Nat.pos_of_ne_zero h0), List.reverse_cons, List.append_assoc]
      rfl

theorem numeral_reverse_digits (b v : ℕ) : numeral b (Nat.digits b v).reverse = v := by
  rw [numeral, List.reverse_reverse, Nat.ofDigits_digits]

theorem numeral_fixedDigits (b n v : ℕ) : numeral b (fixedDigits b n v) = v % b ^ n := by
  rw [numeral, fixedDigits, ← List.map_reverse, List.reverse_reverse]
  induction n with
  | zero => simp [Nat.mod_one]
  | succ n ih =>
    rw [List.range_succ, List.map_append, Nat.ofDigits_append, ih, List.length_map,
      List.length_range, List.map_singleton, Nat.ofDigits_singleton, pow_succ, Nat.mod_mul]

theorem lt_of_mem_fixedDigits {n d : ℕ} (hb : 0 < b) (hd : d ∈ fixedDigits b n v) : d < b := by
  obtain ⟨i, -, rfl⟩ := List.mem_map.mp hd
  exact Nat.mod_lt _ hb

end Mcsos
