import Mathlib.Data.Nat.Bitwise
import Mathlib.Logic.Function.Basic
import Mathlib.Tactic.Ring
import Mathlib.Tactic.Linarith

/-!
# Byte memory and little-endian words

A memory is a function `ℕ → UInt8`. A C structure laid over it is read with `load w a`, the
little-endian number in the `w` bytes at address `a`, and written with `store w a v`. The two
lemmas that every later proof about structure fields rests on are `load_store_self` and
`load_store_of_disjoint`: a field reads back what was stored, and a store to one field leaves the
others alone.

`Buf n` is a buffer of exactly `n` bytes. Its bytes at and above `n` are zero by construction, so
that equality of buffers is equality of their `n` bytes and reading needs no bound proof.
-/

namespace Mcsos

/-- A mask that clears the low `k` bits rounds down to a multiple of `2 ^ k`. -/
theorem and_highMask {x w k : ℕ} (hx : x < 2 ^ w) (hk : k ≤ w) :
    x &&& (2 ^ w - 2 ^ k) = x / 2 ^ k * 2 ^ k := by
  have hmask : 2 ^ w - 2 ^ k = (2 ^ (w - k) - 1) * 2 ^ k := by
    rw [Nat.sub_one_mul, ← pow_add, Nat.sub_add_cancel hk]
  refine Nat.eq_of_testBit_eq fun i ↦ ?_
  rw [hmask, Nat.testBit_and, Nat.testBit_mul_two_pow, Nat.testBit_two_pow_sub_one,
    Nat.testBit_mul_two_pow, Nat.testBit_div_two_pow]
  by_cases hi : k ≤ i
  · rw [Nat.sub_add_cancel hi]
    by_cases hlt : i < w
    · have hlow : i - k < w - k := by omega
      simp [hi, hlow]
    · have hfalse : x.testBit i = false :=
        Nat.testBit_lt_two_pow (hx.trans_le (Nat.pow_le_pow_right (by decide) (by omega)))
      simp [hfalse]
  · simp [hi]

/-- An address space of bytes. -/
abbrev Mem := ℕ → UInt8

namespace Mem

/-- The little-endian number in the `w` bytes at `a`. -/
def load (m : Mem) : ℕ → ℕ → ℕ
  | 0, _ => 0
  | w + 1, a => (m a).toNat + 256 * load m w (a + 1)

/-- Write the `w` low-order bytes of `v` at `a`, little-endian. -/
def store (m : Mem) (w a v : ℕ) : Mem := fun i ↦
  if a ≤ i ∧ i < a + w then UInt8.ofNat (v / 256 ^ (i - a)) else m i

theorem store_apply (m : Mem) (w a v i : ℕ) :
    m.store w a v i = if a ≤ i ∧ i < a + w then UInt8.ofNat (v / 256 ^ (i - a)) else m i := rfl

theorem store_of_notMem {m : Mem} {w a v i : ℕ} (h : i < a ∨ a + w ≤ i) :
    m.store w a v i = m i := by
  rw [store_apply, if_neg (by omega)]

theorem load_lt (m : Mem) (w a : ℕ) : m.load w a < 256 ^ w := by
  induction w generalizing a with
  | zero => simp [load]
  | succ w ih =>
    have hbyte : (m a).toNat < 256 := (m a).toNat_lt
    have hrest := ih (a + 1)
    rw [load, pow_succ]
    omega

theorem load_congr {m m' : Mem} {w a : ℕ} (h : ∀ i, a ≤ i → i < a + w → m i = m' i) :
    m.load w a = m'.load w a := by
  induction w generalizing a with
  | zero => rfl
  | succ w ih =>
    rw [load, load, h a (le_refl a) (by omega),
      ih fun i hi hi' ↦ h i (by omega) (by omega)]

/-- The number spelled by the bytes of `v` starting at its `k`-th byte. -/
private theorem load_digits (m : Mem) (w a v k : ℕ)
    (h : ∀ i < w, m (a + i) = UInt8.ofNat (v / 256 ^ (k + i))) :
    m.load w a = v / 256 ^ k % 256 ^ w := by
  induction w generalizing a k with
  | zero => simp [load, Nat.mod_one]
  | succ w ih =>
    have h0 : m a = UInt8.ofNat (v / 256 ^ k) := by simpa using h 0 (by omega)
    have hrest : m.load w (a + 1) = v / 256 ^ (k + 1) % 256 ^ w := by
      refine ih (a + 1) (k + 1) fun i hi ↦ ?_
      rw [show a + 1 + i = a + (i + 1) by ring, h (i + 1) (by omega),
        show k + 1 + i = k + (i + 1) by ring]
    rw [load, hrest, h0, UInt8.toNat_ofNat', show (2 : ℕ) ^ 8 = 256 by norm_num,
      pow_succ 256 k, ← Nat.div_div_eq_div_mul, pow_succ 256 w, mul_comm (256 ^ w),
      Nat.mod_mul]

theorem load_store_self (m : Mem) (w a v : ℕ) : (m.store w a v).load w a = v % 256 ^ w := by
  have h := load_digits (m.store w a v) w a v 0 fun i hi ↦ by
    rw [store_apply, if_pos (by omega), Nat.add_sub_cancel_left, Nat.zero_add]
  rwa [pow_zero, Nat.div_one] at h

theorem load_store_self_of_lt {m : Mem} {w a v : ℕ} (h : v < 256 ^ w) :
    (m.store w a v).load w a = v := by
  rw [load_store_self, Nat.mod_eq_of_lt h]

theorem load_add_mod (m : Mem) (w k a : ℕ) : m.load (w + k) a % 256 ^ w = m.load w a := by
  induction w generalizing a with
  | zero => rw [pow_zero, Nat.mod_one, load]
  | succ w ih =>
    have hbyte := (m a).toNat_lt
    have hmod : ((m a).toNat + 256 * m.load (w + k) (a + 1)) % 256 = (m a).toNat := by omega
    have hdiv : ((m a).toNat + 256 * m.load (w + k) (a + 1)) / 256 = m.load (w + k) (a + 1) := by
      omega
    rw [Nat.add_right_comm, load, load, pow_succ', Nat.mod_mul, hmod, hdiv, ih]

theorem load_store_of_disjoint {m : Mem} {w a v w' b : ℕ} (h : b + w' ≤ a ∨ a + w ≤ b) :
    (m.store w a v).load w' b = m.load w' b :=
  load_congr fun _ hi hi' ↦ store_of_notMem (by omega)

theorem load_eq_zero {m : Mem} {w a : ℕ} (h : ∀ i, a ≤ i → i < a + w → m i = 0) :
    m.load w a = 0 := by
  induction w generalizing a with
  | zero => rfl
  | succ w ih =>
    rw [load, h a (le_refl a) (by omega), ih fun i hi hi' ↦ h i (by omega) (by omega)]
    rfl

theorem load_inj {m m' : Mem} {w a : ℕ} (h : m.load w a = m'.load w a) {i : ℕ} (hle : a ≤ i)
    (hlt : i < a + w) : m i = m' i := by
  induction w generalizing a with
  | zero => omega
  | succ w ih =>
    have hbyte := (m a).toNat_lt
    have hbyte' := (m' a).toNat_lt
    rw [load, load] at h
    rcases Nat.eq_or_lt_of_le hle with rfl | hlt'
    · exact UInt8.toNat_inj.mp (by omega)
    · have hrest : m.load w (a + 1) = m'.load w (a + 1) := by omega
      exact ih hrest hlt' (by omega)

end Mem

/-! ## Buffers of a fixed size -/

/-- A buffer of `n` bytes. -/
@[ext] structure Buf (n : ℕ) where
  /-- The byte at each index; indices at and above `n` do not exist and read as zero. -/
  byte : Mem
  byte_eq_zero : ∀ i, n ≤ i → byte i = 0

namespace Buf

variable {n : ℕ}

/-- The buffer holding the first `n` bytes of `f`. -/
def ofFn (n : ℕ) (f : Mem) : Buf n where
  byte i := if i < n then f i else 0
  byte_eq_zero _ h := if_neg (by omega)

@[simp] theorem byte_ofFn (f : Mem) (i : ℕ) : (ofFn n f).byte i = if i < n then f i else 0 := rfl

theorem byte_ofFn_of_lt {f : Mem} {i : ℕ} (h : i < n) : (ofFn n f).byte i = f i := if_pos h

theorem ext_of_lt {b c : Buf n} (h : ∀ i < n, b.byte i = c.byte i) : b = c := by
  refine Buf.ext (funext fun i ↦ ?_)
  by_cases hi : i < n
  · exact h i hi
  · rw [b.byte_eq_zero i (by omega), c.byte_eq_zero i (by omega)]

def zero (n : ℕ) : Buf n := ofFn n fun _ ↦ 0

@[simp] theorem byte_zero (i : ℕ) : (zero n).byte i = 0 := by
  rw [zero, byte_ofFn]
  exact ite_self 0

/-- The word of `w` bytes at offset `off`. -/
def load (b : Buf n) (w off : ℕ) : ℕ := b.byte.load w off

/-- Overwrite the word of `w` bytes at offset `off`. -/
def store (b : Buf n) (w off v : ℕ) : Buf n := ofFn n (b.byte.store w off v)

@[simp] theorem load_zero (w off : ℕ) : (zero n).load w off = 0 :=
  Mem.load_eq_zero fun i _ _ ↦ byte_zero i

private theorem load_store_eq {b : Buf n} {w off v w' off' : ℕ} (h : off' + w' ≤ n) :
    (b.store w off v).load w' off' = (b.byte.store w off v).load w' off' :=
  Mem.load_congr fun _ _ hi ↦ byte_ofFn_of_lt (by omega)

theorem load_store_self {b : Buf n} {w off v : ℕ} (h : off + w ≤ n) (hv : v < 256 ^ w) :
    (b.store w off v).load w off = v := by
  rw [load_store_eq h, Mem.load_store_self_of_lt hv]

theorem load_store_of_disjoint {b : Buf n} {w off v w' off' : ℕ} (hn : off' + w' ≤ n)
    (h : off' + w' ≤ off ∨ off + w ≤ off') : (b.store w off v).load w' off' = b.load w' off' := by
  rw [load_store_eq hn, Mem.load_store_of_disjoint h, load]

theorem store_store_self (b : Buf n) (w off v v' : ℕ) :
    (b.store w off v).store w off v' = b.store w off v' := by
  refine ext_of_lt fun i hi ↦ ?_
  rw [store, byte_ofFn_of_lt hi, Mem.store_apply, store, byte_ofFn_of_lt hi, store,
    byte_ofFn_of_lt hi, Mem.store_apply, Mem.store_apply]
  split_ifs <;> rfl

theorem byte_store_of_notMem {b : Buf n} {w off v i : ℕ} (h : i < off ∨ off + w ≤ i) :
    (b.store w off v).byte i = b.byte i := by
  by_cases hi : i < n
  · rw [store, byte_ofFn_of_lt hi, Mem.store_of_notMem h]
  · rw [byte_eq_zero _ i (by omega), byte_eq_zero _ i (by omega)]

theorem byte_store_congr {b c : Buf n} {w off v i : ℕ}
    (h : i < off ∨ off + w ≤ i → b.byte i = c.byte i) :
    (b.store w off v).byte i = (c.store w off v).byte i := by
  by_cases hi : i < off ∨ off + w ≤ i
  · rw [byte_store_of_notMem hi, byte_store_of_notMem hi, h hi]
  · have hin : off ≤ i ∧ i < off + w := by omega
    rw [store, store, byte_ofFn, byte_ofFn, Mem.store_apply, Mem.store_apply, if_pos hin,
      if_pos hin]

/-- The buffer with the byte at `i` replaced. -/
def poke (b : Buf n) (i : ℕ) (v : UInt8) : Buf n := ofFn n (Function.update b.byte i v)

theorem byte_poke_self {b : Buf n} {i : ℕ} {v : UInt8} (h : i < n) : (b.poke i v).byte i = v := by
  rw [poke, byte_ofFn_of_lt h, Function.update_self]

theorem byte_poke_of_ne {b : Buf n} {i j : ℕ} {v : UInt8} (h : j ≠ i) :
    (b.poke i v).byte j = b.byte j := by
  by_cases hj : j < n
  · rw [poke, byte_ofFn_of_lt hj, Function.update_of_ne h]
  · rw [byte_eq_zero _ j (by omega), byte_eq_zero _ j (by omega)]

theorem poke_byte_self (b : Buf n) (i : ℕ) : b.poke i (b.byte i) = b := by
  refine ext_of_lt fun j hj ↦ ?_
  rw [poke, byte_ofFn_of_lt hj, Function.update_eq_self]

theorem load_poke_of_notMem {b : Buf n} {i w off : ℕ} {v : UInt8} (h : i < off ∨ off + w ≤ i) :
    (b.poke i v).load w off = b.load w off :=
  Mem.load_congr fun _ _ _ ↦ byte_poke_of_ne (by omega)

theorem load_poke_ne {b : Buf n} {i w off : ℕ} {v : UInt8} (hi : i < n) (hle : off ≤ i)
    (hlt : i < off + w) (hv : v ≠ b.byte i) : (b.poke i v).load w off ≠ b.load w off := by
  intro h
  have hbyte := Mem.load_inj h hle hlt
  rw [byte_poke_self hi] at hbyte
  exact hv hbyte

/-- The buffer with its first `k` bytes taken from `f`. -/
def copyIn (b : Buf n) (f : Mem) (k : ℕ) : Buf n :=
  ofFn n fun i ↦ if i < k then f i else b.byte i

theorem byte_copyIn_of_lt {b : Buf n} {f : Mem} {k i : ℕ} (h : i < k) (hn : i < n) :
    (b.copyIn f k).byte i = f i := by
  rw [copyIn, byte_ofFn_of_lt hn, if_pos h]

theorem byte_copyIn_of_le {b : Buf n} {f : Mem} {k i : ℕ} (h : k ≤ i) (hn : i < n) :
    (b.copyIn f k).byte i = b.byte i := by
  rw [copyIn, byte_ofFn_of_lt hn, if_neg (Nat.not_lt_of_le h)]

/-! ## Records inside a buffer

An array of fixed-size records packed into a block: `slice` copies one record out, `patch` copies
one back in. -/

/-- The `k` bytes at offset `off`. -/
def slice (b : Buf n) (off k : ℕ) : Buf k := ofFn k fun i ↦ b.byte (off + i)

/-- Overwrite the `k` bytes at offset `off` by the record `r`. -/
def patch {k : ℕ} (b : Buf n) (off : ℕ) (r : Buf k) : Buf n :=
  ofFn n fun i ↦ if off ≤ i ∧ i < off + k then r.byte (i - off) else b.byte i

theorem byte_slice_of_lt {b : Buf n} {off k i : ℕ} (h : i < k) :
    (b.slice off k).byte i = b.byte (off + i) := byte_ofFn_of_lt h

theorem byte_patch_of_notMem {k : ℕ} {b : Buf n} {off : ℕ} {r : Buf k} {i : ℕ}
    (h : i < off ∨ off + k ≤ i) : (b.patch off r).byte i = b.byte i := by
  by_cases hi : i < n
  · rw [patch, byte_ofFn_of_lt hi, if_neg (by omega)]
  · rw [byte_eq_zero _ i (by omega), byte_eq_zero _ i (by omega)]

theorem slice_patch_self {k : ℕ} {b : Buf n} {off : ℕ} {r : Buf k} (h : off + k ≤ n) :
    (b.patch off r).slice off k = r := by
  refine ext_of_lt fun i hi ↦ ?_
  rw [byte_slice_of_lt hi, patch, byte_ofFn_of_lt (by omega), if_pos (by omega),
    Nat.add_sub_cancel_left]

theorem slice_patch_of_disjoint {k k' : ℕ} {b : Buf n} {off off' : ℕ} {r : Buf k}
    (h : off' + k' ≤ off ∨ off + k ≤ off') : (b.patch off r).slice off' k' = b.slice off' k' := by
  refine ext_of_lt fun i hi ↦ ?_
  rw [byte_slice_of_lt hi, byte_slice_of_lt hi, byte_patch_of_notMem (by omega)]

end Buf

end Mcsos
