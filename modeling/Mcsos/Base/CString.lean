import Mcsos.Base.Bytes

/-!
# C strings

A C string is a list of bytes without a NUL. Its character at an index past its end is the
terminator, `0`; nothing past the terminator is ever read, so it is not represented.
-/

namespace Mcsos

/-- A NUL-terminated string, without its terminator. -/
@[ext] structure CStr where
  bytes : List UInt8
  zero_notMem : (0 : UInt8) ∉ bytes
  deriving DecidableEq

namespace CStr

/-- The character at index `i`; the terminator for every index past the end. -/
def char (s : CStr) : Mem := fun i ↦ s.bytes.getD i 0

def length (s : CStr) : ℕ := s.bytes.length

theorem char_eq_zero_iff {s : CStr} {i : ℕ} : s.char i = 0 ↔ s.length ≤ i := by
  rw [char, length]
  constructor
  · intro h
    by_contra hlt
    rw [List.getD_eq_getElem _ _ (by omega)] at h
    exact s.zero_notMem (h ▸ List.getElem_mem _)
  · intro h
    exact List.getD_eq_default _ _ h

theorem eq_of_char_eq {s t : CStr} (h : ∀ i ≤ s.length, s.char i = t.char i) : s = t := by
  have hlen : t.length = s.length := by
    have hend : t.length ≤ s.length := by
      rw [← char_eq_zero_iff, ← h _ (le_refl _), char_eq_zero_iff]
    refine le_antisymm hend ?_
    rw [← char_eq_zero_iff, h _ hend, char_eq_zero_iff]
  refine CStr.ext (List.ext_getElem hlen.symm fun i hi hi' ↦ ?_)
  have hchar := h i (le_of_lt hi)
  rwa [char, char, List.getD_eq_getElem _ _ hi, List.getD_eq_getElem _ _ hi'] at hchar

end CStr

/-! ## Bounded string length -/

/-- The number of bytes before the first NUL at or after `a`, counting at most `max` of them. -/
def Mem.strlen (m : Mem) : ℕ → ℕ → ℕ
  | 0, _ => 0
  | max + 1, a => if m a = 0 then 0 else m.strlen max (a + 1) + 1

namespace Mem

/-- The bounded length is the position of the first NUL, when there is one below the bound. -/
theorem strlen_eq {m : Mem} {max a n : ℕ} (hn : n ≤ max) (hbefore : ∀ i < n, m (a + i) ≠ 0)
    (hend : n < max → m (a + n) = 0) : m.strlen max a = n := by
  induction max generalizing a n with
  | zero => rw [strlen]; omega
  | succ max ih =>
    rw [strlen]
    cases n with
    | zero =>
      have h0 : m a = 0 := hend (by omega)
      rw [if_pos h0]
    | succ n =>
      have h0 : m a ≠ 0 := hbefore 0 (by omega)
      rw [if_neg h0, ih (n := n) (by omega) (fun i hi ↦ ?_) (fun hlt ↦ ?_)]
      · rw [Nat.add_assoc, Nat.add_comm 1 i]
        exact hbefore (i + 1) (by omega)
      · rw [Nat.add_assoc, Nat.add_comm 1 n]
        exact hend (by omega)

theorem ne_zero_of_lt_strlen {m : Mem} {max a i : ℕ} (h : i < m.strlen max a) : m (a + i) ≠ 0 := by
  induction max generalizing a i with
  | zero => exact absurd h (Nat.not_lt_zero i)
  | succ max ih =>
    rw [strlen] at h
    split_ifs at h with h0
    · exact absurd h (Nat.not_lt_zero i)
    · cases i with
      | zero => exact h0
      | succ i =>
        rw [Nat.add_comm i 1, ← Nat.add_assoc]
        exact ih (Nat.lt_of_succ_lt_succ h)

theorem eq_zero_of_strlen_lt {m : Mem} {max a : ℕ} (h : m.strlen max a < max) :
    m (a + m.strlen max a) = 0 := by
  induction max generalizing a with
  | zero => exact absurd h (Nat.not_lt_zero _)
  | succ max ih =>
    rw [strlen] at h ⊢
    split_ifs at h ⊢ with h0
    · exact h0
    · rw [Nat.add_comm _ 1, ← Nat.add_assoc]
      exact ih (Nat.lt_of_succ_lt_succ h)

/-- The string in a field of `max` bytes. -/
def str (m : Mem) (max : ℕ) : List UInt8 := (List.range (m.strlen max 0)).map m

theorem length_str (m : Mem) (max : ℕ) : (m.str max).length = m.strlen max 0 := by
  rw [str, List.length_map, List.length_range]

theorem str_eq_iff {m : Mem} {max : ℕ} {c : CStr} (hc : c.length < max) :
    m.str max = c.bytes ↔ ∀ i ≤ c.length, m i = c.char i := by
  constructor
  · intro h i hi
    have hlen : m.strlen max 0 = c.length := by rw [← length_str, h, CStr.length]
    rcases Nat.lt_or_eq_of_le hi with hlt | rfl
    · rw [CStr.char, ← h, List.getD_eq_getElem _ _ (by rwa [length_str, hlen])]
      simp [str]
    · have hzero := eq_zero_of_strlen_lt (hlen.trans_lt hc)
      rw [hlen, Nat.zero_add] at hzero
      rw [hzero, CStr.char_eq_zero_iff.mpr le_rfl]
  · intro h
    have hlen : m.strlen max 0 = c.length := by
      refine strlen_eq hc.le (fun i hi ↦ ?_) fun _ ↦ ?_
      · rw [Nat.zero_add, h i hi.le, Ne, CStr.char_eq_zero_iff]
        omega
      · rw [Nat.zero_add, h _ le_rfl, CStr.char_eq_zero_iff]
    refine List.ext_getElem (by rw [length_str, hlen, CStr.length]) fun i hi hi' ↦ ?_
    have hchar := h i (Nat.le_of_lt hi')
    rw [CStr.char, List.getD_eq_getElem _ _ hi'] at hchar
    simp [str, hchar]

end Mem

theorem CStr.strlen_char (s : CStr) (max : ℕ) : Mem.strlen s.char max 0 = min s.length max := by
  refine Mem.strlen_eq (min_le_right _ _) (fun i hi ↦ ?_) (fun h ↦ ?_)
  · rw [Nat.zero_add, ne_eq, CStr.char_eq_zero_iff]
    omega
  · rw [Nat.zero_add, CStr.char_eq_zero_iff]
    omega

end Mcsos
