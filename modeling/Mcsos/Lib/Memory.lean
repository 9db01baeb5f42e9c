import Mathlib.Algebra.Group.Nat.Defs
import Mathlib.Data.Nat.Notation
import Mathlib.Logic.Function.Basic
import Mathlib.Tactic.Common

/-!
# The memory functions

`kernel/lib/memory.c`. Pointers and counts are 64-bit numbers, and the memory gives the byte at
every address. A loop `while (count-- != 0u)` is a recursion on the number of rounds that are left,
and each round reads its source byte from the memory as the rounds before have left it.

`moved m dest src n` is what a copy is for: the bytes behind `src` as they were before, now behind
`dest`. A copy from the first byte on overwrites a source byte before it is read only if `dest` lies
inside the source range and above its start; a copy from the last byte down has the opposite
problem. So each of the two loops is right on one side (`copyForward_eq`, `copyBackward_eq`), and
`memmove` takes the one that is.
-/

namespace Mcsos

namespace Lib

/-- The memory behind all addresses. -/
abbrev Memory := UInt64 → UInt8

/-! ## The functions -/

/-- The loop of `memset`. -/
def fillForward (value : UInt8) : ℕ → UInt64 → Memory → Memory
  | 0, _, m => m
  | count + 1, d, m => fillForward value count (d + 1) (Function.update m d value)

/-- `memset`: the pointer returned, and the memory after it. -/
def memset (dest : UInt64) (value : Int32) (count : UInt64) (m : Memory) : UInt64 × Memory :=
  (dest, fillForward value.toUInt32.toUInt8 count.toNat dest m)

/-- The loop of `memcpy`, and the first one of `memmove`. -/
def copyForward : ℕ → UInt64 → UInt64 → Memory → Memory
  | 0, _, _, m => m
  | count + 1, d, s, m => copyForward count (d + 1) (s + 1) (Function.update m d (m s))

def memcpy (dest src count : UInt64) (m : Memory) : UInt64 × Memory :=
  (dest, copyForward count.toNat dest src m)

/-- The second loop of `memmove`; the pointers are decremented before they are used. -/
def copyBackward : ℕ → UInt64 → UInt64 → Memory → Memory
  | 0, _, _, m => m
  | count + 1, d, s, m => copyBackward count (d - 1) (s - 1) (Function.update m (d - 1) (m (s - 1)))

def memmove (dest src count : UInt64) (m : Memory) : UInt64 × Memory :=
  if dest = src ∨ count = 0 then (dest, m)
  else if dest < src then (dest, copyForward count.toNat dest src m)
  else (dest, copyBackward count.toNat (dest + count) (src + count) m)

/-! ## Ranges -/

variable {m : Memory} {dest src p a : UInt64} {n : ℕ}

/-- The address is one of the `n` addresses from `p` on. -/
def InRange (p : UInt64) (n : ℕ) (a : UInt64) : Prop := p.toNat ≤ a.toNat ∧ a.toNat < p.toNat + n

instance : Decidable (InRange p n a) := inferInstanceAs (Decidable (_ ∧ _))

@[simp] theorem not_inRange_zero : ¬InRange p 0 a := fun h ↦ Nat.not_lt.mpr h.1 h.2

/-- The range ends before the address space does. -/
def Fits (p : UInt64) (n : ℕ) : Prop := p.toNat + n ≤ 2 ^ 64

theorem Fits.toNat_add {i : ℕ} (h : Fits p n) (hi : i < n) :
    (p + UInt64.ofNat i).toNat = p.toNat + i := by
  rw [Fits] at h
  rw [UInt64.toNat_add, UInt64.toNat_ofNat_of_lt' (by change i < 2 ^ 64; omega)]
  exact Nat.mod_eq_of_lt (by omega)

/-- The memory after the `n` bytes behind `src` have been copied to `dest`. -/
def moved (m : Memory) (dest src : UInt64) (n : ℕ) : Memory := fun a ↦
  if InRange dest n a then m (src + (a - dest)) else m a

theorem Fits.succ (h : Fits p (n + 1)) :
    Fits (p + 1) n ∧ (n = 0 ∨ (p + 1).toNat = p.toNat + 1) := by
  have hlt := (p + 1).toNat_lt
  have hone : (p + 1).toNat = (p.toNat + 1) % 2 ^ 64 := UInt64.toNat_add p 1
  rw [Fits] at h ⊢
  rcases Nat.eq_zero_or_pos n with rfl | hpos
  · exact ⟨Nat.le_of_lt hlt, .inl rfl⟩
  · rw [Nat.mod_eq_of_lt (by omega)] at hone
    exact ⟨by omega, .inr hone⟩

theorem Fits.inRange_succ (h : Fits p (n + 1)) :
    InRange p (n + 1) a ↔ a = p ∨ a ≠ p ∧ InRange (p + 1) n a := by
  simp only [InRange, ne_eq, ← UInt64.toNat_inj]
  rcases h.succ.2 with rfl | hone <;> omega

theorem Fits.inRange_last (h : Fits p (n + 1)) :
    InRange p (n + 1) a ↔ a = p + UInt64.ofNat n ∨ a ≠ p + UInt64.ofNat n ∧ InRange p n a := by
  simp only [InRange, ne_eq, ← UInt64.toNat_inj, h.toNat_add (Nat.lt_succ_self n)]
  omega

theorem Fits.toNat_source (h : Fits src n) (ha : InRange dest n a) :
    (src + (a - dest)).toNat = src.toNat + (a.toNat - dest.toNat) := by
  obtain ⟨hle, hlt⟩ := ha
  rw [Fits] at h
  rw [UInt64.toNat_add, UInt64.toNat_sub_of_le _ _ (UInt64.le_iff_toNat_le.mpr hle)]
  exact Nat.mod_eq_of_lt (by omega)

/-! ## The loops -/

theorem fillForward_apply (value : UInt8) (h : Fits p n) :
    fillForward value n p m a = if InRange p n a then value else m a := by
  induction n generalizing p m with
  | zero => simp [fillForward]
  | succ n ih =>
    rw [fillForward, ih h.succ.1]
    by_cases ha : a = p
    · simp [h.inRange_succ, ha]
    · simp [h.inRange_succ, ha]

/-- A copy from the first byte on, to an address below the source or behind its end. -/
theorem copyForward_eq (hdest : Fits dest n) (hsrc : Fits src n)
    (hsafe : dest.toNat ≤ src.toNat ∨ src.toNat + n ≤ dest.toNat) :
    copyForward n dest src m = moved m dest src n := by
  induction n generalizing m dest src with
  | zero =>
    funext a
    simp [copyForward, moved]
  | succ n ih =>
    obtain ⟨hdest', hd⟩ := hdest.succ
    obtain ⟨hsrc', hs⟩ := hsrc.succ
    funext a
    rw [copyForward, ih hdest' hsrc' (by omega), moved, moved]
    by_cases ha : a = dest
    · have hnot : ¬InRange (dest + 1) n dest := by
        rintro ⟨hle, hlt⟩
        omega
      simp [hdest.inRange_succ, ha, hnot]
    by_cases hmem : InRange (dest + 1) n a
    · -- the source byte is not the one that this round has overwritten
      have hread : src + 1 + (a - (dest + 1)) = src + (a - dest) := by grind
      have hrange : InRange dest (n + 1) a := hdest.inRange_succ.mpr (.inr ⟨ha, hmem⟩)
      have hne : src + (a - dest) ≠ dest := by
        rw [ne_eq, ← UInt64.toNat_inj, hsrc.toNat_source hrange]
        obtain ⟨hle, hlt⟩ := hrange
        rw [← UInt64.toNat_inj] at ha
        omega
      simp [hdest.inRange_succ, ha, hmem, hread, hne]
    · simp [hdest.inRange_succ, ha, hmem]

/-- A copy from the last byte down, to an address above the source or before its start. -/
theorem copyBackward_eq (hdest : Fits dest n) (hsrc : Fits src n) (hsafe : src.toNat ≤ dest.toNat) :
    copyBackward n (dest + UInt64.ofNat n) (src + UInt64.ofNat n) m = moved m dest src n := by
  induction n generalizing m with
  | zero =>
    funext a
    simp [copyBackward, moved]
  | succ n ih =>
    have hback : ∀ p : UInt64, p + UInt64.ofNat (n + 1) - 1 = p + UInt64.ofNat n := by
      intro p
      rw [UInt64.ofNat_add, ← UInt64.add_assoc]
      exact UInt64.add_sub_cancel ..
    have hlast := hdest.toNat_add (Nat.lt_succ_self n)
    funext a
    rw [copyBackward, hback, hback, ih (Nat.le_of_succ_le hdest) (Nat.le_of_succ_le hsrc), moved,
      moved]
    by_cases ha : a = dest + UInt64.ofNat n
    · have hnot : ¬InRange dest n (dest + UInt64.ofNat n) := by
        rintro ⟨-, hlt⟩
        omega
      have hread : dest + UInt64.ofNat n - dest = UInt64.ofNat n := by grind
      simp [hdest.inRange_last, ha, hnot, hread]
    by_cases hmem : InRange dest n a
    · have hne : src + (a - dest) ≠ dest + UInt64.ofNat n := by
        rw [ne_eq, ← UInt64.toNat_inj, hlast,
          Fits.toNat_source (Nat.le_of_succ_le hsrc) hmem]
        obtain ⟨hle, hlt⟩ := hmem
        omega
      simp [hdest.inRange_last, ha, hmem, hne]
    · simp [hdest.inRange_last, ha, hmem]

/-! ## What the functions do -/

theorem memset_eq (value : Int32) (count : UInt64) (h : Fits dest count.toNat) :
    memset dest value count m =
      (dest, fun a ↦ if InRange dest count.toNat a then value.toUInt32.toUInt8 else m a) :=
  Prod.ext rfl (funext fun _ ↦ fillForward_apply _ h)

/-- `memmove` copies, whatever the position of the two ranges. -/
theorem memmove_eq (count : UInt64) (hdest : Fits dest count.toNat) (hsrc : Fits src count.toNat) :
    memmove dest src count m = (dest, moved m dest src count.toNat) := by
  rw [memmove]
  split_ifs with hnone hlt
  · have hsame : moved m dest src count.toNat = m := by
      funext a
      rcases hnone with rfl | rfl
      · have hread : dest + (a - dest) = a := by grind
        simp [moved, hread]
      · simp [moved]
    rw [hsame]
  · rw [copyForward_eq hdest hsrc (.inl (UInt64.le_of_lt hlt))]
  · have hback := copyBackward_eq (m := m) hdest hsrc (UInt64.not_lt.mp hlt)
    rw [UInt64.ofNat_toNat] at hback
    rw [hback]

/-- **`memmove` is right for every overlap**: for ranges that do not wrap around, the bytes behind
`dest` are those that were behind `src`, and no other byte has changed. `memcpy` does the same if
`dest` is not above `src` or the ranges do not overlap. -/
theorem memmove_correct (m : Memory) (dest src count : UInt64)
    (hdest : dest.toNat + count.toNat ≤ 2 ^ 64) (hsrc : src.toNat + count.toNat ≤ 2 ^ 64) :
    (∀ i < count.toNat, (memmove dest src count m).2 (dest + UInt64.ofNat i) =
      m (src + UInt64.ofNat i)) ∧
    (∀ a, ¬InRange dest count.toNat a → (memmove dest src count m).2 a = m a) ∧
    ((dest ≤ src ∨ ∀ a, ¬(InRange dest count.toNat a ∧ InRange src count.toNat a)) →
      (memcpy dest src count m).2 = (memmove dest src count m).2) := by
  rw [memmove_eq count hdest hsrc]
  refine ⟨fun i hi ↦ ?_, fun a ha ↦ if_neg ha, fun hapart ↦ copyForward_eq hdest hsrc ?_⟩
  · have hmem : InRange dest count.toNat (dest + UInt64.ofNat i) := by
      rw [InRange, Fits.toNat_add hdest hi]
      omega
    have hread : dest + UInt64.ofNat i - dest = UInt64.ofNat i := by grind
    exact (if_pos hmem).trans (by rw [hread])
  · -- the ranges overlap if `dest` is inside the source range
    rw [or_iff_not_imp_left, Nat.not_le]
    intro hlt
    by_contra hover
    refine (hapart.resolve_left fun hle ↦ ?_) dest
      ⟨⟨Nat.le_refl _, by omega⟩, Nat.le_of_lt hlt, by omega⟩
    exact Nat.not_le.mpr hlt (UInt64.le_iff_toNat_le.mp hle)

/-- Four bytes are moved up by two. `memcpy` would have overwritten the last two of them. -/
theorem memmove_correct_overlap : (memmove 2 0 4 UInt64.toUInt8).2 5 = 3 ∧
    (memcpy 2 0 4 UInt64.toUInt8).2 5 = 1 :=
  ⟨(memmove_correct UInt64.toUInt8 2 0 4 (by decide) (by decide)).1 3 (by decide),
    by decide +kernel⟩

end Lib

end Mcsos
