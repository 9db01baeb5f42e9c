import Mathlib.Data.List.TakeWhile
import Mcsos.Base.Numeral
import Mcsos.Base.Bytes

/-!
# Text on the serial line

`serial.c`, `log.c` and the decimal output of `panic.c`, as the bytes that they send. A newline is
sent as a carriage return and a newline, which a terminal can undo (`undo`), so nothing of a text is
lost. Numbers are sent as numerals: `serial_write_dec64` and `log_dec_u32` fill a buffer of 21 and
11 characters from its end, and neither of the buffers is ever full; the hexadecimal numerals have
all their sixteen digits.
-/

namespace Mcsos

namespace Console

def text (s : String) : List UInt8 := s.toList.map fun c ↦ UInt8.ofNat c.toNat

/-- `serial_write_string`: the string ends at a zero. -/
def serialWriteString : List UInt8 → List UInt8
  | [] => []
  | c :: s =>
    if c = 0 then []
    else if c = 10 then 13 :: c :: serialWriteString s
    else c :: serialWriteString s

def digits : List UInt8 := text "0123456789abcdef"

/-- The digits of a hexadecimal numeral. -/
def hexDigits (value : UInt64) : List UInt8 :=
  (fixedDigits 16 16 value.toNat).map fun d ↦ digits.getD d 0

def serialWriteHex64 (value : UInt64) : List UInt8 :=
  serialWriteString (text "0x") ++ hexDigits value

/-- A decimal numeral from a buffer with room for `room` digits. -/
def decText (room value : ℕ) : List UInt8 :=
  if value = 0 then [48] else (digitLoop 10 room value []).map fun d ↦ UInt8.ofNat (48 + d)

def serialWriteDec64 (value : UInt64) : List UInt8 := decText 21 value.toNat

def logDecU32 (value : UInt32) : List UInt8 := decText 11 value.toNat

def logHex64 (value : UInt64) : List UInt8 := serialWriteString (text "0x") ++ hexDigits value

/-- `log_key_value_hex64`; `log_putc` sends the newline as it is. -/
def logKeyValueHex64 (key : String) (value : UInt64) : List UInt8 :=
  serialWriteString (text key) ++ serialWriteString (text "=") ++ logHex64 value ++ [10]

/-- `k_write_serial`: each byte of the buffer is sent as a string of one character. -/
def kWriteSerial (buf : Mem) (len : ℕ) : List UInt8 :=
  (List.range len).flatMap fun i ↦ serialWriteString [buf i]

/-! ## What a reader gets -/

/-- A terminal takes the carriage return before a newline away. -/
def undo : List UInt8 → List UInt8
  | [] => []
  | [c] => [c]
  | c :: d :: s => if c = 13 ∧ d = 10 then 10 :: undo s else c :: undo (d :: s)

/-- The value of a digit. -/
def digitValue (c : UInt8) : ℕ := if c.toNat < 58 then c.toNat - 48 else c.toNat - 87

/-- The characters of a numeral without unneeded zeros. -/
def Canonical (s : List UInt8) : Prop :=
  (∀ c ∈ s, 48 ≤ c ∧ c ≤ 57) ∧ s ≠ [] ∧ (s.head? = some 48 → s = [48])

variable {s : List UInt8} {c : UInt8}

/-- No newline is sent without its carriage return. -/
theorem head_serialWriteString (s : List UInt8) : (serialWriteString s).head? ≠ some 10 := by
  cases s with
  | nil => simp [serialWriteString]
  | cons c s =>
    rw [serialWriteString]
    split_ifs with h0 h10
    · simp
    · simp
    · simpa using h10

theorem undo_cons (h : ¬(c = 13 ∧ s.head? = some 10)) : undo (c :: s) = c :: undo s := by
  cases s with
  | nil => rfl
  | cons d s =>
    rw [undo, if_neg (by simpa using h)]

theorem undo_serialWriteString (s : List UInt8) :
    undo (serialWriteString s) = s.takeWhile (· ≠ 0) := by
  induction s with
  | nil => rfl
  | cons c s ih =>
    rw [serialWriteString]
    split_ifs with h0 h10
    · rw [List.takeWhile_cons_of_neg (by simpa using h0)]
      rfl
    · rw [List.takeWhile_cons_of_pos (by simpa using h0), ← ih, h10]
      exact if_pos ⟨rfl, rfl⟩
    · rw [List.takeWhile_cons_of_pos (by simpa using h0), ← ih]
      exact undo_cons fun h ↦ head_serialWriteString s h.2

/-- The bytes of a buffer are sent as a string without its zeros. -/
theorem kWriteSerial_eq (buf : Mem) (len : ℕ) : kWriteSerial buf len =
    serialWriteString (((List.range len).map buf).filter (· ≠ 0)) := by
  have hbytes (l : List UInt8) : l.flatMap (fun c ↦ serialWriteString [c]) =
      serialWriteString (l.filter (· ≠ 0)) := by
    induction l with
    | nil => rfl
    | cons c l ih =>
      rw [List.flatMap_cons, ih]
      by_cases h0 : c = 0
      · rw [h0]
        rfl
      · rw [List.filter_cons_of_pos (by simpa using h0)]
        rw [serialWriteString.eq_2 c, serialWriteString.eq_2 c, if_neg h0, if_neg h0]
        split_ifs <;> rfl
  rw [← hbytes, List.flatMap_map]
  rfl

/-- What is printed from a buffer can be read back, except for its zeros, which are not sent. -/
theorem undo_kWriteSerial (buf : Mem) (len : ℕ) :
    undo (kWriteSerial buf len) = ((List.range len).map buf).filter (· ≠ 0) := by
  rw [kWriteSerial_eq, undo_serialWriteString, List.takeWhile_eq_self_iff]
  intro c hc
  exact (List.mem_filter.mp hc).2

/-! ## Numbers -/

theorem digitValue_ofNat {d : ℕ} (h : d < 10) : digitValue (UInt8.ofNat (48 + d)) = d := by
  interval_cases d <;> decide

theorem digitValue_digits {d : ℕ} (h : d < 16) : digitValue (digits.getD d 0) = d := by
  interval_cases d <;> decide

theorem getD_digits_mem {d : ℕ} (h : d < 16) : digits.getD d 0 ∈ digits := by
  interval_cases d <;> decide

theorem decText_eq {room value : ℕ} (h0 : value ≠ 0) (h : value < 10 ^ room) : decText room value =
    (Nat.digits 10 value).reverse.map fun d ↦ UInt8.ofNat (48 + d) := by
  rw [decText, if_neg h0, digitLoop_eq (by decide) h, List.append_nil]

/-- A decimal numeral that fits its buffer stands for its value. -/
theorem numeral_decText {room value : ℕ} (h : value < 10 ^ room) :
    numeral 10 ((decText room value).map digitValue) = value := by
  by_cases h0 : value = 0
  · rw [decText, if_pos h0, h0]
    decide
  · have hmap : ((decText room value).map digitValue) = (Nat.digits 10 value).reverse := by
      rw [decText_eq h0 h, List.map_map]
      refine (List.map_congr_left fun d hd ↦ ?_).trans (List.map_id _)
      exact digitValue_ofNat (Nat.digits_lt_base (by decide) (List.mem_reverse.mp hd))
    rw [hmap, numeral_reverse_digits]

theorem canonical_decText {room value : ℕ} (h : value < 10 ^ room) :
    Canonical (decText room value) := by
  by_cases h0 : value = 0
  · rw [decText, if_pos h0]
    refine ⟨fun c hc ↦ ?_, List.cons_ne_nil _ _, fun _ ↦ rfl⟩
    rw [List.mem_singleton.mp hc]
    decide
  · have hnil : Nat.digits 10 value ≠ [] := Nat.digits_ne_nil_iff_ne_zero.mpr h0
    rw [decText_eq h0 h]
    refine ⟨fun c hc ↦ ?_, by simpa using hnil, fun hhead ↦ ?_⟩
    · obtain ⟨d, hd, rfl⟩ := List.mem_map.mp hc
      have hlt : d < 10 := Nat.digits_lt_base (by decide) (List.mem_reverse.mp hd)
      interval_cases d <;> decide
    · -- the first digit is the last one of `Nat.digits`, which is not zero
      have hlast := Nat.getLast_digit_ne_zero 10 h0
      have hlt : (Nat.digits 10 value).getLast hnil < 10 :=
        Nat.digits_lt_base (by decide) (List.getLast_mem hnil)
      rw [List.head?_map, List.head?_reverse, List.getLast?_eq_some_getLast hnil, Option.map_some]
        at hhead
      have hvalue := congrArg digitValue (Option.some.inj hhead)
      rw [digitValue_ofNat hlt] at hvalue
      exact absurd hvalue hlast

theorem numeral_hexDigits (value : UInt64) :
    numeral 16 ((hexDigits value).map digitValue) = value.toNat := by
  have hmap : (hexDigits value).map digitValue = fixedDigits 16 16 value.toNat := by
    rw [hexDigits, List.map_map]
    refine (List.map_congr_left fun d hd ↦ ?_).trans (List.map_id _)
    exact digitValue_digits (lt_of_mem_fixedDigits (by decide) hd)
  rw [hmap, numeral_fixedDigits]
  exact Nat.mod_eq_of_lt value.toNat_lt

/-- **Printed numbers can be read back.** The buffers of the decimal output are large enough for
every number: it prints the canonical numeral. The hexadecimal output has sixteen hexadecimal
digits. -/
theorem printed_numbers (value : UInt64) (value' : UInt32) :
    (Canonical (serialWriteDec64 value) ∧
      numeral 10 ((serialWriteDec64 value).map digitValue) = value.toNat) ∧
    (Canonical (logDecU32 value') ∧
      numeral 10 ((logDecU32 value').map digitValue) = value'.toNat) ∧
    ∃ ds, serialWriteHex64 value = text "0x" ++ ds ∧ ds.length = 16 ∧ (∀ c ∈ ds, c ∈ digits) ∧
      numeral 16 (ds.map digitValue) = value.toNat := by
  have hvalue : value.toNat < 10 ^ 21 := value.toNat_lt.trans (by norm_num)
  have hvalue' : value'.toNat < 10 ^ 11 := value'.toNat_lt.trans (by norm_num)
  refine ⟨⟨canonical_decText hvalue, numeral_decText hvalue⟩,
    ⟨canonical_decText hvalue', numeral_decText hvalue'⟩, hexDigits value, ?_, ?_, ?_,
    numeral_hexDigits value⟩
  · rw [serialWriteHex64]
    congr 1
  · simp [hexDigits, fixedDigits]
  · intro c hc
    obtain ⟨d, hd, rfl⟩ := List.mem_map.mp hc
    exact getD_digits_mem (lt_of_mem_fixedDigits (by decide) hd)

end Console

end Mcsos
