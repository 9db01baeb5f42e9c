import Mcsos.Mcsfs1.Consistency

/-!
# Names of directory entries

`valid_name` measures a name and `find_dirent` compares it with the name fields of the entries in
use. Both stop at a NUL, and a field of 27 bytes has room for one as long as the name has at most 26
bytes. Up to that length `find_dirent` finds exactly the entry with the name (`Named.matches_iff`).
-/

namespace Mcsos

namespace Mcsfs1

open FaultyDisk

variable {v : Volume} {d : ℕ → Block} {n m : CStr} {i : ℕ}

/-! ## `valid_name` -/

/-- The error that `valid_name` reports. -/
def nameError (n : CStr) : Option Err :=
  if n.bytes = [] then some .inval
  else if maxName < n.length then some .nametoolong
  else if '/'.toUInt8 ∈ n.bytes then some .inval
  else none

theorem exists_char_eq_iff {c : UInt8} : (∃ j < n.length, n.char j = c) ↔ c ∈ n.bytes := by
  rw [List.mem_iff_getElem]
  constructor
  · rintro ⟨j, hj, hc⟩
    rw [CStr.char, List.getD_eq_getElem _ _ hj] at hc
    exact ⟨j, hj, hc⟩
  · rintro ⟨j, hj, hc⟩
    refine ⟨j, hj, ?_⟩
    rw [CStr.char, List.getD_eq_getElem _ _ hj, hc]

theorem validName_eq (n : CStr) :
    validName (some n.char) = (nameError n).elim (.ok n.length) .error := by
  have hstrlen : strlenBound (some n.char) (maxName + 1) = min n.length (maxName + 1) :=
    n.strlen_char (maxName + 1)
  have hnil : n.bytes = [] ↔ n.length = 0 := List.length_eq_zero_iff.symm
  rw [validName, nameError, hstrlen]
  by_cases hempty : n.bytes = []
  · rw [if_pos hempty, if_pos (by rw [hnil.mp hempty]; exact Nat.zero_min _)]
    rfl
  have hpos := mt hnil.mpr hempty
  rw [if_neg hempty, if_neg (by rw [maxName]; omega)]
  by_cases hlong : maxName < n.length
  · rw [if_pos hlong, if_pos (by omega)]
    rfl
  rw [if_neg hlong, if_neg (by omega), min_eq_left (by omega)]
  have hchar : (∃ j < n.length, bytesAt (some n.char) j = '/'.toUInt8) ↔ '/'.toUInt8 ∈ n.bytes :=
    exists_char_eq_iff
  by_cases hslash : '/'.toUInt8 ∈ n.bytes
  · rw [if_pos hslash, if_pos (hchar.mpr hslash)]
    rfl
  · rw [if_neg hslash, if_neg (mt hchar.mp hslash)]
    rfl

theorem nameError_eq_none {k : ℕ} (h : validName (some n.char) = .ok k) :
    nameError n = none ∧ k = n.length ∧ n.length ≤ maxName := by
  rw [validName_eq] at h
  cases herror : nameError n with
  | some e =>
    rw [herror] at h
    cases h
  | none =>
    rw [herror] at h
    refine ⟨rfl, (Except.ok.inj h).symm, ?_⟩
    rw [nameError] at herror
    split_ifs at herror with _ hlong
    exact Nat.le_of_not_lt hlong

theorem nameError_eq_some {e : Err} (h : validName (some n.char) = .error e) :
    nameError n = some e := by
  rw [validName_eq] at h
  cases herror : nameError n with
  | some e' =>
    rw [herror] at h
    rw [← Except.error.inj h]
  | none =>
    rw [herror] at h
    cases h

theorem Found.nameError (h : Found d (some n.char) i) : nameError n = none := by
  obtain ⟨_, _, hvalid, -⟩ := h
  exact (nameError_eq_none hvalid).1

theorem NotFound.nameError (h : NotFound d (some n.char)) : nameError n = none := by
  obtain ⟨_, _, hvalid, -⟩ := h
  exact (nameError_eq_none hvalid).1

/-! ## `find_dirent` -/

/-- Entry `i` is in use and has the name `n`. -/
structure Named (v : Volume) (i : ℕ) (n : CStr) : Prop where
  live : v.Live i
  char : ∀ j < maxName, (v.entry i).byte (Dirent.nameOffset + j) = n.char j

theorem Named.nameAt (hn : Named (volumeOf d) i n) (past : UInt8) {j : ℕ} (hj : j < maxName) :
    nameAt (d rootDirLba) past i j = n.char j := by
  have hi := hn.live.1
  have hchar := hn.char j hj
  rw [direntCount] at hi
  rw [maxName] at hj
  change (direntAt (d rootDirLba) i).byte _ = _ at hchar
  rw [direntAt, Buf.byte_slice_of_lt (by rw [Dirent.nameOffset]; omega), ← Nat.add_assoc] at hchar
  rw [Mcsfs1.nameAt, if_pos (by rw [Dirent.nameOffset]; omega), hchar]

/-- Where the name of an entry ends with a NUL, `find_dirent` compares names. -/
theorem matches_iff_of_char {past : UInt8} (hlen : n.length ≤ maxName)
    (hchar : ∀ j ≤ n.length, nameAt (d rootDirLba) past i j = n.char j) :
    ((nameAt (d rootDirLba) past i).strlen (maxName + 1) 0 = m.length ∧
      ∀ j < m.length, nameAt (d rootDirLba) past i j = m.char j) ↔ n = m := by
  have hstrlen : (nameAt (d rootDirLba) past i).strlen (maxName + 1) 0 = n.length := by
    refine Mem.strlen_eq (by omega) (fun j hj ↦ ?_) fun _ ↦ ?_
    · rw [Nat.zero_add, hchar j (Nat.le_of_lt hj), ne_eq, CStr.char_eq_zero_iff]
      omega
    · rw [Nat.zero_add, hchar _ (le_refl _), CStr.char_eq_zero_iff]
  rw [hstrlen]
  constructor
  · rintro ⟨hlength, hsame⟩
    refine CStr.eq_of_char_eq fun j hj ↦ ?_
    rcases Nat.lt_or_eq_of_le hj with hlt | rfl
    · rw [← hchar j hj, hsame j (by omega)]
    · rw [CStr.char_eq_zero_iff.mpr (le_refl _), CStr.char_eq_zero_iff.mpr (by omega)]
  · rintro rfl
    exact ⟨rfl, fun j hj ↦ hchar j (Nat.le_of_lt hj)⟩

/-- A name of at most 26 bytes leaves room for its NUL in the entry. -/
theorem Named.matches_iff (hn : Named (volumeOf d) i n) (hlen : n.length ≤ 26) (past : UInt8) :
    ((Mcsfs1.nameAt (d rootDirLba) past i).strlen (maxName + 1) 0 = m.length ∧
      ∀ j < m.length, Mcsfs1.nameAt (d rootDirLba) past i j = m.char j) ↔ n = m :=
  matches_iff_of_char (by rw [maxName]; omega) fun j hj ↦
    hn.nameAt past (by rw [maxName]; omega)

theorem named_congr {v' : Volume} {j : ℕ} (hentry : v'.entry j = v.entry j) :
    Named v' j n ↔ Named v j n := by
  have hlive : v'.Live j ↔ v.Live j := by rw [Volume.Live, Volume.Live, hentry]
  constructor
  · rintro ⟨h, hchar⟩
    exact ⟨hlive.mp h, by rwa [hentry] at hchar⟩
  · rintro ⟨h, hchar⟩
    exact ⟨hlive.mpr h, by rwa [hentry]⟩

end Mcsfs1

end Mcsos
