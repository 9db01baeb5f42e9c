import Mcsos.Mcsfs1.Names

/-!
# Names that fill their entry

`valid_name` accepts names of up to 27 bytes, and the name field of a directory entry has 27 bytes.
A name of 27 bytes has no NUL there: `find_dirent` reads on, into the inode number of the next
entry, or past the block when the entry is the last one. It finds the name as long as that byte is
zero, which for an entry that is not the last one means that the next entry is free. A directory is
`Legible` when this is so for all its names. A creation that ends this `Blinds` the directory; in a
run without such a call every file that was created and not unlinked is reachable
(`created_reachable_iff`).
-/

namespace Mcsos

namespace Mcsfs1

open FaultyDisk

variable {v v' : Volume} {d d' : ℕ → Block} {name : Option Mem} {n m : CStr} {i k : ℕ}
  {past : UInt8}

/-! ## The string that an argument points to -/

/-- The argument points to the string `n`, and `valid_name` accepts it. -/
structure Denotes (name : Option Mem) (n : CStr) : Prop where
  valid : validName name = .ok n.length
  char : ∀ j < n.length, bytesAt name j = n.char j

theorem of_validName (h : validName name = .ok k) :
    0 < k ∧ k ≤ maxName ∧ strlenBound name (maxName + 1) = k := by
  rw [validName] at h
  split_ifs at h with h0 hlong
  rw [Except.ok.injEq] at h
  exact ⟨by omega, by omega, h⟩

theorem Denotes.length_le (h : Denotes name n) : n.length ≤ maxName := (of_validName h.valid).2.1

theorem Denotes.eq (hn : Denotes name n) (hm : Denotes name m) : n = m := by
  have hlength : n.length = m.length := Except.ok.inj (hn.valid.symm.trans hm.valid)
  refine CStr.eq_of_char_eq fun j hj ↦ ?_
  rcases Nat.lt_or_eq_of_le hj with hlt | rfl
  · rw [← hn.char j hlt, hm.char j (by omega)]
  · rw [CStr.char_eq_zero_iff.mpr (le_refl _), CStr.char_eq_zero_iff.mpr (by omega)]

theorem exists_denotes (h : validName name = .ok k) : ∃ n, Denotes name n := by
  obtain ⟨hpos, hle, hstrlen⟩ := of_validName h
  cases name with
  | none =>
    rw [strlenBound] at hstrlen
    omega
  | some p =>
    have hzero : (0 : UInt8) ∉ (List.range k).map p := by
      intro hmem
      obtain ⟨j, hj, hp⟩ := List.mem_map.mp hmem
      rw [List.mem_range, ← hstrlen] at hj
      exact Mem.ne_zero_of_lt_strlen hj (by rwa [Nat.zero_add])
    refine ⟨⟨(List.range k).map p, hzero⟩, ?_, fun j hj ↦ ?_⟩
    · rw [h, CStr.length, List.length_map, List.length_range]
    · rw [CStr.length, List.length_map, List.length_range] at hj
      rw [CStr.char, List.getD_eq_getElem _ _ (by simpa using hj), List.getElem_map,
        List.getElem_range]
      rfl

/-! ## The byte after a name -/

/-- Entry `i` is in use and its name field holds `n`. -/
structure Spelled (v : Volume) (i : ℕ) (n : CStr) : Prop extends Named v i n where
  length_le : n.length ≤ maxName

theorem Spelled.eq (hn : Spelled v i n) (hm : Spelled v i m) : n = m := by
  have hmlen := hm.length_le
  refine CStr.eq_of_char_eq fun j hj ↦ ?_
  have hj' := hj.trans hn.length_le
  rcases Nat.lt_or_eq_of_le hj' with hlt | rfl
  · rw [← hn.char j hlt, hm.char j hlt]
  · rw [CStr.char_eq_zero_iff.mpr (by have := hn.length_le; omega),
      CStr.char_eq_zero_iff.mpr hmlen]

/-- The name of entry `i` fills its field. -/
def Volume.Full (v : Volume) (i : ℕ) : Prop := (v.entry i).byte (Dirent.nameOffset + 26) ≠ 0

theorem Spelled.full_iff (h : Spelled v i n) : v.Full i ↔ n.length = maxName := by
  have hle := h.length_le
  rw [Volume.Full, h.char 26 (by decide), ne_eq, CStr.char_eq_zero_iff]
  rw [maxName] at hle ⊢
  omega

/-- Every name that fills its field is followed by a free entry. -/
def Legible (v : Volume) : Prop :=
  ∀ i, v.Live i → v.Full i → i + 1 < direntCount ∧ ¬v.Live (i + 1)

theorem byte_zero_iff {e : Dirent} (h : e.ino < 256) : e.byte 0 = 0 ↔ e.ino = 0 := by
  have hload : e.ino = (e.byte 0).toNat + 256 * e.byte.load 3 1 := rfl
  rw [← UInt8.toNat_inj, UInt8.toNat_zero]
  omega

theorem Consistent.ino_lt {bc : ℕ} (h : Consistent bc v) {i : ℕ} (hi : i < direntCount) :
    (v.entry i).ino < 256 := by
  by_cases hlive : v.Live i
  · have hle := (h.entry i hlive).ino_le
    rw [maxInodes] at hle
    omega
  · have hzero : (v.entry i).ino = 0 := by
      by_contra hne
      exact hlive ⟨hi, hne⟩
    omega

/-- The byte after the name field of an entry is the first one of the next entry. -/
theorem nameAt_end (hi : i + 1 < direntCount) :
    nameAt (d rootDirLba) past i maxName = ((volumeOf d).entry (i + 1)).byte 0 := by
  change _ = (direntAt (d rootDirLba) (i + 1)).byte 0
  rw [direntCount] at hi
  rw [nameAt, Dirent.nameOffset, maxName, if_pos (by omega), direntAt,
    Buf.byte_slice_of_lt (by decide)]
  congr 1

/-- After the last entry of the block comes the byte `past`. -/
theorem nameAt_end_last (hi : i + 1 = direntCount) :
    nameAt (d rootDirLba) past i maxName = past := by
  rw [direntCount] at hi
  rw [nameAt, Dirent.nameOffset, maxName, if_neg (by omega)]

section Match

variable {bc : ℕ} (hd : Consistent bc (volumeOf d)) (hspelled : Spelled (volumeOf d) i n)
include hd hspelled

/-- In a legible directory `find_dirent` compares names. -/
theorem Spelled.matches_iff (hlegible : Legible (volumeOf d)) :
    ((Mcsfs1.nameAt (d rootDirLba) past i).strlen (maxName + 1) 0 = m.length ∧
      ∀ j < m.length, Mcsfs1.nameAt (d rootDirLba) past i j = m.char j) ↔ n = m := by
  refine matches_iff_of_char hspelled.length_le fun j hj ↦ ?_
  rcases Nat.lt_or_eq_of_le (hj.trans hspelled.length_le) with hlt | rfl
  · exact hspelled.nameAt past hlt
  · have hfull : n.length = maxName := le_antisymm hspelled.length_le hj
    obtain ⟨hnext, hfree⟩ := hlegible i hspelled.live (hspelled.full_iff.mpr hfull)
    have hzero : ((volumeOf d).entry (i + 1)).ino = 0 := by
      by_contra hne
      exact hfree ⟨hnext, hne⟩
    rw [nameAt_end hnext, (byte_zero_iff (hd.ino_lt hnext)).mpr hzero,
      CStr.char_eq_zero_iff.mpr (by omega)]

/-- A name that fills its field and is not followed by a zero matches nothing. -/
theorem Spelled.strlen_of_crowded (hfull : (volumeOf d).Full i) (hpast : past ≠ 0)
    (hcrowded : ¬(i + 1 < direntCount ∧ ¬(volumeOf d).Live (i + 1))) :
    (Mcsfs1.nameAt (d rootDirLba) past i).strlen (maxName + 1) 0 = maxName + 1 := by
  have hlength := hspelled.full_iff.mp hfull
  refine Mem.strlen_eq le_rfl (fun j hj ↦ ?_) fun hlt ↦ absurd hlt (lt_irrefl _)
  rw [Nat.zero_add]
  rcases Nat.lt_or_eq_of_le (Nat.le_of_lt_succ hj) with hlt | rfl
  · rw [hspelled.nameAt past hlt, ne_eq, CStr.char_eq_zero_iff]
    omega
  · have hi := hspelled.live.1
    rcases Nat.lt_or_ge (i + 1) direntCount with hnext | hlast
    · have hlive : (volumeOf d).Live (i + 1) := by
        by_contra hfree
        exact hcrowded ⟨hnext, hfree⟩
      rw [nameAt_end hnext, ne_eq, byte_zero_iff (hd.ino_lt hnext)]
      exact hlive.2
    · rwa [nameAt_end_last (by omega)]

end Match

/-! ## The names of a directory -/

/-- The names in the directory are those of `L`, each of them once. -/
structure Listed (v : Volume) (L : CStr → Prop) : Prop where
  named : ∀ i, v.Live i → ∃ n, Spelled v i n
  unique : ∀ i j n, Spelled v i n → Spelled v j n → i = j
  exact : ∀ n, L n ↔ ∃ i, Spelled v i n

variable {L L' : CStr → Prop}

theorem Listed.congr (h : Listed v L) (hL : ∀ n, L' n ↔ L n) : Listed v L' :=
  ⟨h.named, h.unique, fun n ↦ (hL n).trans (h.exact n)⟩

theorem Listed.of_empty (hempty : ∀ i, ¬v.Live i) : Listed v fun _ ↦ False :=
  ⟨fun i hi ↦ absurd hi (hempty i), fun i _ _ hi ↦ absurd hi.live (hempty i),
    fun _ ↦ iff_of_false id fun ⟨i, hi⟩ ↦ hempty i hi.live⟩

section Lookup

variable {bc : ℕ} (h : Listed (volumeOf d) L) (hd : Consistent bc (volumeOf d))
  (hlegible : Legible (volumeOf d)) (hn : Denotes name n)
include h hd hlegible hn

theorem Listed.spelled_of_found (hfound : Found d name i) : Spelled (volumeOf d) i n := by
  obtain ⟨m, hm⟩ := h.named i hfound.live
  obtain ⟨nameLen, past, hvalid, hfind⟩ := hfound
  obtain rfl : nameLen = n.length := Except.ok.inj (hvalid.symm.trans hn.valid)
  rw [findName, List.find?_range_eq_some, decide_eq_true_eq] at hfind
  obtain ⟨⟨-, hlength, hsame⟩, -⟩ := hfind
  rwa [(hm.matches_iff hd hlegible).mp ⟨hlength,
    fun j hj ↦ (hsame j hj).trans (hn.char j hj)⟩] at hm

theorem Listed.not_of_notFound (hnot : NotFound d name) : ¬L n := by
  rw [h.exact]
  rintro ⟨i, hi⟩
  obtain ⟨nameLen, past, hvalid, hfind⟩ := hnot
  obtain rfl : nameLen = n.length := Except.ok.inj (hvalid.symm.trans hn.valid)
  rw [findName, List.find?_range_eq_none] at hfind
  have hmiss := hfind i hi.live.1
  rw [Bool.not_eq_true', decide_eq_false_iff_not] at hmiss
  obtain ⟨hlength, hsame⟩ := (@Spelled.matches_iff _ n n i past bc hd hi hlegible).mpr rfl
  exact hmiss ⟨hi.live.2, hlength, fun j hj ↦ (hsame j hj).trans (hn.char j hj).symm⟩

end Lookup

theorem spelled_congr {j : ℕ} (hentry : v'.entry j = v.entry j) : Spelled v' j n ↔ Spelled v j n :=
  ⟨fun h ↦ ⟨(named_congr hentry).mp h.toNamed, h.length_le⟩,
    fun h ↦ ⟨(named_congr hentry).mpr h.toNamed, h.length_le⟩⟩

theorem Listed.of_entry (h : Listed v L) (hentry : v'.entry = v.entry) : Listed v' L := by
  have hsame : ∀ j n, Spelled v' j n ↔ Spelled v j n := fun j n ↦ spelled_congr (congrFun hentry j)
  refine ⟨fun i hi ↦ ?_, fun i j n hi hj ↦ ?_, fun n ↦ ?_⟩
  · rw [Volume.Live, hentry] at hi
    obtain ⟨n, hn⟩ := h.named i hi
    exact ⟨n, (hsame i n).mpr hn⟩
  · exact h.unique i j n ((hsame i n).mp hi) ((hsame j n).mp hj)
  · simp only [hsame]
    exact h.exact n

theorem Legible.of_entry (h : Legible v) (hentry : v'.entry = v.entry) : Legible v' := by
  intro i hi hfull
  rw [Volume.Live, hentry] at hi ⊢
  rw [Volume.Full, hentry] at hfull
  exact h i hi hfull

theorem Listed.add {slot : ℕ} (h : Listed v L) (hnew : ¬L n) (hfree : ¬v.Live slot)
    (hentry : ∀ j, j ≠ slot → v'.entry j = v.entry j) (hslot : Spelled v' slot n) :
    Listed v' fun m ↦ L m ∨ m = n := by
  have hsame : ∀ j, j ≠ slot → ∀ m, Spelled v' j m ↔ Spelled v j m := fun j hj m ↦
    spelled_congr (hentry j hj)
  have hplace : ∀ j, Spelled v' j n → j = slot := fun j hj ↦ by
    by_contra hne
    exact hnew ((h.exact n).mpr ⟨j, (hsame j hne n).mp hj⟩)
  refine ⟨fun i hi ↦ ?_, fun i j m hi hj ↦ ?_, fun m ↦ ?_⟩
  · by_cases his : i = slot
    · exact ⟨n, his ▸ hslot⟩
    · rw [Volume.Live, hentry i his] at hi
      obtain ⟨m, hm⟩ := h.named i hi
      exact ⟨m, (hsame i his m).mpr hm⟩
  · by_cases his : i = slot
    · subst his
      obtain rfl := hslot.eq hi
      exact (hplace j hj).symm
    · by_cases hjs : j = slot
      · subst hjs
        obtain rfl := hslot.eq hj
        exact hplace i hi
      · exact h.unique i j m ((hsame i his m).mp hi) ((hsame j hjs m).mp hj)
  · rw [h.exact]
    constructor
    · rintro (⟨i, hi⟩ | rfl)
      · have his : i ≠ slot := fun heq ↦ hfree (heq ▸ hi.live)
        exact ⟨i, (hsame i his m).mpr hi⟩
      · exact ⟨slot, hslot⟩
    · rintro ⟨i, hi⟩
      by_cases his : i = slot
      · subst his
        exact .inr (hi.eq hslot)
      · exact .inl ⟨i, (hsame i his m).mp hi⟩

theorem Listed.remove (h : Listed v L) (hi : Spelled v i n)
    (hentry : ∀ j, j ≠ i → v'.entry j = v.entry j) (hfree : ¬v'.Live i) :
    Listed v' fun m ↦ L m ∧ m ≠ n := by
  have hsame : ∀ j, j ≠ i → ∀ m, Spelled v' j m ↔ Spelled v j m := fun j hj m ↦
    spelled_congr (hentry j hj)
  have hne : ∀ j m, Spelled v' j m → j ≠ i := fun j m hj heq ↦ hfree (heq ▸ hj.live)
  refine ⟨fun j hj ↦ ?_, fun j k m hj hk ↦ ?_, fun m ↦ ?_⟩
  · have hji : j ≠ i := fun heq ↦ hfree (heq ▸ hj)
    rw [Volume.Live, hentry j hji] at hj
    obtain ⟨m, hm⟩ := h.named j hj
    exact ⟨m, (hsame j hji m).mpr hm⟩
  · exact h.unique j k m ((hsame j (hne j m hj) m).mp hj) ((hsame k (hne k m hk) m).mp hk)
  · rw [h.exact]
    constructor
    · rintro ⟨⟨j, hj⟩, hmn⟩
      have hji : j ≠ i := by
        rintro rfl
        exact hmn (hj.eq hi)
      exact ⟨j, (hsame j hji m).mpr hj⟩
    · rintro ⟨j, hj⟩
      have hj' := (hsame j (hne j m hj) m).mp hj
      refine ⟨⟨j, hj'⟩, ?_⟩
      rintro rfl
      exact hne j m hj (h.unique j i m hj' hi)

/-- When a new name keeps the directory legible. -/
theorem Legible.add_iff {slot : ℕ} (h : Legible v) (hfree : ¬v.Live slot)
    (hentry : ∀ j, j ≠ slot → v'.entry j = v.entry j) (hslot : Spelled v' slot n) :
    Legible v' ↔ ¬(n.length = maxName ∧ (slot + 1 = direntCount ∨ v.Live (slot + 1)) ∨
      0 < slot ∧ v.Live (slot - 1) ∧ v.Full (slot - 1)) := by
  have hlive : ∀ j, j ≠ slot → (v'.Live j ↔ v.Live j) := fun j hj ↦ by
    rw [Volume.Live, Volume.Live, hentry j hj]
  have hfull : ∀ j, j ≠ slot → (v'.Full j ↔ v.Full j) := fun j hj ↦ by
    rw [Volume.Full, Volume.Full, hentry j hj]
  constructor
  · rintro h' (⟨hlength, hnext⟩ | ⟨hpos, hprev, hprevFull⟩)
    · obtain ⟨hlt, hnot⟩ := h' slot hslot.live (hslot.full_iff.mpr hlength)
      rw [hlive (slot + 1) (by omega)] at hnot
      exact hnext.elim (fun heq ↦ by omega) hnot
    · have hne : slot - 1 ≠ slot := by omega
      obtain ⟨-, hnot⟩ := h' (slot - 1) ((hlive _ hne).mpr hprev) ((hfull _ hne).mpr hprevFull)
      rw [Nat.sub_add_cancel hpos] at hnot
      exact hnot hslot.live
  · intro hgood i hi hiFull
    rw [not_or] at hgood
    by_cases his : i = slot
    · subst his
      have hroom := not_and.mp hgood.1 (hslot.full_iff.mp hiFull)
      rw [not_or] at hroom
      have hlt := hi.1
      rw [hlive (i + 1) (by omega)]
      exact ⟨by omega, hroom.2⟩
    · have hi' := (hlive i his).mp hi
      obtain ⟨hlt, hnext⟩ := h i hi' ((hfull i his).mp hiFull)
      refine ⟨hlt, fun hnext' ↦ ?_⟩
      by_cases hnextSlot : i + 1 = slot
      · subst hnextSlot
        exact hgood.2 ⟨Nat.succ_pos i, hi', (hfull i his).mp hiFull⟩
      · exact hnext ((hlive _ hnextSlot).mp hnext')

theorem Legible.remove (h : Legible v) (hentry : ∀ j, j ≠ i → v'.entry j = v.entry j)
    (hfree : ¬v'.Live i) : Legible v' := by
  have hlive : ∀ j, v'.Live j → j ≠ i ∧ v.Live j := fun j hj ↦ by
    have hji : j ≠ i := fun heq ↦ hfree (heq ▸ hj)
    rw [Volume.Live, hentry j hji] at hj
    exact ⟨hji, hj⟩
  intro j hj hfull
  obtain ⟨hji, hj'⟩ := hlive j hj
  rw [Volume.Full, hentry j hji] at hfull
  obtain ⟨hlt, hnext⟩ := h j hj' hfull
  exact ⟨hlt, fun hnext' ↦ hnext (hlive _ hnext').2⟩

/-! ## What a run has created -/

/-- A successful `mcsfs1_create` of `n`. -/
def CreatesOk (e : Call × Ret) (n : CStr) : Prop :=
  ∃ name, e = (.create name, .status (.ok ())) ∧ Denotes name n

/-- A successful `mcsfs1_unlink` of `n`. -/
def UnlinksOk (e : Call × Ret) (n : CStr) : Prop :=
  ∃ name, e = (.unlink name, .status (.ok ())) ∧ Denotes name n

/-- Some `mcsfs1_create` of `n` has succeeded, and no `mcsfs1_unlink` of `n` after it. -/
def Created (es : List (Call × Ret)) (n : CStr) : Prop :=
  ∃ es₁ e es₂, es = es₁ ++ e :: es₂ ∧ CreatesOk e n ∧ ∀ e' ∈ es₂, ¬UnlinksOk e' n

theorem created_snoc {es : List (Call × Ret)} {e : Call × Ret} :
    Created (es ++ [e]) n ↔ Created es n ∧ ¬UnlinksOk e n ∨ CreatesOk e n := by
  constructor
  · rintro ⟨es₁, e₁, es₂, heq, hcreates, hkept⟩
    rcases List.eq_nil_or_concat es₂ with rfl | ⟨es₃, e₃, rfl⟩
    · obtain ⟨-, hlast⟩ := List.append_inj' heq rfl
      rw [List.cons.inj hlast |>.1]
      exact .inr hcreates
    · rw [List.concat_eq_append, ← List.cons_append, ← List.append_assoc] at heq
      obtain ⟨hinit, hlast⟩ := List.append_inj' heq rfl
      rw [List.cons.inj hlast |>.1]
      refine .inl ⟨⟨es₁, e₁, es₃, hinit, hcreates, fun e' he' ↦ hkept e' ?_⟩, hkept e₃ ?_⟩
      · rw [List.concat_eq_append]
        exact List.mem_append_left _ he'
      · rw [List.concat_eq_append]
        exact List.mem_append_right _ List.mem_cons_self
  · rintro (⟨⟨es₁, e₁, es₂, rfl, hcreates, hkept⟩, hnot⟩ | hcreates)
    · refine ⟨es₁, e₁, es₂ ++ [e], by rw [List.append_assoc, List.cons_append], hcreates,
        fun e' he' ↦ ?_⟩
      rcases List.mem_append.mp he' with he' | he'
      · exact hkept e' he'
      · rwa [List.mem_singleton.mp he']
    · exact ⟨es, e, [], rfl, hcreates, fun e' he' ↦ absurd he' List.not_mem_nil⟩

/-- The names after a call. -/
def After (L : CStr → Prop) (e : Call × Ret) (n : CStr) : Prop :=
  L n ∧ ¬UnlinksOk e n ∨ CreatesOk e n

theorem after_of_quiet {e : Call × Ret}
    (hquiet : ∀ name, e ≠ (.create name, .status (.ok ())) ∧ e ≠ (.unlink name, .status (.ok ()))) :
    After L e n ↔ L n := by
  have hcreates : ¬CreatesOk e n := fun ⟨name, he, _⟩ ↦ (hquiet name).1 he
  have hunlinks : ¬UnlinksOk e n := fun ⟨name, he, _⟩ ↦ (hquiet name).2 he
  rw [After, or_iff_left hcreates, and_iff_left hunlinks]

theorem after_create {name : Option Mem} {n m : CStr} (hn : Denotes name n) :
    After L (.create name, .status (.ok ())) m ↔ L m ∨ m = n := by
  refine or_congr (and_iff_left ?_) ⟨?_, ?_⟩
  · rintro ⟨name', heq, -⟩
    cases heq
  · rintro ⟨name', heq, hm⟩
    cases heq
    exact hm.eq hn
  · rintro rfl
    exact ⟨name, rfl, hn⟩

theorem after_unlink {name : Option Mem} {n m : CStr} (hn : Denotes name n) :
    After L (.unlink name, .status (.ok ())) m ↔ L m ∧ m ≠ n := by
  have hcreates : ¬CreatesOk (.unlink name, .status (.ok ())) m := by
    rintro ⟨name', heq, -⟩
    cases heq
  rw [After, or_iff_left hcreates]
  refine and_congr_right fun _ ↦ not_congr ⟨?_, ?_⟩
  · rintro ⟨name', heq, hm⟩
    cases heq
    exact hm.eq hn
  · rintro rfl
    exact ⟨name, rfl, hn⟩

/-! ## Steps -/

/-- The call is the creation of a new name for which there is room, and in the first free slot the
name fills its field with no free entry behind it, or takes the free entry behind a name that fills
its field. -/
def Blinds (mnt : Mount) (s : Disk Block) (c : Call) : Prop :=
  ∃ name n slot, c = .create name ∧ Denotes name n ∧
    (∀ i, ¬Spelled (volumeOf s.block) i n) ∧ (volumeOf s.block).HasRoom mnt.dev.blockCount ∧
    firstFree (s.block rootDirLba) = some slot ∧
    (n.length = maxName ∧ (slot + 1 = direntCount ∨ (volumeOf s.block).Live (slot + 1)) ∨
      0 < slot ∧ (volumeOf s.block).Live (slot - 1) ∧ (volumeOf s.block).Full (slot - 1))

theorem not_blinds {mnt : Mount} {s : Disk Block} {c : Call} (hc : ∀ name, c ≠ .create name) :
    ¬Blinds mnt s c := fun ⟨name, _, _, heq, _⟩ ↦ hc name heq

/-- The directory of the disk has the names of `L`. -/
structure Tracked (dev : Blkdev) (L : CStr → Prop) (s : Disk Block) : Prop where
  always : Always (Intact dev) s
  listed : Listed (volumeOf s.block) L

theorem spelled_of_make {slot : ℕ} (hn : Denotes name n) (hslot : slot < direntCount) (hge : 2 ≤ k)
    (hle : k ≤ maxInodes)
    (hself : v.entry slot = Dirent.make k modeFile (bytesAt name) n.length) :
    Spelled v slot n := by
  rw [maxInodes] at hle
  refine ⟨⟨⟨hslot, ?_⟩, fun j hj ↦ ?_⟩, hn.length_le⟩
  · rw [hself, Dirent.ino_make (by omega)]
    omega
  · rw [hself, Dirent.name_make hj]
    split_ifs with hlt
    · exact hn.char j hlt
    · exact (CStr.char_eq_zero_iff.mpr (Nat.le_of_not_lt hlt)).symm

theorem spelled_create {slot k b : ℕ} (hn : Denotes name n) (hslot : slot < direntCount)
    (hk : FreeInode v k) :
    Spelled (v.create slot k b (Dirent.make k modeFile (bytesAt name) n.length)) slot n := by
  refine spelled_of_make hn hslot hk.two_le hk.le_max ?_
  rw [Volume.create, Volume.entry_setEntry, if_pos rfl]

section Step

variable {mnt : Mount} {s : Disk Block} (h : Tracked mnt.dev L s)
  (hlegible : Legible (volumeOf s.block)) (hdev : mnt.dev.Usable) (hfails : ¬Faulty mnt.dev.fails)
include h hlegible hdev hfails

/-- What a call leaves. -/
def Tracked.Follows (mnt : Mount) (L : CStr → Prop) (s : Disk Block) (c : Call) : Prop :=
  Tracked mnt.dev (After L (c, (step (some mnt) c s).1)) (step (some mnt) c s).2 ∧
    (Legible (volumeOf (step (some mnt) c s).2.block) ↔ ¬Blinds mnt s c)

omit hdev hfails in
theorem Tracked.quiet {c : Call} (hblinds : ¬Blinds mnt s c)
    (halways : Always (Intact mnt.dev) (step (some mnt) c s).2)
    (hquiet : ∀ name, (c, (step (some mnt) c s).1) ≠ (.create name, .status (.ok ())) ∧
      (c, (step (some mnt) c s).1) ≠ (.unlink name, .status (.ok ())))
    (hentry : (volumeOf (step (some mnt) c s).2.block).entry = (volumeOf s.block).entry) :
    Follows mnt L s c :=
  ⟨⟨halways, (h.listed.of_entry hentry).congr fun _ ↦ after_of_quiet hquiet⟩,
    iff_of_true (hlegible.of_entry hentry) hblinds⟩

omit hdev hfails in
theorem Tracked.failed {c : Call} {e : Err} (hblinds : ¬Blinds mnt s c)
    (halways : Always (Intact mnt.dev) (step (some mnt) c s).2)
    (he : (step (some mnt) c s).1 = .status (.error e))
    (hsame : (step (some mnt) c s).2.block = s.block) : Follows mnt L s c := by
  refine h.quiet hlegible hblinds halways (fun name ↦ ?_) (by rw [hsame])
  rw [he]
  exact ⟨by simp, by simp⟩

theorem Tracked.create (name : Option Mem) : Follows mnt L s (.create name) := by
  obtain ⟨halways, hends, hfirst⟩ :=
    (meets_mcsfs1Create_firstFree hdev h.always.now name).run h.always
  have hstep : step (some mnt) (.create name) s =
    (.status (returned ((mcsfs1Create (some mnt) name).run s)),
      finalState ((mcsfs1Create (some mnt) name).run s)) := rfl
  have herror (e : Err) (hblinds : ¬Blinds mnt s (.create name))
      (he : returned ((mcsfs1Create (some mnt) name).run s) = .error e)
      (hsame : (finalState ((mcsfs1Create (some mnt) name).run s)).block = s.block) :
      Follows mnt L s (.create name) :=
    h.failed hlegible hblinds halways (congrArg Ret.status he) hsame
  generalize hr : returned ((mcsfs1Create (some mnt) name).run s) = r at *
  generalize hb : (finalState ((mcsfs1Create (some mnt) name).run s)).block = d' at *
  cases hends with
  | @ok nameLen slot k b _ hname hfound hslot hfree hk hblock hvol =>
    obtain ⟨n, hn⟩ := exists_denotes hname
    obtain rfl : nameLen = n.length := Except.ok.inj (hname.symm.trans hn.valid)
    have hnew : ¬L n := h.listed.not_of_notFound h.always.now hlegible hn
      (hfound.resolve_right hfails)
    have hspelled := spelled_create (b := b) hn hslot hk
    have hentry : ∀ j, j ≠ slot → (volumeOf d').entry j = (volumeOf s.block).entry j :=
      fun j hj ↦ by
        rw [hvol]
        exact Function.update_of_ne hj _ _
    rw [← hvol] at hspelled
    -- the slot is the first free one
    obtain ⟨slot', hslot', hlive'⟩ := hfirst rfl
    obtain rfl : slot' = slot := by
      by_contra hne
      rw [Volume.Live, hentry slot' hne] at hlive'
      exact (not_live_of_firstFree hslot').2 hlive'
    refine ⟨⟨halways, ?_⟩, ?_⟩
    · rw [hstep]
      dsimp only
      rw [hb]
      exact (h.listed.add hnew hfree hentry hspelled).congr fun m ↦ after_create hn
    · rw [hstep]
      dsimp only
      rw [hb, hlegible.add_iff hfree hentry hspelled, not_iff_not]
      constructor
      · intro hbad
        exact ⟨name, n, slot', rfl, hn, fun i hi ↦ hnew ((h.listed.exact n).mpr ⟨i, hi⟩),
          ⟨⟨slot', hslot, hfree⟩, ⟨k, hk⟩, ⟨b, hblock⟩⟩, hslot', hbad⟩
      · rintro ⟨name', m, slot, hc, hm, -, -, hfirst', hbad⟩
        cases hc
        obtain rfl := Option.some.inj (hslot'.symm.trans hfirst')
        obtain rfl := hn.eq hm
        exact hbad
  | name hname =>
    refine herror _ ?_ rfl rfl
    rintro ⟨name', n, slot, hc, hn, -⟩
    cases hc
    cases hname.symm.trans hn.valid
  | exist hi =>
    refine herror _ ?_ rfl rfl
    rintro ⟨name', n, slot, hc, hn, hnew, -⟩
    cases hc
    exact hnew _ (h.listed.spelled_of_found h.always.now hlegible hn hi)
  | nospc _ _ hfull =>
    refine herror _ ?_ rfl rfl
    rintro ⟨name', n, slot, hc, -, -, hroom, -⟩
    exact hfull hroom
  | io hfaulty => exact absurd hfaulty hfails

theorem Tracked.write (name buf : Option Mem) (len : ℕ) :
    Follows mnt L s (.write name buf len) := by
  obtain ⟨halways, hends⟩ := (meets_mcsfs1Write hdev h.always.now name buf len).run h.always
  refine h.quiet hlegible (not_blinds nofun) halways (fun name' ↦ ⟨nofun, nofun⟩) ?_
  change (volumeOf (finalState ((mcsfs1Write (some mnt) name buf len).run s)).block).entry = _
  generalize (finalState ((mcsfs1Write (some mnt) name buf len).run s)).block = d' at *
  generalize returned ((mcsfs1Write (some mnt) name buf len).run s) = r at *
  cases hends with
  | ok _ hx =>
    rw [hx.volume]
    rfl
  | nospc _ hvol => rw [hvol]
  | io hfaulty => exact absurd hfaulty hfails
  | args | range | name | noent => rfl

omit hfails in
theorem Tracked.read (name : Option Mem) (buf : Bool) (cap : ℕ) (outLen : Bool) :
    Follows mnt L s (.read name buf cap outLen) := by
  obtain ⟨halways, hends⟩ :=
    (meets_mcsfs1Read hdev h.always.now name buf cap outLen).run h.always
  refine h.quiet hlegible (not_blinds nofun) halways (fun name' ↦ ⟨nofun, nofun⟩) ?_
  change (volumeOf (finalState ((mcsfs1Read (some mnt) name buf cap outLen).run s)).block).entry = _
  rw [hends.unchanged]

theorem Tracked.unlink (name : Option Mem) : Follows mnt L s (.unlink name) := by
  obtain ⟨halways, hends⟩ := (meets_mcsfs1Unlink hdev h.always.now name).run h.always
  have hstep : step (some mnt) (.unlink name) s =
    (.status (returned ((mcsfs1Unlink (some mnt) name).run s)),
      finalState ((mcsfs1Unlink (some mnt) name).run s)) := rfl
  have herror (e : Err) (he : returned ((mcsfs1Unlink (some mnt) name).run s) = .error e)
      (hsame : (finalState ((mcsfs1Unlink (some mnt) name).run s)).block = s.block) :
      Follows mnt L s (.unlink name) :=
    h.failed hlegible (not_blinds nofun) halways (congrArg Ret.status he) hsame
  generalize hr : returned ((mcsfs1Unlink (some mnt) name).run s) = r at *
  generalize hb : (finalState ((mcsfs1Unlink (some mnt) name).run s)).block = d' at *
  cases hends with
  | @ok i _ hi hvol =>
    obtain ⟨k, past, hname, hfind⟩ := id hi
    obtain ⟨n, hn⟩ := exists_denotes hname
    have hspelled := h.listed.spelled_of_found h.always.now hlegible hn hi
    have hentry : ∀ j, j ≠ i → (volumeOf d').entry j = (volumeOf s.block).entry j := fun j hj ↦ by
      rw [hvol]
      exact Function.update_of_ne hj _ _
    have hfree : ¬(volumeOf d').Live i := fun hlive ↦ by
      rw [hvol] at hlive
      exact (Volume.live_clear.mp hlive).1 rfl
    refine ⟨⟨halways, ?_⟩, iff_of_true ?_ ?_⟩
    · rw [hstep]
      dsimp only
      rw [hb]
      exact (h.listed.remove hspelled hentry hfree).congr fun m ↦ after_unlink hn
    · rw [hstep]
      dsimp only
      rw [hb]
      exact hlegible.remove hentry hfree
    · exact not_blinds nofun
  | name | noent => exact herror _ rfl rfl
  | io hfaulty => exact absurd hfaulty hfails

theorem Tracked.step (c : Call) : Follows mnt L s c := by
  cases c with
  | create name => exact h.create hlegible hdev hfails name
  | write name buf len => exact h.write hlegible hdev hfails name buf len
  | read name buf cap outLen => exact h.read hlegible hdev name buf cap outLen
  | unlink name => exact h.unlink hlegible hdev hfails name

end Step

/-! ## Reachable files -/

/-- The mount with other bytes on the stack behind the block of `find_dirent`. -/
def Mount.withPast (mnt : Mount) (past : ℕ → UInt8) : Mount :=
  { mnt with dev := { mnt.dev with past := past } }

/-- Every file that the calls have created and not unlinked is reachable, whatever stands on the
stack: a further `mcsfs1_create` of its name returns `MCSFS1_ERR_EXIST`, and `mcsfs1_read` succeeds
with a buffer for the largest file. -/
def AllReachable (mnt : Mount) (es : List (Call × Ret)) (s : Disk Block) : Prop :=
  ∀ past name n, Denotes name n → Created es n →
    returned ((mcsfs1Create (some (mnt.withPast past)) name).run s) = .error .exist ∧
    ∀ cap, 4096 ≤ cap →
      ∃ r, returned ((mcsfs1Read (some (mnt.withPast past)) name true cap true).run s) = .ok r

section Reachable

variable {mnt : Mount} {s : Disk Block} {es : List (Call × Ret)}
  (h : Tracked mnt.dev (Created es) s) (hdev : mnt.dev.Usable) (hfails : ¬Faulty mnt.dev.fails)
include h hdev hfails

theorem Tracked.reachable (hlegible : Legible (volumeOf s.block))
    (hcount : mnt.blockCount = mnt.dev.blockCount) : AllReachable mnt es s := by
  intro past name n hn hcreated
  have hdev' : (mnt.withPast past).dev.Usable :=
    ⟨hdev.read, hdev.write, hdev.flush, hdev.min_le, hdev.le_max⟩
  have hfound : ¬NotFound s.block name := fun hnot ↦
    h.listed.not_of_notFound h.always.now hlegible hn hnot hcreated
  have hvalid : ∀ e, validName name ≠ .error e := fun e he ↦ nomatch hn.valid.symm.trans he
  refine ⟨?_, fun cap hcap ↦ ?_⟩
  · have hends := ((meets_mcsfs1Create hdev' h.always.now name).run h.always).2
    generalize returned ((mcsfs1Create (some (mnt.withPast past)) name).run s) = r at *
    generalize (finalState ((mcsfs1Create (some (mnt.withPast past)) name).run s)).block = d' at *
    cases hends with
    | ok _ hnot => exact absurd (hnot.resolve_right hfails) hfound
    | name herr => exact absurd herr (hvalid _)
    | exist => rfl
    | nospc _ hnot => exact absurd (hnot.resolve_right hfails) hfound
    | io hfaulty => exact absurd hfaulty hfails
  · have hends := ((meets_mcsfs1Read hdev' h.always.now name true cap true).run h.always).2
    generalize returned ((mcsfs1Read (some (mnt.withPast past)) name true cap true).run s) = r at *
    generalize
      (finalState ((mcsfs1Read (some (mnt.withPast past)) name true cap true).run s)).block =
        d' at *
    cases hends with
    | ok => exact ⟨_, rfl⟩
    | args hargs => simp at hargs
    | name herr => exact absurd herr (hvalid _)
    | noent hnot => exact absurd hnot hfound
    | range hi hsmall =>
      have hsize := (h.always.now.file _ hi.live).size
      rw [directBlocks, blockSize] at hsize
      omega
    | mount hne => exact absurd hcount hne
    | io hfaulty => exact absurd hfaulty hfails

omit hdev hfails in
/-- In a directory that is not legible, some name is not found. -/
theorem Tracked.findName_crowded (hn : Spelled (volumeOf s.block) i n) (hdenotes : Denotes name n)
    (hfull : (volumeOf s.block).Full i) (hpast : past ≠ 0)
    (hcrowded : ¬(i + 1 < direntCount ∧ ¬(volumeOf s.block).Live (i + 1))) :
    findName (s.block rootDirLba) past (bytesAt name) n.length = none := by
  rw [findName, List.find?_range_eq_none]
  intro j hj
  rw [Bool.not_eq_true', decide_eq_false_iff_not]
  rintro ⟨hino, hlength, hsame⟩
  obtain ⟨m, hm⟩ := h.listed.named j ⟨hj, hino⟩
  have hlen := hn.full_iff.mp hfull
  have hj' : Spelled (volumeOf s.block) j n := by
    refine ⟨⟨hm.live, fun l hl ↦ ?_⟩, hn.length_le⟩
    rw [hm.char l hl, ← hm.nameAt past hl, hsame l (by omega), hdenotes.char l (by omega)]
  obtain rfl := h.listed.unique j i n hj' hn
  rw [hn.strlen_of_crowded h.always.now hfull hpast hcrowded] at hlength
  omega

theorem Tracked.legible (hall : AllReachable mnt es s) : Legible (volumeOf s.block) := by
  intro i hi hfull
  by_contra hcrowded
  obtain ⟨n, hn⟩ := h.listed.named i hi
  have hcreated := (h.listed.exact n).mpr ⟨i, hn⟩
  obtain ⟨-, -, -, -, ⟨name, -, hname⟩, -⟩ := id hcreated
  obtain ⟨r, hr⟩ := (hall (fun _ ↦ 1) name n hname hcreated).2 4096 le_rfl
  have hdev' : (mnt.withPast fun _ ↦ 1).dev.Usable :=
    ⟨hdev.read, hdev.write, hdev.flush, hdev.min_le, hdev.le_max⟩
  have hmeets : Meets (fun _ ↦ True)
      (mcsfs1Read (some (mnt.withPast fun _ ↦ 1)) name true 4096 true)
      (fun r _ ↦ r = .error .noent) s.block := by
    refine wp_bind (wp_failIf (fun hbad ↦ by simp at hbad) fun _ ↦ wp_bind (wp_bind
      (wp_ofExcept (fun k hk ↦ ?_) fun e he ↦ nomatch hname.valid.symm.trans he)))
    obtain rfl := Except.ok.inj (hname.valid.symm.trans hk)
    refine wp_bind (wp_devRead hdev' (hdev'.lt_blockCount (by decide)) ?_
      fun hfaulty ↦ absurd hfaulty hfails)
    refine wp_bind (wp_observe fun _ ↦ ?_)
    rw [h.findName_crowded hn hname hfull (show (1 : UInt8) ≠ 0 by decide) hcrowded]
    exact wp_throw rfl
  have hnoent := (hmeets.run ⟨trivial, fun _ _ ↦ trivial⟩).2
  rw [hr] at hnoent
  cases hnoent

end Reachable

/-- **A file is reachable until a creation blinds the directory.** On a device that does not fail,
take a run on a mounted volume that was just formatted, in which no creation blinds the directory.
Every file that was created and not unlinked is then reachable; and this is so after a further call
exactly when it does not blind the directory either. -/
theorem created_reachable_iff {dev : Blkdev} (hfails : ¬Faulty dev.fails) {s s₀ s₁ t : Disk Block}
    (hformat : (mcsfs1Format (some dev)).run s = .ok () s₀) {mnt : Mount}
    (hmount : (mcsfs1Mount (some dev)).run s₀.fresh = .ok mnt s₁) {es : List (Call × Ret)}
    (hrun : Run (step (some mnt)) (fun u c ↦ ¬Blinds mnt u c) s₁ es t) :
    AllReachable mnt es t ∧ ∀ c,
      AllReachable mnt (es ++ [(c, (step (some mnt) c t).1)]) (step (some mnt) c t).2 ↔
        ¬Blinds mnt t c := by
  obtain ⟨hdev, hformatted⟩ := formatted_of_run hformat
  obtain ⟨s', hrunMount, halways, hsame⟩ :=
    run_mcsfs1Mount hdev hfails (.fresh hformatted.intact)
  rw [hrunMount] at hmount
  obtain ⟨rfl, hcount, rfl⟩ : dev = mnt.dev ∧ mnt.blockCount = dev.blockCount ∧ s' = s₁ := by
    cases hmount
    exact ⟨rfl, rfl, rfl⟩
  have hinv : Tracked mnt.dev (Created es) t ∧ Legible (volumeOf t.block) := by
    induction hrun with
    | nil =>
      have hempty : ∀ i, ¬(volumeOf s'.block).Live i := by
        rw [hsame]
        exact hformatted.empty
      have hnone : ∀ n, ¬Created [] n := by
        rintro n ⟨es₁, e, es₂, heq, -⟩
        exact absurd heq.symm (by simp)
      exact ⟨⟨halways, (Listed.of_empty hempty).congr fun n ↦ iff_of_false (hnone n) id⟩,
        fun i hi ↦ absurd hi (hempty i)⟩
    | snoc _ c hallowed ih =>
      obtain ⟨htracked, hlegible⟩ := ih
      obtain ⟨hafter, hiff⟩ := htracked.step hlegible hdev hfails c
      exact ⟨⟨hafter.always, hafter.listed.congr fun n ↦ created_snoc⟩, hiff.mpr hallowed⟩
  obtain ⟨htracked, hlegible⟩ := hinv
  refine ⟨htracked.reachable hdev hfails hlegible hcount, fun c ↦ ?_⟩
  obtain ⟨hafter, hiff⟩ := htracked.step hlegible hdev hfails c
  have hafter' : Tracked mnt.dev (Created (es ++ [(c, (step (some mnt) c t).1)]))
      (step (some mnt) c t).2 :=
    ⟨hafter.always, hafter.listed.congr fun n ↦ created_snoc⟩
  rw [← hiff]
  exact ⟨fun hall ↦ hafter'.legible hdev hfails hall,
    fun hleg ↦ hafter'.reachable hdev hfails hleg hcount⟩

def longName : Mem := fun i ↦ if i < 27 then 97 else 0

/-- A name of 27 bytes in the first entry, with the second entry free. -/
theorem created_reachable_iff_one : ∃ es t,
    Run (step (some plainMount)) (fun u c ↦ ¬Blinds plainMount u c) mountedDisk es t ∧
      es.length = 1 ∧ AllReachable plainMount es t ∧ ∀ c,
        AllReachable plainMount (es ++ [(c, (step (some plainMount) c t).1)])
          (step (some plainMount) c t).2 ↔ ¬Blinds plainMount t c := by
  have hrun : Run (step (some plainMount)) (fun u c ↦ ¬Blinds plainMount u c) mountedDisk _ _ :=
    Run.nil.snoc (.create (some longName)) (by
      rintro ⟨name, n, slot, -, -, -, -, hfirst, hbad⟩
      have hzero : firstFree (mountedDisk.block rootDirLba) = some 0 := by decide +kernel
      have hfree : ((volumeOf mountedDisk.block).entry 1).ino = 0 := by decide +kernel
      obtain rfl := Option.some.inj (hzero.symm.trans hfirst)
      rcases hbad with ⟨-, hlast | hlive⟩ | ⟨hpos, -⟩
      · exact absurd hlast (by decide)
      · exact hlive.2 hfree
      · exact absurd hpos (lt_irrefl 0))
  exact ⟨_, _, hrun, rfl, created_reachable_iff not_faulty_plainDev run_mcsfs1Format_plainDev
    run_mcsfs1Mount_plainDev hrun⟩

/-- A second file in the entry behind a name of 27 bytes: that name is not found any more, and is
created again. -/
theorem long_name_lost :
    let s := (step (some plainMount) (.create (some longName)) mountedDisk).2
    let t := (step (some plainMount) (.create (some nameA)) s).2
    (mcsfs1Format (some plainDev)).run blankDisk = .ok () formattedDisk ∧
      (mcsfs1Mount (some plainDev)).run formattedDisk.fresh = .ok plainMount mountedDisk ∧
      validName (some longName) = .ok 27 ∧
      (step (some plainMount) (.create (some longName)) mountedDisk).1 = .status (.ok ()) ∧
      (step (some plainMount) (.create (some nameA)) s).1 = .status (.ok ()) ∧
      (step (some plainMount) (.read (some longName) true 4096 true) t).1 = .bytes (.error .noent) ∧
      (step (some plainMount) (.create (some longName)) t).1 = .status (.ok ()) := by
  refine ⟨run_mcsfs1Format_plainDev, run_mcsfs1Mount_plainDev, ?_⟩
  decide +kernel

end Mcsfs1

end Mcsos
