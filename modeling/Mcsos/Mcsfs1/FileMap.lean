import Mcsos.Mcsfs1.Directory

/-!
# The file system refines a map from names to byte strings

`FileMap.Step` is what a client expects of the four operations: a finite map from names to byte
strings. On a device that does not fail, every run after `mcsfs1_format` and `mcsfs1_mount` is a
behaviour of it (`mcsfs1_refines_fileMap`). The names are at most 26 bytes long, so that the name
field of an entry always holds a NUL.

The map is that of the directory which the volume shows. Without faults a name has at most one
slot (`Directory.Proper`), so a step of the directory is a step of its map
(`Directory.Step.lookup`).

A name that `valid_name` refuses is never in the map; the operations refuse it with
`MCSFS1_ERR_INVAL`, also where the absence of a name has its own answer (`create_empty_name_inval`).
-/

namespace Mcsos

namespace Mcsfs1

open FaultyDisk

/-! ## The specification -/

/-- The names that `valid_name` accepts, apart from their length. -/
def ValidName (n : CStr) : Prop := n.bytes ≠ [] ∧ '/'.toUInt8 ∉ n.bytes

/-- The calls that are considered: the name leaves room for its NUL in an entry, and a write fits
into a file and has a buffer unless it is empty. -/
def FileCall.Allowed (c : FileCall) : Prop :=
  c.name.length ≤ 26 ∧
    match c with
    | .write _ buf len => len ≤ directBlocks * blockSize ∧ (buf = none → len = 0)
    | _ => True

abbrev FileMap := CStr → Option (List UInt8)

namespace FileMap

def empty : FileMap := fun _ ↦ none

/-- The calls on a map, with what they return. -/
inductive Step : FileCall → Ret → FileMap → FileMap → Prop
  | inval {c : FileCall} {M : FileMap} (notValid : ¬ValidName c.name) (absent : M c.name = none) :
    Step c (c.fail .inval) M M
  | createExist {n} {M : FileMap} (present : M n ≠ none) :
    Step (.create n) (.status (.error .exist)) M M
  | createOk {n} {M : FileMap} (valid : ValidName n) (absent : M n = none) :
    Step (.create n) (.status (.ok ())) M (Function.update M n (some []))
  | createNospc {n} {M : FileMap} (valid : ValidName n) (absent : M n = none) :
    Step (.create n) (.status (.error .nospc)) M M
  | writeNoent {n buf len} {M : FileMap} (valid : ValidName n) (absent : M n = none) :
    Step (.write n buf len) (.status (.error .noent)) M M
  | writeOk {n buf len} {M : FileMap} (present : M n ≠ none) :
    Step (.write n buf len) (.status (.ok ())) M (Function.update M n (some (bufferBytes buf len)))
  | writeNospc {n buf len} {M : FileMap} (present : M n ≠ none) :
    Step (.write n buf len) (.status (.error .nospc)) M M
  | readNoent {n cap} {M : FileMap} (valid : ValidName n) (absent : M n = none) :
    Step (.read n cap) (.bytes (.error .noent)) M M
  | readRange {n cap b} {M : FileMap} (present : M n = some b) (small : cap < b.length) :
    Step (.read n cap) (.bytes (.error .range)) M M
  | readOk {n cap b} {M : FileMap} (present : M n = some b) (fits : b.length ≤ cap) :
    Step (.read n cap) (.bytes (.ok (b.length, b))) M M
  | unlinkNoent {n} {M : FileMap} (valid : ValidName n) (absent : M n = none) :
    Step (.unlink n) (.status (.error .noent)) M M
  | unlinkOk {n} {M : FileMap} (present : M n ≠ none) :
    Step (.unlink n) (.status (.ok ())) M (Function.update M n none)

end FileMap

/-! ## Names -/

variable {n m : CStr} {i : ℕ} {D D' : Directory} {b : List UInt8}

theorem validName_of_nameError (h : nameError n = none) : ValidName n := by
  rw [nameError] at h
  split_ifs at h with hnil _ hslash
  exact ⟨hnil, hslash⟩

theorem eq_inval_of_nameError {e : Err} (hlen : n.length ≤ 26) (h : nameError n = some e) :
    e = .inval ∧ ¬ValidName n := by
  rw [nameError] at h
  split_ifs at h with hnil hlong hslash
  · exact ⟨(Option.some.inj h).symm, fun hvalid ↦ hvalid.1 hnil⟩
  · rw [maxName] at hlong
    omega
  · exact ⟨(Option.some.inj h).symm, fun hvalid ↦ hvalid.2 hslash⟩

/-! ## The map of a directory -/

namespace Directory

/-- The directories of a device that has not failed: valid names, each in one slot. -/
structure Proper (D : Directory) : Prop where
  slot : ∀ i n b, D i = some (n, b) → i < direntCount
  valid : ∀ i n b, D i = some (n, b) → nameError n = none
  once : ∀ i j n b b', D i = some (n, b) → D j = some (n, b') → i = j

theorem lookup_of_find (h : D.find n = some i) : D.lookup n ≠ none := by
  obtain ⟨b, hb⟩ := content_of_find h
  rw [lookup, h, Option.bind_some, hb]
  exact Option.some_ne_none b

theorem lookup_of_find_none (h : D.find n = none) : D.lookup n = none := by rw [lookup, h]; rfl

theorem ne_of_find_none (h : D.find n = none) (hi : i < direntCount) : D i ≠ some (n, b) := by
  intro heq
  rw [find, List.find?_range_eq_none] at h
  simpa [heq] using h i hi

/-- The slot `i` gets a file with the name `n`, which no slot before it has. -/
theorem lookup_update_some (hi : i < direntCount) (hfirst : ∀ j < i, ∀ b, D j ≠ some (n, b))
    (hname : ∀ m b, D i = some (m, b) → m = n) :
    lookup (Function.update D i (some (n, b))) = Function.update D.lookup n (some b) := by
  funext m
  by_cases hm : m = n
  · have hfind : find (Function.update D i (some (n, b))) n = some i := by
      rw [find, List.find?_range_eq_some]
      refine ⟨by rw [Function.update_self]; exact decide_eq_true rfl, List.mem_range.mpr hi, ?_⟩
      intro j hj
      rw [Function.update_of_ne hj.ne, Bool.not_eq_true', decide_eq_false_iff_not,
        Option.map_eq_some_iff]
      rintro ⟨⟨_, c⟩, hc, rfl⟩
      exact hfirst j hj c hc
    rw [hm, Function.update_self, lookup, hfind, Option.bind_some, Function.update_self]
    rfl
  · rw [Function.update_of_ne hm]
    refine lookup_update (fun c hc ↦ hm (hname m c hc)) fun c hc ↦ hm ?_
    rw [Option.some.injEq, Prod.mk.injEq] at hc
    exact hc.1.symm

/-- The slot `i` is cleared, and no other one has its name. -/
theorem Proper.lookup_update_none (h : D.Proper) (hi : D i = some (n, b)) :
    lookup (Function.update D i none) = Function.update D.lookup n none := by
  funext m
  by_cases hm : m = n
  · rw [hm, Function.update_self]
    refine lookup_of_find_none (List.find?_range_eq_none.mpr fun j _ ↦ ?_)
    rw [Bool.not_eq_true', decide_eq_false_iff_not, Option.map_eq_some_iff]
    rintro ⟨⟨_, c⟩, hc, rfl⟩
    by_cases hji : j = i
    · rw [hji, Function.update_self] at hc
      cases hc
    · rw [Function.update_of_ne hji] at hc
      exact hji (h.once j i _ c b hc hi)
  · rw [Function.update_of_ne hm]
    refine lookup_update (fun c hc ↦ hm ?_) fun c ↦ (Option.some_ne_none _).symm
    rw [hi, Option.some.injEq, Prod.mk.injEq] at hc
    exact hc.1.symm

theorem Proper.update {f : Option (CStr × List UInt8)} (h : D.Proper) (hi : i < direntCount)
    (hvalid : ∀ n b, f = some (n, b) → nameError n = none)
    (hnew : ∀ n b j c, f = some (n, b) → D j = some (n, c) → j = i) :
    Proper (Function.update D i f) := by
  have hcases : ∀ {j n c}, Function.update D i f j = some (n, c) →
      j = i ∧ f = some (n, c) ∨ D j = some (n, c) := fun {j n c} hj ↦ by
    by_cases hji : j = i
    · rw [hji, Function.update_self] at hj
      exact .inl ⟨hji, hj⟩
    · rw [Function.update_of_ne hji] at hj
      exact .inr hj
  refine ⟨fun j n c hj ↦ ?_, fun j n c hj ↦ ?_, fun j k n c c' hj hk ↦ ?_⟩
  · rcases hcases hj with ⟨rfl, -⟩ | hj
    · exact hi
    · exact h.slot j n c hj
  · rcases hcases hj with ⟨-, hf⟩ | hj
    · exact hvalid n c hf
    · exact h.valid j n c hj
  · rcases hcases hj with ⟨hji, hf⟩ | hDj <;> rcases hcases hk with ⟨hki, hf'⟩ | hDk
    · rw [hji, hki]
    · rw [hji, hnew n c k c' hf hDk]
    · rw [hki, hnew n c' j c hf' hDj]
    · exact h.once j k n c c' hDj hDk

theorem Proper.absent (h : D.Proper) {e : Err} (hn : nameError n = some e) : D.lookup n = none := by
  cases hfind : D.find n with
  | none => exact lookup_of_find_none hfind
  | some i =>
    obtain ⟨b, hb⟩ := content_of_find hfind
    rw [h.valid i n b hb] at hn
    cases hn

theorem Proper.read {cap : ℕ} (h : D.Proper) (hlen : n.length ≤ 26) :
    FileMap.Step (.read n cap) (D.readAnswer n cap) D.lookup D.lookup := by
  rw [readAnswer]
  cases hname : nameError n with
  | some e =>
    obtain ⟨rfl, hn⟩ := eq_inval_of_nameError hlen hname
    exact .inval hn (h.absent hname)
  | none =>
    cases hlookup : D.lookup n with
    | none => exact .readNoent (validName_of_nameError hname) hlookup
    | some b =>
      by_cases hcap : cap < b.length
      · simp only [if_pos hcap]
        exact .readRange hlookup hcap
      · simp only [if_neg hcap]
        exact .readOk hlookup (Nat.le_of_not_lt hcap)

/-- Without faults, a step of the directory is a step of its map. -/
theorem Step.lookup {faulty : Prop} (hfaulty : ¬faulty) {c : FileCall} {r : Ret}
    (h : Step faulty c r D D') (hc : c.Allowed) (hD : D.Proper) :
    FileMap.Step c r D.lookup D'.lookup ∧ D'.Proper := by
  obtain ⟨hlen, hargs⟩ := hc
  cases h with
  | io fault => exact absurd fault hfaulty
  | name invalid =>
    obtain ⟨rfl, hn⟩ := eq_inval_of_nameError hlen invalid
    exact ⟨.inval hn (hD.absent invalid), hD⟩
  | createExist _ found => exact ⟨.createExist (lookup_of_find found), hD⟩
  | createNospc valid absent =>
    have hnone := absent.resolve_right hfaulty
    exact ⟨.createNospc (validName_of_nameError valid) (lookup_of_find_none hnone), hD⟩
  | @createOk n _ i valid absent free =>
    have hnone := absent.resolve_right hfaulty
    have hfree := free_of_vacant free
    have hi : i < direntCount := by
      rw [vacant, List.find?_range_eq_some] at free
      exact List.mem_range.mp free.2.1
    have hnew : ∀ j b, D j ≠ some (n, b) := fun j b hj ↦
      ne_of_find_none hnone (hD.slot j n b hj) hj
    rw [lookup_update_some hi (fun j _ ↦ hnew j) fun m b hm ↦ by rw [hfree] at hm; cases hm]
    refine ⟨.createOk (validName_of_nameError valid) (lookup_of_find_none hnone),
      hD.update hi ?_ ?_⟩
    · rintro _ _ ⟨⟩
      exact valid
    · rintro _ _ j b ⟨⟩ hj
      exact absurd hj (hnew j b)
  | writeInval null => exact absurd (hargs.2 null.1) null.2
  | writeRange large => exact absurd hargs.1 (Nat.not_le_of_lt large)
  | writeNoent valid absent =>
    exact ⟨.writeNoent (validName_of_nameError valid) (lookup_of_find_none absent), hD⟩
  | writeNospc _ found => exact ⟨.writeNospc (lookup_of_find found), hD⟩
  | @writeOk n buf len _ i valid found =>
    obtain ⟨b, hb⟩ := content_of_find found
    have hi := hD.slot i n b hb
    have honly : ∀ j c, D j = some (n, c) → j = i := fun j c hj ↦ hD.once j i n c b hj hb
    rw [lookup_update_some hi (fun j hj c hc ↦ hj.ne (honly j c hc)) fun m c hm ↦ by
      rw [hb, Option.some.injEq, Prod.mk.injEq] at hm
      exact hm.1.symm]
    refine ⟨.writeOk (lookup_of_find found), hD.update hi ?_ ?_⟩
    · rintro _ _ ⟨⟩
      exact valid
    · rintro _ _ j c ⟨⟩ hj
      exact honly j c hj
  | read => exact ⟨hD.read hlen, hD⟩
  | unlinkNoent valid absent =>
    exact ⟨.unlinkNoent (validName_of_nameError valid) (lookup_of_find_none absent), hD⟩
  | @unlinkOk n _ i _ found =>
    obtain ⟨b, hb⟩ := content_of_find found
    rw [hD.lookup_update_none hb]
    refine ⟨.unlinkOk (lookup_of_find found), hD.update (hD.slot i n b hb) ?_ ?_⟩
    · rintro _ _ ⟨⟩
    · rintro _ _ _ _ ⟨⟩

theorem proper_empty : Proper empty := ⟨nofun, nofun, nofun⟩

theorem lookup_empty : empty.lookup = FileMap.empty := by
  funext n
  exact lookup_of_find_none (List.find?_range_eq_none.mpr fun _ _ ↦ rfl)

end Directory

/-! ## Runs -/

/-- **Refinement.** On a device that does not fail, every run of operations on a mounted volume that
was just formatted is a behaviour of a map from names to byte strings that is empty at first. -/
theorem mcsfs1_refines_fileMap {dev : Blkdev} (hfails : ¬Faulty dev.fails) {s s₀ s₁ t : Disk Block}
    (hformat : (mcsfs1Format (some dev)).run s = .ok () s₀) {mnt : Mount}
    (hmount : (mcsfs1Mount (some dev)).run s₀.fresh = .ok mnt s₁)
    {es : List (FileCall × Ret)}
    (hrun : Run (fun c ↦ step (some mnt) c.toCall) (fun _ c ↦ c.Allowed) s₁ es t) :
    ∃ M, Behaviour FileMap.Step FileMap.empty es M := by
  obtain ⟨rfl, hdev, hcount, hshows⟩ := shows_of_mounted hformat hmount
  let R (M : FileMap) (u : Disk Block) : Prop :=
    ∃ D : Directory, D.lookup = M ∧ D.Proper ∧ Shows mnt.dev.blockCount D (volumeOf u.block)
  have hstart : R FileMap.empty s₁ :=
    ⟨.empty, Directory.lookup_empty, Directory.proper_empty, hshows⟩
  have hstep : ∀ M u (c : FileCall), R M u → c.Allowed →
      ∃ M', FileMap.Step c (step (some mnt) c.toCall u).1 M M' ∧
        R M' (step (some mnt) c.toCall u).2 := by
    rintro _ u c ⟨D, rfl, hD, hshows⟩ hc
    have hlen : c.name.length ≠ maxName := by
      have hle := hc.1
      rw [maxName]
      omega
    obtain ⟨⟨D', hstep, hshows'⟩, -⟩ := hshows.step hdev hcount hlen
    obtain ⟨hmap, hD'⟩ := hstep.lookup hfails hc hD
    exact ⟨D'.lookup, hmap, D', rfl, hD', hshows'⟩
  obtain ⟨M, hM, -⟩ := hrun.refines hstart hstep
  exact ⟨M, hM⟩

def fileA : CStr := ⟨[97], by decide⟩

/-- A file is created, three bytes are written into it and read back. -/
theorem mcsfs1_refines_fileMap_three : ∃ M, Behaviour FileMap.Step FileMap.empty
    [(.create fileA, .status (.ok ())),
      (.write fileA (some fun i ↦ .ofNat i) 3, .status (.ok ())),
      (.read fileA 10, .bytes (.ok (3, [0, 1, 2])))] M := by
  let call (c : FileCall) (s : Disk Block) := step (some plainMount) c.toCall s
  have hcreate : (call (.create fileA) mountedDisk).1 = .status (.ok ()) := by
    decide +kernel
  have hwrite : (call (.write fileA (some fun i ↦ .ofNat i) 3)
      (call (.create fileA) mountedDisk).2).1 = .status (.ok ()) := by
    decide +kernel
  have hread : (call (.read fileA 10)
      (call (.write fileA (some fun i ↦ .ofNat i) 3)
        (call (.create fileA) mountedDisk).2).2).1 = .bytes (.ok (3, [0, 1, 2])) := by
    decide +kernel
  have hrun : Run call (fun _ c ↦ c.Allowed) mountedDisk _ _ :=
    ((Run.nil.snoc (.create fileA) ⟨by decide, trivial⟩).snoc
      (.write fileA (some fun i ↦ .ofNat i) 3) ⟨by decide, by decide, nofun⟩).snoc
        (.read fileA 10) ⟨by decide, trivial⟩
  rw [hcreate, hwrite, hread] at hrun
  exact mcsfs1_refines_fileMap not_faulty_plainDev run_mcsfs1Format_plainDev
    run_mcsfs1Mount_plainDev hrun

/-- The empty name is not in the map of a volume without files, yet `mcsfs1_create` neither succeeds
nor answers that there is no space. -/
theorem create_empty_name_inval :
    (mcsfs1Format (some plainDev)).run blankDisk = .ok () formattedDisk ∧
      (mcsfs1Mount (some plainDev)).run formattedDisk.fresh = .ok plainMount mountedDisk ∧
      (step (some plainMount) (FileCall.create ⟨[], by decide⟩).toCall mountedDisk).1 =
        .status (.error .inval) :=
  ⟨run_mcsfs1Format_plainDev, run_mcsfs1Mount_plainDev, by decide +kernel⟩

end Mcsfs1

end Mcsos
