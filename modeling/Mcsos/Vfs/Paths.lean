import Mcsos.Vfs.Ramfs

/-!
# What the path functions read and return

The functions that walk a path read its bytes one after the other and stop at a NUL. They are
described for a set `P` of indices that contains the first index and, with each index whose byte is
not NUL, the next one (`Ahead`): only indices of `P` are read. A path that does not start with `/`
is not walked at all (`Within`). The set of all indices is such a set, and so is the set of the
indices up to a NUL (`within_le`).

What the functions return is a node of the table, found or created (`Located`).
-/

namespace Mcsos

namespace Vfs

open Reads

/-- A set of indices that a walk along the path does not leave. -/
structure Ahead (path : Mem) (P : ℕ → Prop) : Prop where
  start : P 0
  next : ∀ i, P i → path i ≠ 0 → P (i + 1)

variable {path : Mem} {P : ℕ → Prop} {fs : Ramfs}

/-- A set of indices that a lookup does not leave. -/
structure Within (path : Mem) (P : ℕ → Prop) : Prop where
  start : P 0
  next : path 0 = '/'.toUInt8 → ∀ i, P i → path i ≠ 0 → P (i + 1)

theorem Within.ahead (h : Within path P) (hslash : ¬path 0 ≠ '/'.toUInt8) : Ahead path P :=
  ⟨h.start, h.next (not_not.mp hslash)⟩

theorem within_true : Within path fun _ ↦ True := ⟨trivial, fun _ _ _ _ ↦ trivial⟩

theorem within_le {n : ℕ} (h : path n = 0) : Within path (· ≤ n) where
  start := Nat.zero_le n
  next _ i hi hne := by
    rcases Nat.lt_or_eq_of_le hi with hlt | rfl
    · exact hlt
    · exact absurd h hne

/-- A path that does not start with `/` is read at its first byte only. -/
theorem within_zero (h : path 0 ≠ '/'.toUInt8) : Within path (· = 0) where
  start := rfl
  next hslash := absurd hslash h

/-! ## Strings -/

theorem spec_strlenFrom (hP : Ahead path P) {k n : ℕ} (hn : P n) :
    Spec (strlenFrom k n) path P fun _ ↦ True := by
  induction k generalizing n with
  | zero => exact spec_diverge
  | succ k ih =>
    refine spec_bind (spec_get hn (spec_ite (fun _ ↦ spec_pure trivial) fun hne ↦ ?_))
    exact ih (hP.next n hn hne)

theorem spec_mcsStrlen (hP : Ahead path P) : Spec mcsStrlen path P fun _ ↦ True :=
  spec_strlenFrom hP hP.start

/-- `mcs_strlen` reads every byte up to and including the first NUL. -/
theorem mem_strlenFrom {k n i : ℕ} (hn : n ≤ i) (hk : i < n + k)
    (h : ∀ j, n ≤ j → j < i → path j ≠ 0) : i ∈ (strlenFrom k n path).2 := by
  induction k generalizing n with
  | zero => omega
  | succ k ih =>
    have hget : (get n path).1 = some (path n) := rfl
    rw [strlenFrom, bind_apply_some _ hget]
    rcases Nat.eq_or_lt_of_le hn with rfl | hlt
    · exact List.mem_append_left _ (List.mem_singleton.mpr rfl)
    · refine List.mem_append_right _ ?_
      rw [if_neg (h n le_rfl hlt)]
      exact ih hlt (by omega) fun j hj hji ↦ h j (by omega) hji

theorem mem_mcsRamfsLookup (hslash : path 0 = '/'.toUInt8) {i : ℕ} (hi : i ∈ (mcsStrlen path).2) :
    i ∈ (mcsRamfsLookup fs path).2 := by
  have hget : (get 0 path).1 = some (path 0) := rfl
  rw [mcsRamfsLookup, bind_apply_some _ hget]
  refine List.mem_append_right _ ?_
  rw [if_neg (not_not.mpr hslash)]
  exact mem_bind _ hi

/-- The indices from `lo` to `hi` belong to `P`. -/
def Between (P : ℕ → Prop) (lo hi : ℕ) : Prop := ∀ i, lo ≤ i → i ≤ hi → P i

theorem spec_segmentEnd (hP : Ahead path P) {k pos : ℕ} (hpos : P pos) :
    Spec (segmentEnd k pos) path P fun next ↦ pos ≤ next ∧ Between P pos next := by
  induction k generalizing pos with
  | zero => exact spec_diverge
  | succ k ih =>
    refine spec_bind (spec_get hpos (spec_ite (fun hne ↦ ?_) fun _ ↦ spec_pure ?_))
    · refine spec_mono (ih (hP.next pos hpos hne.2)) fun next hnext ↦
        ⟨by omega, fun i hi hin ↦ ?_⟩
      rcases Nat.eq_or_lt_of_le hi with rfl | hlt
      · exact hpos
      · exact hnext.2 i hlt hin
    · exact ⟨le_rfl, fun i hi hin ↦ (Nat.le_antisymm hi hin) ▸ hpos⟩

theorem spec_streqFrom {seg : ℕ} {b : Mem} {i k : ℕ} (h : ∀ j, i ≤ j → j < i + k → P (seg + j)) :
    Spec (streqFrom seg b i k) path P fun _ ↦ True := by
  induction k generalizing i with
  | zero => exact spec_pure trivial
  | succ k ih =>
    refine spec_bind (spec_get (h i le_rfl (by omega)) (spec_ite (fun _ ↦ spec_pure trivial)
      fun _ ↦ ih fun j hj hjk ↦ h j (by omega) (by omega)))

theorem spec_copyNameFrom {seg : ℕ} {i k : ℕ} {dst : Mem}
    (h : ∀ j, i ≤ j → j < i + k → P (seg + j)) :
    Spec (copyNameFrom seg i k dst) path P fun _ ↦ True := by
  induction k generalizing i dst with
  | zero => exact spec_pure trivial
  | succ k ih =>
    refine spec_ite (fun _ ↦ spec_bind (spec_get (h i le_rfl (by omega)) ?_))
      fun _ ↦ spec_pure trivial
    exact ih fun j hj hjk ↦ h j (by omega) (by omega)

theorem Between.segment {lo hi : ℕ} (h : Between P lo hi) {j : ℕ} (hj : j < 0 + (hi - lo)) :
    P (lo + j) :=
  h (lo + j) (by omega) (by omega)

/-! ## Lookup -/

/-- A result that is a node satisfies `Q`. -/
def IsNode (Q : ℕ → Prop) (r : Except Err ℕ) : Prop := ∀ i, r = .ok i → Q i

theorem isNode_error {Q : ℕ → Prop} {e : Err} : IsNode Q (.error e) := fun _ h ↦ nomatch h

theorem isNode_ok {Q : ℕ → Prop} {i : ℕ} (h : Q i) : IsNode Q (.ok i) := fun j hj ↦ by
  obtain rfl := Except.ok.inj hj
  exact h

theorem spec_findChildFrom {parent seg hi : ℕ} (h : Between P seg hi) {i k : ℕ}
    (hk : i + k ≤ fs.nodeCount) :
    Spec (findChildFrom fs parent seg (hi - seg) i k) path P (IsNode (· < fs.nodeCount)) := by
  induction k generalizing i with
  | zero => exact spec_pure isNode_error
  | succ k ih =>
    refine spec_ite (fun _ ↦ spec_bind (spec_mono (spec_streqFrom fun j _ hj ↦ h.segment hj)
      fun same _ ↦ spec_ite (fun _ ↦ spec_pure (isNode_ok ?_)) fun _ ↦ ih (by omega)))
      fun _ ↦ ih (by omega)
    omega

theorem spec_mcsFindChild {parent seg hi : ℕ} (h : Between P seg hi) :
    Spec (mcsFindChild fs parent seg (hi - seg)) path P (IsNode (· < fs.nodeCount)) :=
  spec_ite (fun _ ↦ spec_pure isNode_error) fun _ ↦ spec_findChildFrom h (by omega)

theorem spec_lookupFrom (hP : Ahead path P) {k cur seg : ℕ} (hseg : P seg) :
    Spec (lookupFrom fs k cur seg) path P (IsNode (· < fs.nodeCount)) := by
  induction k generalizing cur seg with
  | zero => exact spec_diverge
  | succ k ih =>
    refine spec_bind (spec_get hseg (spec_ite (fun _ ↦ spec_pure isNode_error) fun _ ↦ ?_))
    refine spec_bind (spec_mono (spec_segmentEnd hP hseg) fun next ⟨hle, hbetween⟩ ↦ ?_)
    refine spec_ite (fun _ ↦ spec_pure isNode_error) fun _ ↦ ?_
    refine spec_bind (spec_mono (spec_mcsFindChild hbetween) fun r hr ↦ ?_)
    have hnext : P next := hbetween next hle le_rfl
    cases r with
    | error e => exact spec_pure isNode_error
    | ok child =>
      refine spec_bind (spec_get hnext (spec_ite (fun _ ↦ spec_pure (isNode_ok (hr child rfl)))
        fun hne ↦ spec_ite (fun _ ↦ spec_pure isNode_error) fun _ ↦ ?_))
      exact ih (hP.next next hnext hne)

theorem Ahead.one (hP : Ahead path P) (h : ¬path 0 ≠ '/'.toUInt8) : P 1 :=
  hP.next 0 hP.start (by rw [not_not.mp h]; decide)

theorem spec_mcsRamfsLookup (hP : Within path P) (hfs : 0 < fs.nodeCount) :
    Spec (mcsRamfsLookup fs) path P (IsNode (· < fs.nodeCount)) := by
  refine spec_bind (spec_get hP.start (spec_ite (fun _ ↦ spec_pure isNode_error) fun hslash ↦ ?_))
  replace hP := hP.ahead hslash
  refine spec_bind (spec_mono (spec_mcsStrlen hP) fun n _ ↦ ?_)
  refine spec_ite (fun _ ↦ spec_pure isNode_error) fun _ ↦ ?_
  refine spec_bind (spec_get (hP.one hslash) (spec_ite (fun _ ↦ spec_pure (isNode_ok hfs))
    fun _ ↦ ?_))
  exact spec_lookupFrom hP (hP.one hslash)

/-! ## Creation -/

theorem spec_splitFrom (hP : Ahead path P) {k cur seg : ℕ} (hseg : P seg) :
    Spec (splitFrom fs k cur seg) path P fun r ↦
      ∀ parent leaf len, r = .ok (parent, leaf, len) → ∀ j < 0 + len, P (leaf + j) := by
  induction k generalizing cur seg with
  | zero => exact spec_diverge
  | succ k ih =>
    refine spec_bind (spec_mono (spec_segmentEnd hP hseg) fun next ⟨hle, hbetween⟩ ↦ ?_)
    refine spec_ite (fun _ ↦ spec_pure fun _ _ _ h ↦ nomatch h) fun _ ↦ ?_
    have hnext : P next := hbetween next hle le_rfl
    refine spec_bind (spec_get hnext (spec_ite (fun _ ↦ spec_pure fun _ _ _ h ↦ ?_) fun hne ↦ ?_))
    · cases h
      exact fun j hj ↦ hbetween.segment hj
    · refine spec_bind (spec_mono (spec_mcsFindChild hbetween) fun r _ ↦ ?_)
      cases r with
      | error e => exact spec_pure fun _ _ _ h ↦ nomatch h
      | ok child =>
        exact spec_ite (fun _ ↦ spec_pure fun _ _ _ h ↦ nomatch h)
          fun _ ↦ ih (hP.next next hnext hne)

theorem spec_mcsSplitParentLeaf (hP : Within path P) :
    Spec (mcsSplitParentLeaf fs) path P fun r ↦
      ∀ parent leaf len, r = .ok (parent, leaf, len) → ∀ j < 0 + len, P (leaf + j) := by
  refine spec_bind (spec_get hP.start (spec_ite (fun _ ↦ spec_pure fun _ _ _ h ↦ nomatch h)
    fun hslash ↦ ?_))
  replace hP := hP.ahead hslash
  refine spec_bind (spec_get (hP.one hslash) (spec_ite (fun _ ↦ spec_pure fun _ _ _ h ↦ nomatch h)
    fun _ ↦ ?_))
  refine spec_bind (spec_mono (spec_mcsStrlen hP) fun n _ ↦ ?_)
  exact spec_ite (fun _ ↦ spec_pure fun _ _ _ h ↦ nomatch h)
    fun _ ↦ spec_splitFrom hP (hP.one hslash)

/-- What a call that looks for a node and may create a file gives: an error, a node of the table
that satisfies `Q`, or the file that was added to the table. -/
inductive Located (Q : ℕ → Prop) (fs : Ramfs) : Except Err ℕ × Ramfs → Prop
  | failed (e : Err) : Located Q fs (.error e, fs)
  | found (i : ℕ) (lt : i < fs.nodeCount) (ok : Q i) : Located Q fs (.ok i, fs)
  | created (parent : ℕ) (name : Mem) (node : fs.nodeCount < maxNodes)
    (room : fs.dataUsed + 256 ≤ ramfsDataBytes) :
    Located Q fs (.ok fs.nodeCount, fs.addNode parent .file name 256)

theorem spec_mcsAllocNode {Q : ℕ → Prop} {parent seg len : ℕ} (h : ∀ j < 0 + len, P (seg + j)) :
    Spec (mcsAllocNode fs parent .file seg len 256) path P (Located Q fs) := by
  refine spec_ite (fun _ ↦ spec_pure (.failed _)) fun _ ↦ ?_
  refine spec_ite (fun _ ↦ spec_pure (.failed _)) fun hnode ↦ ?_
  refine spec_ite (fun _ ↦ spec_pure (.failed _)) fun hroom ↦ ?_
  refine spec_bind (spec_mono (spec_copyNameFrom fun j _ hj ↦ h j hj) fun name _ ↦ ?_)
  exact spec_pure (.created parent name (by omega) (by simpa using hroom))

theorem spec_createLeaf {Q : ℕ → Prop} (hP : Within path P) :
    Spec (mcsSplitParentLeaf fs >>= fun r ↦
      match r with
      | .error e => pure (.error e, fs)
      | .ok (parent, leaf, leafLen) =>
        if (fs.nodes parent).type ≠ .dir then pure (.error .notdir, fs)
        else mcsAllocNode fs (fs.nodes parent).id .file leaf leafLen 256) path P
      (Located Q fs) := by
  refine spec_bind (spec_mono (spec_mcsSplitParentLeaf hP) fun r hr ↦ ?_)
  match r, hr with
  | .error e, _ => exact spec_pure (.failed e)
  | .ok (parent, leaf, len), hr =>
    exact spec_ite (fun _ ↦ spec_pure (.failed _))
      fun _ ↦ spec_mcsAllocNode (hr parent leaf len rfl)

theorem spec_mcsRamfsCreateFile (hP : Within path P) (hfs : 0 < fs.nodeCount) :
    Spec (mcsRamfsCreateFile fs) path P (Located (fun i ↦ (fs.nodes i).type = .file) fs) := by
  refine spec_bind (spec_mono (spec_mcsRamfsLookup hP hfs) fun r hr ↦ ?_)
  cases r with
  | ok existing =>
    exact spec_ite (fun _ ↦ spec_pure (.failed _))
      fun hfile ↦ spec_pure (.found existing (hr existing rfl) (not_not.mp hfile))
  | error e => exact spec_createLeaf hP

/-- A path that does not resolve is not found by `mcs_ramfs_create_file` either. -/
theorem located_of_lookup_error {e : Err} (h : (mcsRamfsLookup fs path).1 = some (.error e))
    {res : Except Err ℕ × Ramfs} (hres : (mcsRamfsCreateFile fs path).1 = some res) :
    Located (fun _ ↦ False) fs res := by
  rw [mcsRamfsCreateFile, bind_apply_some _ h] at hres
  exact (spec_createLeaf within_true).result res hres

end Vfs

end Mcsos
