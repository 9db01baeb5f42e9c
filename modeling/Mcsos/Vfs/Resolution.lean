import Mathlib.Data.List.TakeWhile
import Mcsos.Base.CString
import Mcsos.Vfs.Isolation

/-!
# Path resolution

The root directory is the only directory that is ever made, so every file is a child of the root
(`Ramfs.Flat`), and a path of more than one segment resolves to nothing. The two functions that cut
a path into segments, `mcs_ramfs_lookup` and `mcs_split_parent_leaf`, stop in their first round.

What they find there is the first segment of the path (`leaf`). It is compared with the names of the
nodes, one of which is the root itself, whose name `/` is no segment. `Resolves` is therefore
equality of the path with the one path of the node (`resolves_iff`).
-/

namespace Mcsos

namespace Vfs

open Reads

/-- A path that a caller passes: a string that fits into memory. -/
structure Path extends CStr where
  lt : bytes.length < steps

variable {c : CStr} {path : Path} {m : Mem} {fs : Ramfs} {s : State}

/-! ## Strings -/

theorem strlenFrom_fst {k n : ℕ} (hn : n ≤ c.length) (hk : c.length < n + k) :
    (strlenFrom k n c.char).1 = some c.length := by
  induction k generalizing n with
  | zero => omega
  | succ k ih =>
    rw [strlenFrom, bind_fst, get_fst, Option.bind_some, ite_fst]
    split_ifs with h0
    · rw [pure_fst, Nat.le_antisymm hn (CStr.char_eq_zero_iff.mp h0)]
    · have hne : n ≠ c.length := fun h ↦ h0 (CStr.char_eq_zero_iff.mpr h.ge)
      exact ih (by omega) (by omega)

theorem mcsStrlen_fst (path : Path) : (mcsStrlen path.char).1 = some path.length :=
  strlenFrom_fst (Nat.zero_le _) (by rw [Nat.zero_add]; exact path.lt)

/-- The byte that separates the segments of a path. -/
def slash : UInt8 := '/'.toUInt8

/-- A segment ends at the next `/`, or where the path does. -/
theorem segmentEnd_fst (pre : List UInt8) {rest : List UInt8} {k : ℕ}
    (h : c.bytes = pre ++ rest) (hk : rest.length < k) :
    (segmentEnd k pre.length c.char).1 =
      some (pre.length + (rest.takeWhile (· ≠ slash)).length) := by
  induction rest generalizing pre k with
  | nil =>
    obtain ⟨k, rfl⟩ : ∃ j, k = j + 1 := ⟨k - 1, by omega⟩
    have h0 : c.char pre.length = 0 := CStr.char_eq_zero_iff.mpr (by rw [CStr.length, h]; simp)
    rw [segmentEnd, bind_fst, get_fst, Option.bind_some, ite_fst, if_neg (fun hne ↦ hne.2 h0)]
    rfl
  | cons b rest ih =>
    obtain ⟨k, rfl⟩ : ∃ j, k = j + 1 := ⟨k - 1, by omega⟩
    have hb : c.char pre.length = b := by simp [CStr.char, h]
    have h0 : b ≠ 0 := fun h0 ↦ c.zero_notMem (by rw [h, h0]; simp)
    rw [segmentEnd, bind_fst, get_fst, Option.bind_some, ite_fst, hb]
    by_cases hslash : b = slash
    · rw [if_neg (fun hne ↦ hne.1 hslash), List.takeWhile_cons_of_neg (by simpa using hslash)]
      rfl
    · rw [if_pos ⟨hslash, h0⟩, List.takeWhile_cons_of_pos (by simpa using hslash)]
      have hrest := ih (pre ++ [b]) (by rw [h]; simp) (Nat.lt_of_succ_lt_succ hk)
      rw [List.length_append, List.length_singleton] at hrest
      rw [hrest, List.length_cons]
      congr 1
      omega

theorem streqFrom_fst {seg : ℕ} {b : Mem} {i k : ℕ} :
    ∃ same, (streqFrom seg b i k m).1 = some same ∧
      (same = true ↔ (∀ j < i + k, i ≤ j → m (seg + j) = b j) ∧ b (i + k) = 0) := by
  induction k generalizing i with
  | zero =>
    refine ⟨_, pure_fst _ m, ?_⟩
    rw [decide_eq_true_iff]
    exact ⟨fun h0 ↦ ⟨fun j hj hij ↦ by omega, h0⟩, And.right⟩
  | succ k ih =>
    rw [streqFrom, bind_fst, get_fst, Option.bind_some, ite_fst]
    by_cases hne : m (seg + i) ≠ b i
    · rw [if_pos hne]
      exact ⟨false, rfl, iff_of_false Bool.noConfusion fun h ↦ hne (h.1 i (by omega) le_rfl)⟩
    · obtain ⟨same, hres, hiff⟩ := ih (i := i + 1)
      rw [if_neg hne, show i + (k + 1) = i + 1 + k by omega]
      refine ⟨same, hres, hiff.trans (and_congr_left' ⟨fun h j hj hij ↦ ?_, fun h j hj hij ↦ ?_⟩)⟩
      · rcases Nat.eq_or_lt_of_le hij with rfl | hlt
        · exact not_not.mp hne
        · exact h j hj hlt
      · exact h j hj (by omega)

theorem copyNameFrom_fst {seg i k : ℕ} {dst : Mem} (hk : i + k < maxName) :
    (copyNameFrom seg i k dst m).1 =
      some fun j ↦ if i ≤ j ∧ j < i + k then m (seg + j) else dst j := by
  induction k generalizing i dst with
  | zero =>
    rw [copyNameFrom, pure_fst]
    refine congrArg some (funext fun j ↦ ?_)
    rw [if_neg (by omega)]
  | succ k ih =>
    rw [copyNameFrom, if_pos (by omega), bind_fst, get_fst, Option.bind_some, ih (by omega)]
    refine congrArg some (funext fun j ↦ ?_)
    by_cases hij : j = i
    · rw [hij, if_neg (by omega), if_pos (by omega), Function.update_self]
    · rw [Function.update_of_ne hij]
      exact if_congr (by omega) rfl rfl

/-! ## A file system with one directory -/

/-- The name of a node. -/
def Vnode.nameBytes (v : Vnode) : List UInt8 := v.name.str maxName

/-- A segment of a path that can be the name of a file. -/
structure IsName (name : List UInt8) : Prop where
  pos : 0 < name.length
  lt : name.length < maxName
  notMem : slash ∉ name

/-- Node 0 is the root, and all others are files in it with different names. -/
structure Ramfs.Flat (fs : Ramfs) : Prop where
  pos : 0 < fs.nodeCount
  root : (fs.nodes 0).id = 0 ∧ (fs.nodes 0).type = .dir ∧ (fs.nodes 0).nameBytes = [slash]
  file : ∀ i, 0 < i → i < fs.nodeCount → (fs.nodes i).used = true ∧ (fs.nodes i).parent = 0 ∧
    (fs.nodes i).type = .file
  name : ∀ i, 0 < i → i < fs.nodeCount → IsName (fs.nodes i).nameBytes
  distinct : ∀ i j, i < fs.nodeCount → j < fs.nodeCount →
    (fs.nodes i).nameBytes = (fs.nodes j).nameBytes → i = j

/-- `mcs_find_child` takes the node. -/
structure IsChild (fs : Ramfs) (parent seg n : ℕ) (m : Mem) (i : ℕ) : Prop where
  used : (fs.nodes i).used = true
  parent : (fs.nodes i).parent = parent
  same : ∀ j < n, m (seg + j) = (fs.nodes i).name j
  ends : (fs.nodes i).name n = 0

theorem findChildFrom_fst {parent seg n i k : ℕ} :
    ∃ r, (findChildFrom fs parent seg n i k m).1 = some r ∧
      ((∃ j, r = .ok j ∧ j < i + k ∧ IsChild fs parent seg n m j) ∨
        (∃ e, r = .error e) ∧ ∀ j, i ≤ j → j < i + k → ¬IsChild fs parent seg n m j) := by
  induction k generalizing i with
  | zero => exact ⟨_, pure_fst _ m, .inr ⟨⟨_, rfl⟩, fun j hij hj ↦ by omega⟩⟩
  | succ k ih =>
    obtain ⟨r, hrest, hr⟩ := ih (i := i + 1)
    rw [show i + 1 + k = i + (k + 1) by omega] at hr
    -- node `i` is not taken, and the search goes on
    have hskip (hno : ¬IsChild fs parent seg n m i) :
        (∃ j, r = .ok j ∧ j < i + (k + 1) ∧ IsChild fs parent seg n m j) ∨
          (∃ e, r = .error e) ∧
            ∀ j, i ≤ j → j < i + (k + 1) → ¬IsChild fs parent seg n m j := by
      refine hr.imp_right (And.imp_right fun hnone j hij hj ↦ ?_)
      rcases Nat.eq_or_lt_of_le hij with rfl | hlt
      · exact hno
      · exact hnone j hlt hj
    rw [findChildFrom, ite_fst]
    by_cases hnode : (fs.nodes i).used = true ∧ (fs.nodes i).parent = parent
    · obtain ⟨same, hsame, hiff⟩ := @streqFrom_fst m seg (fs.nodes i).name 0 n
      rw [Nat.zero_add] at hiff
      rw [if_pos hnode, bind_fst, mcsStreqN, hsame, Option.bind_some, ite_fst]
      split_ifs with htrue
      · obtain ⟨hchars, hends⟩ := hiff.mp htrue
        exact ⟨_, rfl, .inl ⟨i, rfl, by omega, hnode.1, hnode.2,
          fun j hj ↦ hchars j hj (Nat.zero_le j), hends⟩⟩
      · exact ⟨r, hrest, hskip fun h ↦ htrue (hiff.mpr ⟨fun j hj _ ↦ h.same j hj, h.ends⟩)⟩
    · rw [if_neg hnode]
      exact ⟨r, hrest, hskip fun h ↦ hnode ⟨h.used, h.parent⟩⟩

/-- The children of the root are compared by their names. The root itself is none of them: its name
is not a segment of a path. -/
theorem Ramfs.Flat.isChild_iff (h : fs.Flat) {seg i : ℕ} (hc : IsName c.bytes)
    (hm : ∀ j < c.length, m (seg + j) = c.char j) (hi : i < fs.nodeCount) :
    IsChild fs 0 seg c.length m i ↔ 0 < i ∧ (fs.nodes i).nameBytes = c.bytes := by
  have hname : (fs.nodes i).nameBytes = c.bytes ↔ ∀ j ≤ c.length, (fs.nodes i).name j = c.char j :=
    Mem.str_eq_iff hc.lt
  have hend : c.char c.length = 0 := CStr.char_eq_zero_iff.mpr le_rfl
  constructor
  · intro hchild
    have heq : (fs.nodes i).nameBytes = c.bytes := by
      refine hname.mpr fun j hj ↦ ?_
      rcases Nat.lt_or_eq_of_le hj with hlt | rfl
      · rw [← hchild.same j hlt, hm j hlt]
      · rw [hchild.ends, hend]
    refine ⟨Nat.pos_of_ne_zero ?_, heq⟩
    rintro rfl
    rw [h.root.2.2] at heq
    exact hc.notMem (heq ▸ List.mem_singleton.mpr rfl)
  · rintro ⟨hpos, heq⟩
    obtain ⟨hused, hparent, -⟩ := h.file i hpos hi
    rw [hname] at heq
    refine ⟨hused, hparent, fun j hj ↦ ?_, ?_⟩
    · rw [hm j hj, heq j hj.le]
    · rw [heq _ le_rfl, hend]

/-! ## The first segment -/

/-- The first segment of a path that starts with `/`. -/
def Path.leaf (path : Path) : CStr where
  bytes := (path.bytes.drop 1).takeWhile (· ≠ slash)
  zero_notMem h := path.zero_notMem
    (List.mem_of_mem_drop ((List.takeWhile_sublist _).subset h))

theorem slash_notMem_leaf (path : Path) : slash ∉ path.leaf.bytes := fun h ↦ by
  simpa using List.mem_takeWhile_imp h

theorem isName_leaf_iff (path : Path) : IsName path.leaf.bytes ↔
    ¬(path.leaf.length = 0 ∨ path.leaf.length ≥ maxName) :=
  ⟨fun h hlen ↦ hlen.elim h.pos.ne' h.lt.not_ge, fun h ↦ ⟨Nat.pos_of_ne_zero fun h0 ↦ h (.inl h0),
    Nat.lt_of_not_le fun hge ↦ h (.inr hge), slash_notMem_leaf path⟩⟩

section Leaf

variable {rest : List UInt8} (hpath : path.bytes = slash :: rest)
include hpath

theorem leaf_bytes : path.leaf.bytes = rest.takeWhile (· ≠ slash) := by
  change (path.bytes.drop 1).takeWhile _ = _
  rw [hpath, List.drop_one, List.tail_cons]

theorem char_zero : path.char 0 = slash := by
  rw [CStr.char, hpath]
  rfl

theorem char_one_eq_zero_iff : path.char 1 = 0 ↔ rest = [] := by
  rw [CStr.char_eq_zero_iff, CStr.length, hpath, List.length_cons, ← List.length_eq_zero_iff]
  omega

theorem segmentEnd_leaf : (segmentEnd steps 1 path.char).1 = some (1 + path.leaf.length) := by
  have hlt := path.lt
  rw [hpath, List.length_cons] at hlt
  rw [CStr.length, leaf_bytes hpath]
  exact segmentEnd_fst [slash] hpath (by omega)

theorem char_leaf {j : ℕ} (hj : j < path.leaf.length) : path.char (1 + j) = path.leaf.char j := by
  have hle := (List.takeWhile_sublist (l := rest) fun x ↦ decide (x ≠ slash)).length_le
  rw [CStr.length, leaf_bytes hpath] at hj
  rw [CStr.char, CStr.char, hpath, leaf_bytes hpath, Nat.add_comm, List.getD_cons_succ,
    List.getD_eq_getElem _ _ hj, List.getD_eq_getElem _ _ (by omega)]
  exact (( List.takeWhile_prefix _).getElem hj).symm

theorem char_leaf_end : path.char (1 + path.leaf.length) = 0 ↔ path.leaf.bytes = rest := by
  rw [CStr.char_eq_zero_iff, CStr.length, CStr.length, hpath, leaf_bytes hpath, List.length_cons]
  constructor
  · intro hle
    exact ( List.takeWhile_prefix _).eq_of_length_le (by omega)
  · intro heq
    rw [heq]
    omega

theorem leaf_eq_of_notMem (h : slash ∉ rest) : path.leaf.bytes = rest := by
  rw [leaf_bytes hpath, List.takeWhile_eq_self_iff]
  exact fun b hb ↦ decide_eq_true fun heq ↦ h (heq ▸ hb)

theorem Ramfs.Flat.findChild (h : fs.Flat) (hname : IsName path.leaf.bytes) :
    ∃ r, (mcsFindChild fs (fs.nodes 0).id 1 path.leaf.length path.char).1 = some r ∧
      ((∃ j, r = .ok j ∧ 0 < j ∧ j < fs.nodeCount ∧ (fs.nodes j).nameBytes = path.leaf.bytes) ∨
        (∃ e, r = .error e) ∧
          ∀ j, 0 < j → j < fs.nodeCount → (fs.nodes j).nameBytes ≠ path.leaf.bytes) := by
  have hchild := fun j ↦ h.isChild_iff hname (i := j) fun l hl ↦ char_leaf hpath hl
  rw [h.root.1, mcsFindChild, if_neg ((isName_leaf_iff path).mp hname)]
  obtain ⟨r, hres, hr⟩ := @findChildFrom_fst path.char fs 0 1 path.leaf.length 0 fs.nodeCount
  rw [Nat.zero_add] at hr
  refine ⟨r, hres, hr.imp ?_ (And.imp_right fun hnone j hpos hj heq ↦ ?_)⟩
  · rintro ⟨j, rfl, hj, hmatch⟩
    obtain ⟨hpos, heq⟩ := (hchild j hj).mp hmatch
    exact ⟨j, rfl, hpos, hj, heq⟩
  · exact hnone j (Nat.zero_le j) hj ((hchild j hj).mpr ⟨hpos, heq⟩)

end Leaf

/-! ## Lookup -/

theorem exists_rest (h : path.char 0 = slash) : ∃ rest, path.bytes = slash :: rest := by
  cases hbytes : path.bytes with
  | nil =>
    rw [CStr.char, hbytes] at h
    exact absurd h (by decide)
  | cons b rest =>
    rw [CStr.char, hbytes] at h
    exact ⟨rest, congrArg (· :: rest) h⟩

theorem exists_error {e : Err} {P : ℕ → Prop} (hno : ∀ i, ¬P i) :
    ∃ r, some (.error e : Except Err ℕ) = some r ∧ ∀ i, r = .ok i ↔ P i :=
  ⟨_, rfl, fun i ↦ iff_of_false (fun he ↦ nomatch he) (hno i)⟩

/-- `mcs_ramfs_lookup` ends in its first round: the segment names a file, which is not a
directory. -/
theorem Ramfs.Flat.lookupFrom (h : fs.Flat) {rest : List UInt8}
    (hpath : path.bytes = slash :: rest) (hrest : rest ≠ []) :
    ∃ r, (lookupFrom fs steps 0 1 path.char).1 = some r ∧
      ∀ i, r = .ok i ↔ 0 < i ∧ i < fs.nodeCount ∧ rest = (fs.nodes i).nameBytes := by
  -- a path of several segments is not that of a file
  have hleaf : ∀ i, 0 < i → i < fs.nodeCount → rest = (fs.nodes i).nameBytes →
      path.leaf.bytes = rest := fun i hpos hi heq ↦
    leaf_eq_of_notMem hpath (heq ▸ (h.name i hpos hi).notMem)
  obtain ⟨k, hk⟩ : ∃ k, steps = k + 1 := ⟨2 ^ 64 - 1, rfl⟩
  have hone : path.char 1 ≠ 0 := (char_one_eq_zero_iff hpath).not.mpr hrest
  have hseg := segmentEnd_leaf hpath
  rw [hk, Vfs.lookupFrom, bind_fst, get_fst, Option.bind_some, ite_fst, if_neg hone,
    bind_fst, hseg, Option.bind_some, ite_fst, Nat.add_sub_cancel_left]
  by_cases hname : IsName path.leaf.bytes
  swap
  · rw [if_pos (not_not.mp ((isName_leaf_iff path).not.mp hname))]
    refine exists_error fun i ⟨hpos, hi, heq⟩ ↦ hname ?_
    rw [hleaf i hpos hi heq, heq]
    exact h.name i hpos hi
  obtain ⟨r, hres, hr⟩ := h.findChild hpath hname
  rw [if_neg ((isName_leaf_iff path).mp hname), bind_fst, hres, Option.bind_some]
  rcases hr with ⟨j, rfl, hpos, hj, heq⟩ | ⟨⟨e, rfl⟩, hnone⟩
  · dsimp only
    rw [bind_fst, get_fst, Option.bind_some, ite_fst]
    by_cases hend : path.char (1 + path.leaf.length) = 0
    · rw [if_pos hend]
      have hrest' := (char_leaf_end hpath).mp hend
      refine ⟨_, rfl, fun i ↦ ⟨fun hi ↦ ?_, fun ⟨hipos, hi, hieq⟩ ↦ ?_⟩⟩
      · obtain rfl := Except.ok.inj hi
        exact ⟨hpos, hj, hrest'.symm.trans heq.symm⟩
      · rw [h.distinct j i hj hi (heq.trans (hrest'.trans hieq))]
    · rw [if_neg hend, ite_fst, if_pos (by rw [(h.file j hpos hj).2.2]; decide)]
      exact exists_error fun i ⟨hipos, hi, hieq⟩ ↦
        hend ((char_leaf_end hpath).mpr (hleaf i hipos hi hieq))
  · refine exists_error fun i ⟨hipos, hi, hieq⟩ ↦ hnone i hipos hi ?_
    rw [hleaf i hipos hi hieq, hieq]

/-- The path of node `i`. -/
def Ramfs.pathOf (fs : Ramfs) (i : ℕ) : List UInt8 :=
  if i = 0 then [slash] else slash :: (fs.nodes i).nameBytes

theorem Ramfs.Flat.lookup (h : fs.Flat) (path : Path) :
    ∃ r, (mcsRamfsLookup fs path.char).1 = some r ∧
      ∀ i, r = .ok i ↔ i < fs.nodeCount ∧ path.bytes = fs.pathOf i := by
  have hpathOf : ∀ i < fs.nodeCount, ∃ rest, fs.pathOf i = slash :: rest ∧
      rest.length < maxName := by
    intro i hi
    rw [Ramfs.pathOf]
    split_ifs with h0
    · exact ⟨[], rfl, by decide⟩
    · exact ⟨_, rfl, (h.name i (Nat.pos_of_ne_zero h0) hi).lt⟩
  rw [mcsRamfsLookup, bind_fst, get_fst, Option.bind_some, ite_fst]
  by_cases hslash : path.char 0 ≠ '/'.toUInt8
  · rw [if_pos hslash]
    refine exists_error fun i hand ↦ ?_
    obtain ⟨hi, heq⟩ := hand
    obtain ⟨rest, hrest, -⟩ := hpathOf i hi
    exact hslash (char_zero (heq.trans hrest))
  obtain ⟨rest, hpath⟩ := exists_rest (not_not.mp hslash)
  rw [if_neg hslash, bind_fst, mcsStrlen_fst, Option.bind_some, ite_fst]
  by_cases hlong : path.length ≥ maxPath
  · rw [if_pos hlong]
    refine exists_error fun i hand ↦ ?_
    obtain ⟨hi, heq⟩ := hand
    obtain ⟨rest', hrest, hlt⟩ := hpathOf i hi
    rw [CStr.length, heq, hrest, List.length_cons] at hlong
    simp only [maxPath, maxName] at hlong hlt
    omega
  rw [if_neg hlong, bind_fst, get_fst, Option.bind_some, ite_fst, hpath]
  have hone := char_one_eq_zero_iff hpath
  by_cases hroot : path.char 1 = 0
  · rw [if_pos hroot, hone.mp hroot]
    refine ⟨_, rfl, fun i ↦ ⟨fun hi ↦ ?_, fun hand ↦ ?_⟩⟩
    · obtain rfl := Except.ok.inj hi
      exact ⟨h.pos, rfl⟩
    · obtain ⟨hi, heq⟩ := hand
      rw [Ramfs.pathOf] at heq
      split_ifs at heq with h0
      · rw [h0]
      · have hpos := (h.name i (Nat.pos_of_ne_zero h0) hi).pos
        rw [← (List.cons.inj heq).2] at hpos
        exact absurd hpos (Nat.lt_irrefl 0)
  · obtain ⟨r, hres, hr⟩ := h.lookupFrom hpath (hone.not.mp hroot)
    rw [if_neg hroot]
    refine ⟨r, hres, fun i ↦ (hr i).trans ?_⟩
    rw [Ramfs.pathOf]
    split_ifs with h0
    · refine iff_of_false (fun hi ↦ hi.1.ne' h0) fun hi ↦ hone.not.mp hroot (List.cons.inj hi.2).2
    · rw [List.cons_inj_right, and_iff_right (Nat.pos_of_ne_zero h0)]

/-- `mcs_ramfs_lookup` succeeds with node `i`. -/
def Resolves (fs : Ramfs) (path : Path) (i : ℕ) : Prop :=
  (mcsRamfsLookup fs path.char).1 = some (.ok i)

theorem Ramfs.Flat.resolves_iff (h : fs.Flat) {i : ℕ} :
    Resolves fs path i ↔ i < fs.nodeCount ∧ path.bytes = fs.pathOf i := by
  obtain ⟨r, hres, hr⟩ := h.lookup path
  rw [Resolves, hres, Option.some_inj]
  exact hr i

/-! ## Creation -/

/-- A path under which a file can be created. -/
def Path.IsLeaf (path : Path) : Prop := ∃ name, path.bytes = slash :: name ∧ IsName name

theorem Ramfs.Flat.split (h : fs.Flat) (path : Path) :
    ∃ r, (mcsSplitParentLeaf fs path.char).1 = some r ∧
      (r = .ok (0, 1, path.leaf.length) ∧ path.bytes = slash :: path.leaf.bytes ∧
          IsName path.leaf.bytes ∨
        (∃ e, r = .error e) ∧ ¬path.IsLeaf) := by
  have hfail (e : Err) (hno : ¬path.IsLeaf) :
      ∃ r, some (.error e : Except Err (ℕ × ℕ × ℕ)) = some r ∧
      (r = .ok (0, 1, path.leaf.length) ∧ path.bytes = slash :: path.leaf.bytes ∧
          IsName path.leaf.bytes ∨
        (∃ e, r = .error e) ∧ ¬path.IsLeaf) :=
    ⟨_, rfl, .inr ⟨⟨e, rfl⟩, hno⟩⟩
  rw [mcsSplitParentLeaf, bind_fst, get_fst, Option.bind_some, ite_fst]
  by_cases hslash : path.char 0 ≠ '/'.toUInt8
  · rw [if_pos hslash]
    exact hfail _ fun ⟨name, hname, _⟩ ↦ hslash (char_zero hname)
  obtain ⟨rest, hpath⟩ := exists_rest (not_not.mp hslash)
  have hleaf : path.IsLeaf → path.leaf.bytes = rest ∧ IsName rest := by
    rintro ⟨name, hname, hok⟩
    obtain rfl := (List.cons.inj (hpath.symm.trans hname)).2
    exact ⟨leaf_eq_of_notMem hpath hok.notMem, hok⟩
  rw [if_neg hslash, bind_fst, get_fst, Option.bind_some, ite_fst]
  by_cases hroot : path.char 1 = 0
  · rw [if_pos hroot]
    refine hfail _ fun hno ↦ ?_
    exact List.ne_nil_of_length_pos (hleaf hno).2.pos ((char_one_eq_zero_iff hpath).mp hroot)
  rw [if_neg hroot, bind_fst, mcsStrlen_fst, Option.bind_some, ite_fst]
  by_cases hlong : path.length ≥ maxPath
  · rw [if_pos hlong]
    refine hfail _ fun hno ↦ ?_
    have hlt := (hleaf hno).2.lt
    rw [CStr.length, hpath, List.length_cons] at hlong
    simp only [maxPath, maxName] at hlong hlt
    omega
  obtain ⟨k, hk⟩ : ∃ k, steps = k + 1 := ⟨2 ^ 64 - 1, rfl⟩
  have hseg := segmentEnd_leaf hpath
  rw [if_neg hlong, hk, splitFrom, bind_fst, hseg, Option.bind_some, ite_fst,
    Nat.add_sub_cancel_left]
  by_cases hname : IsName path.leaf.bytes
  swap
  · rw [if_pos (not_not.mp ((isName_leaf_iff path).not.mp hname))]
    refine hfail _ fun hno ↦ hname ?_
    rw [(hleaf hno).1]
    exact (hleaf hno).2
  rw [if_neg ((isName_leaf_iff path).mp hname), bind_fst, get_fst, Option.bind_some, ite_fst]
  by_cases hend : path.char (1 + path.leaf.length) = 0
  · rw [if_pos hend]
    refine ⟨_, rfl, .inl ⟨rfl, ?_, hname⟩⟩
    rw [(char_leaf_end hpath).mp hend, hpath]
  -- there are more segments, and the first one names no directory
  have hno : ¬path.IsLeaf := fun hno ↦ hend ((char_leaf_end hpath).mpr (hleaf hno).1)
  obtain ⟨r, hres, hr⟩ := h.findChild hpath hname
  rw [if_neg hend, bind_fst, hres, Option.bind_some]
  rcases hr with ⟨j, rfl, hpos, hj, -⟩ | ⟨⟨e, rfl⟩, -⟩
  · dsimp only
    rw [ite_fst, if_pos (by rw [(h.file j hpos hj).2.2]; decide)]
    exact hfail _ hno
  · exact hfail _ hno

/-- A node and the data of a file are left. -/
def Ramfs.HasRoom (fs : Ramfs) : Prop :=
  fs.nodeCount < maxNodes ∧ fs.dataUsed + 256 ≤ ramfsDataBytes

/-- The ways in which `mcs_ramfs_create_file` ends. -/
inductive Creation (fs : Ramfs) (path : Path) : Except Err ℕ → Ramfs → Prop
  | isRoot (resolves : Resolves fs path 0) : Creation fs path (.error .isdir) fs
  | existing {i : ℕ} (pos : 0 < i) (resolves : Resolves fs path i) : Creation fs path (.ok i) fs
  | refused {e : Err} (unresolved : ∀ i, ¬Resolves fs path i) (no : ¬(path.IsLeaf ∧ fs.HasRoom)) :
    Creation fs path (.error e) fs
  | created (unresolved : ∀ i, ¬Resolves fs path i) (eq : path.bytes = slash :: path.leaf.bytes)
    (name : IsName path.leaf.bytes) (room : fs.HasRoom) :
    Creation fs path (.ok fs.nodeCount) (fs.addNode 0 .file path.leaf.char 256)

theorem mcsCopyName_fst (hpath : path.bytes = slash :: path.leaf.bytes)
    (hname : IsName path.leaf.bytes) :
    (mcsCopyName 1 path.leaf.length path.char).1 = some path.leaf.char := by
  rw [mcsCopyName, copyNameFrom_fst (by rw [Nat.zero_add]; exact hname.lt)]
  refine congrArg some (funext fun j ↦ ?_)
  split_ifs with hj
  · exact char_leaf hpath (by omega)
  · exact (CStr.char_eq_zero_iff.mpr (by omega)).symm

theorem Ramfs.Flat.create (h : fs.Flat) (path : Path) :
    ∃ r fs', (mcsRamfsCreateFile fs path.char).1 = some (r, fs') ∧ Creation fs path r fs' := by
  obtain ⟨found, hlookup, hfound⟩ := h.lookup path
  rw [mcsRamfsCreateFile, bind_fst, hlookup, Option.bind_some]
  cases found with
  | ok i =>
    dsimp only
    rw [ite_fst]
    rcases Nat.eq_zero_or_pos i with rfl | hpos
    · rw [if_pos (by rw [h.root.2.1]; decide)]
      exact ⟨_, _, rfl, .isRoot hlookup⟩
    · rw [if_neg (by rw [(h.file i hpos ((hfound i).mp rfl).1).2.2]; decide)]
      exact ⟨_, _, rfl, .existing hpos hlookup⟩
  | error e =>
    have hun : ∀ i, ¬Resolves fs path i := fun i hi ↦ absurd (hlookup.symm.trans hi) (by simp)
    obtain ⟨r, hres, hr⟩ := h.split path
    dsimp only
    rw [bind_fst, hres, Option.bind_some]
    rcases hr with ⟨rfl, hpath, hname⟩ | ⟨⟨e', rfl⟩, hno⟩
    · dsimp only
      rw [ite_fst, if_neg (by rw [h.root.2.1]; decide), h.root.1, mcsAllocNode,
        if_neg ((isName_leaf_iff path).mp hname), ite_fst]
      by_cases hnodes : fs.nodeCount ≥ maxNodes
      · rw [if_pos hnodes]
        exact ⟨_, _, rfl, .refused hun fun hok ↦ absurd hok.2.1 (not_lt.mpr hnodes)⟩
      rw [if_neg hnodes, ite_fst]
      by_cases hdata : VnodeType.file = .file ∧ fs.dataUsed + 256 > ramfsDataBytes
      · rw [if_pos hdata]
        exact ⟨_, _, rfl, .refused hun fun hok ↦ absurd hok.2.2 (not_le.mpr hdata.2)⟩
      · rw [if_neg hdata, bind_fst, mcsCopyName_fst hpath hname, Option.bind_some]
        exact ⟨_, _, rfl, .created hun hpath hname
          ⟨not_le.mp hnodes, not_lt.mp fun hlt ↦ hdata ⟨rfl, hlt⟩⟩⟩
    · exact ⟨_, _, rfl, .refused hun fun hok ↦ hno hok.1⟩

/-! ## The invariant -/

theorem Ramfs.Flat.modify_size (h : fs.Flat) {j size : ℕ} :
    (fs.modify j fun v ↦ { v with size := size }).Flat := by
  refine ⟨h.pos, ?_, ?_, ?_, ?_⟩
  all_goals simp only [Ramfs.modify_size_nodes]
  · exact h.root
  · exact h.file
  · exact h.name
  · exact h.distinct

theorem Ramfs.Flat.copyIn (h : fs.Flat) {start n : ℕ} {src : Mem} : (fs.copyIn start src n).Flat :=
  ⟨h.pos, h.root, h.file, h.name, h.distinct⟩

theorem nameBytes_addNode (fs : Ramfs) (parent : ℕ) (hc : IsName c.bytes) :
    ((fs.addNode parent .file c.char 256).nodes fs.nodeCount).nameBytes = c.bytes := by
  have h : (fs.addNode parent .file c.char 256).nodes fs.nodeCount = _ := Function.update_self _ _ _
  rw [h]
  exact (Mem.str_eq_iff hc.lt).mpr fun i _ ↦ rfl

theorem Ramfs.Flat.addNode (h : fs.Flat) (hc : IsName c.bytes)
    (hnew : ∀ i < fs.nodeCount, (fs.nodes i).nameBytes ≠ c.bytes) :
    (fs.addNode 0 .file c.char 256).Flat := by
  have hself := nameBytes_addNode fs 0 hc
  have hold : ∀ i < fs.nodeCount, (fs.addNode 0 .file c.char 256).nodes i = fs.nodes i :=
    fun i hi ↦ Ramfs.addNode_nodes_of_lt hi
  have hcases : ∀ i, i < (fs.addNode 0 .file c.char 256).nodeCount →
      i < fs.nodeCount ∨ i = fs.nodeCount := fun i hi ↦ Nat.lt_succ_iff_lt_or_eq.mp hi
  refine ⟨Nat.succ_pos _, ?_, fun i hpos hi ↦ ?_, fun i hpos hi ↦ ?_, fun i j hi hj heq ↦ ?_⟩
  · rw [hold 0 h.pos]
    exact h.root
  · rcases hcases i hi with hlt | rfl
    · rw [hold i hlt]
      exact h.file i hpos hlt
    · have hnode : (fs.addNode 0 .file c.char 256).nodes fs.nodeCount = _ :=
        Function.update_self _ _ _
      rw [hnode]
      exact ⟨rfl, rfl, rfl⟩
  · rcases hcases i hi with hlt | rfl
    · rw [hold i hlt]
      exact h.name i hpos hlt
    · rw [hself]
      exact hc
  · rcases hcases i hi with hilt | rfl <;> rcases hcases j hj with hjlt | rfl
    · rw [hold i hilt, hold j hjlt] at heq
      exact h.distinct i j hilt hjlt heq
    · rw [hold i hilt, hself] at heq
      exact absurd heq (hnew i hilt)
    · rw [hold j hjlt, hself] at heq
      exact absurd heq.symm (hnew j hjlt)
    · rfl

theorem Ramfs.Flat.nameBytes_ne (h : fs.Flat) (hun : ∀ i, ¬Resolves fs path i)
    (hpath : path.bytes = slash :: path.leaf.bytes) :
    ∀ i < fs.nodeCount, (fs.nodes i).nameBytes ≠ path.leaf.bytes := by
  intro i hi heq
  rcases Nat.eq_zero_or_pos i with rfl | hpos
  · rw [h.root.2.2] at heq
    exact slash_notMem_leaf path (heq ▸ List.mem_singleton.mpr rfl)
  · refine hun i (h.resolves_iff.mpr ⟨hi, ?_⟩)
    rw [hpath, ← heq, Ramfs.pathOf, if_neg hpos.ne']

theorem Creation.flat {r : Except Err ℕ} {fs' : Ramfs} (hcreation : Creation fs path r fs')
    (h : fs.Flat) : fs'.Flat := by
  cases hcreation with
  | isRoot _ => exact h
  | existing _ _ => exact h
  | refused _ _ => exact h
  | created hun hpath hname _ => exact h.addNode hname (h.nameBytes_ne hun hpath)

/-- The path of the new file resolves after its creation, and no other path does that did not
before. -/
theorem Ramfs.Flat.resolves_addNode (h : fs.Flat) (hun : ∀ i, ¬Resolves fs path i)
    (hpath : path.bytes = slash :: path.leaf.bytes) (hname : IsName path.leaf.bytes) (q : Path)
    (i : ℕ) :
    Resolves (fs.addNode 0 .file path.leaf.char 256) q i ↔
      Resolves fs q i ∨ q.bytes = path.bytes ∧ i = fs.nodeCount := by
  have hflat := h.addNode hname (h.nameBytes_ne hun hpath)
  rw [hflat.resolves_iff, h.resolves_iff]
  change i < fs.nodeCount + 1 ∧ _ ↔ _
  rcases Nat.lt_trichotomy i fs.nodeCount with hlt | rfl | hgt
  · have hsame : (fs.addNode 0 .file path.leaf.char 256).pathOf i = fs.pathOf i := by
      rw [Ramfs.pathOf, Ramfs.pathOf, Ramfs.addNode_nodes_of_lt hlt]
    rw [hsame, and_iff_right (Nat.lt_succ_of_lt hlt), and_iff_right hlt]
    exact (or_iff_left fun hnew ↦ hlt.ne hnew.2).symm
  · rw [Ramfs.pathOf, if_neg h.pos.ne', nameBytes_addNode fs 0 hname, ← hpath,
      and_iff_right (Nat.lt_succ_self _), and_iff_left rfl]
    exact (or_iff_right fun hold ↦ Nat.lt_irrefl _ hold.1).symm
  · exact iff_of_false (fun hi ↦ by omega) fun hi ↦ hi.elim (fun hold ↦ by omega)
      fun hnew ↦ hgt.ne' hnew.2

/-! ## Runs -/

/-- The calls that can create a file. Their pointers are not `NULL`; with one that is they return
`MCS_EINVAL` and do nothing. -/
inductive PathCall where
  | createFile (fs : ℕ) (path : Path)
  | seedFile (fs : ℕ) (path : Path) (data : Option Mem) (len : ℕ)
  | vfsOpen (table fs : ℕ) (path : Path) (flags : UInt32)

/-- One such call. -/
def pathStep : PathCall → State → Event × State
  | .createFile p path, s =>
    match (mcsRamfsCreateFile (s.fs p) path.char).1 with
    | none => (⟨.never, .none⟩, s)
    | some (r, fs) => (⟨.value (r.map fun i : ℕ ↦ (i : ℤ)), .none⟩, s.setFs p fs)
  | .seedFile p path data len, s => step (.ramfsSeedFile (some p) (some path.char) data len) s
  | .vfsOpen t p path flags, s => step (.vfsOpen (some t) (some p) (some path.char) flags) s

/-- All file systems have one directory. -/
def State.Flat (s : State) : Prop := ∀ p, (s.fs p).Flat

theorem flat_mcsRamfsInit (fs : Ramfs) : (mcsRamfsInit fs).Flat := by
  have hnone : ∀ i, i < (mcsRamfsInit fs).nodeCount → i = 0 := fun i hi ↦ Nat.lt_one_iff.mp hi
  refine ⟨Nat.one_pos, ⟨rfl, rfl, ?_⟩, fun i hpos hi ↦ absurd (hnone i hi) hpos.ne',
    fun i hpos hi ↦ absurd (hnone i hi) hpos.ne',
    fun i j hi hj _ ↦ (hnone i hi).trans (hnone j hj).symm⟩
  refine (Mem.str_eq_iff (c := ⟨[slash], by decide⟩) (by decide)).mpr fun i hi ↦ ?_
  have hle : i ≤ 1 := hi
  obtain rfl | rfl : i = 0 ∨ i = 1 := by omega
  all_goals rfl

theorem State.Flat.setFs (h : s.Flat) {p : ℕ} (hfs : fs.Flat) : (s.setFs p fs).Flat := by
  intro q
  by_cases hq : q = p
  · rwa [hq, State.setFs_fs_self]
  · rw [State.setFs_fs_of_ne s fs hq]
    exact h q

theorem State.Flat.openFile (h : s.Flat) (t : ℕ) (r : NodeRef) (flags : UInt32) :
    (openFile s t r flags).state.Flat := by
  rw [Vfs.openFile]
  by_cases hdir : (s.node r).type = .dir ∧ mcsCanWrite flags = true
  · rw [if_pos hdir]
    exact h
  rw [if_neg hdir]
  cases mcsFdAlloc (s.tables t) with
  | error e => exact h
  | ok fd =>
    dsimp only
    generalize (if flags &&& oAppend ≠ 0 then (s.node r).size else 0) = offset
    split_ifs with htrunc hwrite
    · exact h
    · exact h.setFs (h r.fs).modify_size
    · exact h

theorem State.Flat.seedFile (h : s.Flat) {p len : ℕ} {data : Option Mem} {o : Outcome Unit}
    (ho : (seedFile s p data len path.char).1 = some o) : o.state.Flat := by
  rw [Vfs.seedFile, bind_fst, mcsRamfsSeedFile, ite_fst] at ho
  obtain ⟨r, fs', hres, hcreation⟩ := (h p).create path
  have hflat := hcreation.flat (h p)
  split_ifs at ho with hargs
  · obtain rfl := Option.some.inj ho
    exact h.setFs (h p)
  rw [bind_fst, hres, Option.bind_some] at ho
  cases r with
  | error e =>
    obtain rfl := Option.some.inj ho
    exact h.setFs hflat
  | ok i =>
    dsimp only at ho
    rw [ite_fst] at ho
    split_ifs at ho with hlen
    · obtain rfl := Option.some.inj ho
      exact h.setFs hflat
    · obtain rfl := Option.some.inj ho
      exact h.setFs hflat.copyIn.modify_size

theorem State.Flat.mcsVfsOpen (h : s.Flat) {t p : ℕ} {flags : UInt32} {o : Outcome ℕ}
    (ho : (mcsVfsOpen s t p flags path.char).1 = some o) : o.state.Flat := by
  rw [Vfs.mcsVfsOpen, bind_fst, openNode, bind_fst] at ho
  obtain ⟨found, hlookup, -⟩ := (h p).lookup path
  obtain ⟨r, fs', hres, hcreation⟩ := (h p).create path
  have hflat := hcreation.flat (h p)
  rw [hlookup, Option.bind_some] at ho
  cases found with
  | ok i =>
    obtain rfl := Option.some.inj ho
    exact (h.setFs (h p)).openFile t _ _
  | error e =>
    dsimp only at ho
    rw [ite_fst] at ho
    split_ifs at ho with hcreat
    · obtain rfl := Option.some.inj ho
      exact h.setFs (h p)
    · rw [hres, Option.bind_some] at ho
      cases r with
      | error e =>
        obtain rfl := Option.some.inj ho
        exact h.setFs hflat
      | ok i =>
        obtain rfl := Option.some.inj ho
        exact (h.setFs hflat).openFile t _ _

theorem State.Flat.ofReads {α : Type} (h : s.Flat) {value : α → ℤ} {o : Option (Outcome α)}
    (ho : ∀ o', o = some o' → o'.state.Flat) : (Outcome.ofReads s value o).2.Flat := by
  cases o with
  | none => exact h
  | some o' => exact ho o' rfl

theorem State.Flat.pathStep (h : s.Flat) (c : PathCall) : (pathStep c s).2.Flat := by
  cases c with
  | createFile p path =>
    obtain ⟨r, fs', hres, hcreation⟩ := (h p).create path
    rw [Vfs.pathStep, hres]
    exact h.setFs (hcreation.flat (h p))
  | seedFile p path data len => exact h.ofReads fun o ho ↦ h.seedFile ho
  | vfsOpen t p path flags => exact h.ofReads fun o ho ↦ h.mcsVfsOpen ho

/-- **Path resolution is exact.** In every state that the calls with a path reach: a lookup returns
the root for `/`, a file for `/` followed by its name, and an error for every other path; the names
of the nodes are different; and the creation of a path that does not resolve succeeds if and only if
the path is `/` followed by a name and there is room, and then that path resolves to the new file,
which is empty, and no other path resolves differently. -/
theorem path_resolution_exact (s : State) {es : List (PathCall × Event)} {t : State}
    (hrun : Run pathStep (fun _ _ ↦ True) s.init es t) (p : ℕ) :
    (∀ path, (∃ r, (mcsRamfsLookup (t.fs p) path.char).1 = some r) ∧
      (Resolves (t.fs p) path 0 ↔ path.bytes = [slash]) ∧
      ∀ i, 0 < i → (Resolves (t.fs p) path i ↔
        i < (t.fs p).nodeCount ∧ path.bytes = slash :: ((t.fs p).nodes i).nameBytes)) ∧
    (∀ i < (t.fs p).nodeCount, ∀ j < (t.fs p).nodeCount, i ≠ j →
      ((t.fs p).nodes i).nameBytes ≠ ((t.fs p).nodes j).nameBytes) ∧
    ∀ path, (∀ i, ¬Resolves (t.fs p) path i) →
      ∃ r fs', (mcsRamfsCreateFile (t.fs p) path.char).1 = some (r, fs') ∧
        ((∃ i, r = .ok i) ↔ path.IsLeaf ∧ (t.fs p).HasRoom) ∧
        ∀ i, r = .ok i → (fs'.nodes i).type = .file ∧ (fs'.nodes i).size = 0 ∧
          ∀ q j, Resolves fs' q j ↔ Resolves (t.fs p) q j ∨ q.bytes = path.bytes ∧ j = i := by
  have hflat : t.Flat := hrun.invariant (P := State.Flat)
    (fun q ↦ flat_mcsRamfsInit (s.fs q)) fun u c hu _ ↦ hu.pathStep c
  have h := hflat p
  generalize t.fs p = fs at h
  refine ⟨fun path ↦ ⟨?_, ?_, fun i hi ↦ ?_⟩, fun i hi j hj hne heq ↦ ?_, fun path hun ↦ ?_⟩
  · obtain ⟨r, hres, -⟩ := h.lookup path
    exact ⟨r, hres⟩
  · rw [h.resolves_iff, and_iff_right h.pos]
    rfl
  · rw [h.resolves_iff, Ramfs.pathOf, if_neg hi.ne']
  · exact hne (h.distinct i j hi hj heq)
  · obtain ⟨r, fs', hres, hcreation⟩ := h.create path
    refine ⟨r, fs', hres, ?_⟩
    cases hcreation with
    | isRoot hroot => exact absurd hroot (hun 0)
    | existing _ hi => exact absurd hi (hun _)
    | refused _ hno => exact ⟨iff_of_false (fun ⟨i, hi⟩ ↦ nomatch hi) hno, fun i hi ↦ nomatch hi⟩
    | created _ hpath hname hroom =>
      refine ⟨iff_of_true ⟨_, rfl⟩ ⟨⟨_, hpath, hname⟩, hroom⟩, fun i hi ↦ ?_⟩
      obtain rfl := Except.ok.inj hi
      obtain ⟨-, hsize, htype⟩ := fs.addNode_nodes_self 0 path.leaf.char
      exact ⟨htype, hsize, h.resolves_addNode hun hpath hname⟩

/-- The path `/a`. -/
def pathA : Path := ⟨⟨[slash, 97], by decide⟩, by decide⟩

/-- After its creation `/a` resolves to node 1. -/
theorem path_resolution_exact_one : ∃ es t, Run pathStep (fun _ _ ↦ True) blank.init es t ∧
    es.map (fun e ↦ e.2.answer) = [.value (.ok 1)] ∧ Resolves (t.fs 0) pathA 1 := by
  have hrun : Run pathStep (fun _ _ ↦ True) blank.init _ _ :=
    Run.nil.snoc (PathCall.createFile 0 pathA) trivial
  exact ⟨_, _, hrun, by decide +kernel,
    (((path_resolution_exact blank hrun 0).1 pathA).2.2 1 Nat.one_pos).mpr (by decide +kernel)⟩

end Vfs

end Mcsos
