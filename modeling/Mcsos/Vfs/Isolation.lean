import Mathlib.Logic.Relation
import Mathlib.Order.CompletePartialOrder
import Mathlib.Order.Interval.Set.Disjoint
import Mcsos.Vfs.Paths
import Mcsos.Vfs.Fd

/-!
# The files of the RAM file system do not overlap

The invariant `State.Sound` is about three things at once. The extents of the files are apart and
inside the used part of the data bytes, and no file is larger than its extent. The nodes that are
not in use have an empty extent, so that a descriptor that outlives `mcs_ramfs_init` finds nothing
there. And a descriptor that refers to a node reads and writes the data of the file system that
contains it.

`Does` says once what a call can do to the state (`does_step`). All of it rests on `Move`, the
changes that touch neither the data bytes nor a node that exists.
-/

namespace Mcsos

namespace Vfs

open Reads

/-! ## The invariant -/

def Ramfs.IsFile (fs : Ramfs) (i : ℕ) : Prop := i < fs.nodeCount ∧ (fs.nodes i).type = .file

/-- The indices of the data bytes of a file. -/
def Vnode.extent (v : Vnode) : Set ℕ := Set.Ico v.dataOffset (v.dataOffset + v.dataCapacity)

/-- The extents of the files are apart and in range, and contain the files. -/
structure Ramfs.Isolated (fs : Ramfs) : Prop where
  nodeCount_le : fs.nodeCount ≤ maxNodes
  dataUsed_le : fs.dataUsed ≤ ramfsDataBytes
  extent_le : ∀ i, fs.IsFile i → (fs.nodes i).extent ⊆ Set.Ico 0 fs.dataUsed
  disjoint : ∀ i j, fs.IsFile i → fs.IsFile j → i ≠ j →
    Disjoint (fs.nodes i).extent (fs.nodes j).extent
  size_le : ∀ i, fs.IsFile i → (fs.nodes i).size ≤ (fs.nodes i).dataCapacity

/-- The invariant of a file system. -/
structure Ramfs.Sound (fs : Ramfs) : Prop extends fs.Isolated where
  nodeCount_pos : 0 < fs.nodeCount
  spare : ∀ i, fs.nodeCount ≤ i → i < maxNodes →
    (fs.nodes i).size = 0 ∧ (fs.nodes i).dataCapacity = 0

/-- A descriptor that refers to a node refers to the file system of the node as well. -/
def File.Sound (file : File) : Prop :=
  ∀ r, file.node = some r → file.fs = some r.fs ∧ r.idx < maxNodes

/-- The invariant of the state. -/
structure State.Sound (s : State) : Prop where
  fs : ∀ p, (s.fs p).Sound
  files : ∀ t i, i < maxOpenFiles → (s.tables t i).Sound

variable {s u s' : State} {fs : Ramfs} {r : NodeRef} {pos : NodeRef → ℕ → Prop}

theorem File.sound_of_node_eq_none {file : File} (h : file.node = none) : file.Sound :=
  fun _ hr ↦ nomatch h.symm.trans hr

@[simp] theorem File.setOffset_offset (file : File) (offset : ℕ) :
    (file.setOffset offset).offset = offset := rfl

theorem File.Sound.setOffset {file : File} (h : file.Sound) (offset : ℕ) :
    (file.setOffset offset).Sound := h

theorem Ramfs.not_isFile_mcsRamfsInit (fs : Ramfs) (i : ℕ) : ¬(mcsRamfsInit fs).IsFile i := by
  rintro ⟨hlt, htype⟩
  obtain rfl : i = 0 := Nat.lt_one_iff.mp hlt
  cases htype

theorem Ramfs.sound_mcsRamfsInit (fs : Ramfs) : (mcsRamfsInit fs).Sound := by
  have hnone := fs.not_isFile_mcsRamfsInit
  refine ⟨⟨?_, ?_, ?_, ?_, ?_⟩, Nat.one_pos, fun i hi hlt ↦ ?_⟩
  · exact show 1 ≤ maxNodes by decide
  · exact Nat.zero_le _
  · exact fun i hi ↦ absurd hi (hnone i)
  · exact fun i _ hi ↦ absurd hi (hnone i)
  · exact fun i hi ↦ absurd hi (hnone i)
  · have hpos : i ≠ 0 := Nat.one_le_iff_ne_zero.mp hi
    simp only [mcsRamfsInit, if_neg hpos, if_pos hlt]
    exact ⟨rfl, rfl⟩

theorem State.sound_init (s : State) : s.init.Sound where
  fs p := Ramfs.sound_mcsRamfsInit (s.fs p)
  files t i hi := by
    refine File.sound_of_node_eq_none ?_
    simp only [State.init, mcsFdTableInit, if_pos hi]
    rfl

/-! ## Changes of a file system -/

namespace Ramfs

theorem addNode_nodes_of_lt {parent i : ℕ} {name : Mem} (h : i < fs.nodeCount) :
    (fs.addNode parent .file name 256).nodes i = fs.nodes i :=
  Function.update_of_ne h.ne _ _

theorem addNode_nodes_of_gt {parent i : ℕ} {name : Mem} (h : fs.nodeCount < i) :
    (fs.addNode parent .file name 256).nodes i = fs.nodes i :=
  Function.update_of_ne h.ne' _ _

theorem addNode_nodes_self (fs : Ramfs) (parent : ℕ) (name : Mem) :
    let v := (fs.addNode parent .file name 256).nodes fs.nodeCount
    v.extent = Set.Ico fs.dataUsed (fs.dataUsed + 256) ∧ v.size = 0 ∧ v.type = .file := by
  have h : (fs.addNode parent .file name 256).nodes fs.nodeCount = _ := Function.update_self _ _ _
  dsimp only
  rw [h]
  exact ⟨rfl, rfl, rfl⟩

theorem isFile_addNode {parent i : ℕ} {name : Mem}
    (h : (fs.addNode parent .file name 256).IsFile i) : i = fs.nodeCount ∨ fs.IsFile i := by
  obtain ⟨hlt, htype⟩ := h
  rcases Nat.lt_succ_iff_lt_or_eq.mp hlt with hold | rfl
  · rw [addNode_nodes_of_lt hold] at htype
    exact .inr ⟨hold, htype⟩
  · exact .inl rfl

theorem Sound.addNode (h : fs.Sound) {parent : ℕ} {name : Mem} (hnode : fs.nodeCount < maxNodes)
    (hroom : fs.dataUsed + 256 ≤ ramfsDataBytes) : (fs.addNode parent .file name 256).Sound := by
  obtain ⟨hextent, hsize, -⟩ := addNode_nodes_self fs parent name
  have hused : (fs.addNode parent .file name 256).dataUsed = fs.dataUsed + 256 := rfl
  -- an old extent ends before the used part did, and the new one starts there
  have hapart : ∀ i, fs.IsFile i → Disjoint (fs.nodes i).extent
      ((fs.addNode parent .file name 256).nodes fs.nodeCount).extent := by
    intro i hi
    rw [hextent]
    refine Set.disjoint_left.mpr fun x hx hx' ↦ ?_
    exact absurd (h.extent_le i hi hx).2 (not_lt.mpr hx'.1)
  refine ⟨⟨hnode, hroom, fun i hi ↦ ?_, fun i j hi hj hne ↦ ?_, fun i hi ↦ ?_⟩,
    Nat.succ_pos _, fun i hi hlt ↦ ?_⟩
  · rw [hused]
    rcases isFile_addNode hi with rfl | hold
    · rw [hextent]
      exact Set.Ico_subset_Ico_left (Nat.zero_le _)
    · rw [addNode_nodes_of_lt hold.1]
      exact (h.extent_le i hold).trans (Set.Ico_subset_Ico_right (by omega))
  · rcases isFile_addNode hi with rfl | hi' <;> rcases isFile_addNode hj with rfl | hj'
    · exact absurd rfl hne
    · rw [addNode_nodes_of_lt hj'.1]
      exact (hapart j hj').symm
    · rw [addNode_nodes_of_lt hi'.1]
      exact hapart i hi'
    · rw [addNode_nodes_of_lt hi'.1, addNode_nodes_of_lt hj'.1]
      exact h.disjoint i j hi' hj' hne
  · rcases isFile_addNode hi with rfl | hold
    · rw [hsize]
      exact Nat.zero_le _
    · rw [addNode_nodes_of_lt hold.1]
      exact h.size_le i hold
  · rw [addNode_nodes_of_gt hi]
    exact h.spare i (Nat.le_of_succ_le hi) hlt

theorem modify_size_nodes (fs : Ramfs) (j size i : ℕ) :
    (fs.modify j fun v ↦ { v with size := size }).nodes i =
      { fs.nodes i with size := if i = j then size else (fs.nodes i).size } := by
  by_cases h : i = j
  · subst h
    rw [modify, if_pos rfl]
    exact Function.update_self _ _ _
  · rw [modify, if_neg h]
    exact Function.update_of_ne h _ _

theorem isFile_modify_size {j size i : ℕ} :
    (fs.modify j fun v ↦ { v with size := size }).IsFile i ↔ fs.IsFile i := by
  rw [IsFile, modify_size_nodes]
  exact Iff.rfl

theorem Sound.modify_size (h : fs.Sound) {j size : ℕ} (hsize : size ≤ (fs.nodes j).dataCapacity) :
    (fs.modify j fun v ↦ { v with size := size }).Sound := by
  refine ⟨⟨h.nodeCount_le, h.dataUsed_le, fun i hi ↦ ?_, fun i i' hi hi' hne ↦ ?_, fun i hi ↦ ?_⟩,
    h.nodeCount_pos, fun i hi hlt ↦ ?_⟩
  · rw [modify_size_nodes]
    exact h.extent_le i (isFile_modify_size.mp hi)
  · rw [modify_size_nodes, modify_size_nodes]
    exact h.disjoint i i' (isFile_modify_size.mp hi) (isFile_modify_size.mp hi') hne
  · rw [modify_size_nodes]
    dsimp only
    split_ifs with hij
    · rwa [hij]
    · exact h.size_le i (isFile_modify_size.mp hi)
  · obtain ⟨hold, hcap⟩ := h.spare i hi hlt
    rw [modify_size_nodes]
    refine ⟨?_, hcap⟩
    dsimp only
    split_ifs with hij
    · rw [← hij, hcap] at hsize
      exact Nat.le_zero.mp hsize
    · exact hold

theorem Sound.copyIn (h : fs.Sound) {start n : ℕ} {src : Mem} : (fs.copyIn start src n).Sound :=
  ⟨⟨h.nodeCount_le, h.dataUsed_le, h.extent_le, h.disjoint, h.size_le⟩, h.nodeCount_pos, h.spare⟩

theorem Sound.lt_of_capacity (h : fs.Sound) {i : ℕ} (hi : i < maxNodes)
    (hcap : 0 < (fs.nodes i).dataCapacity) : i < fs.nodeCount := by
  by_contra hspare
  exact hcap.ne' (h.spare i (not_lt.mp hspare) hi).2

end Ramfs

/-! ## What a call can do -/

namespace State

@[simp] theorem setFile_fs (s : State) (t i : ℕ) (file : File) : (s.setFile t i file).fs = s.fs :=
  rfl

@[simp] theorem setFile_node (s : State) (t i : ℕ) (file : File) (r : NodeRef) :
    (s.setFile t i file).node r = s.node r := rfl

theorem setFs_fs_self (s : State) (p : ℕ) (fs : Ramfs) : (s.setFs p fs).fs p = fs :=
  Function.update_self _ _ _

theorem setFs_fs_of_ne (s : State) {p q : ℕ} (fs : Ramfs) (h : q ≠ p) :
    (s.setFs p fs).fs q = s.fs q :=
  Function.update_of_ne h _ _

theorem setFs_self (s : State) (p : ℕ) : s.setFs p (s.fs p) = s := by
  rw [setFs, Function.update_eq_self]

theorem setFs_setFs (s : State) (p : ℕ) (fs fs' : Ramfs) :
    (s.setFs p fs).setFs p fs' = s.setFs p fs' := by
  rw [setFs, setFs, setFs, Function.update_idem]

theorem setFs_setSize (s : State) (p i size : ℕ) (fs : Ramfs) :
    (s.setFs p fs).setSize ⟨p, i⟩ size =
      s.setFs p (fs.modify i fun v ↦ { v with size := size }) := by
  rw [setSize, setFs_fs_self, setFs_setFs]

theorem setSize_self (s : State) (r : NodeRef) : s.setSize r (s.node r).size = s := by
  have hsame : ((s.fs r.fs).modify r.idx fun v ↦ { v with size := (s.node r).size }) =
      s.fs r.fs := by
    rw [Ramfs.modify]
    exact congrArg (fun nodes ↦ { s.fs r.fs with nodes := nodes }) (Function.update_eq_self _ _)
  rw [setSize, hsame, setFs_self]

theorem setSize_max (s : State) (r : NodeRef) (size : ℕ) :
    (if size > (s.node r).size then s.setSize r size else s) =
      s.setSize r (max (s.node r).size size) := by
  split_ifs with h
  · rw [max_eq_right h.le]
  · rw [max_eq_left (not_lt.mp h), setSize_self]

theorem setFile_tables_self (s : State) (t i : ℕ) (file : File) :
    (s.setFile t i file).tables t i = file := by
  simp only [setFile, Function.update_self]

theorem setFile_tables_of_ne (s : State) {t i t' i' : ℕ} (file : File) (h : (t', i') ≠ (t, i)) :
    (s.setFile t i file).tables t' i' = s.tables t' i' := by
  by_cases ht : t' = t
  · subst ht
    have hi : i' ≠ i := fun hi ↦ h (by rw [hi])
    simp only [setFile, Function.update_self, Function.update_of_ne hi]
  · simp only [setFile, Function.update_of_ne ht]

theorem Sound.setFs (h : s.Sound) {p : ℕ} (hfs : fs.Sound) : (s.setFs p fs).Sound := by
  refine ⟨fun q ↦ ?_, h.files⟩
  by_cases hq : q = p
  · rwa [hq, setFs_fs_self]
  · rw [setFs_fs_of_ne s fs hq]
    exact h.fs q

theorem Sound.setFile (h : s.Sound) {t i : ℕ} {file : File} (hfile : file.Sound) :
    (s.setFile t i file).Sound := by
  refine ⟨h.fs, fun t' i' hi' ↦ ?_⟩
  by_cases heq : (t', i') = (t, i)
  · obtain ⟨rfl, rfl⟩ := Prod.mk.inj heq
    rwa [setFile_tables_self]
  · rw [setFile_tables_of_ne s file heq]
    exact h.files t' i' hi'

theorem Sound.setSize (h : s.Sound) {size : ℕ} (hsize : size ≤ (s.node r).dataCapacity) :
    (s.setSize r size).Sound :=
  h.setFs ((h.fs r.fs).modify_size hsize)

end State

/-- A change that touches neither the data bytes nor a node in use. -/
inductive Move (s : State) : State → Prop
  | tableInit (t : ℕ) :
    Move s { s with tables := Function.update s.tables t (mcsFdTableInit (s.tables t)) }
  | create (p parent : ℕ) (name : Mem) (node : (s.fs p).nodeCount < maxNodes)
    (room : (s.fs p).dataUsed + 256 ≤ ramfsDataBytes) :
    Move s (s.setFs p ((s.fs p).addNode parent .file name 256))
  | file (t i : ℕ) (file : File) (sound : file.Sound) : Move s (s.setFile t i file)

/-- Some such changes. -/
def Quiet : State → State → Prop := Relation.ReflTransGen Move

theorem Move.quiet (h : Move s s') : Quiet s s' := .single h

theorem Move.sound (hmove : Move s s') (h : s.Sound) : s'.Sound := by
  cases hmove with
  | tableInit t =>
    refine ⟨h.fs, fun t' i hi ↦ ?_⟩
    by_cases ht : t' = t
    · subst ht
      refine File.sound_of_node_eq_none ?_
      simp only [Function.update_self, mcsFdTableInit, if_pos hi]
      rfl
    · simp only [Function.update_of_ne ht]
      exact h.files t' i hi
  | create p parent name hnode hroom => exact h.setFs ((h.fs p).addNode hnode hroom)
  | file t i file hfile => exact h.setFile hfile

theorem Quiet.sound (hquiet : Quiet s s') (h : s.Sound) : s'.Sound := by
  induction hquiet with
  | refl => exact h
  | tail _ hmove ih => exact hmove.sound ih

/-- The state after `n` bytes are written at data byte `start` for the file `r`, which then has the
size `size`. -/
def State.write (u : State) (r : NodeRef) (start : ℕ) (src : Mem) (n size : ℕ) : State :=
  (u.setFs r.fs ((u.fs r.fs).copyIn start src n)).setSize r size

/-- What a call can do, by its effect. The bytes are written at positions of `pos` only. -/
inductive Does (s : State) (pos : NodeRef → ℕ → Prop) : Effect → State → Prop
  | quiet {s' : State} (quiet : Quiet s s') : Does s pos .none s'
  | read {r : NodeRef} {o n : ℕ} {s' : State} (quiet : Quiet s s') :
    Does s pos (.read r.fs r o n) s'
  | wrote {u : State} {r : NodeRef} {o n size : ℕ} {src : Mem} (quiet : Quiet s u)
    (allowed : pos r o)
    (idx : r.idx < maxNodes) (file : (u.node r).type = .file)
    (room : o + n ≤ (u.node r).dataCapacity)
    (size_eq : u.fs = s.fs ∧ size = max (u.node r).size (o + n) ∨ o = 0 ∧ size = n) :
    Does s pos (.wrote r.fs r o src n) (u.write r ((u.node r).dataOffset + o) src n size)
  | truncated {u s' : State} {r : NodeRef} (quiet : Quiet s u) (quiet' : Quiet (u.setSize r 0) s') :
    Does s pos (.truncated r) s'
  | initialised (p : ℕ) : Does s pos (.initialised p) (s.setFs p (mcsRamfsInit (s.fs p)))

theorem State.node_setFs_copyIn (u : State) (p start n : ℕ) (src : Mem) (r : NodeRef) :
    (u.setFs p ((u.fs p).copyIn start src n)).node r = u.node r := by
  by_cases h : r.fs = p
  · rw [State.node, State.node, h, State.setFs_fs_self]
    rfl
  · rw [State.node, State.node, State.setFs_fs_of_ne u _ h]

theorem State.Sound.size_le (h : s.Sound) (hidx : r.idx < maxNodes)
    (hfile : (s.node r).type = .file) : (s.node r).size ≤ (s.node r).dataCapacity := by
  by_cases hlt : r.idx < (s.fs r.fs).nodeCount
  · exact (h.fs r.fs).size_le r.idx ⟨hlt, hfile⟩
  · have hspare := ((h.fs r.fs).spare r.idx (not_lt.mp hlt) hidx).1
    rw [State.node, hspare]
    exact Nat.zero_le _

theorem Does.sound {e : Effect} (hdoes : Does s pos e s') (h : s.Sound) : s'.Sound := by
  cases hdoes with
  | quiet hquiet => exact hquiet.sound h
  | read hquiet => exact hquiet.sound h
  | @wrote u r o n size src hquiet _ hidx hfile hroom hsize =>
    have hu := hquiet.sound h
    refine (hu.setFs (hu.fs r.fs).copyIn).setSize ?_
    rw [State.node_setFs_copyIn]
    rcases hsize with ⟨-, rfl⟩ | ⟨rfl, rfl⟩
    · exact max_le (hu.size_le hidx hfile) hroom
    · rwa [Nat.zero_add] at hroom
  | truncated hquiet hquiet' =>
    exact hquiet'.sound ((hquiet.sound h).setSize (Nat.zero_le _))
  | initialised p => exact h.setFs (Ramfs.sound_mcsRamfsInit _)

/-! ## Descriptors -/

section Descriptors

variable {table : Option ℕ} {fd : ℤ} {t i : ℕ}

theorem mcsFdGet_lt (h : mcsFdGet s table fd = some (t, i)) : i < maxOpenFiles := by
  cases table with
  | none => cases h
  | some t' =>
    rw [mcsFdGet] at h
    split_ifs at h with hrange hused
    obtain ⟨-, rfl⟩ := Prod.mk.inj (Option.some.inj h)
    omega

theorem mcsFdGet_congr {s' : State} (h : ∀ t, table = some t →
    (s'.tables t fd.toNat).used = (s.tables t fd.toNat).used) :
    mcsFdGet s' table fd = mcsFdGet s table fd := by
  cases table with
  | none => rfl
  | some t => rw [mcsFdGet, mcsFdGet, h t rfl]

theorem VnodeType.eq_file {type : VnodeType} (h : type ≠ .dir) : type = .file := by
  cases type with
  | dir => exact absurd rfl h
  | file => rfl

/-- The file that a descriptor refers to. -/
def refersTo (s : State) (table : Option ℕ) (fd : ℤ) : Option NodeRef :=
  (mcsFdGet s table fd).bind fun d ↦ (s.tables d.1 d.2).node

/-- A write through the descriptor goes to position `o` of the file `r`. -/
def PointsTo (s : State) (table : Option ℕ) (fd : ℤ) (r : NodeRef) (o : ℕ) : Prop :=
  ∃ t i, mcsFdGet s table fd = some (t, i) ∧ (s.tables t i).node = some r ∧
    o = writeOffset s (s.tables t i) r

/-- The ways in which `mcs_vfs_read` ends. -/
inductive ReadEnds (s : State) (table : Option ℕ) (fd : ℤ) (len : ℕ) : Outcome (List UInt8) → Prop
  | failed (e : Err) : ReadEnds s table fd len (.fail s e)
  | atEnd : ReadEnds s table fd len ⟨.ok [], .none, s⟩
  | read {t i n : ℕ} {r : NodeRef} (get : mcsFdGet s table fd = some (t, i))
    (node : (s.tables t i).node = some r) (idx : r.idx < maxNodes)
    (file : (s.node r).type = .file) (room : (s.tables t i).offset + n ≤ (s.node r).size)
    (le : n ≤ len) :
    ReadEnds s table fd len
      ⟨.ok ((s.fs r.fs).copyOut ((s.node r).dataOffset + (s.tables t i).offset) n),
        .read r.fs r (s.tables t i).offset n,
        s.setFile t i ((s.tables t i).setOffset ((s.tables t i).offset + n))⟩

theorem readEnds_mcsVfsRead (h : s.Sound) (table : Option ℕ) (fd : ℤ) (buf : Bool) (len : ℕ) :
    ReadEnds s table fd len (mcsVfsRead s table fd buf len) := by
  rw [mcsVfsRead]
  split_ifs with hbuf
  · exact .failed _
  cases hget : mcsFdGet s table fd with
  | none => exact .failed _
  | some d =>
    obtain ⟨t, i⟩ := d
    dsimp only
    split_ifs with hflags
    · exact .failed _
    cases hnode : (s.tables t i).node with
    | none => exact .failed _
    | some r =>
      obtain ⟨hfs, hidx⟩ := h.files t i (mcsFdGet_lt hget) r hnode
      rw [hfs]
      dsimp only
      split_ifs with hdir hend
      · exact .failed _
      · exact .atEnd
      · refine .read hget hnode hidx (VnodeType.eq_file hdir) ?_ (min_le_left _ _)
        omega

/-- The ways in which `mcs_vfs_write` ends. -/
inductive WriteEnds (s : State) (table : Option ℕ) (fd : ℤ) (buf : Option Mem) (len : ℕ) :
    Outcome ℕ → Prop
  | failed {s' : State} (e : Err) (quiet : Quiet s s') : WriteEnds s table fd buf len (.fail s' e)
  | wrote {t i o : ℕ} {r : NodeRef} (get : mcsFdGet s table fd = some (t, i))
    (node : (s.tables t i).node = some r) (offset_eq : o = writeOffset s (s.tables t i) r)
    (idx : r.idx < maxNodes) (type : (s.node r).type = .file)
    (room : o + len ≤ (s.node r).dataCapacity) :
    WriteEnds s table fd buf len
      ⟨.ok len, .wrote r.fs r o (buf.getD fun _ ↦ 0) len,
        (s.setFile t i ((s.tables t i).setOffset (o + len))).write r
          ((s.node r).dataOffset + o) (buf.getD fun _ ↦ 0) len (max (s.node r).size (o + len))⟩

theorem writeEnds_mcsVfsWrite (h : s.Sound) (table : Option ℕ) (fd : ℤ) (buf : Option Mem)
    (len : ℕ) : WriteEnds s table fd buf len (mcsVfsWrite s table fd buf len) := by
  rw [mcsVfsWrite]
  split_ifs with hbuf
  · exact .failed _ .refl
  cases hget : mcsFdGet s table fd with
  | none => exact .failed _ .refl
  | some d =>
    obtain ⟨t, i⟩ := d
    dsimp only
    split_ifs with hflags
    · exact .failed _ .refl
    cases hnode : (s.tables t i).node with
    | none => exact .failed _ .refl
    | some r =>
      have hfile := h.files t i (mcsFdGet_lt hget)
      obtain ⟨hfs, hidx⟩ := hfile r hnode
      rw [hfs]
      dsimp only
      split_ifs with hdir
      · exact .failed _ .refl
      generalize ho : writeOffset s (s.tables t i) r = o
      have hquiet : Quiet s (s.setFile t i ((s.tables t i).setOffset o)) :=
        (Move.file t i _ (hfile.setOffset o)).quiet
      rw [writeFile, File.setOffset_offset]
      split_ifs with hcap
      · exact .failed _ hquiet
      dsimp only
      by_cases hroom : min len ((s.node r).dataCapacity - o) < len
      · rw [if_pos hroom]
        exact .failed _ hquiet
      · have hlen : min len ((s.node r).dataCapacity - o) = len := by omega
        have hends := @WriteEnds.wrote s table fd buf len t i o r hget hnode ho.symm hidx
          (VnodeType.eq_file hdir) (by omega)
        rw [if_neg hroom, hlen]
        rw [State.write] at hends
        generalize hmoved : (s.setFile t i ((s.tables t i).setOffset (o + len))).setFs r.fs _ =
          moved at hends
        have hsame : moved.node r = s.node r := by
          rw [← hmoved]
          exact s.node_setFs_copyIn r.fs _ len _ r
        rw [← hsame, ← State.setSize_max, hsame, ← hmoved] at hends
        exact hends

end Descriptors

/-! ## The calls -/

theorem Located.quiet {Q : ℕ → Prop} {p : ℕ} {res : Except Err ℕ × Ramfs} (h : s.Sound)
    (hloc : Located Q (s.fs p) res) :
    Quiet s (s.setFs p res.2) ∧ ∀ i, res.1 = .ok i → i < maxNodes := by
  have hle := (h.fs p).nodeCount_le
  cases hloc with
  | failed e =>
    rw [State.setFs_self]
    exact ⟨.refl, fun i hi ↦ nomatch hi⟩
  | found i hlt _ =>
    rw [State.setFs_self]
    refine ⟨.refl, fun j hj ↦ ?_⟩
    obtain rfl := Except.ok.inj hj
    omega
  | created parent name hnode hroom =>
    refine ⟨(Move.create p parent name hnode hroom).quiet, fun j hj ↦ ?_⟩
    obtain rfl := Except.ok.inj hj
    exact hnode

theorem Located.file {res : Except Err ℕ × Ramfs}
    (hloc : Located (fun i ↦ (fs.nodes i).type = .file) fs res) {i : ℕ} (hi : res.1 = .ok i) :
    (res.2.nodes i).type = .file := by
  cases hloc with
  | failed e => cases hi
  | found j _ htype =>
    obtain rfl := Except.ok.inj hi
    exact htype
  | created parent name _ _ =>
    obtain rfl := Except.ok.inj hi
    exact (Ramfs.addNode_nodes_self fs parent name).2.2

theorem spec_seedFile {path : Mem} {P : ℕ → Prop} (hP : Within path P) (h : s.Sound) (p : ℕ)
    (data : Option Mem) (len : ℕ) :
    Spec (seedFile s p data len) path P fun o ↦ Does s (fun _ o ↦ o = 0) o.effect o.state := by
  refine spec_bind (spec_ite (fun _ ↦ spec_pure (spec_pure ?_)) fun _ ↦ spec_bind
    (spec_mono (spec_mcsRamfsCreateFile hP (h.fs p).nodeCount_pos) fun res hloc ↦ ?_))
  · change Does s _ .none (s.setFs p (s.fs p))
    rw [State.setFs_self]
    exact .quiet .refl
  · obtain ⟨hquiet, hidx⟩ := hloc.quiet h
    have htype := fun i ↦ hloc.file (i := i)
    obtain ⟨_ | i, fs⟩ := res
    · exact spec_pure (spec_pure (.quiet hquiet))
    · refine spec_ite (fun _ ↦ spec_pure (spec_pure (.quiet hquiet))) fun hlen ↦
        spec_pure (spec_pure ?_)
      have hnode : (s.setFs p fs).node ⟨p, i⟩ = fs.nodes i := by
        rw [State.node, State.setFs_fs_self]
      have hdoes := @Does.wrote s (fun _ o ↦ o = 0) (s.setFs p fs) ⟨p, i⟩ 0 len len
        (data.getD fun _ ↦ 0) hquiet rfl (hidx i rfl) (hnode ▸ htype i rfl) (by rw [hnode]; omega)
        (.inr ⟨rfl, rfl⟩)
      rw [State.write, State.setFs_setFs, State.setFs_setSize, State.setFs_fs_self, hnode] at hdoes
      exact hdoes

theorem does_openFile (hquiet : Quiet s u) (hidx : r.idx < maxNodes) (t : ℕ) (flags : UInt32) :
    Does s pos (openFile u t r flags).effect (openFile u t r flags).state := by
  have hopen : ∀ offset, File.Sound ⟨true, flags, offset, some r, some r.fs⟩ := by
    intro offset r' hr'
    obtain rfl := Option.some.inj hr'
    exact ⟨rfl, hidx⟩
  rw [openFile]
  by_cases hdir : (u.node r).type = .dir ∧ mcsCanWrite flags = true
  · rw [if_pos hdir]
    exact .quiet hquiet
  rw [if_neg hdir]
  cases mcsFdAlloc (u.tables t) with
  | error e => exact .quiet hquiet
  | ok fd =>
    dsimp only
    generalize (if flags &&& oAppend ≠ 0 then (u.node r).size else 0) = offset
    split_ifs with htrunc hwrite
    · exact .quiet (hquiet.tail (.file t fd _ (File.sound_of_node_eq_none rfl)))
    · exact .truncated hquiet (Move.file t fd _ (hopen 0)).quiet
    · exact .quiet (hquiet.tail (.file t fd _ (hopen offset)))

theorem spec_openNode {path : Mem} {P : ℕ → Prop} (hP : Within path P) (hfs : 0 < fs.nodeCount)
    (flags : UInt32) : Spec (openNode fs flags) path P (Located (fun _ ↦ True) fs) := by
  refine spec_bind (spec_mono (spec_mcsRamfsLookup hP hfs) fun res hres ↦ ?_)
  cases res with
  | ok i => exact spec_pure (.found i (hres i rfl) trivial)
  | error e =>
    refine spec_ite (fun _ ↦ spec_pure (.failed e)) fun _ ↦
      spec_mono (spec_mcsRamfsCreateFile hP hfs) fun res hloc ↦ ?_
    cases hloc with
    | failed e => exact .failed e
    | found i hlt _ => exact .found i hlt trivial
    | created parent name hnode hroom => exact .created parent name hnode hroom

theorem spec_mcsVfsOpen {path : Mem} {P : ℕ → Prop} (hP : Within path P) (h : s.Sound) (t p : ℕ)
    (flags : UInt32) :
    Spec (mcsVfsOpen s t p flags) path P fun o ↦ Does s pos o.effect o.state := by
  refine spec_bind (spec_mono (spec_openNode hP (h.fs p).nodeCount_pos _) fun res hloc ↦ ?_)
  obtain ⟨hquiet, hidx⟩ := hloc.quiet h
  obtain ⟨_ | i, fs⟩ := res
  · exact spec_pure (.quiet hquiet)
  · exact spec_pure (does_openFile hquiet (hidx i rfl) t _)

theorem ReadEnds.does {table : Option ℕ} {fd : ℤ} {len : ℕ} {o : Outcome (List UInt8)}
    (h : s.Sound) (hends : ReadEnds s table fd len o) : Does s pos o.effect o.state := by
  cases hends with
  | failed e => exact .quiet .refl
  | atEnd => exact .quiet .refl
  | @read t i _ r hget _ _ _ _ _ =>
    exact .read (Move.file t i _ ((h.files t i (mcsFdGet_lt hget)).setOffset _)).quiet

theorem WriteEnds.does {table : Option ℕ} {fd : ℤ} {buf : Option Mem} {len : ℕ} {o : Outcome ℕ}
    (h : s.Sound) (hends : WriteEnds s table fd buf len o) :
    Does s (fun r k ↦ o.ret = .ok len ∧ PointsTo s table fd r k) o.effect o.state := by
  cases hends with
  | failed e hquiet => exact .quiet hquiet
  | @wrote t i o r hget hnode ho hidx htype hroom =>
    have hsound := (h.files t i (mcsFdGet_lt hget)).setOffset (o + len)
    exact .wrote (Move.file t i _ hsound).quiet ⟨rfl, t, i, hget, hnode, ho⟩ hidx htype hroom
      (.inl ⟨rfl, rfl⟩)

theorem does_mcsVfsLseek (h : s.Sound) (table : Option ℕ) (fd offset whence : ℤ) :
    Does s pos (mcsVfsLseek s table fd offset whence).effect
      (mcsVfsLseek s table fd offset whence).state := by
  rw [mcsVfsLseek]
  cases hget : mcsFdGet s table fd with
  | none => exact .quiet .refl
  | some d =>
    obtain ⟨t, i⟩ := d
    dsimp only
    cases hnode : (s.tables t i).node with
    | none => exact .quiet .refl
    | some r =>
      dsimp only
      split_ifs with hdir
      · exact .quiet .refl
      cases seekBase s (s.tables t i) r whence with
      | none => exact .quiet .refl
      | some base =>
        dsimp only
        split_ifs with hneg
        · exact .quiet .refl
        · exact .quiet (Move.file t i _ ((h.files t i (mcsFdGet_lt hget)).setOffset _)).quiet

theorem does_mcsVfsClose (table : Option ℕ) (fd : ℤ) :
    Does s pos (mcsVfsClose s table fd).effect (mcsVfsClose s table fd).state := by
  rw [mcsVfsClose]
  cases mcsFdGet s table fd with
  | none => exact .quiet .refl
  | some d => exact .quiet (Move.file d.1 d.2 _ (File.sound_of_node_eq_none rfl)).quiet

theorem does_mcsVfsDup (h : s.Sound) (table : Option ℕ) (fd : ℤ) :
    Does s pos (mcsVfsDup s table fd).effect (mcsVfsDup s table fd).state := by
  rw [mcsVfsDup]
  cases hget : mcsFdGet s table fd with
  | none => exact .quiet .refl
  | some d =>
    obtain ⟨t, i⟩ := d
    dsimp only
    cases mcsFdAlloc (s.tables t) with
    | error e => exact .quiet .refl
    | ok newfd =>
      have hsound : File.Sound { s.tables t i with used := true } := h.files t i (mcsFdGet_lt hget)
      exact .quiet (Move.file t newfd _ hsound).quiet

theorem does_ofReads {α : Type} {x : Reads (Outcome α)} {path : Mem} {value : α → ℤ}
    (hx : Spec x path (fun _ ↦ True) fun o ↦ Does s pos o.effect o.state) :
    Does s pos (Outcome.ofReads s value (x path).1).1.effect
      (Outcome.ofReads s value (x path).1).2 := by
  cases hres : (x path).1 with
  | none => exact .quiet .refl
  | some o => exact hx.result o hres

/-- The position `o` of the file `r` is where the call writes. -/
def Call.WritesAt (s : State) : Call → NodeRef → ℕ → Prop
  | .vfsWrite table fd buf len, r, o =>
    (mcsVfsWrite s table fd buf len).ret = .ok len ∧ PointsTo s table fd r o
  | .ramfsSeedFile _ _ _ _, _, o => o = 0
  | _, _, _ => False

theorem does_step (h : s.Sound) (c : Call) :
    Does s (c.WritesAt s) (step c s).1.effect (step c s).2 := by
  cases c with
  | ramfsInit fs =>
    cases fs with
    | none => exact .quiet .refl
    | some p => exact .initialised p
  | fdTableInit table =>
    cases table with
    | none => exact .quiet .refl
    | some t => exact .quiet (Move.tableInit t).quiet
  | ramfsSeedFile fs path data len =>
    match fs, path with
    | some p, some path => exact does_ofReads (spec_seedFile within_true h p data len)
    | none, _ => exact .quiet .refl
    | some _, none => exact .quiet .refl
  | vfsOpen table fs path flags =>
    match table, fs, path with
    | some t, some p, some path => exact does_ofReads (spec_mcsVfsOpen within_true h t p flags)
    | none, _, _ => exact .quiet .refl
    | some _, none, _ => exact .quiet .refl
    | some _, some _, none => exact .quiet .refl
  | vfsRead table fd buf len => exact (readEnds_mcsVfsRead h table fd buf len).does h
  | vfsWrite table fd buf len => exact (writeEnds_mcsVfsWrite h table fd buf len).does h
  | vfsLseek table fd offset whence => exact does_mcsVfsLseek h table fd offset whence
  | vfsClose table fd => exact does_mcsVfsClose table fd
  | vfsDup table fd => exact does_mcsVfsDup h table fd

theorem sound_step (h : s.Sound) (c : Call) : (step c s).2.Sound := (does_step h c).sound h

theorem sound_of_run {ok : State → Call → Prop} {es : List (Call × Event)} {t : State}
    (hrun : Run step ok s.init es t) : t.Sound :=
  hrun.invariant s.sound_init fun _ c hu _ ↦ sound_step hu c

/-! ## Isolation -/

/-- Data byte `x` of the file system `q` is read or written. -/
def Effect.Touches (s : State) : Effect → ℕ → ℕ → Prop
  | .read p r o n, q, x | .wrote p r o _ n, q, x =>
    q = p ∧ x ∈ Set.Ico ((s.node r).dataOffset + o) ((s.node r).dataOffset + o + n)
  | _, _, _ => False

/-- The call reads or writes through the descriptor. -/
def Call.Accesses (c : Call) (table : Option ℕ) (fd : ℤ) : Prop :=
  (∃ buf len, c = .vfsRead table fd buf len) ∨ ∃ buf len, c = .vfsWrite table fd buf len

def State.IsFile (s : State) (r : NodeRef) : Prop := (s.fs r.fs).IsFile r.idx

theorem State.Sound.isFile (h : s.Sound) (hidx : r.idx < maxNodes)
    (hfile : (s.node r).type = .file) (hcap : 0 < (s.node r).dataCapacity) : s.IsFile r :=
  ⟨(h.fs r.fs).lt_of_capacity hidx hcap, hfile⟩

theorem mem_extent_of_mem {v : Vnode} {o n x : ℕ} (hroom : o + n ≤ v.dataCapacity)
    (hx : x ∈ Set.Ico (v.dataOffset + o) (v.dataOffset + o + n)) :
    x ∈ v.extent ∧ 0 < v.dataCapacity := by
  obtain ⟨hlo, hhi⟩ := hx
  exact ⟨⟨by omega, by omega⟩, by omega⟩

theorem refersTo_eq {table : Option ℕ} {fd : ℤ} {t i : ℕ}
    (hget : mcsFdGet s table fd = some (t, i)) :
    refersTo s table fd = (s.tables t i).node := by
  rw [refersTo, hget]
  rfl

/-- What a read or a write touches belongs to the file that its descriptor refers to. -/
theorem touches_extent (h : s.Sound) {c : Call} {table : Option ℕ} {fd : ℤ}
    (hc : c.Accesses table fd) {p x : ℕ} (htouch : (step c s).1.effect.Touches s p x) :
    ∃ r, refersTo s table fd = some r ∧ p = r.fs ∧ s.IsFile r ∧ x ∈ (s.node r).extent := by
  rcases hc with ⟨buf, len, rfl⟩ | ⟨buf, len, rfl⟩
  · have hends := readEnds_mcsVfsRead h table fd buf len
    change (mcsVfsRead s table fd buf len).effect.Touches s p x at htouch
    generalize mcsVfsRead s table fd buf len = o at hends htouch
    cases hends with
    | failed e => exact htouch.elim
    | atEnd => exact htouch.elim
    | @read t i n r hget hnode hidx htype hroom _ =>
      have hsize := h.size_le hidx htype
      obtain ⟨hx, hcap⟩ := mem_extent_of_mem (hroom.trans hsize) htouch.2
      exact ⟨r, (refersTo_eq hget).trans hnode, htouch.1, h.isFile hidx htype hcap, hx⟩
  · have hends := writeEnds_mcsVfsWrite h table fd buf len
    change (mcsVfsWrite s table fd buf len).effect.Touches s p x at htouch
    generalize mcsVfsWrite s table fd buf len = o at hends htouch
    cases hends with
    | failed e _ => exact htouch.elim
    | @wrote t i o r hget hnode _ hidx htype hroom =>
      obtain ⟨hx, hcap⟩ := mem_extent_of_mem hroom htouch.2
      exact ⟨r, (refersTo_eq hget).trans hnode, htouch.1, h.isFile hidx htype hcap, hx⟩

theorem State.write_data (u : State) (r : NodeRef) (start n size p x : ℕ) (src : Mem) :
    ((u.write r start src n size).fs p).data x =
      if p = r.fs ∧ start ≤ x ∧ x < start + n then src (x - start) else (u.fs p).data x := by
  by_cases hp : p = r.fs
  · subst hp
    rw [State.write, State.setFs_setSize, State.setFs_fs_self]
    simp only [Ramfs.modify, Ramfs.copyIn, true_and]
  · rw [State.write, State.setFs_setSize, State.setFs_fs_of_ne u _ hp, if_neg (fun h ↦ hp h.1)]

theorem State.write_node (u : State) (r r' : NodeRef) (start n size : ℕ) (src : Mem) :
    (u.write r start src n size).node r' =
      { u.node r' with size := if r' = r then size else (u.node r').size } := by
  obtain ⟨p, i⟩ := r
  obtain ⟨q, j⟩ := r'
  by_cases hq : q = p
  · subst hq
    rw [State.write, State.setFs_setSize, State.node, State.setFs_fs_self, Ramfs.modify_size_nodes]
    simp only [NodeRef.mk.injEq, true_and]
    rfl
  · have hne : (⟨q, j⟩ : NodeRef) ≠ ⟨p, i⟩ := fun h ↦ hq (NodeRef.mk.inj h).1
    rw [State.write, State.setFs_setSize, State.node, State.setFs_fs_of_ne u _ hq, if_neg hne]
    rfl

theorem State.write_node_of_ne (u : State) {r r' : NodeRef} (start n size : ℕ) (src : Mem)
    (h : r' ≠ r) : (u.write r start src n size).node r' = u.node r' := by
  rw [State.write_node, if_neg h]

/-- The answer of `mcs_vfs_read` depends on the descriptor, the node and the bytes of the file. -/
theorem mcsVfsRead_ret_congr (h : s.Sound) {table : Option ℕ} {fd : ℤ}
    (hget : mcsFdGet s' table fd = mcsFdGet s table fd)
    (hfile : ∀ t i, mcsFdGet s table fd = some (t, i) → s'.tables t i = s.tables t i)
    (hnode : ∀ r, refersTo s table fd = some r → s'.node r = s.node r)
    (hdata : ∀ r, refersTo s table fd = some r → ∀ x < (s.node r).size, s.IsFile r →
      (s'.fs r.fs).data ((s.node r).dataOffset + x) = (s.fs r.fs).data ((s.node r).dataOffset + x))
    (buf : Bool) (len : ℕ) :
    (mcsVfsRead s' table fd buf len).ret = (mcsVfsRead s table fd buf len).ret := by
  rw [mcsVfsRead, mcsVfsRead, hget]
  split_ifs with hbuf
  · rfl
  cases hd : mcsFdGet s table fd with
  | none => rfl
  | some d =>
    obtain ⟨t, i⟩ := d
    dsimp only
    rw [hfile t i hd]
    split_ifs with hflags
    · rfl
    cases hr : (s.tables t i).node with
    | none => rfl
    | some r =>
      obtain ⟨hfs, hidx⟩ := h.files t i (mcsFdGet_lt hd) r hr
      have href : refersTo s table fd = some r := (refersTo_eq hd).trans hr
      rw [hfs]
      dsimp only
      rw [hnode r href]
      split_ifs with hdir hend
      · rfl
      · rfl
      · have htype := VnodeType.eq_file hdir
        have hsize := h.size_le hidx htype
        have hisFile : s.IsFile r := h.isFile hidx htype (by omega)
        refine congrArg Except.ok (List.map_congr_left fun k hk ↦ ?_)
        have hk' := List.mem_range.mp hk
        rw [Nat.add_assoc]
        exact hdata r href _ (by omega) hisFile

/-- The bytes of another file are not among those that a write to `r` changes: such a byte would lie
in both extents. -/
theorem State.Sound.not_written (h : s.Sound) {r' : NodeRef} {o n k : ℕ} (hidx : r.idx < maxNodes)
    (htype : (s.node r).type = .file) (hroom : o + n ≤ (s.node r).dataCapacity) (hne : r' ≠ r)
    (hfile : s.IsFile r') (hk : k < (s.node r').size) :
    ¬(r'.fs = r.fs ∧ (s.node r).dataOffset + o ≤ (s.node r').dataOffset + k ∧
      (s.node r').dataOffset + k < (s.node r).dataOffset + o + n) := by
  rintro ⟨hfs, hk'⟩
  obtain ⟨hmem, hcap⟩ := mem_extent_of_mem hroom hk'
  have hsize := (h.fs r'.fs).size_le r'.idx hfile
  have hmem' : (s.node r').dataOffset + k ∈ (s.node r').extent :=
    ⟨Nat.le_add_right _ _, Nat.add_lt_add_left (hk.trans_le hsize) _⟩
  have hidx' : r'.idx ≠ r.idx := by
    intro hidx'
    obtain ⟨p, j⟩ := r
    obtain ⟨q, j'⟩ := r'
    obtain rfl : q = p := hfs
    obtain rfl : j' = j := hidx'
    exact hne rfl
  have hisFile := h.isFile hidx htype hcap
  rw [State.IsFile, ← hfs] at hisFile
  rw [State.node, ← hfs] at hmem
  exact Set.disjoint_left.mp ((h.fs r'.fs).disjoint _ _ hfile hisFile hidx') hmem' hmem

theorem mcsVfsRead_ret_write (h : s.Sound) {table : Option ℕ} {fd : ℤ} {d i o n size offset : ℕ}
    {src : Mem} (hget : mcsFdGet s table fd = some (d, i)) (hnode : (s.tables d i).node = some r)
    (hidx : r.idx < maxNodes) (htype : (s.node r).type = .file)
    (hroom : o + n ≤ (s.node r).dataCapacity) {table' : Option ℕ} {fd' : ℤ}
    (hother : refersTo s table' fd' ≠ some r) (buf : Bool) (len : ℕ) :
    (mcsVfsRead ((s.setFile d i ((s.tables d i).setOffset offset)).write r
      ((s.node r).dataOffset + o) src n size) table' fd' buf len).ret =
        (mcsVfsRead s table' fd' buf len).ret := by
  have hne : ∀ {r'}, refersTo s table' fd' = some r' → r' ≠ r := by
    rintro r' href rfl
    exact hother href
  refine mcsVfsRead_ret_congr h (mcsFdGet_congr fun t _ ↦ ?_) (fun t j hj ↦ ?_) (fun r' href ↦ ?_)
    (fun r' href x hx hfile ↦ ?_) buf len
  · change ((s.setFile d i _).tables t fd'.toNat).used = _
    by_cases heq : (t, fd'.toNat) = (d, i)
    · obtain ⟨rfl, rfl⟩ := Prod.mk.inj heq
      rw [State.setFile_tables_self]
      rfl
    · rw [State.setFile_tables_of_ne s _ heq]
  · refine State.setFile_tables_of_ne s _ fun heq ↦ hother ?_
    obtain ⟨rfl, rfl⟩ := Prod.mk.inj heq
    exact (refersTo_eq hj).trans hnode
  · rw [State.write_node_of_ne _ _ _ _ _ (hne href), State.setFile_node]
  · rw [State.write_data, if_neg (h.not_written hidx htype hroom (hne href) hfile hx),
      State.setFile_fs]

/-- **The files of the RAM file system are isolated.** In every state of a run, the extents of the
files are apart, inside the used part of the data and as large as the files. A read or a write
touches the extent of the file that its descriptor refers to. A write that succeeds writes all its
bytes, at the position of its descriptor, and changes no other data byte; what a read of any other
file returns is the same after it as before. -/
theorem ramfs_isolated (s : State) {es : List (Call × Event)} {t : State}
    (hrun : Run step (fun _ _ ↦ True) s.init es t) :
    (∀ p, (t.fs p).Isolated) ∧
      (∀ c table fd, c.Accesses table fd → ∀ p x, (step c t).1.effect.Touches t p x →
        ∃ r, refersTo t table fd = some r ∧ p = r.fs ∧ t.IsFile r ∧ x ∈ (t.node r).extent) ∧
      ∀ table fd buf len n, (step (.vfsWrite table fd buf len) t).1.answer = .value (.ok n) →
        ∃ r o, PointsTo t table fd r o ∧ n = len ∧
          (∀ p x, ((step (.vfsWrite table fd buf len) t).2.fs p).data x =
            if p = r.fs ∧ (t.node r).dataOffset + o ≤ x ∧ x < (t.node r).dataOffset + o + len
            then (buf.getD fun _ ↦ 0) (x - ((t.node r).dataOffset + o)) else (t.fs p).data x) ∧
          ∀ table' fd' buf' len', refersTo t table' fd' ≠ some r →
            (step (.vfsRead table' fd' buf' len')
              (step (.vfsWrite table fd buf len) t).2).1.answer =
              (step (.vfsRead table' fd' buf' len') t).1.answer := by
  have h := sound_of_run hrun
  refine ⟨fun p ↦ (h.fs p).toIsolated, fun c table fd hc p x ↦ touches_extent h hc, ?_⟩
  intro table fd buf len n hanswer
  have hends := writeEnds_mcsVfsWrite h table fd buf len
  simp only [step, Outcome.toEvent] at hanswer ⊢
  generalize mcsVfsWrite t table fd buf len = out at hends hanswer ⊢
  cases hends with
  | failed e _ => exact absurd hanswer (by simp [Outcome.fail, Except.map])
  | @wrote d i o r hget hnode ho hidx htype hroom =>
    have hn : n = len := by
      simpa [Except.map, eq_comm] using hanswer
    refine ⟨r, o, ⟨d, i, hget, hnode, ho⟩, hn, fun p x ↦ State.write_data _ _ _ _ _ _ _ _,
      fun table' fd' buf' len' hother ↦ congrArg Answer.bytes ?_⟩
    exact mcsVfsRead_ret_write h hget hnode hidx htype hroom hother buf' len'

/-- Memory that is all zero. -/
def blank : State where
  fs _ := ⟨fun _ ↦ ⟨false, 0, 0, .file, fun _ ↦ 0, 0, 0, 0⟩, 0, fun _ ↦ 0, 0⟩
  tables _ _ := closedFile

/-- The path `/f`. -/
def pathF : Mem := fun i ↦ [47, 102].getD i 0

def pathG : Mem := fun i ↦ [47, 103].getD i 0

/-- Two files are created and the first one is written. -/
theorem ramfs_isolated_two_files : ∃ es t, Run step (fun _ _ ↦ True) blank.init es t ∧
    es.map (fun e ↦ e.2.answer) = [.value (.ok 0), .value (.ok 1), .value (.ok 6)] ∧
      ∀ p, (t.fs p).Isolated := by
  have hrun : Run step (fun _ _ ↦ True) blank.init _ _ :=
    ((Run.nil.snoc (Call.vfsOpen (some 0) (some 0) (some pathF) (oRdwr ||| oCreat)) trivial).snoc
      (Call.vfsOpen (some 0) (some 0) (some pathG) (oRdwr ||| oCreat)) trivial).snoc
      (Call.vfsWrite (some 0) 0 (some fun _ ↦ 65) 6) trivial
  exact ⟨_, _, hrun, by decide +kernel, (ramfs_isolated blank hrun).1⟩

end Vfs

end Mcsos
