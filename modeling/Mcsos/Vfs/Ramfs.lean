import Mcsos.Base.Reads

/-!
# The RAM file system

`ramfs.c`: a table of 64 nodes and 8192 data bytes. Node 0 is the root directory. A file gets an
extent of the data bytes when it is created, and keeps it.

A path is the memory behind a pointer, so the functions that take one are programs of `Reads`: they
say which bytes of the path are read, and they do not end when a string without a NUL has to be
measured. A loop that runs to a NUL has `steps` rounds, which is one for each address.
-/

namespace Mcsos

namespace Vfs

open Reads (get diverge)

/-! ## Constants and structures -/

def maxName : ℕ := 32
def maxPath : ℕ := 128
def maxNodes : ℕ := 64
def maxOpenFiles : ℕ := 16
def ramfsDataBytes : ℕ := 8192

/-- The number of addresses. -/
def steps : ℕ := 2 ^ 64

/-- The codes of `mcs_vfs_status` that some function returns, other than `MCS_OK`. -/
inductive Err where
  | noent
  | badf
  | acces
  | notdir
  | isdir
  | inval
  | nfile
  | nospc
  | nametoolong
  deriving DecidableEq, Repr

/-- `mcs_vnode_type_t` -/
inductive VnodeType where
  | dir
  | file
  deriving DecidableEq, Repr

/-- `mcs_vnode_t`; the first 32 bytes of `name` are those of the structure. -/
structure Vnode where
  used : Bool
  id : ℕ
  parent : ℕ
  type : VnodeType
  name : Mem
  size : ℕ
  dataOffset : ℕ
  dataCapacity : ℕ

/-- `mcs_ramfs_t`; it has the nodes below `maxNodes` and the data bytes below `ramfsDataBytes`. -/
structure Ramfs where
  nodes : ℕ → Vnode
  nodeCount : ℕ
  data : Mem
  dataUsed : ℕ

/-- The assignment of some fields of a node. -/
def Ramfs.modify (fs : Ramfs) (i : ℕ) (f : Vnode → Vnode) : Ramfs :=
  { fs with nodes := Function.update fs.nodes i (f (fs.nodes i)) }

/-- `mcs_copy_bytes(&fs->data[at], src, n)`, and `mcs_copy_from_user` likewise. -/
def Ramfs.copyIn (fs : Ramfs) (start : ℕ) (src : Mem) (n : ℕ) : Ramfs :=
  { fs with data := fun x ↦ if start ≤ x ∧ x < start + n then src (x - start) else fs.data x }

/-! ## Strings -/

/-- `mcs_strlen` from index `n` on, with `k` rounds left. -/
def strlenFrom : ℕ → ℕ → Reads ℕ
  | 0, _ => diverge
  | k + 1, n => do
    let c ← get n
    if c = 0 then return n else strlenFrom k (n + 1)

def mcsStrlen : Reads ℕ := strlenFrom steps 0

/-- `mcs_streq_n` of the path from index `seg` on and the name `b`, from character `i` on with `k`
characters left. -/
def streqFrom (seg : ℕ) (b : Mem) : ℕ → ℕ → Reads Bool
  | i, 0 => return decide (b i = 0)
  | i, k + 1 => do
    let a ← get (seg + i)
    if a ≠ b i then return false else streqFrom seg b (i + 1) k

def mcsStreqN (seg : ℕ) (b : Mem) (n : ℕ) : Reads Bool := streqFrom seg b 0 n

/-- The second loop of `mcs_copy_name`, from character `i` on with `k` characters left. -/
def copyNameFrom (seg : ℕ) : ℕ → ℕ → Mem → Reads Mem
  | _, 0, dst => return dst
  | i, k + 1, dst =>
    if i + 1 < maxName then do
      let c ← get (seg + i)
      copyNameFrom seg (i + 1) k (Function.update dst i c)
    else return dst

/-- `mcs_copy_name` of the `n` characters of the path from index `seg` on. -/
def mcsCopyName (seg n : ℕ) : Reads Mem := copyNameFrom seg 0 n fun _ ↦ 0

/-- The end of the segment of the path that contains index `pos`, with `k` rounds left. -/
def segmentEnd : ℕ → ℕ → Reads ℕ
  | 0, _ => diverge
  | k + 1, pos => do
    let c ← get pos
    if c ≠ '/'.toUInt8 ∧ c ≠ 0 then segmentEnd k (pos + 1) else return pos

/-! ## Lookup -/

/-- The loop of `mcs_find_child`, from node `i` on with `k` nodes left. -/
def findChildFrom (fs : Ramfs) (parent seg nameLen : ℕ) : ℕ → ℕ → Reads (Except Err ℕ)
  | _, 0 => return .error .noent
  | i, k + 1 =>
    if (fs.nodes i).used = true ∧ (fs.nodes i).parent = parent then do
      let same ← mcsStreqN seg (fs.nodes i).name nameLen
      if same = true then return .ok i else findChildFrom fs parent seg nameLen (i + 1) k
    else findChildFrom fs parent seg nameLen (i + 1) k

/-- `mcs_find_child`; a node is its index. -/
def mcsFindChild (fs : Ramfs) (parent seg nameLen : ℕ) : Reads (Except Err ℕ) :=
  if nameLen = 0 ∨ nameLen ≥ maxName then return .error .inval
  else findChildFrom fs parent seg nameLen 0 fs.nodeCount

/-- The loop of `mcs_ramfs_lookup`, with `k` rounds left. -/
def lookupFrom (fs : Ramfs) : ℕ → ℕ → ℕ → Reads (Except Err ℕ)
  | 0, _, _ => diverge
  | k + 1, cur, seg => do
    let c ← get seg
    if c = 0 then return .error .inval
    else
      let next ← segmentEnd steps seg
      if next - seg = 0 ∨ next - seg ≥ maxName then return .error .inval
      else
        match ← mcsFindChild fs (fs.nodes cur).id seg (next - seg) with
        | .error e => return .error e
        | .ok cur =>
          let c ← get next
          if c = 0 then return .ok cur
          else if (fs.nodes cur).type ≠ .dir then return .error .notdir
          else lookupFrom fs k cur (next + 1)

/-- `mcs_ramfs_lookup`; none of its arguments is `NULL`. -/
def mcsRamfsLookup (fs : Ramfs) : Reads (Except Err ℕ) := do
  let c ← get 0
  if c ≠ '/'.toUInt8 then return .error .inval
  else
    let n ← mcsStrlen
    if n ≥ maxPath then return .error .nametoolong
    else
      let c ← get 1
      if c = 0 then return .ok 0 else lookupFrom fs steps 0 1

/-- The loop of `mcs_split_parent_leaf`, with `k` rounds left. -/
def splitFrom (fs : Ramfs) : ℕ → ℕ → ℕ → Reads (Except Err (ℕ × ℕ × ℕ))
  | 0, _, _ => diverge
  | k + 1, cur, seg => do
    let next ← segmentEnd steps seg
    if next - seg = 0 ∨ next - seg ≥ maxName then return .error .inval
    else
      let c ← get next
      if c = 0 then return .ok (cur, seg, next - seg)
      else
        match ← mcsFindChild fs (fs.nodes cur).id seg (next - seg) with
        | .error e => return .error e
        | .ok cur =>
          if (fs.nodes cur).type ≠ .dir then return .error .notdir
          else splitFrom fs k cur (next + 1)

/-- `mcs_split_parent_leaf`: the parent, where the leaf starts and its length. -/
def mcsSplitParentLeaf (fs : Ramfs) : Reads (Except Err (ℕ × ℕ × ℕ)) := do
  let c ← get 0
  if c ≠ '/'.toUInt8 then return .error .inval
  else
    let c ← get 1
    if c = 0 then return .error .inval
    else
      let n ← mcsStrlen
      if n ≥ maxPath then return .error .nametoolong else splitFrom fs steps 0 1

/-! ## Creation -/

/-- The assignments of `mcs_alloc_node`. -/
def Ramfs.addNode (fs : Ramfs) (parent : ℕ) (type : VnodeType) (name : Mem) (capacity : ℕ) :
    Ramfs where
  nodes := Function.update fs.nodes fs.nodeCount {
    used := true
    id := fs.nodeCount
    parent := parent
    type := type
    name := name
    size := 0
    dataOffset := if type = .file then fs.dataUsed else 0
    dataCapacity := if type = .file then capacity else 0 }
  nodeCount := fs.nodeCount + 1
  data := fs.data
  dataUsed := if type = .file then fs.dataUsed + capacity else fs.dataUsed

def mcsAllocNode (fs : Ramfs) (parent : ℕ) (type : VnodeType) (seg nameLen capacity : ℕ) :
    Reads (Except Err ℕ × Ramfs) :=
  if nameLen = 0 ∨ nameLen ≥ maxName then return (.error .inval, fs)
  else if fs.nodeCount ≥ maxNodes then return (.error .nospc, fs)
  else if type = .file ∧ fs.dataUsed + capacity > ramfsDataBytes then return (.error .nospc, fs)
  else do
    let name ← mcsCopyName seg nameLen
    return (.ok fs.nodeCount, fs.addNode parent type name capacity)

/-- The assignments of the first loop of `mcs_ramfs_init` to a node. -/
def clearNode (v : Vnode) : Vnode where
  used := false
  id := 0
  parent := 0
  type := .file
  name := Function.update v.name 0 0
  size := 0
  dataOffset := 0
  dataCapacity := 0

def mcsRamfsInit (fs : Ramfs) : Ramfs where
  nodes i :=
    if i = 0 then
      { clearNode (fs.nodes 0) with
        used := true
        type := .dir
        name := Function.update (Function.update (fs.nodes 0).name 0 '/'.toUInt8) 1 0 }
    else if i < maxNodes then clearNode (fs.nodes i)
    else fs.nodes i
  nodeCount := 1
  data x := if x < ramfsDataBytes then 0 else fs.data x
  dataUsed := 0

/-- `mcs_ramfs_create_file`; none of its arguments is `NULL`. -/
def mcsRamfsCreateFile (fs : Ramfs) : Reads (Except Err ℕ × Ramfs) := do
  match ← mcsRamfsLookup fs with
  | .ok existing =>
    if (fs.nodes existing).type ≠ .file then return (.error .isdir, fs)
    else return (.ok existing, fs)
  | .error _ =>
    match ← mcsSplitParentLeaf fs with
    | .error e => return (.error e, fs)
    | .ok (parent, leaf, leafLen) =>
      if (fs.nodes parent).type ≠ .dir then return (.error .notdir, fs)
      else mcsAllocNode fs (fs.nodes parent).id .file leaf leafLen 256

/-- `mcs_ramfs_seed_file`; `fs` and `path` are not `NULL`, and `data` is `none` for `NULL`. The node
whose data is written is returned as well. -/
def mcsRamfsSeedFile (fs : Ramfs) (data : Option Mem) (len : ℕ) :
    Reads (Except Err ℕ × Ramfs) :=
  if data.isNone ∧ len ≠ 0 then return (.error .inval, fs)
  else do
    match ← mcsRamfsCreateFile fs with
    | (.error e, fs) => return (.error e, fs)
    | (.ok node, fs) =>
      if len > (fs.nodes node).dataCapacity then return (.error .nospc, fs)
      else
        let fs := fs.copyIn (fs.nodes node).dataOffset (data.getD fun _ ↦ 0) len
        return (.ok node, fs.modify node fun v ↦ { v with size := len })

end Vfs

end Mcsos
