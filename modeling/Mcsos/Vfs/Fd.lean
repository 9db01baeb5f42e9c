import Mcsos.Base.Machine
import Mcsos.Vfs.Ramfs

/-!
# Descriptors

`fd.c`: tables of 16 open files, and the calls that work on them. A pointer to a file system or to
a table is a number, or `none` for `NULL`; the state holds what is behind every pointer. A node is
the file system that contains it and its index there. The buffers and paths of a caller are separate
memory, outside the file systems and the tables.

Beside its answer each call gives an `Effect`: what it did with the data bytes of a file. The code
has no such record; it says which bytes were touched, which the answer alone does not.
-/

namespace Mcsos

namespace Vfs

open Reads (get diverge)

/-! ## State -/

/-- `mcs_vnode_t *` -/
structure NodeRef where
  fs : ℕ
  idx : ℕ
  deriving DecidableEq

/-- `mcs_file_t` -/
structure File where
  used : Bool
  flags : UInt32
  offset : ℕ
  node : Option NodeRef
  fs : Option ℕ
  deriving DecidableEq

/-- `file->offset = offset` -/
def File.setOffset (file : File) (offset : ℕ) : File := { file with offset := offset }

/-- The file systems and the descriptor tables, by address. -/
structure State where
  fs : ℕ → Ramfs
  tables : ℕ → ℕ → File

namespace State

/-- `*node` -/
def node (s : State) (r : NodeRef) : Vnode := (s.fs r.fs).nodes r.idx

/-- The assignment of a file system. -/
def setFs (s : State) (p : ℕ) (fs : Ramfs) : State := { s with fs := Function.update s.fs p fs }

/-- The assignment of `table->files[fd]`. -/
def setFile (s : State) (t fd : ℕ) (file : File) : State :=
  { s with tables := Function.update s.tables t (Function.update (s.tables t) fd file) }

/-- `node->size = size` -/
def setSize (s : State) (r : NodeRef) (size : ℕ) : State :=
  s.setFs r.fs ((s.fs r.fs).modify r.idx fun v ↦ { v with size := size })

end State

/-- What a call did with data bytes: nothing, it read or wrote `n` bytes of the data of `fs` from
position `offset` of the file `node` on, it emptied the file `node`, or it initialised `fs`. -/
inductive Effect where
  | none
  | read (fs : ℕ) (node : NodeRef) (offset n : ℕ)
  | wrote (fs : ℕ) (node : NodeRef) (offset : ℕ) (src : Mem) (n : ℕ)
  | truncated (node : NodeRef)
  | initialised (fs : ℕ)

/-- The answer of a call, its effect and the state after it. -/
structure Outcome (α : Type) where
  ret : Except Err α
  effect : Effect
  state : State

/-- A call that returns an error code. -/
def Outcome.fail {α : Type} (s : State) (e : Err) : Outcome α := ⟨.error e, .none, s⟩

/-! ## Flags -/

def oRdonly : UInt32 := 0x0001
def oWronly : UInt32 := 0x0002
def oRdwr : UInt32 := 0x0004
def oCreat : UInt32 := 0x0100
def oTrunc : UInt32 := 0x0200
def oAppend : UInt32 := 0x0400

def mcsCanRead (flags : UInt32) : Bool :=
  decide (flags &&& oRdonly ≠ 0) || decide (flags &&& oRdwr ≠ 0)

def mcsCanWrite (flags : UInt32) : Bool :=
  decide (flags &&& oWronly ≠ 0) || decide (flags &&& oRdwr ≠ 0)

/-! ## Tables -/

/-- An entry after `mcs_fd_table_init` or `mcs_vfs_close`. -/
def closedFile : File := ⟨false, 0, 0, none, none⟩

def mcsFdTableInit (files : ℕ → File) : ℕ → File := fun i ↦
  if i < maxOpenFiles then closedFile else files i

/-- `mcs_fd_get`: the table and the index of the entry. -/
def mcsFdGet (s : State) (table : Option ℕ) (fd : ℤ) : Option (ℕ × ℕ) :=
  match table with
  | none => none
  | some t =>
    if fd < 0 ∨ fd.toNat ≥ maxOpenFiles then none
    else if (s.tables t fd.toNat).used = false then none
    else some (t, fd.toNat)

/-- The loop of `mcs_fd_alloc`, from entry `i` on with `k` entries left. -/
def fdAllocFrom (files : ℕ → File) : ℕ → ℕ → Except Err ℕ
  | _, 0 => .error .nfile
  | i, k + 1 => if (files i).used = false then .ok i else fdAllocFrom files (i + 1) k

/-- `mcs_fd_alloc`; the callers assign the entry that was found. -/
def mcsFdAlloc (files : ℕ → File) : Except Err ℕ := fdAllocFrom files 0 maxOpenFiles

/-! ## Open -/

/-- The node that `mcs_vfs_open` opens: the one that is found, or the one that is created. -/
def openNode (fs : Ramfs) (flags : UInt32) : Reads (Except Err ℕ × Ramfs) := do
  match ← mcsRamfsLookup fs with
  | .ok i => return (.ok i, fs)
  | .error e =>
    if flags &&& oCreat = 0 then return (.error e, fs)
    else mcsRamfsCreateFile fs

/-- `mcs_vfs_open` from the check of the type of the node on. -/
def openFile (s : State) (t : ℕ) (node : NodeRef) (flags : UInt32) : Outcome ℕ :=
  if (s.node node).type = .dir ∧ mcsCanWrite flags = true then .fail s .isdir
  else
    match mcsFdAlloc (s.tables t) with
    | .error e => .fail s e
    | .ok fd =>
      let offset := if flags &&& oAppend ≠ 0 then (s.node node).size else 0
      if flags &&& oTrunc ≠ 0 then
        if mcsCanWrite flags = false then
          .fail (s.setFile t fd ⟨false, flags, offset, none, none⟩) .acces
        else
          ⟨.ok fd, .truncated node,
            (s.setSize node 0).setFile t fd ⟨true, flags, 0, some node, some node.fs⟩⟩
      else ⟨.ok fd, .none, s.setFile t fd ⟨true, flags, offset, some node, some node.fs⟩⟩

/-- The flags that `mcs_vfs_open` works with. -/
def effectiveFlags (flags : UInt32) : UInt32 :=
  if flags &&& (oRdonly ||| oWronly ||| oRdwr) = 0 then flags ||| oRdonly else flags

/-- `mcs_vfs_open`; none of its pointers is `NULL`. -/
def mcsVfsOpen (s : State) (t p : ℕ) (flags : UInt32) : Reads (Outcome ℕ) := do
  match ← openNode (s.fs p) (effectiveFlags flags) with
  | (.error e, fs) => return .fail (s.setFs p fs) e
  | (.ok i, fs) => return openFile (s.setFs p fs) t ⟨p, i⟩ (effectiveFlags flags)

/-! ## Read and write -/

/-- `mcs_copy_to_user(dst, &fs->data[start], n)`: the bytes copied. -/
def Ramfs.copyOut (fs : Ramfs) (start n : ℕ) : List UInt8 :=
  (List.range n).map fun i ↦ fs.data (start + i)

/-- `mcs_vfs_read`; `buf` says that the buffer is not `NULL`, and the bytes that it receives are
returned. -/
def mcsVfsRead (s : State) (table : Option ℕ) (fd : ℤ) (buf : Bool) (len : ℕ) :
    Outcome (List UInt8) :=
  if buf = false ∧ len ≠ 0 then .fail s .inval
  else
    match mcsFdGet s table fd with
    | none => .fail s .badf
    | some (t, i) =>
      let file := s.tables t i
      if mcsCanRead file.flags = false then .fail s .acces
      else
        match file.node, file.fs with
        | some r, some p =>
          if (s.node r).type = .dir then .fail s .isdir
          else if file.offset ≥ (s.node r).size then ⟨.ok [], .none, s⟩
          else
            let n := min len ((s.node r).size - file.offset)
            ⟨.ok ((s.fs p).copyOut ((s.node r).dataOffset + file.offset) n),
              .read p r file.offset n, s.setFile t i (file.setOffset (file.offset + n))⟩
        | _, _ => .fail s .inval

/-- `mcs_vfs_write` from the assignment of the offset for `MCS_O_APPEND` on, at entry `i` of table
`t` with the contents `file` after that assignment. -/
def writeFile (s : State) (t i : ℕ) (file : File) (r : NodeRef) (p : ℕ) (src : Mem) (len : ℕ) :
    Outcome ℕ :=
  if file.offset > (s.node r).dataCapacity then .fail (s.setFile t i file) .inval
  else
    let n := min len ((s.node r).dataCapacity - file.offset)
    if n < len then .fail (s.setFile t i file) .nospc
    else
      let written := s.setFs p ((s.fs p).copyIn ((s.node r).dataOffset + file.offset) src n)
      let moved := written.setFile t i (file.setOffset (file.offset + n))
      ⟨.ok n, .wrote p r file.offset src n,
        if file.offset + n > (s.node r).size then moved.setSize r (file.offset + n) else moved⟩

/-- The position at which `mcs_vfs_write` writes. -/
def writeOffset (s : State) (file : File) (r : NodeRef) : ℕ :=
  if file.flags &&& oAppend ≠ 0 then (s.node r).size else file.offset

/-- `mcs_vfs_write`; `buf` is `none` for `NULL`. -/
def mcsVfsWrite (s : State) (table : Option ℕ) (fd : ℤ) (buf : Option Mem) (len : ℕ) : Outcome ℕ :=
  if buf.isNone ∧ len ≠ 0 then .fail s .inval
  else
    match mcsFdGet s table fd with
    | none => .fail s .badf
    | some (t, i) =>
      let file := s.tables t i
      if mcsCanWrite file.flags = false then .fail s .acces
      else
        match file.node, file.fs with
        | some r, some p =>
          if (s.node r).type = .dir then .fail s .isdir
          else
            writeFile s t i (file.setOffset (writeOffset s file r)) r p (buf.getD fun _ ↦ 0) len
        | _, _ => .fail s .inval

/-! ## Seek, close and duplicate -/

def seekSet : ℤ := 0
def seekCur : ℤ := 1
def seekEnd : ℤ := 2

/-- The value of a number in a `long`. -/
def toLong (x : ℤ) : ℤ := x.bmod (2 ^ 64)

/-- The value of a number in an `int`. -/
def toInt (x : ℤ) : ℤ := x.bmod (2 ^ 32)

/-- The base of `mcs_vfs_lseek`. -/
def seekBase (s : State) (file : File) (r : NodeRef) (whence : ℤ) : Option ℤ :=
  if whence = seekSet then some 0
  else if whence = seekCur then some (toLong file.offset)
  else if whence = seekEnd then some (toLong (s.node r).size)
  else none

def mcsVfsLseek (s : State) (table : Option ℕ) (fd offset whence : ℤ) : Outcome ℤ :=
  match mcsFdGet s table fd with
  | none => .fail s .badf
  | some (t, i) =>
    let file := s.tables t i
    match file.node with
    | none => .fail s .isdir
    | some r =>
      if (s.node r).type = .dir then .fail s .isdir
      else
        match seekBase s file r whence with
        | none => .fail s .inval
        | some base =>
          let next := toLong (base + offset)
          if next < 0 then .fail s .inval
          else ⟨.ok (toInt next), .none, s.setFile t i (file.setOffset next.toNat)⟩

def mcsVfsClose (s : State) (table : Option ℕ) (fd : ℤ) : Outcome Unit :=
  match mcsFdGet s table fd with
  | none => .fail s .badf
  | some (t, i) => ⟨.ok (), .none, s.setFile t i closedFile⟩

def mcsVfsDup (s : State) (table : Option ℕ) (fd : ℤ) : Outcome ℕ :=
  match mcsFdGet s table fd with
  | none => .fail s .badf
  | some (t, i) =>
    match mcsFdAlloc (s.tables t) with
    | .error e => .fail s e
    | .ok newfd => ⟨.ok newfd, .none, s.setFile t newfd { s.tables t i with used := true }⟩

/-! ## Runs -/

/-- The calls of the interface. A pointer is `none` for `NULL`. -/
inductive Call where
  | ramfsInit (fs : Option ℕ)
  | fdTableInit (table : Option ℕ)
  | ramfsSeedFile (fs : Option ℕ) (path data : Option Mem) (len : ℕ)
  | vfsOpen (table fs : Option ℕ) (path : Option Mem) (flags : UInt32)
  | vfsRead (table : Option ℕ) (fd : ℤ) (buf : Bool) (len : ℕ)
  | vfsWrite (table : Option ℕ) (fd : ℤ) (buf : Option Mem) (len : ℕ)
  | vfsLseek (table : Option ℕ) (fd offset whence : ℤ)
  | vfsClose (table : Option ℕ) (fd : ℤ)
  | vfsDup (table : Option ℕ) (fd : ℤ)

/-- What a call returns: nothing, a code or a number, or the bytes read. A call that does not end
has the answer `never`. -/
inductive Answer where
  | never
  | done
  | value (ret : Except Err ℤ)
  | bytes (ret : Except Err (List UInt8))
  deriving DecidableEq

/-- The answer and the effect of a call. -/
structure Event where
  answer : Answer
  effect : Effect

/-- An outcome whose answer is a number. -/
def Outcome.toEvent {α : Type} (o : Outcome α) (value : α → ℤ) : Event × State :=
  (⟨.value (o.ret.map value), o.effect⟩, o.state)

/-- A call that takes a path. The path is read before anything is changed. -/
def Outcome.ofReads {α : Type} (s : State) (value : α → ℤ) : Option (Outcome α) → Event × State
  | none => (⟨.never, .none⟩, s)
  | some o => o.toEvent value

/-- `mcs_ramfs_seed_file` on the file system at `p`. -/
def seedFile (s : State) (p : ℕ) (data : Option Mem) (len : ℕ) : Reads (Outcome Unit) := do
  match ← mcsRamfsSeedFile (s.fs p) data len with
  | (.error e, fs) => return .fail (s.setFs p fs) e
  | (.ok i, fs) => return ⟨.ok (), .wrote p ⟨p, i⟩ 0 (data.getD fun _ ↦ 0) len, s.setFs p fs⟩

def step : Call → State → Event × State
  | .ramfsInit none, s => (⟨.done, .none⟩, s)
  | .ramfsInit (some p), s => (⟨.done, .initialised p⟩, s.setFs p (mcsRamfsInit (s.fs p)))
  | .fdTableInit none, s => (⟨.done, .none⟩, s)
  | .fdTableInit (some t), s =>
    (⟨.done, .none⟩, { s with tables := Function.update s.tables t (mcsFdTableInit (s.tables t)) })
  | .ramfsSeedFile (some p) (some path) data len, s =>
    Outcome.ofReads s (fun _ ↦ 0) (seedFile s p data len path).1
  | .ramfsSeedFile _ _ _ _, s => (⟨.value (.error .inval), .none⟩, s)
  | .vfsOpen (some t) (some p) (some path) flags, s =>
    Outcome.ofReads s (fun fd : ℕ ↦ (fd : ℤ)) (mcsVfsOpen s t p flags path).1
  | .vfsOpen _ _ _ _, s => (⟨.value (.error .inval), .none⟩, s)
  | .vfsRead table fd buf len, s =>
    let o := mcsVfsRead s table fd buf len
    (⟨.bytes o.ret, o.effect⟩, o.state)
  | .vfsWrite table fd buf len, s => (mcsVfsWrite s table fd buf len).toEvent fun n ↦ (n : ℤ)
  | .vfsLseek table fd offset whence, s => (mcsVfsLseek s table fd offset whence).toEvent id
  | .vfsClose table fd, s => (mcsVfsClose s table fd).toEvent fun _ ↦ 0
  | .vfsDup table fd, s => (mcsVfsDup s table fd).toEvent fun n ↦ (n : ℤ)

/-- The state after `mcs_ramfs_init` and `mcs_fd_table_init` have initialised what is behind each
pointer. -/
def State.init (s : State) : State where
  fs p := mcsRamfsInit (s.fs p)
  tables t := mcsFdTableInit (s.tables t)

end Vfs

end Mcsos
