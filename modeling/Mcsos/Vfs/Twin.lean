import Mathlib.Data.Option.Basic
import Mcsos.Vfs.Isolation

/-!
# Two states with the same files and other contents

The data bytes decide nothing in the file system but what `mcs_vfs_read` returns. `Twin s s'`
relates two states that differ in their data bytes only. Two calls that differ at most in the bytes
that they write to one file (`Alike`) take twins to twins, with the same answers unless bytes are
read, and with the same effects but for those bytes (`twin_step`).
-/

namespace Mcsos

namespace Vfs

open Reads

/-! ## Twins -/

/-- Two file systems that differ in their data bytes only. -/
structure FsTwin (fs fs' : Ramfs) : Prop where
  nodes : fs'.nodes = fs.nodes
  nodeCount : fs'.nodeCount = fs.nodeCount
  dataUsed : fs'.dataUsed = fs.dataUsed

/-- Two states that differ in the data bytes only. -/
structure Twin (s s' : State) : Prop where
  fs : ∀ p, FsTwin (s.fs p) (s'.fs p)
  tables : s'.tables = s.tables

variable {fs fs' : Ramfs} {s s' : State} {f r : NodeRef}

theorem Twin.refl (s : State) : Twin s s := ⟨fun _ ↦ ⟨rfl, rfl, rfl⟩, rfl⟩

theorem Twin.node (h : Twin s s') (r : NodeRef) : s'.node r = s.node r :=
  congrFun (h.fs r.fs).nodes r.idx

theorem Twin.mcsFdGet (h : Twin s s') (table : Option ℕ) (fd : ℤ) :
    mcsFdGet s' table fd = mcsFdGet s table fd :=
  mcsFdGet_congr fun _ _ ↦ by rw [h.tables]

theorem Twin.setFs (h : Twin s s') (p : ℕ) (hfs : FsTwin fs fs') :
    Twin (s.setFs p fs) (s'.setFs p fs') := by
  refine ⟨fun q ↦ ?_, h.tables⟩
  by_cases hq : q = p
  · rwa [hq, State.setFs_fs_self, State.setFs_fs_self]
  · rw [State.setFs_fs_of_ne s fs hq, State.setFs_fs_of_ne s' fs' hq]
    exact h.fs q

theorem Twin.setFile (h : Twin s s') (t i : ℕ) (file : File) :
    Twin (s.setFile t i file) (s'.setFile t i file) := by
  refine ⟨h.fs, ?_⟩
  rw [State.setFile, State.setFile, h.tables]

theorem FsTwin.modify (h : FsTwin fs fs') (i : ℕ) (g : Vnode → Vnode) :
    FsTwin (fs.modify i g) (fs'.modify i g) :=
  ⟨by rw [Ramfs.modify, Ramfs.modify, h.nodes], h.nodeCount, h.dataUsed⟩

theorem FsTwin.copyIn (h : FsTwin fs fs') (start n : ℕ) (src src' : Mem) :
    FsTwin (fs.copyIn start src n) (fs'.copyIn start src' n) :=
  ⟨h.nodes, h.nodeCount, h.dataUsed⟩

theorem FsTwin.addNode (h : FsTwin fs fs') (parent : ℕ) (type : VnodeType) (name : Mem)
    (capacity : ℕ) :
    FsTwin (fs.addNode parent type name capacity) (fs'.addNode parent type name capacity) := by
  simp only [Ramfs.addNode, h.nodes, h.nodeCount, h.dataUsed]
  exact ⟨rfl, rfl, rfl⟩

theorem FsTwin.mcsRamfsInit (h : FsTwin fs fs') : FsTwin (mcsRamfsInit fs) (mcsRamfsInit fs') := by
  simp only [Vfs.mcsRamfsInit, h.nodes]
  exact ⟨rfl, rfl, rfl⟩

theorem Twin.setSize (h : Twin s s') (r : NodeRef) (size : ℕ) :
    Twin (s.setSize r size) (s'.setSize r size) :=
  h.setFs r.fs ((h.fs r.fs).modify _ _)

/-! ## Paths -/

theorem FsTwin.findChildFrom (h : FsTwin fs fs') (parent seg len i k : ℕ) :
    findChildFrom fs' parent seg len i k = findChildFrom fs parent seg len i k := by
  induction k generalizing i with
  | zero => rfl
  | succ k ih => rw [Vfs.findChildFrom, Vfs.findChildFrom, h.nodes, ih]

theorem FsTwin.mcsFindChild (h : FsTwin fs fs') (parent seg len : ℕ) :
    mcsFindChild fs' parent seg len = mcsFindChild fs parent seg len := by
  rw [Vfs.mcsFindChild, Vfs.mcsFindChild, h.findChildFrom, h.nodeCount]

theorem FsTwin.lookupFrom (h : FsTwin fs fs') (k cur seg : ℕ) :
    lookupFrom fs' k cur seg = lookupFrom fs k cur seg := by
  induction k generalizing cur seg with
  | zero => rfl
  | succ k ih => simp only [Vfs.lookupFrom, h.mcsFindChild, h.nodes, ih]

theorem FsTwin.mcsRamfsLookup (h : FsTwin fs fs') : mcsRamfsLookup fs' = mcsRamfsLookup fs := by
  simp only [Vfs.mcsRamfsLookup, h.lookupFrom]

theorem FsTwin.splitFrom (h : FsTwin fs fs') (k cur seg : ℕ) :
    splitFrom fs' k cur seg = splitFrom fs k cur seg := by
  induction k generalizing cur seg with
  | zero => rfl
  | succ k ih => simp only [Vfs.splitFrom, h.mcsFindChild, h.nodes, ih]

theorem FsTwin.mcsSplitParentLeaf (h : FsTwin fs fs') :
    mcsSplitParentLeaf fs' = mcsSplitParentLeaf fs := by
  simp only [Vfs.mcsSplitParentLeaf, h.splitFrom]

/-- The results of a function that changes a file system. -/
def ResTwin (a b : Except Err ℕ × Ramfs) : Prop := b.1 = a.1 ∧ FsTwin a.2 b.2

section Paths

variable {m : Mem}

theorem FsTwin.mcsAllocNode (h : FsTwin fs fs') (parent : ℕ) (type : VnodeType)
    (seg len capacity : ℕ) :
    Reads.Rel ResTwin (mcsAllocNode fs parent type seg len capacity)
      (mcsAllocNode fs' parent type seg len capacity) m := by
  have hfail : ∀ e : Err, Reads.Rel ResTwin (pure (.error e, fs)) (pure (.error e, fs')) m :=
    fun e ↦ rel_pure ⟨rfl, h⟩
  rw [Vfs.mcsAllocNode, Vfs.mcsAllocNode, h.nodeCount, h.dataUsed]
  refine rel_ite (fun _ ↦ hfail _) fun _ ↦ rel_ite (fun _ ↦ hfail _) fun _ ↦
    rel_ite (fun _ ↦ hfail _) fun _ ↦ rel_bind (rel_refl _) fun name _ _ hname ↦ ?_
  subst hname
  exact rel_pure ⟨rfl, h.addNode parent type name capacity⟩

theorem FsTwin.mcsRamfsCreateFile (h : FsTwin fs fs') :
    Reads.Rel ResTwin (mcsRamfsCreateFile fs) (mcsRamfsCreateFile fs') m := by
  rw [Vfs.mcsRamfsCreateFile, Vfs.mcsRamfsCreateFile, h.mcsRamfsLookup, h.mcsSplitParentLeaf]
  refine rel_bind (rel_refl _) fun res _ _ hres ↦ ?_
  subst hres
  cases res with
  | ok i =>
    dsimp only
    rw [h.nodes]
    exact rel_ite (fun _ ↦ rel_pure ⟨rfl, h⟩) fun _ ↦ rel_pure ⟨rfl, h⟩
  | error e =>
    refine rel_bind (rel_refl _) fun res _ _ hres ↦ ?_
    subst hres
    cases res with
    | error e => exact rel_pure ⟨rfl, h⟩
    | ok split =>
      obtain ⟨parent, leaf, len⟩ := split
      dsimp only
      rw [h.nodes]
      exact rel_ite (fun _ ↦ rel_pure ⟨rfl, h⟩) fun _ ↦ h.mcsAllocNode _ _ _ _ _

theorem FsTwin.openNode (h : FsTwin fs fs') (flags : UInt32) :
    Reads.Rel ResTwin (openNode fs flags) (openNode fs' flags) m := by
  rw [Vfs.openNode, Vfs.openNode, h.mcsRamfsLookup]
  refine rel_bind (rel_refl _) fun res _ _ hres ↦ ?_
  subst hres
  cases res with
  | ok i => exact rel_pure ⟨rfl, h⟩
  | error e => exact rel_ite (fun _ ↦ rel_pure ⟨rfl, h⟩) fun _ ↦ h.mcsRamfsCreateFile

theorem FsTwin.mcsRamfsSeedFile (h : FsTwin fs fs') {data data' : Option Mem}
    (hdata : data'.isNone = data.isNone) (len : ℕ) :
    Reads.Rel ResTwin (mcsRamfsSeedFile fs data len) (mcsRamfsSeedFile fs' data' len) m := by
  rw [Vfs.mcsRamfsSeedFile, Vfs.mcsRamfsSeedFile, hdata]
  refine rel_ite (fun _ ↦ rel_pure ⟨rfl, h⟩) fun _ ↦
    rel_bind h.mcsRamfsCreateFile fun a b _ ⟨hab, hfs⟩ ↦ ?_
  obtain ⟨res, fs⟩ := a
  obtain ⟨res', fs'⟩ := b
  obtain rfl : res' = res := hab
  cases res' with
  | error e => exact rel_pure ⟨rfl, hfs⟩
  | ok i =>
    dsimp only at hfs ⊢
    rw [hfs.nodes]
    have hseed := (hfs.copyIn (fs.nodes i).dataOffset len (data.getD fun _ ↦ 0)
      (data'.getD fun _ ↦ 0)).modify i fun v ↦ { v with size := len }
    exact rel_ite (fun _ ↦ rel_pure ⟨rfl, hfs⟩) fun _ ↦ rel_pure ⟨rfl, hseed⟩

end Paths

/-! ## Calls -/

/-- Two effects that differ at most in the bytes written to the file `f`. -/
inductive EffectTwin (f : NodeRef) : Effect → Effect → Prop
  | same (e : Effect) : EffectTwin f e e
  | wrote (o n : ℕ) (src src' : Mem) :
    EffectTwin f (.wrote f.fs f o src n) (.wrote f.fs f o src' n)

/-- Two answers: the same error, or two values that `R` relates. -/
inductive RetTwin {α : Type} (R : α → α → Prop) : Except Err α → Except Err α → Prop
  | error (e : Err) : RetTwin R (.error e) (.error e)
  | ok {a b : α} (rel : R a b) : RetTwin R (.ok a) (.ok b)

/-- The outcomes of a call in two states. -/
structure OutcomeTwin {α : Type} (f : NodeRef) (R : α → α → Prop) (o o' : Outcome α) : Prop where
  ret : RetTwin R o.ret o'.ret
  effect : EffectTwin f o.effect o'.effect
  state : Twin o.state o'.state

theorem Twin.fail {α : Type} {R : α → α → Prop} (h : Twin s s') (e : Err) :
    OutcomeTwin f R (.fail s e) (.fail s' e) :=
  ⟨.error e, .same _, h⟩

theorem Twin.openFile (h : Twin s s') (t : ℕ) (r : NodeRef) (flags : UInt32) :
    OutcomeTwin f Eq (openFile s t r flags) (openFile s' t r flags) := by
  rw [Vfs.openFile, Vfs.openFile, h.node, h.tables]
  by_cases hdir : (s.node r).type = .dir ∧ mcsCanWrite flags = true
  · rw [if_pos hdir, if_pos hdir]
    exact h.fail _
  rw [if_neg hdir, if_neg hdir]
  cases mcsFdAlloc (s.tables t) with
  | error e => exact h.fail e
  | ok fd =>
    dsimp only
    generalize (if flags &&& oAppend ≠ 0 then (s.node r).size else 0) = offset
    split_ifs with htrunc hwrite
    · exact (h.setFile t fd _).fail _
    · exact ⟨.ok rfl, .same _, (h.setSize r 0).setFile t fd _⟩
    · exact ⟨.ok rfl, .same _, h.setFile t fd _⟩

theorem Twin.mcsVfsOpen (h : Twin s s') (t p : ℕ) (flags : UInt32) {m : Mem} :
    Reads.Rel (OutcomeTwin f Eq) (mcsVfsOpen s t p flags) (mcsVfsOpen s' t p flags) m := by
  refine rel_bind ((h.fs p).openNode _) fun a b _ ⟨hab, hfs⟩ ↦ ?_
  obtain ⟨res, fs⟩ := a
  obtain ⟨res', fs'⟩ := b
  obtain rfl : res' = res := hab
  cases res' with
  | error e => exact rel_pure ((h.setFs p hfs).fail e)
  | ok i => exact rel_pure ((h.setFs p hfs).openFile t _ _)

theorem Twin.seedFile (h : Twin s s') (p : ℕ) {data data' : Option Mem} (len : ℕ) {m : Mem}
    (hnone : data'.isNone = data.isNone)
    (hdata : data' = data ∨ ∀ i fs, (mcsRamfsSeedFile (s.fs p) data len m).1 = some (.ok i, fs) →
      f = ⟨p, i⟩) :
    Reads.Rel (OutcomeTwin f Eq) (seedFile s p data len) (seedFile s' p data' len) m := by
  refine rel_bind ((h.fs p).mcsRamfsSeedFile hnone len) fun a b ha ⟨hab, hfs⟩ ↦ ?_
  obtain ⟨res, fs⟩ := a
  obtain ⟨res', fs'⟩ := b
  obtain rfl : res' = res := hab
  cases res' with
  | error e => exact rel_pure ((h.setFs p hfs).fail e)
  | ok i =>
    refine rel_pure ⟨.ok rfl, ?_, h.setFs p hfs⟩
    rcases hdata with rfl | hf
    · exact .same _
    · obtain rfl := hf i fs ha
      exact .wrote 0 len _ _

theorem Twin.mcsVfsRead (h : Twin s s') (table : Option ℕ) (fd : ℤ) (buf : Bool) (len : ℕ) :
    OutcomeTwin f (fun _ _ ↦ True) (mcsVfsRead s table fd buf len)
      (mcsVfsRead s' table fd buf len) := by
  rw [Vfs.mcsVfsRead, Vfs.mcsVfsRead, h.mcsFdGet]
  split_ifs with hbuf
  · exact h.fail _
  cases Vfs.mcsFdGet s table fd with
  | none => exact h.fail _
  | some d =>
    dsimp only
    rw [h.tables]
    split_ifs with hflags
    · exact h.fail _
    cases (s.tables d.1 d.2).node with
    | none => exact h.fail _
    | some r =>
      cases (s.tables d.1 d.2).fs with
      | none => exact h.fail _
      | some p =>
        dsimp only
        rw [h.node]
        split_ifs with hdir hend
        · exact h.fail _
        · exact ⟨.ok trivial, .same _, h⟩
        · exact ⟨.ok trivial, .same _, h.setFile _ _ _⟩

theorem Twin.writeFile (h : Twin s s') (t i : ℕ) (file : File) {r : NodeRef} {p : ℕ}
    {src src' : Mem} (len : ℕ) (hsrc : src' = src ∨ f = r ∧ f.fs = p) :
    OutcomeTwin f Eq (writeFile s t i file r p src len) (writeFile s' t i file r p src' len) := by
  rw [Vfs.writeFile, Vfs.writeFile, h.node]
  split_ifs with hcap
  · exact (h.setFile t i file).fail _
  dsimp only
  generalize min len ((s.node r).dataCapacity - file.offset) = n
  by_cases hroom : n < len
  · rw [if_pos hroom, if_pos hroom]
    exact (h.setFile t i file).fail _
  rw [if_neg hroom, if_neg hroom]
  have hmoved := (h.setFs p ((h.fs p).copyIn ((s.node r).dataOffset + file.offset) n src
      src')).setFile
    t i (file.setOffset (file.offset + n))
  refine ⟨.ok rfl, ?_, ?_⟩
  · rcases hsrc with rfl | ⟨rfl, rfl⟩
    · exact .same _
    · exact .wrote _ _ _ _
  · dsimp only
    split_ifs with hgrow
    · exact hmoved.setSize r _
    · exact hmoved

theorem Twin.mcsVfsWrite (hs : s.Sound) (h : Twin s s') {table : Option ℕ} {fd : ℤ}
    {buf buf' : Option Mem} (len : ℕ) (hnone : buf'.isNone = buf.isNone)
    (hbuf : buf' = buf ∨ refersTo s table fd = some f) :
    OutcomeTwin f Eq (mcsVfsWrite s table fd buf len) (mcsVfsWrite s' table fd buf' len) := by
  rw [Vfs.mcsVfsWrite, Vfs.mcsVfsWrite, h.mcsFdGet, hnone]
  split_ifs with hnull
  · exact h.fail _
  cases hget : Vfs.mcsFdGet s table fd with
  | none => exact h.fail _
  | some d =>
    obtain ⟨t, i⟩ := d
    dsimp only
    rw [h.tables]
    split_ifs with hflags
    · exact h.fail _
    cases hnode : (s.tables t i).node with
    | none => exact h.fail _
    | some r =>
      obtain ⟨hfs, -⟩ := hs.files t i (mcsFdGet_lt hget) r hnode
      have hoffset : writeOffset s' (s.tables t i) r = writeOffset s (s.tables t i) r := by
        rw [writeOffset, writeOffset, h.node]
      rw [hfs]
      dsimp only
      rw [hoffset, h.node]
      split_ifs with hdir
      · exact h.fail _
      · refine h.writeFile t i _ len (hbuf.imp (fun heq ↦ by rw [heq]) fun href ↦ ?_)
        rw [refersTo_eq hget, hnode] at href
        obtain rfl := Option.some.inj href
        exact ⟨rfl, rfl⟩

theorem Twin.mcsVfsLseek (h : Twin s s') (table : Option ℕ) (fd offset whence : ℤ) :
    OutcomeTwin f Eq (mcsVfsLseek s table fd offset whence)
      (mcsVfsLseek s' table fd offset whence) := by
  rw [Vfs.mcsVfsLseek, Vfs.mcsVfsLseek, h.mcsFdGet]
  cases Vfs.mcsFdGet s table fd with
  | none => exact h.fail _
  | some d =>
    dsimp only
    rw [h.tables]
    cases (s.tables d.1 d.2).node with
    | none => exact h.fail _
    | some r =>
      dsimp only
      have hbase : seekBase s' (s.tables d.1 d.2) r whence =
          seekBase s (s.tables d.1 d.2) r whence := by
        rw [seekBase, seekBase, h.node]
      rw [hbase, h.node]
      split_ifs with hdir
      · exact h.fail _
      cases seekBase s (s.tables d.1 d.2) r whence with
      | none => exact h.fail _
      | some base =>
        dsimp only
        split_ifs with hneg
        · exact h.fail _
        · exact ⟨.ok rfl, .same _, h.setFile _ _ _⟩

theorem Twin.mcsVfsClose (h : Twin s s') (table : Option ℕ) (fd : ℤ) :
    OutcomeTwin f Eq (mcsVfsClose s table fd) (mcsVfsClose s' table fd) := by
  rw [Vfs.mcsVfsClose, Vfs.mcsVfsClose, h.mcsFdGet]
  cases Vfs.mcsFdGet s table fd with
  | none => exact h.fail _
  | some d => exact ⟨.ok rfl, .same _, h.setFile _ _ _⟩

theorem Twin.mcsVfsDup (h : Twin s s') (table : Option ℕ) (fd : ℤ) :
    OutcomeTwin f Eq (mcsVfsDup s table fd) (mcsVfsDup s' table fd) := by
  rw [Vfs.mcsVfsDup, Vfs.mcsVfsDup, h.mcsFdGet]
  cases Vfs.mcsFdGet s table fd with
  | none => exact h.fail _
  | some d =>
    dsimp only
    rw [h.tables]
    cases mcsFdAlloc (s.tables d.1) with
    | error e => exact h.fail e
    | ok newfd => exact ⟨.ok rfl, .same _, h.setFile _ _ _⟩

/-! ## Steps -/

/-- Two calls in the state `s` that differ at most in the bytes that they write to the file `f`. -/
inductive Alike (f : NodeRef) (s : State) : Call → Call → Prop
  | same (c : Call) : Alike f s c c
  | write {table : Option ℕ} {fd : ℤ} {b b' : Mem} {len : ℕ}
    (file : refersTo s table fd = some f) :
    Alike f s (.vfsWrite table fd (some b) len) (.vfsWrite table fd (some b') len)
  | seed {p : ℕ} {path b b' : Mem} {len : ℕ}
    (file : ∀ i fs, (mcsRamfsSeedFile (s.fs p) (some b) len path).1 = some (.ok i, fs) →
      f = ⟨p, i⟩) :
    Alike f s (.ramfsSeedFile (some p) (some path) (some b) len)
      (.ramfsSeedFile (some p) (some path) (some b') len)

/-- Two answers that are the same, or that both are the bytes of a read. -/
def AnswerTwin (a a' : Answer) : Prop :=
  a' = a ∨ ∃ bs bs', a = .bytes (.ok bs) ∧ a' = .bytes (.ok bs')

/-- The events and the states after two calls. -/
structure StepTwin (f : NodeRef) (x x' : Event × State) : Prop where
  answer : AnswerTwin x.1.answer x'.1.answer
  effect : EffectTwin f x.1.effect x'.1.effect
  state : Twin x.2 x'.2

theorem OutcomeTwin.toEvent {α : Type} {o o' : Outcome α} (h : OutcomeTwin f Eq o o')
    (value : α → ℤ) : StepTwin f (o.toEvent value) (o'.toEvent value) := by
  obtain ⟨ret, effect, state⟩ := o
  obtain ⟨ret', effect', state'⟩ := o'
  have hret : ret' = ret := by
    cases h.ret with
    | error e => rfl
    | ok hab => rw [hab]
  subst hret
  exact ⟨.inl rfl, h.effect, h.state⟩

theorem Twin.ofReads {α : Type} {x y : Reads (Outcome α)} {m : Mem} (h : Twin s s')
    (hrel : Reads.Rel (OutcomeTwin f Eq) x y m) (value : α → ℤ) :
    StepTwin f (Outcome.ofReads s value (x m).1) (Outcome.ofReads s' value (y m).1) := by
  rw [Reads.Rel] at hrel
  generalize (x m).1 = a at hrel ⊢
  generalize (y m).1 = b at hrel ⊢
  cases hrel with
  | none => exact ⟨.inl rfl, .same _, h⟩
  | some hab => exact hab.toEvent value

/-- The data bytes decide nothing but what is read. -/
theorem twin_step (hs : s.Sound) (h : Twin s s') {c c' : Call} (halike : Alike f s c c') :
    StepTwin f (step c s) (step c' s') := by
  cases halike with
  | @write table fd b b' len hfile =>
    have hwrite : OutcomeTwin f Eq (mcsVfsWrite s table fd (some b) len)
        (mcsVfsWrite s' table fd (some b') len) := h.mcsVfsWrite hs len rfl (.inr hfile)
    exact hwrite.toEvent _
  | @seed p path b b' len hfile =>
    have hseed : Reads.Rel (OutcomeTwin f Eq) (seedFile s p (some b) len)
        (seedFile s' p (some b') len) path := h.seedFile p len rfl (.inr hfile)
    exact h.ofReads hseed _
  | same =>
    cases c with
    | ramfsInit fs =>
      cases fs with
      | none => exact ⟨.inl rfl, .same _, h⟩
      | some p => exact ⟨.inl rfl, .same _, h.setFs p (h.fs p).mcsRamfsInit⟩
    | fdTableInit table =>
      cases table with
      | none => exact ⟨.inl rfl, .same _, h⟩
      | some t =>
        refine ⟨.inl rfl, .same _, h.fs, ?_⟩
        simp only [step, h.tables]
    | ramfsSeedFile fs path data len =>
      cases fs with
      | none => exact ⟨.inl rfl, .same _, h⟩
      | some p =>
        cases path with
        | none => exact ⟨.inl rfl, .same _, h⟩
        | some path => exact h.ofReads (h.seedFile p len rfl (.inl rfl)) _
    | vfsOpen table fs path flags =>
      cases table with
      | none => exact ⟨.inl rfl, .same _, h⟩
      | some t =>
        cases fs with
        | none => exact ⟨.inl rfl, .same _, h⟩
        | some p =>
          cases path with
          | none => exact ⟨.inl rfl, .same _, h⟩
          | some path => exact h.ofReads (h.mcsVfsOpen t p flags) _
    | vfsRead table fd buf len =>
      have hread := h.mcsVfsRead (f := f) table fd buf len
      have hret := hread.ret
      refine ⟨?_, hread.effect, hread.state⟩
      simp only [step]
      generalize (mcsVfsRead s table fd buf len).ret = a at hret ⊢
      generalize (mcsVfsRead s' table fd buf len).ret = b at hret ⊢
      cases hret with
      | error e => exact .inl rfl
      | ok _ => exact .inr ⟨_, _, rfl, rfl⟩
    | vfsWrite table fd buf len => exact (h.mcsVfsWrite hs len rfl (.inl rfl)).toEvent _
    | vfsLseek table fd offset whence => exact (h.mcsVfsLseek table fd offset whence).toEvent _
    | vfsClose table fd => exact (h.mcsVfsClose table fd).toEvent _
    | vfsDup table fd => exact (h.mcsVfsDup table fd).toEvent _

end Vfs

end Mcsos
