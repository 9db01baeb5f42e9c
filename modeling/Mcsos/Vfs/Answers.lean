import Mcsos.Vfs.Isolation

/-!
# What the answers of open and lseek say

A caller of `mcs_vfs_open` or `mcs_vfs_lseek` learns from the answer what the call did.

* An open that fails leaves the descriptors as they were, and the file systems as well unless it
  has created the file before it failed (`Strands`). That happens when no descriptor is free, and
  when the file should be truncated without write access: both are checked after the creation.
* A seek computes the position as a `long` and returns it as an `int`. The answer is the position
  up to `2 ^ 31 - 1`. Behind that the descriptor moves to a position that the answer does not name,
  or moves although the answer is negative (`SeekReports`).
-/

namespace Mcsos

namespace Vfs

open Reads

variable {s u : State} {fs : Ramfs} {path : Mem} {flags : UInt32} {r : NodeRef}

/-! ## The flags of an open -/

/-- The access mode that `mcs_vfs_open` adds is not one of the other flags. -/
theorem effectiveFlags_and {mask : UInt32} (h : oRdonly &&& mask = 0) (flags : UInt32) :
    effectiveFlags flags &&& mask = flags &&& mask := by
  rw [effectiveFlags]
  split_ifs with hmode
  · refine UInt32.toBitVec_inj.mp ?_
    rw [UInt32.toBitVec_and, UInt32.toBitVec_or, BitVec.and_or_distrib_right,
      ← UInt32.toBitVec_and oRdonly, h, UInt32.toBitVec_zero, BitVec.or_zero,
      UInt32.toBitVec_and]
  · rfl

theorem mcsCanWrite_effectiveFlags (flags : UInt32) :
    mcsCanWrite (effectiveFlags flags) = mcsCanWrite flags := by
  rw [mcsCanWrite, mcsCanWrite, effectiveFlags_and (by decide), effectiveFlags_and (by decide)]

/-! ## Free descriptors -/

/-- `mcs_fd_alloc` finds a free entry if there is one. -/
theorem fdAllocFrom_spec (files : ℕ → File) (i k : ℕ) :
    (∃ fd, fdAllocFrom files i k = .ok fd ∧ (files fd).used = false) ∨
      fdAllocFrom files i k = .error .nfile ∧ ∀ j, i ≤ j → j < i + k → (files j).used = true := by
  induction k generalizing i with
  | zero => exact .inr ⟨rfl, fun j hij hj ↦ absurd hj (by omega)⟩
  | succ k ih =>
    rw [fdAllocFrom]
    by_cases hfree : (files i).used = false
    · rw [if_pos hfree]
      exact .inl ⟨i, rfl, hfree⟩
    · rw [if_neg hfree]
      refine (ih (i + 1)).imp_right fun ⟨hnone, hused⟩ ↦ ⟨hnone, fun j hij hj ↦ ?_⟩
      rcases Nat.eq_or_lt_of_le hij with rfl | hlt
      · exact Bool.not_eq_false _ ▸ hfree
      · exact hused j hlt (by omega)

/-- Every descriptor of the table is in use. -/
def Full (files : ℕ → File) : Prop := ∀ i < maxOpenFiles, (files i).used = true

theorem mcsFdAlloc_spec (files : ℕ → File) :
    (∃ fd, mcsFdAlloc files = .ok fd ∧ (files fd).used = false) ∨
      mcsFdAlloc files = .error .nfile ∧ Full files := by
  refine (fdAllocFrom_spec files 0 maxOpenFiles).imp_right fun ⟨hnone, hused⟩ ↦ ⟨hnone, ?_⟩
  exact fun i hi ↦ hused i (Nat.zero_le i) (by omega)

/-! ## A failed open -/

/-- The open asks for a truncation without write access. -/
def Denied (flags : UInt32) : Prop := flags &&& oTrunc ≠ 0 ∧ mcsCanWrite flags = false

/-- The open creates the file. -/
def Creates (fs : Ramfs) (path : Mem) (flags : UInt32) : Prop :=
  flags &&& oCreat ≠ 0 ∧ (∃ e, (mcsRamfsLookup fs path).1 = some (.error e)) ∧
    ∃ i fs', (mcsRamfsCreateFile fs path).1 = some (.ok i, fs')

/-- The open creates the file, and fails after that. -/
def Strands (s : State) (table fs : Option ℕ) (path : Option Mem) (flags : UInt32) : Prop :=
  ∃ t p m, table = some t ∧ fs = some p ∧ path = some m ∧ Creates (s.fs p) m flags ∧
    (Full (s.tables t) ∨ Denied flags)

/-- An open that fails after it has the node leaves the file systems and the set of descriptors in
use as they are. If the node is a file, then no descriptor is free or the truncation is denied. -/
theorem openFile_failed {t : ℕ} {e : Err} (h : (openFile u t r flags).ret = .error e) :
    (openFile u t r flags).state.fs = u.fs ∧
      (∀ t' i, ((openFile u t r flags).state.tables t' i).used = (u.tables t' i).used) ∧
      ((u.node r).type = .file → Full (u.tables t) ∨ Denied flags) := by
  rw [openFile] at h ⊢
  by_cases hdir : (u.node r).type = .dir ∧ mcsCanWrite flags = true
  · rw [if_pos hdir]
    refine ⟨rfl, fun _ _ ↦ rfl, fun hfile ↦ ?_⟩
    rw [hdir.1] at hfile
    cases hfile
  rw [if_neg hdir] at h ⊢
  rcases mcsFdAlloc_spec (u.tables t) with ⟨fd, hfd, hfree⟩ | ⟨hfd, hfull⟩
  · rw [hfd] at h ⊢
    dsimp only at h ⊢
    generalize (if flags &&& oAppend ≠ 0 then (u.node r).size else 0) = offset at h ⊢
    split_ifs at h ⊢ with htrunc hwrite
    · refine ⟨rfl, fun t' i ↦ ?_, fun _ ↦ .inr ⟨htrunc, hwrite⟩⟩
      -- the entry is assigned and given back
      by_cases heq : (t', i) = (t, fd)
      · obtain ⟨rfl, rfl⟩ := Prod.mk.inj heq
        exact (congrArg File.used (u.setFile_tables_self t' i _)).trans hfree.symm
      · exact congrArg File.used (u.setFile_tables_of_ne _ heq)
  · rw [hfd] at h ⊢
    exact ⟨rfl, fun _ _ ↦ rfl, fun _ ↦ .inl hfull⟩

theorem openNode_spec {res : Except Err ℕ × Ramfs} (h : (openNode fs flags path).1 = some res) :
    res.2 = fs ∧ ¬Creates fs path flags ∨ Creates fs path flags ∧
      ∃ parent name, res = (.ok fs.nodeCount, fs.addNode parent .file name 256) := by
  cases hlookup : (mcsRamfsLookup fs path).1 with
  | none =>
    rw [openNode, bind_apply_none _ hlookup] at h
    cases h
  | some found =>
    rw [openNode, bind_apply_some _ hlookup] at h
    cases found with
    | ok i =>
      obtain rfl := Option.some.inj h
      refine .inl ⟨rfl, fun ⟨_, ⟨e, he⟩, _⟩ ↦ ?_⟩
      rw [hlookup] at he
      cases he
    | error e =>
      dsimp only at h
      by_cases hcreat : flags &&& oCreat = 0
      · rw [if_pos hcreat] at h
        obtain rfl := Option.some.inj h
        exact .inl ⟨rfl, fun hcreates ↦ hcreates.1 hcreat⟩
      · rw [if_neg hcreat] at h
        cases located_of_lookup_error hlookup h with
        | failed e' =>
          refine .inl ⟨rfl, fun ⟨_, _, i, fs', hcreated⟩ ↦ ?_⟩
          rw [h] at hcreated
          cases hcreated
        | found _ _ hfalse => exact hfalse.elim
        | created parent name _ _ =>
          exact .inr ⟨⟨hcreat, ⟨e, hlookup⟩, _, _, h⟩, parent, name, rfl⟩

theorem Ramfs.addNode_ne (fs : Ramfs) (parent : ℕ) (name : Mem) :
    fs.addNode parent .file name 256 ≠ fs := by
  intro h
  have hcount : fs.nodeCount + 1 = fs.nodeCount := congrArg Ramfs.nodeCount h
  omega

theorem creates_effectiveFlags :
    Creates fs path (effectiveFlags flags) ↔ Creates fs path flags := by
  rw [Creates, Creates, effectiveFlags_and (by decide)]

theorem denied_effectiveFlags : Denied (effectiveFlags flags) ↔ Denied flags := by
  rw [Denied, Denied, effectiveFlags_and (by decide), mcsCanWrite_effectiveFlags]

theorem mcsVfsOpen_failed {t p : ℕ} {o : Outcome ℕ} {e : Err}
    (h : (mcsVfsOpen s t p flags path).1 = some o) (hfail : o.ret = .error e) :
    (∀ t' i, (o.state.tables t' i).used = (s.tables t' i).used) ∧
      (o.state.fs = s.fs ↔
        ¬(Creates (s.fs p) path flags ∧ (Full (s.tables t) ∨ Denied flags))) := by
  cases hnode : (openNode (s.fs p) (effectiveFlags flags) path).1 with
  | none =>
    rw [mcsVfsOpen, bind_apply_none _ hnode] at h
    cases h
  | some res =>
    rw [mcsVfsOpen, bind_apply_some _ hnode] at h
    rcases openNode_spec hnode with ⟨hsame, hnot⟩ | ⟨hcreates, parent, name, rfl⟩
    · rw [creates_effectiveFlags] at hnot
      obtain ⟨found, fs'⟩ := res
      obtain rfl : fs' = s.fs p := hsame
      cases found with
      | error e' =>
        obtain rfl := Option.some.inj h
        rw [State.setFs_self]
        exact ⟨fun _ _ ↦ rfl, iff_of_true rfl fun hstrands ↦ hnot hstrands.1⟩
      | ok i =>
        obtain rfl := Option.some.inj h
        rw [State.setFs_self] at hfail ⊢
        obtain ⟨hfs, hused, -⟩ := openFile_failed hfail
        exact ⟨hused, iff_of_true hfs fun hstrands ↦ hnot hstrands.1⟩
    · rw [creates_effectiveFlags] at hcreates
      obtain rfl := Option.some.inj h
      obtain ⟨hfs, hused, hwhy⟩ := openFile_failed hfail
      refine ⟨hused, iff_of_false (fun heq ↦ ?_) (not_not.mpr ⟨hcreates, ?_⟩)⟩
      · have hp := congrFun (hfs.symm.trans heq) p
        rw [State.setFs_fs_self] at hp
        exact Ramfs.addNode_ne _ _ _ hp
      · rw [← denied_effectiveFlags]
        refine hwhy ?_
        rw [State.node, State.setFs_fs_self]
        exact (Ramfs.addNode_nodes_self _ parent name).2.2

/-- **A failed open.** An open that returns an error code leaves the set of descriptors in use as it
was, in every table. It leaves the file systems as they were unless it has created the file before
it failed. -/
theorem failed_open_iff (s : State) (table fs : Option ℕ) (path : Option Mem) (flags : UInt32)
    {e : Err} (hfail : (step (.vfsOpen table fs path flags) s).1.answer = .value (.error e)) :
    (∀ t i, ((step (.vfsOpen table fs path flags) s).2.tables t i).used = (s.tables t i).used) ∧
      ((step (.vfsOpen table fs path flags) s).2.fs = s.fs ↔ ¬Strands s table fs path flags) := by
  -- with a `NULL` pointer nothing is done
  have hnull : (table = none ∨ fs = none ∨ path = none) → ¬Strands s table fs path flags := by
    rintro (h | h | h) ⟨t, p, m, ht, hp, hm, -⟩
    · cases h.symm.trans ht
    · cases h.symm.trans hp
    · cases h.symm.trans hm
  match table, fs, path with
  | none, _, _ => exact ⟨fun _ _ ↦ rfl, iff_of_true rfl (hnull (.inl rfl))⟩
  | some _, none, _ => exact ⟨fun _ _ ↦ rfl, iff_of_true rfl (hnull (.inr (.inl rfl)))⟩
  | some _, some _, none => exact ⟨fun _ _ ↦ rfl, iff_of_true rfl (hnull (.inr (.inr rfl)))⟩
  | some t, some p, some m =>
    have hstrands : Strands s (some t) (some p) (some m) flags ↔
        Creates (s.fs p) m flags ∧ (Full (s.tables t) ∨ Denied flags) := by
      refine ⟨?_, fun h ↦ ⟨t, p, m, rfl, rfl, rfl, h⟩⟩
      rintro ⟨t', p', m', ht, hp, hm, h⟩
      obtain rfl := Option.some.inj ht
      obtain rfl := Option.some.inj hp
      obtain rfl := Option.some.inj hm
      exact h
    rw [hstrands]
    change (Outcome.ofReads s _ (mcsVfsOpen s t p flags m).1).1.answer = _ at hfail
    change (∀ t' i, ((Outcome.ofReads s _ (mcsVfsOpen s t p flags m).1).2.tables t' i).used = _) ∧
      ((Outcome.ofReads s _ (mcsVfsOpen s t p flags m).1).2.fs = s.fs ↔ _)
    cases hopen : (mcsVfsOpen s t p flags m).1 with
    | none =>
      rw [hopen] at hfail
      cases hfail
    | some o =>
      rw [hopen] at hfail
      cases hret : o.ret with
      | ok fd =>
        simp only [Outcome.ofReads, Outcome.toEvent, hret] at hfail
        cases hfail
      | error e' => exact mcsVfsOpen_failed hopen hret

/-- A file that exists and one that does not are opened with `MCS_O_CREAT` and `MCS_O_TRUNC` but
without write access. The second one is stranded. -/
theorem failed_open_iff_denied :
    let s := (step (.vfsOpen (some 0) (some 0) (some pathF) (oRdwr ||| oCreat)) blank.init).2
    let flags := oRdonly ||| oCreat ||| oTrunc
    let old := step (.vfsOpen (some 0) (some 0) (some pathF) flags) s
    let new := step (.vfsOpen (some 0) (some 0) (some pathG) flags) s
    old.1.answer = .value (.error .acces) ∧ old.2.fs = s.fs ∧
      new.1.answer = .value (.error .acces) ∧ Strands s (some 0) (some 0) (some pathG) flags := by
  intro s flags old new
  have hold : old.1.answer = .value (.error .acces) := by decide +kernel
  have hnew : new.1.answer = .value (.error .acces) := by decide +kernel
  have hfound : (mcsRamfsLookup (s.fs 0) pathF).1 = some (.ok 1) := by decide +kernel
  have hchanged : (new.2.fs 0).nodeCount ≠ (s.fs 0).nodeCount := by decide +kernel
  refine ⟨hold, (failed_open_iff s _ _ _ _ hold).2.mpr ?_, hnew, ?_⟩
  · rintro ⟨_, _, _, -, ⟨⟩, ⟨⟩, ⟨-, ⟨e, hmissing⟩, -⟩, -⟩
    cases hfound.symm.trans hmissing
  · by_contra hnot
    exact hchanged (by rw [(failed_open_iff s _ _ _ _ hnew).2.mpr hnot])

/-- A state in which all descriptors are in use. -/
def busy : State := { blank.init with tables := fun _ _ ↦ ⟨true, oRdonly, 0, none, none⟩ }

/-- An open with `MCS_O_CREAT` and `MCS_O_TRUNC` but without write access returns `MCS_EACCES`, and
one with `MCS_O_CREAT` returns `MCS_ENFILE` when no descriptor is free. Both leave a new file. -/
theorem failed_open_creates :
    let denied := step (.vfsOpen (some 0) (some 0) (some pathF) (oRdonly ||| oCreat ||| oTrunc))
      blank.init
    let full := step (.vfsOpen (some 0) (some 0) (some pathF) (oRdwr ||| oCreat)) busy
    denied.1.answer = .value (.error .acces) ∧ (blank.init.fs 0).nodeCount = 1 ∧
      (denied.2.fs 0).nodeCount = 2 ∧ (denied.2.fs 0).dataUsed = 256 ∧
      full.1.answer = .value (.error .nfile) ∧ (busy.fs 0).nodeCount = 1 ∧
      (full.2.fs 0).nodeCount = 2 ∧ (full.2.fs 0).dataUsed = 256 := by
  decide +kernel

/-! ## Where a seek goes -/

/-- The position that a seek asks for. -/
def seekTarget (s : State) (file : File) (r : NodeRef) (offset whence : ℤ) : ℤ :=
  (if whence = seekCur then file.offset else if whence = seekEnd then (s.node r).size else 0 : ℕ) +
    offset

/-- The answer `ret` says what the seek to `pos` did with the descriptor: it is at the position that
is returned, or where it was if the answer is negative. -/
def SeekReports (pos : ℤ) (before : ℕ) (ret : Except Err ℤ) (after : ℕ) : Prop :=
  (∀ v, ret = .ok v → 0 ≤ v → 0 ≤ pos ∧ v = pos ∧ (after : ℤ) = pos) ∧
    ((∀ v, ret = .ok v → v < 0) → after = before)

theorem seekReports_error {pos : ℤ} {before : ℕ} {e : Err} :
    SeekReports pos before (.error e) before :=
  ⟨fun _ h ↦ (nomatch h), fun _ ↦ rfl⟩

theorem seekBase_add {file : File} {offset whence : ℤ}
    (hwhence : whence = seekSet ∨ whence = seekCur ∨ whence = seekEnd) :
    ∃ base, seekBase s file r whence = some base ∧
      toLong (base + offset) = toLong (seekTarget s file r offset whence) := by
  have hwrap : ∀ n : ℕ, toLong (toLong n + offset) = toLong (n + offset) :=
    fun n ↦ Int.bmod_add_bmod ..
  rcases hwhence with rfl | rfl | rfl
  · exact ⟨0, rfl, rfl⟩
  · exact ⟨_, rfl, hwrap _⟩
  · exact ⟨_, rfl, hwrap _⟩

theorem toLong_of_lt {x : ℤ} (hlo : -2 ^ 63 ≤ x) (hhi : x < 2 ^ 63) : toLong x = x :=
  Int.bmod_eq_of_le_mul_two (by omega) (by omega)

theorem toInt_of_lt {x : ℤ} (hlo : 0 ≤ x) (hhi : x < 2 ^ 31) : toInt x = x :=
  Int.bmod_eq_of_le_mul_two (by omega) (by omega)

theorem toInt_lt (x : ℤ) : toInt x < 2 ^ 31 := by
  have h := Int.bmod_lt (x := x) (m := 2 ^ 32) (by decide)
  rw [toInt]
  omega

/-- **What a seek reports.** The answer of `mcs_vfs_lseek` to a seek whose position is a `long` says
what the seek did if the descriptor is one of a directory, if the position is below `2 ^ 31`, or if
the answer is negative and the descriptor was at that position; and only then. -/
theorem lseek_reports_iff (s : State) {table : Option ℕ} {fd : ℤ} {t i : ℕ} {r : NodeRef}
    (hget : mcsFdGet s table fd = some (t, i)) (hnode : (s.tables t i).node = some r)
    {offset whence : ℤ} (hoffset : -2 ^ 63 ≤ offset)
    (hwhence : whence = seekSet ∨ whence = seekCur ∨ whence = seekEnd)
    (hlong : seekTarget s (s.tables t i) r offset whence < 2 ^ 63) :
    SeekReports (seekTarget s (s.tables t i) r offset whence) (s.tables t i).offset
        (mcsVfsLseek s table fd offset whence).ret
        ((mcsVfsLseek s table fd offset whence).state.tables t i).offset ↔
      (s.node r).type = .dir ∨ seekTarget s (s.tables t i) r offset whence < 2 ^ 31 ∨
        seekTarget s (s.tables t i) r offset whence = (s.tables t i).offset ∧
          toInt (s.tables t i).offset < 0 := by
  obtain ⟨base, hbase, hsum⟩ := @seekBase_add s r (s.tables t i) offset whence hwhence
  have hlow : -2 ^ 63 ≤ seekTarget s (s.tables t i) r offset whence := by
    rw [seekTarget]
    omega
  generalize seekTarget s (s.tables t i) r offset whence = pos at hsum hlong hlow ⊢
  rw [toLong_of_lt hlow hlong] at hsum
  simp only [mcsVfsLseek, hget, hnode, hbase, hsum]
  by_cases hdir : (s.node r).type = .dir
  · rw [if_pos hdir]
    exact iff_of_true seekReports_error (.inl hdir)
  rw [if_neg hdir]
  by_cases hneg : pos < 0
  · rw [if_pos hneg]
    exact iff_of_true seekReports_error (.inr (.inl (by omega)))
  rw [if_neg hneg]
  dsimp only
  rw [State.setFile_tables_self, File.setOffset_offset]
  have hpos : (pos.toNat : ℤ) = pos := Int.toNat_of_nonneg (not_lt.mp hneg)
  by_cases hint : pos < 2 ^ 31
  · refine iff_of_true ⟨fun v hv _ ↦ ?_, fun hv ↦ ?_⟩ (.inr (.inl hint))
    · obtain rfl := Except.ok.inj hv
      exact ⟨not_lt.mp hneg, toInt_of_lt (not_lt.mp hneg) hint, hpos⟩
    · have hv := hv _ rfl
      rw [toInt_of_lt (not_lt.mp hneg) hint] at hv
      exact absurd hv hneg
  · have hne : toInt pos ≠ pos := fun heq ↦ hint (heq ▸ toInt_lt pos)
    constructor
    · rintro ⟨hok, hfail⟩
      refine .inr (.inr ?_)
      have hlt : toInt pos < 0 := by
        by_contra hnonneg
        exact hne (hok _ rfl (not_lt.mp hnonneg)).2.1
      have hsame : pos.toNat = (s.tables t i).offset := hfail fun v hv ↦ by
        obtain rfl := Except.ok.inj hv
        exact hlt
      rw [← hsame, hpos]
      exact ⟨rfl, hlt⟩
    · rintro (h | h | ⟨heq, hlt⟩)
      · exact absurd h hdir
      · exact absurd h hint
      · rw [← heq] at hlt
        refine ⟨fun v hv hnonneg ↦ ?_, fun _ ↦ ?_⟩
        · obtain rfl := Except.ok.inj hv
          exact absurd hlt (not_lt.mpr hnonneg)
        · omega

/-- The state after `/f` was created and opened. -/
def opened : State :=
  (step (.vfsOpen (some 0) (some 0) (some pathF) (oRdwr ||| oCreat)) blank.init).2

/-- A seek to the fifth byte behind the end of an empty file. -/
theorem lseek_reports_iff_end :
    (mcsVfsLseek opened (some 0) 0 5 seekEnd).ret = .ok 5 ∧
      SeekReports 5 0 (mcsVfsLseek opened (some 0) 0 5 seekEnd).ret
        ((mcsVfsLseek opened (some 0) 0 5 seekEnd).state.tables 0 0).offset := by
  have hget : mcsFdGet opened (some 0) 0 = some (0, 0) := by decide +kernel
  have hnode : (opened.tables 0 0).node = some ⟨0, 1⟩ := by decide +kernel
  have htarget : seekTarget opened (opened.tables 0 0) ⟨0, 1⟩ 5 seekEnd = 5 := by decide +kernel
  have hoffset : (opened.tables 0 0).offset = 0 := by decide +kernel
  have hreports := @lseek_reports_iff opened (some 0) 0 0 0 ⟨0, 1⟩ hget hnode 5 seekEnd (by decide)
    (.inr (.inr rfl)) (by rw [htarget]; decide)
  rw [htarget, hoffset] at hreports
  exact ⟨by decide +kernel, hreports.mpr (.inr (.inl (by decide)))⟩

/-- A seek to `2 ^ 31` returns a negative value and moves the descriptor there, and a seek to
`2 ^ 32` returns zero. -/
theorem lseek_truncates :
    (mcsVfsLseek opened (some 0) 0 (2 ^ 31) seekSet).ret = .ok (-2 ^ 31) ∧
      ((mcsVfsLseek opened (some 0) 0 (2 ^ 31) seekSet).state.tables 0 0).offset = 2 ^ 31 ∧
      (mcsVfsLseek opened (some 0) 0 (2 ^ 32) seekSet).ret = .ok 0 ∧
      ((mcsVfsLseek opened (some 0) 0 (2 ^ 32) seekSet).state.tables 0 0).offset = 2 ^ 32 := by
  decide +kernel

end Vfs

end Mcsos
