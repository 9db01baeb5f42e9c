import Mcsos.Vfs.Truncate

/-!
# Appending from many descriptors

A descriptor that was opened with `MCS_O_APPEND` keeps an offset like any other. Reads, seeks and
the writes of other descriptors leave it anywhere, but `mcs_vfs_write` sets it to the size of the
file first. A write that succeeds therefore continues the file (`State.content_write`), and one that
does not fit fails before a byte is copied (`mcsVfsWrite_append`). The bound on the offset, which is
checked before, cannot be exceeded: no file is larger than its extent.

The data of the writes is collected beside the state, in the order in which they happen (`Log`).
-/

namespace Mcsos

namespace Vfs

variable {s : State} {r r' : NodeRef} {table : Option ℕ} {fd : ℤ} {buf : Option Mem} {len t i : ℕ}

/-! ## The contents of a file -/

def State.content (s : State) (r : NodeRef) : List UInt8 :=
  (List.range (s.node r).size).map (s.byte r)

theorem State.content_write (s : State) (r : NodeRef) (src : Mem) (n : ℕ) :
    (s.write r ((s.node r).dataOffset + (s.node r).size) src n ((s.node r).size + n)).content r =
      s.content r ++ (List.range n).map src := by
  have hsize : ((s.write r ((s.node r).dataOffset + (s.node r).size) src n
      ((s.node r).size + n)).node r).size = (s.node r).size + n := by
    rw [State.write_node]
    exact if_pos rfl
  rw [State.content, State.content, hsize, List.range_add, List.map_append, List.map_map]
  congr 1
  · refine List.map_congr_left fun k hk ↦ ?_
    rw [List.mem_range] at hk
    rw [State.byte_write, if_neg (by omega)]
  · refine List.map_congr_left fun k hk ↦ ?_
    rw [List.mem_range] at hk
    rw [Function.comp_apply, State.byte_write, if_pos (by omega), Nat.add_sub_cancel_left]

theorem State.Sound.content_write_of_ne (h : s.Sound) {o n size : ℕ} {src : Mem}
    (hidx : r.idx < maxNodes) (htype : (s.node r).type = .file)
    (hroom : o + n ≤ (s.node r).dataCapacity) (hne : r' ≠ r) (hfile : s.IsFile r') :
    (s.write r ((s.node r).dataOffset + o) src n size).content r' = s.content r' := by
  rw [State.content, State.content, State.write_node_of_ne _ _ _ _ _ hne]
  refine List.map_congr_left fun k hk ↦ ?_
  rw [State.byte, State.byte, State.write_node_of_ne _ _ _ _ _ hne, State.write_data,
    if_neg (h.not_written hidx htype hroom hne hfile (List.mem_range.mp hk))]

/-! ## Calls that leave the file systems alone -/

theorem mcsVfsRead_fs (buf : Bool) : (mcsVfsRead s table fd buf len).state.fs = s.fs := by
  dsimp only [mcsVfsRead]
  repeat' split
  all_goals rfl

theorem mcsVfsLseek_fs (offset whence : ℤ) :
    (mcsVfsLseek s table fd offset whence).state.fs = s.fs := by
  dsimp only [mcsVfsLseek]
  repeat' split
  all_goals rfl

theorem mcsVfsClose_fs : (mcsVfsClose s table fd).state.fs = s.fs := by
  rw [mcsVfsClose]
  split <;> rfl

theorem mcsVfsDup_fs : (mcsVfsDup s table fd).state.fs = s.fs := by
  dsimp only [mcsVfsDup]
  repeat' split
  all_goals rfl

theorem mcsVfsWrite_fs {e : Err} (h : (mcsVfsWrite s table fd buf len).ret = .error e) :
    (mcsVfsWrite s table fd buf len).state.fs = s.fs := by
  revert h
  dsimp only [mcsVfsWrite, writeFile]
  repeat' split
  all_goals first
    | exact fun _ ↦ rfl
    | exact fun h ↦ nomatch h

/-! ## One call -/

/-- The descriptor refers to the file `r` and was opened for writing with `MCS_O_APPEND`. -/
def AppendsTo (s : State) (table : Option ℕ) (fd : ℤ) (r : NodeRef) : Prop :=
  ∃ t i, mcsFdGet s table fd = some (t, i) ∧ (s.tables t i).node = some r ∧
    mcsCanWrite (s.tables t i).flags = true ∧ (s.tables t i).flags &&& oAppend ≠ 0

/-- The calls on descriptors. A descriptor of the file `r` that may be written appends. -/
def OnlyAppends (r : NodeRef) (s : State) : Call → Prop
  | .vfsWrite table fd _ _ => ∀ t i, mcsFdGet s table fd = some (t, i) →
      (s.tables t i).node = some r → mcsCanWrite (s.tables t i).flags = true →
        (s.tables t i).flags &&& oAppend ≠ 0
  | .vfsRead _ _ _ _ | .vfsLseek _ _ _ _ | .vfsDup _ _ | .vfsClose _ _ => True
  | _ => False

/-- The data of a call: all the bytes of the buffer for a write to the file `r` that succeeds. -/
def appended (r : NodeRef) (s : State) : Call → List UInt8
  | .vfsWrite table fd buf len =>
    match (mcsVfsWrite s table fd buf len).ret with
    | .ok _ =>
      if refersTo s table fd = some r then (List.range len).map (buf.getD fun _ ↦ 0) else []
    | .error _ => []
  | _ => []

theorem mcsCanWrite_of_ok {n : ℕ} (h : (mcsVfsWrite s table fd buf len).ret = .ok n)
    (hget : mcsFdGet s table fd = some (t, i)) : mcsCanWrite (s.tables t i).flags = true := by
  rw [mcsVfsWrite, hget] at h
  split_ifs at h
  · cases h
  by_contra hno
  dsimp only at h
  rw [if_pos (Bool.not_eq_true _ ▸ hno)] at h
  cases h

theorem State.content_congr {s' : State} (h : s'.fs = s.fs) : s'.content r = s.content r := by
  have hnode : s'.node r = s.node r := by rw [State.node, State.node, h]
  have hbyte : s'.byte r = s.byte r := funext fun k ↦ by rw [State.byte, State.byte, hnode, h]
  rw [State.content, State.content, hnode, hbyte]

theorem State.isFile_congr {s' : State} (h : s'.fs = s.fs) : s'.IsFile r ↔ s.IsFile r := by
  rw [State.IsFile, State.IsFile, h]

/-- A call adds its data at the end of the file, and nothing else changes there. -/
theorem State.Sound.content_step (h : s.Sound) (hfile : s.IsFile r) {c : Call}
    (hc : OnlyAppends r s c) :
    (step c s).2.content r = s.content r ++ appended r s c ∧ (step c s).2.IsFile r := by
  -- a call that leaves the file systems alone
  have hsame {s' : State} (hfs : s'.fs = s.fs) :
      s'.content r = s.content r ++ [] ∧ s'.IsFile r := by
    rw [List.append_nil, State.isFile_congr hfs]
    exact ⟨State.content_congr hfs, hfile⟩
  cases c with
  | vfsRead table fd buf len => exact hsame (mcsVfsRead_fs buf)
  | vfsLseek table fd offset whence => exact hsame (mcsVfsLseek_fs offset whence)
  | vfsClose table fd => exact hsame mcsVfsClose_fs
  | vfsDup table fd => exact hsame mcsVfsDup_fs
  | vfsWrite table fd buf len =>
    have hends := writeEnds_mcsVfsWrite h table fd buf len
    have hfs := fun e ↦ @mcsVfsWrite_fs s table fd buf len e
    have hwrite := fun n t i ↦ @mcsCanWrite_of_ok s table fd buf len t i n
    rw [appended, step, Outcome.toEvent]
    generalize mcsVfsWrite s table fd buf len = o at hends hfs hwrite
    cases hends with
    | failed e _ => exact hsame (hfs e rfl)
    | @wrote t i o r' hget hnode ho hidx htype hroom =>
      dsimp only
      rw [State.isFile_write, refersTo_eq hget, hnode]
      by_cases hr : r' = r
      · subst hr
        have happend := hc t i hget hnode (hwrite _ t i rfl hget)
        rw [writeOffset, if_pos happend] at ho
        subst ho
        rw [if_pos rfl, max_eq_right (Nat.le_add_right _ _)]
        exact ⟨State.content_write (s.setFile t i _) r' _ len, hfile⟩
      · rw [if_neg fun heq ↦ hr (Option.some.inj heq), List.append_nil]
        have hsound : (s.setFile t i ((s.tables t i).setOffset (o + len))).Sound :=
          h.setFile ((h.files t i (mcsFdGet_lt hget)).setOffset _)
        exact ⟨hsound.content_write_of_ne hidx htype hroom (Ne.symm hr) hfile, hfile⟩
  | ramfsInit _ => exact hc.elim
  | fdTableInit _ => exact hc.elim
  | ramfsSeedFile _ _ _ _ => exact hc.elim
  | vfsOpen _ _ _ _ => exact hc.elim

theorem mcsVfsWrite_append (h : s.Sound) (hfile : s.IsFile r) (happ : AppendsTo s table fd r)
    (src : Mem) (len : ℕ) :
    (mcsVfsWrite s table fd (some src) len).ret =
      if (s.node r).size + len ≤ (s.node r).dataCapacity then .ok len else .error .nospc := by
  obtain ⟨t, i, hget, hnode, hwrite, happend⟩ := happ
  obtain ⟨hfs, hidx⟩ := h.files t i (mcsFdGet_lt hget) r hnode
  have hsize := h.size_le hidx hfile.2
  rw [mcsVfsWrite, if_neg (by simp), hget]
  dsimp only
  rw [if_neg (by rw [hwrite]; decide), hnode, hfs]
  dsimp only
  have hdir : ¬(s.node r).type = .dir := by
    rw [State.node, hfile.2]
    decide
  rw [if_neg hdir, writeFile, File.setOffset_offset, writeOffset, if_pos happend,
    if_neg (not_lt.mpr hsize)]
  dsimp only
  by_cases hroom : (s.node r).size + len ≤ (s.node r).dataCapacity
  · rw [if_neg (by omega), if_pos hroom, Nat.min_eq_left (by omega)]
  · rw [if_pos (by omega), if_neg hroom]
    rfl

/-! ## Runs -/

/-- The state and the data of the writes to a file so far. -/
structure Log where
  vfs : State
  data : List UInt8

def Log.step (r : NodeRef) (c : Call) (u : Log) : Answer × Log :=
  ((Vfs.step c u.vfs).1.answer, ⟨(Vfs.step c u.vfs).2, u.data ++ appended r u.vfs c⟩)

/-- **Appends do not overwrite each other.** From any state that the interface reaches, and as long
as the file is written through appending descriptors only, its content is the initial content and
then the data of the writes that succeeded, in their order. A write that does not fit returns
`MCS_ENOSPC` and adds nothing; every other write through such a descriptor succeeds. -/
theorem appends_in_order (s : State) {es₀ : List (Call × Event)} {u : State}
    (hreach : Run step (fun _ _ ↦ True) s.init es₀ u) (hfile : u.IsFile r)
    {es : List (Call × Answer)} {v : Log}
    (hrun : Run (Log.step r) (fun w c ↦ OnlyAppends r w.vfs c) ⟨u, []⟩ es v) :
    v.vfs.content r = u.content r ++ v.data ∧
      ∀ table fd src (len : ℕ), AppendsTo v.vfs table fd r →
        ((v.vfs.node r).size + len ≤ (v.vfs.node r).dataCapacity →
          (step (.vfsWrite table fd (some src) len) v.vfs).1.answer = .value (.ok len)) ∧
        ((v.vfs.node r).dataCapacity < (v.vfs.node r).size + len →
          (step (.vfsWrite table fd (some src) len) v.vfs).1.answer = .value (.error .nospc) ∧
            (step (.vfsWrite table fd (some src) len) v.vfs).2.content r = v.vfs.content r) := by
  have hinv : v.vfs.Sound ∧ v.vfs.IsFile r ∧ v.vfs.content r = u.content r ++ v.data := by
    refine hrun.invariant (P := fun w ↦ w.vfs.Sound ∧ w.vfs.IsFile r ∧
      w.vfs.content r = u.content r ++ w.data) ⟨sound_of_run hreach, hfile, ?_⟩ ?_
    · exact (List.append_nil _).symm
    · rintro w c ⟨hsound, hwfile, hcontent⟩ hc
      obtain ⟨hstep, hkeep⟩ := hsound.content_step hwfile hc
      refine ⟨sound_step hsound c, hkeep, ?_⟩
      rw [Log.step, hstep, hcontent, List.append_assoc]
  obtain ⟨hsound, hvfile, hcontent⟩ := hinv
  refine ⟨hcontent, fun table fd src len happ ↦ ?_⟩
  have hret := mcsVfsWrite_append hsound hvfile happ src len
  have hfs := fun e ↦ @mcsVfsWrite_fs v.vfs table fd (some src) len e
  rw [step, Outcome.toEvent]
  dsimp only
  refine ⟨fun hroom ↦ ?_, fun hfull ↦ ?_⟩
  · rw [hret, if_pos hroom]
    rfl
  · rw [if_neg (not_le.mpr hfull)] at hret
    rw [hret]
    exact ⟨rfl, State.content_congr (hfs _ hret)⟩

theorem onlyAppends_write (hget : mcsFdGet s table fd = some (t, i))
    (happend : (s.tables t i).flags &&& oAppend ≠ 0) :
    OnlyAppends r s (.vfsWrite table fd buf len) := by
  intro t' i' hget' _ _
  obtain ⟨rfl, rfl⟩ := Prod.mk.inj (Option.some.inj (hget.symm.trans hget'))
  exact happend

/-- Two descriptors are opened for appending to a new file. -/
def twoAppenders : State :=
  (step (.vfsOpen (some 0) (some 0) (some pathF) (oWronly ||| oAppend))
    (step (.vfsOpen (some 0) (some 0) (some pathF) (oWronly ||| oCreat ||| oAppend))
      blank.init).2).2

/-- They are written in turn, the second one after a seek to the start of the file. -/
theorem appends_in_order_two : ∃ es v,
    Run (Log.step ⟨0, 1⟩) (fun w c ↦ OnlyAppends ⟨0, 1⟩ w.vfs c) ⟨twoAppenders, []⟩ es v ∧
      v.data = [65, 65, 66] ∧ v.vfs.content ⟨0, 1⟩ = twoAppenders.content ⟨0, 1⟩ ++ v.data := by
  have hreach : Run step (fun _ _ ↦ True) blank.init _ twoAppenders :=
    (Run.nil.snoc _ trivial).snoc _ trivial
  have hnil : Run (Log.step ⟨0, 1⟩) (fun w c ↦ OnlyAppends ⟨0, 1⟩ w.vfs c) ⟨twoAppenders, []⟩ []
      ⟨twoAppenders, []⟩ := Run.nil
  have hfirst := hnil.snoc (Call.vfsWrite (some 0) 0 (some fun _ ↦ 65) 2)
    (onlyAppends_write (t := 0) (i := 0) (by decide +kernel) (by decide +kernel))
  have hrun := (hfirst.snoc (Call.vfsLseek (some 0) 1 0 seekSet) trivial).snoc
    (Call.vfsWrite (some 0) 1 (some fun _ ↦ 66) 1)
    (onlyAppends_write (t := 0) (i := 1) (by decide +kernel) (by decide +kernel))
  exact ⟨_, _, hrun, by decide +kernel,
    (appends_in_order blank hreach ⟨by decide +kernel, by decide +kernel⟩ hrun).1⟩

end Vfs

end Mcsos
