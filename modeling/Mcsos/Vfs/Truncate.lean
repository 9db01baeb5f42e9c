import Mcsos.Vfs.Twin

/-!
# Truncated data

`mcs_vfs_open` with `MCS_O_TRUNC` sets the size of the file to zero and leaves its bytes where they
are. A write behind the end of the file then brings back the bytes that it skips.

What a file should contain is kept beside the state: `written r k` is the byte last written to
position `k` of the file `r` since the file was truncated, or zero. A file is clean if it contains
these bytes (`Clean`). Every call keeps the files clean but a write that skips a byte that was
written before the truncation (`Exposes`, `clean_step_iff`). Between such writes, two runs that
differ in the bytes written before a truncation give the same answers after it (`Same.answers`).
-/

namespace Mcsos

namespace Vfs

/-! ## The bytes written since the truncation -/

/-- The state of the file systems and, for each file, the bytes written to it since it was
truncated. -/
structure System where
  vfs : State
  written : NodeRef → ℕ → UInt8

/-- The bytes written since the truncation, after a call. -/
def remember (written : NodeRef → ℕ → UInt8) : Effect → NodeRef → ℕ → UInt8
  | .wrote _ r o src n => fun r' k ↦
    if r' = r ∧ o ≤ k ∧ k < o + n then src (k - o) else written r' k
  | .truncated r => fun r' k ↦ if r' = r then 0 else written r' k
  | .initialised p => fun r' k ↦ if r'.fs = p then 0 else written r' k
  | _ => written

namespace System

def step (c : Call) (u : System) : Answer × System :=
  ((Vfs.step c u.vfs).1.answer,
    ⟨(Vfs.step c u.vfs).2, remember u.written (Vfs.step c u.vfs).1.effect⟩)

/-- The start of a run: the file systems are empty. -/
def init (s : State) : System := ⟨s.init, fun _ _ ↦ 0⟩

end System

/-- The byte at position `k` of the file `r`. -/
def State.byte (s : State) (r : NodeRef) (k : ℕ) : UInt8 :=
  (s.fs r.fs).data ((s.node r).dataOffset + k)

/-- Every file contains what was written to it since it was truncated. -/
def Clean (u : System) : Prop :=
  ∀ r, u.vfs.IsFile r → ∀ k < (u.vfs.node r).size, u.vfs.byte r k = u.written r k

/-- The call writes behind the end of a file, and skips a byte that is not what was written there
since the truncation. -/
def Exposes (u : System) (c : Call) : Prop :=
  ∃ r o k, c.WritesAt u.vfs r o ∧ (u.vfs.node r).size ≤ k ∧ k < o ∧ u.vfs.byte r k ≠ u.written r k

variable {s s' u : State} {w : NodeRef → ℕ → UInt8} {pos : NodeRef → ℕ → Prop}

/-! ## One call -/

theorem Move.visible (hmove : Move s s') {r : NodeRef} (hfile : s'.IsFile r) {k : ℕ}
    (hk : k < (s'.node r).size) : s.IsFile r ∧ s'.node r = s.node r ∧ s'.byte r k = s.byte r k := by
  cases hmove with
  | tableInit t => exact ⟨hfile, rfl, rfl⟩
  | file t i file _ => exact ⟨hfile, rfl, rfl⟩
  | create p parent name hnode hroom =>
    obtain ⟨q, i⟩ := r
    by_cases hq : q = p
    · subst hq
      rw [State.IsFile, State.setFs_fs_self] at hfile
      rw [State.node, State.setFs_fs_self] at hk
      rcases Ramfs.isFile_addNode hfile with rfl | hold
      · rw [(Ramfs.addNode_nodes_self _ parent name).2.1] at hk
        exact absurd hk (Nat.not_lt_zero k)
      · have hsame : (s.setFs q ((s.fs q).addNode parent .file name 256)).node ⟨q, i⟩ =
            s.node ⟨q, i⟩ := by
          rw [State.node, State.setFs_fs_self, Ramfs.addNode_nodes_of_lt hold.1, State.node]
        refine ⟨hold, hsame, ?_⟩
        rw [State.byte, hsame, State.setFs_fs_self]
        rfl
    · have hfs := s.setFs_fs_of_ne ((s.fs p).addNode parent .file name 256) hq
      simp only [State.IsFile, State.byte, State.node, hfs] at hfile ⊢
      exact ⟨hfile, trivial, trivial⟩

theorem Quiet.visible (hquiet : Quiet s s') {r : NodeRef} (hfile : s'.IsFile r) {k : ℕ}
    (hk : k < (s'.node r).size) : s.IsFile r ∧ s'.node r = s.node r ∧ s'.byte r k = s.byte r k := by
  induction hquiet with
  | refl => exact ⟨hfile, rfl, rfl⟩
  | tail _ hmove ih =>
    obtain ⟨hfile', hnode, hbyte⟩ := hmove.visible hfile hk
    obtain ⟨hfile'', hnode', hbyte'⟩ := ih hfile' (hnode ▸ hk)
    exact ⟨hfile'', hnode.trans hnode', hbyte.trans hbyte'⟩

theorem Quiet.clean (hquiet : Quiet s s') (h : Clean ⟨s, w⟩) : Clean ⟨s', w⟩ := by
  intro r hfile k hk
  obtain ⟨hfile', hnode, hbyte⟩ := hquiet.visible hfile hk
  exact hbyte.trans (h r hfile' k (hnode ▸ hk))

theorem State.isFile_write {r r' : NodeRef} {start n size : ℕ} {src : Mem} :
    (u.write r start src n size).IsFile r' ↔ u.IsFile r' := by
  obtain ⟨p, i⟩ := r
  obtain ⟨q, j⟩ := r'
  by_cases hq : q = p
  · subst hq
    rw [State.write, State.setFs_setSize, State.IsFile, State.setFs_fs_self,
      Ramfs.isFile_modify_size]
    rfl
  · rw [State.write, State.setFs_setSize, State.IsFile, State.setFs_fs_of_ne u _ hq]
    rfl

theorem State.byte_write {r : NodeRef} {o n size k : ℕ} {src : Mem} :
    (u.write r ((u.node r).dataOffset + o) src n size).byte r k =
      if o ≤ k ∧ k < o + n then src (k - o) else u.byte r k := by
  rw [State.byte, State.write_node, State.write_data]
  dsimp only
  by_cases hk : o ≤ k ∧ k < o + n
  · rw [if_pos hk, if_pos ⟨rfl, by omega⟩, Nat.add_sub_add_left]
  · rw [if_neg hk, if_neg (by omega)]
    rfl

/-- A write keeps the files clean if the bytes between the end of the file and the position of the
write are. -/
theorem Clean.write (hu : u.Sound) (h : Clean ⟨u, w⟩) {r : NodeRef} {o n size : ℕ} {src : Mem}
    (hidx : r.idx < maxNodes) (htype : (u.node r).type = .file)
    (hroom : o + n ≤ (u.node r).dataCapacity)
    (hgap : ∀ k < size, k < o + n ∨ k < (u.node r).size)
    (hskipped : ∀ k, (u.node r).size ≤ k → k < o → u.byte r k = w r k) :
    Clean ⟨u.write r ((u.node r).dataOffset + o) src n size,
      remember w (.wrote r.fs r o src n)⟩ := by
  intro r' hfile k hk
  have hfile' : u.IsFile r' := State.isFile_write.mp hfile
  dsimp only [remember] at hk ⊢
  by_cases hr : r' = r
  · subst hr
    rw [State.write_node, if_pos rfl] at hk
    rw [State.byte_write]
    by_cases hin : o ≤ k ∧ k < o + n
    · rw [if_pos hin, if_pos ⟨rfl, hin⟩]
    · rw [if_neg hin, if_neg (fun hin' ↦ hin hin'.2)]
      by_cases hold : k < (u.node r').size
      · exact h r' hfile' k hold
      · exact hskipped k (not_lt.mp hold) (by have := hgap k hk; omega)
  · rw [State.write_node_of_ne u _ _ _ _ hr] at hk
    rw [if_neg (fun hin ↦ hr hin.1), State.byte, State.write_node_of_ne u _ _ _ _ hr,
      State.write_data, if_neg (hu.not_written hidx htype hroom hr hfile' hk)]
    exact h r' hfile' k hk

theorem Ramfs.copyIn_zero (fs : Ramfs) (start : ℕ) (src : Mem) : fs.copyIn start src 0 = fs := by
  have hdata : (fs.copyIn start src 0).data = fs.data := funext fun x ↦ if_neg (by omega)
  rw [Ramfs.copyIn] at hdata ⊢
  exact congrArg (fun data ↦ { fs with data := data }) hdata

theorem State.setSize_eq_write (u : State) (r : NodeRef) (size start : ℕ) (src : Mem) :
    u.setSize r size = u.write r start src 0 size := by
  rw [State.write, Ramfs.copyIn_zero, State.setFs_self]

theorem Clean.setSize (h : Clean ⟨u, w⟩) (r : NodeRef) :
    Clean ⟨u.setSize r 0, remember w (.truncated r)⟩ := by
  rw [u.setSize_eq_write r 0 0 fun _ ↦ 0]
  intro r' hfile k hk
  have hfile' : u.IsFile r' := State.isFile_write.mp hfile
  dsimp only [remember] at hk ⊢
  by_cases hr : r' = r
  · rw [State.write_node, if_pos hr] at hk
    exact absurd hk (Nat.not_lt_zero k)
  · rw [State.write_node_of_ne u _ _ _ _ hr] at hk
    rw [if_neg hr, State.byte, State.write_node_of_ne u _ _ _ _ hr, State.write_data,
      if_neg (by omega)]
    exact h r' hfile' k hk

theorem Clean.ramfsInit (h : Clean ⟨s, w⟩) (p : ℕ) :
    Clean ⟨s.setFs p (mcsRamfsInit (s.fs p)), remember w (.initialised p)⟩ := by
  intro r hfile k hk
  dsimp only [remember] at hfile hk ⊢
  by_cases hr : r.fs = p
  · rw [State.IsFile, hr, State.setFs_fs_self] at hfile
    exact absurd hfile (Ramfs.not_isFile_mcsRamfsInit _ _)
  · have hfs := s.setFs_fs_of_ne (mcsRamfsInit (s.fs p)) hr
    rw [State.IsFile, hfs] at hfile
    rw [State.node, hfs] at hk
    rw [if_neg hr, State.byte, State.node, hfs]
    exact h r hfile k hk

theorem Does.clean {e : Effect} (hdoes : Does s pos e s') (hs : s.Sound) (h : Clean ⟨s, w⟩)
    (hskipped : ∀ r o k, pos r o → (s.node r).size ≤ k → k < o → s.byte r k = w r k) :
    Clean ⟨s', remember w e⟩ := by
  cases hdoes with
  | quiet hquiet => exact hquiet.clean h
  | read hquiet => exact hquiet.clean h
  | @wrote u r o n size src hquiet hpos hidx htype hroom hsize =>
    refine (hquiet.clean h).write (hquiet.sound hs) hidx htype hroom ?_ ?_
    · intro k hk
      rcases hsize with ⟨-, rfl⟩ | ⟨rfl, rfl⟩
      · exact (lt_max_iff.mp hk).symm
      · exact .inl (by omega)
    · intro k hsizek hko
      rcases hsize with ⟨hfs, -⟩ | ⟨rfl, -⟩
      · rw [State.byte, State.node, hfs]
        rw [State.node, hfs] at hsizek
        exact hskipped r o k hpos hsizek hko
      · exact absurd hko (Nat.not_lt_zero k)
  | truncated hquiet hquiet' => exact hquiet'.clean ((hquiet.clean h).setSize _)
  | initialised p => exact h.ramfsInit p

/-- A call keeps the files clean exactly if it exposes nothing. -/
theorem clean_step_iff {u : System} (hu : u.vfs.Sound) (h : Clean u) (c : Call) :
    Clean (System.step c u).2 ↔ ¬Exposes u c := by
  refine ⟨?_, fun hexposes ↦ (does_step hu c).clean hu h fun r o k hpos hsize hko ↦ ?_⟩
  · rintro hafter ⟨r, o, k, hpos, hsize, hko, hstale⟩
    match c, hpos with
    | .ramfsSeedFile _ _ _ _, hpos => exact absurd hko (by rw [show o = 0 from hpos]; omega)
    | .vfsWrite table fd buf len, ⟨hret, t, i, hget, hnode, ho⟩ =>
      have hends := writeEnds_mcsVfsWrite hu table fd buf len
      simp only [System.step, step, Outcome.toEvent] at hafter
      generalize mcsVfsWrite u.vfs table fd buf len = out at hends hret hafter
      cases hends with
      | failed e _ => cases hret
      | @wrote t' i' o' r' hget' hnode' ho' hidx htype hroom =>
        obtain ⟨rfl, rfl⟩ := Prod.mk.inj (Option.some.inj (hget.symm.trans hget'))
        obtain rfl := Option.some.inj (hnode.symm.trans hnode')
        obtain rfl : o = o' := ho.trans ho'.symm
        have hfile : u.vfs.IsFile r := hu.isFile hidx htype (by omega)
        have hbyte := hafter r (State.isFile_write.mpr hfile) k (by
          rw [State.write_node, if_pos rfl]
          exact lt_max_of_lt_right (by omega))
        have hout : ¬(o ≤ k ∧ k < o + len) := by omega
        dsimp only [remember] at hbyte
        rw [if_neg (fun hin ↦ hout hin.2)] at hbyte
        exact hstale (((State.byte_write (u := u.vfs.setFile t i _)).trans (if_neg hout)).symm.trans
          hbyte)
  · by_contra hstale
    exact hexposes ⟨r, o, k, hpos, hsize, hko, hstale⟩

/-! ## Reads -/

/-- The bytes that a read should return. -/
def recalled (written : NodeRef → ℕ → UInt8) : Effect → List UInt8
  | .read _ r o n => (List.range n).map fun k ↦ written r (o + k)
  | _ => []

theorem Outcome.ofReads_answer_ne {α : Type} (value : α → ℤ) (o : Option (Outcome α))
    (ret : Except Err (List UInt8)) : (Outcome.ofReads s value o).1.answer ≠ .bytes ret := by
  cases o with
  | none => exact nofun
  | some o => exact nofun

/-- A read of clean files returns what was written since the truncation. -/
theorem Clean.read {u : System} (hu : u.vfs.Sound) (h : Clean u) {c : Call} {bs : List UInt8}
    (hanswer : (System.step c u).1 = .bytes (.ok bs)) :
    bs = recalled u.written (step c u.vfs).1.effect := by
  match c with
  | .vfsRead table fd buf len =>
    have hends := readEnds_mcsVfsRead hu table fd buf len
    replace hanswer : (mcsVfsRead u.vfs table fd buf len).ret = .ok bs :=
      Answer.bytes.inj hanswer
    simp only [step]
    generalize mcsVfsRead u.vfs table fd buf len = out at hends hanswer ⊢
    cases hends with
    | failed e => cases hanswer
    | atEnd =>
      obtain rfl := Except.ok.inj hanswer
      rfl
    | @read t i n r hget hnode hidx htype hroom _ =>
      obtain rfl := Except.ok.inj hanswer
      refine List.map_congr_left fun k hk ↦ ?_
      have hk' := List.mem_range.mp hk
      have hsize := hu.size_le hidx htype
      rw [Nat.add_assoc]
      exact h r (hu.isFile hidx htype (by omega)) _ (by omega)
  | .ramfsSeedFile (some _) (some _) _ _ => exact absurd hanswer (Outcome.ofReads_answer_ne _ _ _)
  | .vfsOpen (some _) (some _) (some _) _ =>
    exact absurd hanswer (Outcome.ofReads_answer_ne _ _ _)
  | .ramfsSeedFile none _ _ _ | .ramfsSeedFile (some _) none _ _ => cases hanswer
  | .vfsOpen none _ _ _ | .vfsOpen (some _) none _ _ | .vfsOpen (some _) (some _) none _ =>
    cases hanswer
  | .ramfsInit none | .ramfsInit (some _) | .fdTableInit none | .fdTableInit (some _) =>
    cases hanswer
  | .vfsWrite _ _ _ _ | .vfsLseek _ _ _ _ | .vfsClose _ _ | .vfsDup _ _ => cases hanswer

/-! ## Two runs -/

/-- Two systems with the same files, in which the same bytes were written since the truncations. -/
structure Same (u u' : System) : Prop where
  vfs : Twin u.vfs u'.vfs
  written : u'.written = u.written

/-- The invariant of a run whose calls expose nothing. -/
structure Good (u : System) : Prop where
  sound : u.vfs.Sound
  clean : Clean u

variable {f : NodeRef} {v v' : System}

theorem Good.step (h : Good v) {c : Call} (hc : ¬Exposes v c) : Good (System.step c v).2 :=
  ⟨sound_step h.sound c, (clean_step_iff h.sound h.clean c).mpr hc⟩

theorem good_init (s : State) : Good (System.init s) :=
  ⟨s.sound_init, fun _ hfile ↦ absurd hfile (Ramfs.not_isFile_mcsRamfsInit _ _)⟩

theorem EffectTwin.remember {e e' : Effect} {w' : NodeRef → ℕ → UInt8} (h : EffectTwin f e e')
    (hw : ∀ r, r ≠ f → w' r = w r) {r : NodeRef} (hr : r ≠ f) :
    remember w' e' r = remember w e r := by
  cases h with
  | same =>
    cases e with
    | none => exact hw r hr
    | read p r' o n => exact hw r hr
    | wrote p r' o src n => simp only [Vfs.remember, hw r hr]
    | truncated r' => simp only [Vfs.remember, hw r hr]
    | initialised p => simp only [Vfs.remember, hw r hr]
  | wrote o n src src' =>
    funext k
    simp only [Vfs.remember, hr, false_and, if_false, hw r hr]

/-- Effects that agree but for the bytes of a file, whichever it is, are the same. -/
theorem EffectTwin.eq {e e' : Effect} (h : ∀ f, EffectTwin f e e') : e' = e := by
  cases h ⟨0, 0⟩ with
  | same => rfl
  | wrote o n src src' =>
    cases h ⟨0, 1⟩ with
    | same => rfl

theorem Same.step (h : Same v v') (hv : Good v) (hv' : Good v') (c : Call) :
    (System.step c v').1 = (System.step c v).1 ∧
      Same (System.step c v).2 (System.step c v').2 := by
  have htwin : ∀ f, StepTwin f (Vfs.step c v.vfs) (Vfs.step c v'.vfs) :=
    fun f ↦ twin_step hv.sound h.vfs (.same c)
  have heffect := EffectTwin.eq fun f ↦ (htwin f).effect
  refine ⟨?_, (htwin ⟨0, 0⟩).state, by rw [System.step, System.step, heffect, h.written]⟩
  rcases (htwin ⟨0, 0⟩).answer with hanswer | ⟨bs, bs', hbs, hbs'⟩
  · exact hanswer
  · have hread := hv.clean.read hv.sound hbs
    have hread' := hv'.clean.read hv'.sound hbs'
    rw [heffect, h.written] at hread'
    change (Vfs.step c v'.vfs).1.answer = (Vfs.step c v.vfs).1.answer
    rw [hbs, hbs', hread, hread']

theorem Same.answers (h : Same v v') (hv : Good v) (hv' : Good v') {es es' : List (Call × Answer)}
    {t t' : System} (hrun : Run System.step (fun u c ↦ ¬Exposes u c) v es t)
    (hrun' : Run System.step (fun u c ↦ ¬Exposes u c) v' es' t')
    (hcalls : es'.map Prod.fst = es.map Prod.fst) :
    es' = es ∧ Same t t' ∧ Good t ∧ Good t' := by
  induction hrun generalizing es' t' with
  | nil =>
    cases hrun' with
    | nil => exact ⟨rfl, h, hv, hv'⟩
    | snoc _ c' _ => simp at hcalls
  | @snoc es t run c hallowed ih =>
    cases hrun' with
    | nil => simp at hcalls
    | @snoc es' t' run' c' hallowed' =>
      rw [List.map_append, List.map_append] at hcalls
      obtain ⟨hcalls, hlast⟩ := List.append_inj' hcalls rfl
      obtain ⟨rfl, hsame, hgood, hgood'⟩ := ih run' hcalls
      obtain rfl : c' = c := by simpa using hlast
      obtain ⟨hanswer, hsame'⟩ := hsame.step hgood hgood' c'
      exact ⟨by rw [hanswer], hsame', hgood.step hallowed, hgood'.step hallowed'⟩

/-- Two runs side by side. Their calls differ at most in the bytes written to the file `f`, and
expose nothing. -/
inductive Paired (f : NodeRef) (s : State) : System → System → Prop
  | init : Paired f s (.init s) (.init s)
  | step {v v' : System} (paired : Paired f s v v') {c c' : Call} (alike : Alike f v.vfs c c')
    (allowed : ¬Exposes v c) (allowed' : ¬Exposes v' c') :
    Paired f s (System.step c v).2 (System.step c' v').2

theorem Paired.twin (h : Paired f s v v') :
    Good v ∧ Good v' ∧ Twin v.vfs v'.vfs ∧ ∀ r, r ≠ f → v'.written r = v.written r := by
  induction h with
  | init => exact ⟨good_init s, good_init s, Twin.refl _, fun _ _ ↦ rfl⟩
  | step _ halike hallowed hallowed' ih =>
    obtain ⟨hv, hv', htwin, hwritten⟩ := ih
    have hstep := twin_step hv.sound htwin halike
    exact ⟨hv.step hallowed, hv'.step hallowed', hstep.state,
      fun r hr ↦ hstep.effect.remember hwritten hr⟩

/-- The file that was emptied. -/
def Effect.truncates : Effect → Option NodeRef
  | .truncated r => some r
  | _ => .none

theorem Effect.eq_truncated {e : Effect} (h : e.truncates = some f) : e = .truncated f := by
  cases e with
  | truncated r => rw [Option.some.inj h]
  | none => cases h
  | read _ _ _ _ => cases h
  | wrote _ _ _ _ _ => cases h
  | initialised _ => cases h

/-- The call empties the file `f`. -/
def Truncates (s : State) (c : Call) (f : NodeRef) : Prop :=
  (step c s).1.effect.truncates = some f

/-- A truncation makes two runs the same that differ in the bytes of the file. -/
theorem Paired.truncate (h : Paired f s v v') {c : Call} (hc : Truncates v.vfs c f) :
    Same (System.step c v).2 (System.step c v').2 := by
  obtain ⟨hv, hv', htwin, hwritten⟩ := h.twin
  have htwin' : ∀ f, StepTwin f (Vfs.step c v.vfs) (Vfs.step c v'.vfs) :=
    fun f ↦ twin_step hv.sound htwin (.same c)
  have heffect := EffectTwin.eq fun f ↦ (htwin' f).effect
  refine ⟨(htwin' f).state, funext fun r ↦ ?_⟩
  simp only [System.step, heffect, Effect.eq_truncated hc, remember]
  by_cases hr : r = f
  · simp only [hr, if_true]
  · simp only [hr, if_false, hwritten r hr]

/-- **Truncated data stays away until a write skips it.** Take a run from empty file systems whose
calls expose nothing. Every file then contains exactly the bytes written to it since it was
truncated, and zero where none was; this is so after a further call exactly when it exposes nothing
either. Every read returns these bytes. And if a second run differs only in the bytes written to
one file, then, once the file is truncated, the same further calls have the same answers in both. -/
theorem truncated_data_gone_iff {s : State} {es : List (Call × Answer)} {t : System}
    (hrun : Run System.step (fun u c ↦ ¬Exposes u c) (.init s) es t) :
    Clean t ∧ (∀ c, Clean (System.step c t).2 ↔ ¬Exposes t c) ∧
      (∀ c bs, (System.step c t).1 = .bytes (.ok bs) →
        bs = recalled t.written (step c t.vfs).1.effect) ∧
      ∀ f t', Paired f s t t' → ∀ c, Truncates t.vfs c f → ¬Exposes t c → ¬Exposes t' c →
        ∀ es₁ u₁ es₂ u₂, Run System.step (fun u c ↦ ¬Exposes u c) (System.step c t).2 es₁ u₁ →
          Run System.step (fun u c ↦ ¬Exposes u c) (System.step c t').2 es₂ u₂ →
            es₂.map Prod.fst = es₁.map Prod.fst → es₂ = es₁ := by
  have ht : Good t := hrun.invariant (good_init s) fun _ _ hu hallowed ↦ hu.step hallowed
  refine ⟨ht.clean, clean_step_iff ht.sound ht.clean, fun c bs ↦ ht.clean.read ht.sound, ?_⟩
  intro f t' hpaired c hc hallowed hallowed' es₁ u₁ es₂ u₂ hrun₁ hrun₂ hcalls
  obtain ⟨-, ht', -, -⟩ := hpaired.twin
  exact ((hpaired.truncate hc).answers (ht.step hallowed) (ht'.step hallowed') hrun₁ hrun₂ hcalls).1

/-- `/f` is created and six bytes are written to it. -/
def sixBytes (b : Mem) : System :=
  (System.step (.vfsWrite (some 0) 0 (some b) 6)
    (System.step (.vfsOpen (some 0) (some 0) (some pathF) (oRdwr ||| oCreat)) (.init blank)).2).2

/-- `/f` is opened again and truncated. -/
def truncateF : Call := .vfsOpen (some 0) (some 0) (some pathF) (oRdwr ||| oTrunc)

/-- After the truncation, one byte is written at position 5, and six bytes are read. -/
def readBack (b : Mem) : Answer :=
  let u₁ := (System.step truncateF (sixBytes b)).2
  let u₂ := (System.step (.vfsLseek (some 0) 1 5 seekSet) u₁).2
  let u₃ := (System.step (.vfsWrite (some 0) 1 (some fun _ ↦ 46) 1) u₂).2
  let u₄ := (System.step (.vfsLseek (some 0) 1 0 seekSet) u₃).2
  (System.step (.vfsRead (some 0) 1 true 6) u₄).1

theorem not_exposes_open {u : System} {table fs : Option ℕ} {path : Option Mem} {flags : UInt32} :
    ¬Exposes u (.vfsOpen table fs path flags) := by
  rintro ⟨r, o, k, hpos, -⟩
  exact hpos

theorem not_exposes_write (b : Mem) :
    ¬Exposes (System.step (.vfsOpen (some 0) (some 0) (some pathF) (oRdwr ||| oCreat))
      (.init blank)).2 (.vfsWrite (some 0) 0 (some b) 6) := by
  rintro ⟨r, o, k, ⟨-, t, i, hget, -, rfl⟩, -, hk, -⟩
  have hget' : mcsFdGet (System.step (.vfsOpen (some 0) (some 0) (some pathF) (oRdwr ||| oCreat))
      (.init blank)).2.vfs (some 0) 0 = some (0, 0) := by decide +kernel
  obtain ⟨rfl, rfl⟩ := Prod.mk.inj (Option.some.inj (hget'.symm.trans hget))
  rw [writeOffset, if_neg (by decide +kernel)] at hk
  have hoffset : ((System.step (.vfsOpen (some 0) (some 0) (some pathF) (oRdwr ||| oCreat))
      (.init blank)).2.vfs.tables 0 0).offset = 0 := by decide +kernel
  omega

theorem paired_sixBytes (b b' : Mem) : Paired ⟨0, 1⟩ blank (sixBytes b) (sixBytes b') :=
  .step (.step .init (.same _) not_exposes_open not_exposes_open) (.write (by decide +kernel))
    (not_exposes_write b) (not_exposes_write b')

/-- Other six bytes before the truncation change no answer after it, as long as nothing is
exposed. -/
theorem truncated_data_gone_iff_six : Clean (sixBytes fun _ ↦ 65) ∧
    ∀ es₁ u₁ es₂ u₂,
      Run System.step (fun u c ↦ ¬Exposes u c) (System.step truncateF (sixBytes fun _ ↦ 65)).2
        es₁ u₁ →
      Run System.step (fun u c ↦ ¬Exposes u c) (System.step truncateF (sixBytes fun _ ↦ 66)).2
        es₂ u₂ →
      es₂.map Prod.fst = es₁.map Prod.fst → es₂ = es₁ := by
  have hrun : Run System.step (fun u c ↦ ¬Exposes u c) (.init blank) _ (sixBytes fun _ ↦ 65) :=
    (Run.nil.snoc (Call.vfsOpen (some 0) (some 0) (some pathF) (oRdwr ||| oCreat))
      not_exposes_open).snoc (Call.vfsWrite (some 0) 0 (some fun _ ↦ 65) 6) (not_exposes_write _)
  obtain ⟨hclean, -, -, htwo⟩ := truncated_data_gone_iff hrun
  exact ⟨hclean, htwo ⟨0, 1⟩ _ (paired_sixBytes _ _) truncateF (by unfold Truncates; decide +kernel)
    not_exposes_open not_exposes_open⟩

/-- Six bytes are written, the file is truncated, and one byte is written at position 5: the read
returns the first five of the truncated bytes, so that two runs that differ in these bytes only
have different answers. -/
theorem truncated_data_returns :
    Paired ⟨0, 1⟩ blank (sixBytes fun _ ↦ 65) (sixBytes fun _ ↦ 66) ∧
      Truncates (sixBytes fun _ ↦ 65).vfs truncateF ⟨0, 1⟩ ∧
      readBack (fun _ ↦ 65) = .bytes (.ok [65, 65, 65, 65, 65, 46]) ∧
      readBack (fun _ ↦ 66) = .bytes (.ok [66, 66, 66, 66, 66, 46]) := by
  refine ⟨paired_sixBytes _ _, ?_, ?_⟩
  · unfold Truncates
    decide +kernel
  · decide +kernel

end Vfs

end Mcsos
