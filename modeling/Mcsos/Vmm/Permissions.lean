import Mcsos.Vmm.Refinement

/-!
# Effective permissions

What the processor makes of the tables. It walks four entries for a page: user access and write
access need the bit `U` or `W` in all of them, and one bit `NX` forbids execution (`pageWalk`). The
last entry is written by `vmm_map_page`, the three above it by `get_or_alloc_next_table`.

The entries above the last level have `W` and neither `U` nor `NX`. So a page is writable and
executable as requested, whatever the pages are that share its tables, but no page is accessible
from user mode (`Inv.pageWalk_eq`): `VMM_PTE_USER` has no effect.
-/

namespace Mcsos

namespace Vmm

variable {κ : Type} {space : VmmSpace κ} {s t : State κ}

/-! ## The walk of the processor -/

/-- What a walk finds. -/
structure Translation where
  paddr : BitVec 64
  user : Bool
  writable : Bool
  noExecute : Bool
deriving DecidableEq

/-- The bit is set. -/
def hasBit (e bit : BitVec 64) : Bool := e &&& bit != 0

/-- The permissions that the entries of a walk grant together. -/
def combine (paddr : BitVec 64) (es : List (BitVec 64)) : Translation where
  paddr := paddr
  user := es.all (hasBit · pteUser)
  writable := es.all (hasBit · pteWritable)
  noExecute := es.any (hasBit · pteNoExecute)

/-- The walk through four tables. A large page would end it early; it does not occur here. -/
def pageWalk (space : VmmSpace κ) (mem : ℕ → Fin entriesPerTable → BitVec 64) (v : BitVec 64) :
    Option Translation := do
  let pml4 ← tableFromPhys space space.rootPaddr
  let pdpt ← next space (mem pml4 (idxPml4 v))
  let pd ← next space (mem pdpt (idxPdpt v))
  let pt ← next space (mem pd (idxPd v))
  if mem pt (idxPt v) &&& ptePresent = 0 then none
  else some (combine (mem pt (idxPt v) &&& pteAddrMask)
    [mem pml4 (idxPml4 v), mem pdpt (idxPdpt v), mem pd (idxPd v), mem pt (idxPt v)])

/-! ## Bits of the entries -/

theorem hasBit_entry (a b : BitVec 64) {bit : BitVec 64} (hmask : pteAddrMask &&& bit = 0#64)
    (hpresent : ptePresent &&& bit = 0#64) : hasBit (entry a b) bit = hasBit b bit := by
  rw [hasBit, hasBit, entry, BitVec.and_or_distrib_right, BitVec.and_or_distrib_right,
    BitVec.and_assoc, hmask, hpresent, BitVec.and_zero, BitVec.zero_or, BitVec.zero_or]

theorem hasBit_and {bit mask : BitVec 64} (hmask : mask &&& bit = bit) (e : BitVec 64) :
    hasBit (e &&& mask) bit = hasBit e bit := by
  rw [hasBit, hasBit, BitVec.and_assoc, hmask]

/-- The flags that a page is mapped with have the bits that were requested. -/
theorem hasBit_flags (flags : BitVec 64) {bit : BitVec 64} (hallowed : allowed &&& bit = bit)
    (hpresent : ptePresent &&& bit = 0#64) :
    hasBit (ptePresent ||| (flags &&& allowed)) bit = hasBit flags bit := by
  rw [← hasBit_and hallowed flags, hasBit, hasBit, BitVec.and_or_distrib_right, hpresent,
    BitVec.zero_or]

namespace Environment

variable {env : Environment space}

theorem Inv.entry_of_next (hs : env.Inv s) {q : List (Fin entriesPerTable)} {f g : ℕ}
    (hq : env.reach s q = some f) (hn : q.length < 3) {i : Fin entriesPerTable}
    (hnext : next space (s.mem f i) = some g) :
    (∃ a, s.mem f i = entry a pteWritable) ∧ env.reach s (q ++ [i]) = some g := by
  refine ⟨?_, (TableTree.walk_concat_of_eq_some hq i).trans hnext⟩
  rcases hs.entries q f hn hq i with hzero | ⟨a, -, hentry⟩
  · rw [hzero, next_zero] at hnext
    cases hnext
  · exact ⟨a, hentry⟩

theorem Inv.pageWalk_eq (hs : env.Inv s) {v p flags : BitVec 64}
    (hv : env.lookup s v = some (p, flags)) : pageWalk space s.mem v =
      some ⟨p, false, hasBit flags pteWritable, hasBit flags pteNoExecute⟩ := by
  obtain ⟨pt, hpt, hdecode⟩ := Option.bind_eq_some_iff.mp hv
  rw [reach_path] at hpt
  obtain ⟨pdpt, hpdpt, hpt⟩ := Option.bind_eq_some_iff.mp hpt
  obtain ⟨pd, hpd, hpt⟩ := Option.bind_eq_some_iff.mp hpt
  have hroot : env.reach s [] = some env.root := rfl
  obtain ⟨⟨a₁, h₁⟩, hreach₁⟩ := hs.entry_of_next hroot (by decide) hpdpt
  obtain ⟨⟨a₂, h₂⟩, hreach₂⟩ := hs.entry_of_next hreach₁ (by simp) hpd
  obtain ⟨⟨a₃, h₃⟩, -⟩ := hs.entry_of_next hreach₂ (by simp) hpt
  have htable : tableFromPhys space space.rootPaddr = some env.root :=
    env.tableFromPhys_eq _ (.inr rfl)
  rw [decode] at hdecode
  split_ifs at hdecode with hpresent
  obtain ⟨rfl, rfl⟩ := Prod.mk.inj (Option.some.inj hdecode)
  have hwalk : pageWalk space s.mem v = some (combine (s.mem pt (idxPt v) &&& pteAddrMask)
      [entry a₁ pteWritable, entry a₂ pteWritable, entry a₃ pteWritable, s.mem pt (idxPt v)]) := by
    rw [pageWalk, htable, ← h₁, ← h₂, ← h₃]
    simp only [Option.bind_eq_bind, Option.bind_some, hpdpt, hpd, hpt, if_neg hpresent]
  -- The upper three entries contribute the bits of `VMM_PTE_WRITABLE` alone.
  have hupper : ∀ a, hasBit (entry a pteWritable) pteUser = false ∧
      hasBit (entry a pteWritable) pteWritable = true ∧
      hasBit (entry a pteWritable) pteNoExecute = false := by
    intro a
    rw [hasBit_entry a _ (by decide) (by decide), hasBit_entry a _ (by decide) (by decide),
      hasBit_entry a _ (by decide) (by decide)]
    decide
  rw [hwalk, hasBit_and (by decide), hasBit_and (by decide), combine]
  simp only [List.all_cons, List.any_cons, List.all_nil, List.any_nil, hupper, Bool.false_and,
    Bool.true_and, Bool.false_or, Bool.and_true, Bool.or_false]

/-! ## Runs -/

/-- The calls so far have mapped the page to the frame with the flags requested. -/
def grant (M : PageMap) : Call × Ret → PageMap
  | (.mapPage v p flags, .status (.ok ())) => Function.update M v (some (p, flags))
  | (.unmapPage v, .status (.ok ())) => Function.update M v none
  | _ => M

/-- What the calls of a run have mapped each page to: the arguments of the last successful
`vmm_map_page`, unless a successful `vmm_unmap_page` followed. -/
def granted (es : List (Call × Ret)) : PageMap := es.foldl grant PageMap.empty

/-- What the entry of a page holds. -/
def encoded (M : PageMap) : PageMap := fun v ↦
  (M v).map fun (p, flags) ↦ (p &&& pteAddrMask, ptePresent ||| (flags &&& allowed))

theorem encoded_update (M : PageMap) (v : BitVec 64) (x : Option (BitVec 64 × BitVec 64)) :
    encoded (Function.update M v x) = Function.update (encoded M) v
      (x.map fun (p, flags) ↦ (p &&& pteAddrMask, ptePresent ||| (flags &&& allowed))) := by
  funext w
  rw [encoded, Function.update_apply, Function.update_apply]
  split_ifs
  · rfl
  · rfl

/-- The tables hold what was granted. -/
structure Grants (env : Environment space) (M : PageMap) (s : State κ) : Prop where
  represents : env.Represents (encoded M) s
  aligned : ∀ v p flags, M v = some (p, flags) → vmmIsAligned4k p = true

variable {M : PageMap}

theorem Grants.quiet (h : env.Grants M s) (hst : env.Quiet s t) : env.Grants M t :=
  ⟨h.represents.quiet hst, h.aligned⟩

theorem Grants.update (h : env.Grants M s) (ht : env.Inv t) {v : BitVec 64} (hv : IsPage v)
    {x : Option (BitVec 64 × BitVec 64)}
    (hlookup : ∀ w, IsPage w → env.lookup t w = if w = v then
      x.map fun (p, flags) ↦ (p &&& pteAddrMask, ptePresent ||| (flags &&& allowed))
        else env.lookup s w)
    (hx : ∀ p flags, x = some (p, flags) → vmmIsAligned4k p = true) :
    env.Grants (Function.update M v x) t := by
  constructor
  · rw [encoded_update]
    exact h.represents.update ht hv hlookup
  · intro w p flags hw
    rw [Function.update_apply] at hw
    split_ifs at hw
    · exact hx p flags hw
    · exact h.aligned w p flags hw

/-- Every call, of whatever frame, does to the tables what it does to the pages granted. -/
theorem Grants.step (h : env.Grants M s) (c : Call) :
    env.Grants (grant M (c, (Vmm.step space c s).1)) (Vmm.step space c s).2 := by
  cases c with
  | mapPage v p flags =>
    rw [Vmm.step]
    by_cases hargs : IsPage v ∧ vmmIsAligned4k p = true
    · obtain ⟨t, hrun, -, ht, hlookup⟩ | ⟨t, hrun, -, hquiet⟩ | ⟨t, hrun, -, hquiet⟩ :=
        run_vmmMapPage h.represents.inv hargs.1 hargs.2 flags
      · rw [hrun]
        refine h.update ht hargs.1 hlookup fun p' flags' hx ↦ ?_
        rw [← (Prod.mk.inj (Option.some.inj hx)).1]
        exact hargs.2
      · rw [hrun]
        exact h.quiet hquiet
      · rw [hrun]
        exact h.quiet hquiet
    · rw [run_vmmMapPage_of_not hargs]
      exact h
  | unmapPage v =>
    rw [Vmm.step]
    by_cases hv : IsPage v
    · obtain ⟨t, hrun, -, ht, hlookup⟩ | ⟨hrun, -⟩ := run_vmmUnmapPage h.represents.inv hv
      · rw [hrun]
        exact h.update ht hv hlookup fun p flags hx ↦ absurd hx (by simp)
      · rw [hrun]
        exact h
    · rw [run_vmmUnmapPage_of_not hv]
      exact h
  | queryPage v =>
    rw [Vmm.step, h.represents.run_vmmQueryPage_eq]
    cases PageMap.query (encoded M) v with
    | ok m => exact h
    | error e => exact h

theorem grants_of_run {es : List (Call × Ret)} (hs : env.ZeroedRoot s)
    (hrun : Run (step space) (fun _ _ ↦ True) s es t) : env.Grants (granted es) t := by
  induction hrun with
  | nil =>
    refine ⟨⟨hs.inv, fun v hv ↦ absurd rfl hv, fun v _ ↦ hs.lookup_eq v⟩, ?_⟩
    intro v p flags hv
    cases hv
  | snoc _ c _ ih =>
    rw [granted, List.foldl_append]
    exact ih.step c

end Environment

open Environment in
/-- The walk of a page that is mapped finds its frame, with writing and execution as requested. User
access is as requested if and only if it was not requested. -/
theorem pageWalk_grants_iff (env : Environment space) {es : List (Call × Ret)}
    (hs : env.ZeroedRoot s) (hrun : Run (step space) (fun _ _ ↦ True) s es t)
    {v p flags : BitVec 64} (hv : granted es v = some (p, flags)) (hp : p.toNat < 2 ^ 52) :
    ∃ w, pageWalk space t.mem v = some w ∧ w.paddr = p ∧
      w.writable = hasBit flags pteWritable ∧ w.noExecute = hasBit flags pteNoExecute ∧
      (w.user = hasBit flags pteUser ↔ hasBit flags pteUser = false) := by
  have hgrants := grants_of_run hs hrun
  have hframe : IsFrame p := ⟨hgrants.aligned v p flags hv, hp⟩
  have hencoded : encoded (granted es) v = some (p, ptePresent ||| (flags &&& allowed)) := by
    rw [encoded, hv, Option.map_some]
    dsimp only
    rw [hframe.and_pteAddrMask]
  have hpage : IsPage v := hgrants.represents.isPage v (by rw [hencoded]; exact nofun)
  have hlookup := (hgrants.represents.lookup_eq v hpage).trans hencoded
  refine ⟨_, hgrants.represents.inv.pageWalk_eq hlookup, rfl, ?_, ?_, eq_comm⟩
  · exact hasBit_flags flags (by decide) (by decide)
  · exact hasBit_flags flags (by decide) (by decide)

/-- A page is mapped for writing into an empty address space. -/
theorem pageWalk_grants_iff_one : ∃ w,
    pageWalk smallSpace (step smallSpace (.mapPage 0x400000 0x500000 pteWritable) smallState).2.mem
      0x400000 = some w ∧ w.paddr = 0x500000 ∧ w.writable = true ∧ w.noExecute = false ∧
      w.user = false := by
  have hrun : Run (step smallSpace) (fun _ _ ↦ True) smallState _ _ :=
    Run.nil.snoc (Call.mapPage 0x400000 0x500000 pteWritable) trivial
  have hgranted : Environment.granted ([] ++ [(Call.mapPage 0x400000 0x500000 pteWritable,
      (step smallSpace (.mapPage 0x400000 0x500000 pteWritable) smallState).1)]) 0x400000 =
    some (0x500000, pteWritable) := rfl
  obtain ⟨w, hw, hpaddr, hwritable, hnoExecute, huser⟩ :=
    pageWalk_grants_iff smallEnvironment zeroedRoot_smallState hrun hgranted (by decide)
  exact ⟨w, hw, hpaddr, hwritable, hnoExecute, huser.mpr rfl⟩

/-- A page is mapped for user access, and the processor does not grant it. -/
theorem user_page_not_accessible :
    (step smallSpace (.mapPage 0x400000 0x500000 pteUser) smallState).1 = .status (.ok ()) ∧
      pageWalk smallSpace (step smallSpace (.mapPage 0x400000 0x500000 pteUser) smallState).2.mem
        0x400000 = some ⟨0x500000, false, false, false⟩ :=
  ⟨rfl, by decide +kernel⟩

end Vmm

end Mcsos
