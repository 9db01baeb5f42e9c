import Mcsos.Vmm.PageMap

/-!
# The calls refine the partial map

`PageMap.Step` is what a client expects of the three calls: a partial map from pages to frames with
flags. Every run from a zeroed root table is a behaviour of it (`vmm_refines_pageMap`), and the map
is what `vmm_query_page` reports.

An address that is not canonical or not aligned is refused with `VMM_ERR_INVAL` by all three calls,
also by `vmm_unmap_page`, although no such address is mapped (`unmap_absent_inval`).
-/

namespace Mcsos

namespace Vmm

variable {κ : Type} {space : VmmSpace κ} {s t : State κ}

/-! ## The specification -/

/-- A partial map from addresses to frames with flags. -/
abbrev PageMap := BitVec 64 → Option (BitVec 64 × BitVec 64)

namespace PageMap

def empty : PageMap := fun _ ↦ none

/-- The calls on a partial map, with what they return. -/
inductive Step : Call → Ret → PageMap → PageMap → Prop
  | mapExist {v p flags} {M : PageMap} (mapped : M v ≠ none) :
    Step (.mapPage v p flags) (.status (.error .exist)) M M
  | mapOk {v p flags} {M : PageMap} (isPage : IsPage v) (notMapped : M v = none) :
    Step (.mapPage v p flags) (.status (.ok ())) M
      (Function.update M v (some (p, ptePresent ||| (flags &&& allowed))))
  | mapNomem {v p flags} {M : PageMap} (isPage : IsPage v) (notMapped : M v = none) :
    Step (.mapPage v p flags) (.status (.error .nomem)) M M
  | mapInval {v p flags} {M : PageMap} (notPage : ¬IsPage v) (notMapped : M v = none) :
    Step (.mapPage v p flags) (.status (.error .inval)) M M
  | unmapOk {v} {M : PageMap} (mapped : M v ≠ none) :
    Step (.unmapPage v) (.status (.ok ())) M (Function.update M v none)
  | unmapNotFound {v} {M : PageMap} (isPage : IsPage v) (notMapped : M v = none) :
    Step (.unmapPage v) (.status (.error .notFound)) M M
  | unmapInval {v} {M : PageMap} (notPage : ¬IsPage v) (notMapped : M v = none) :
    Step (.unmapPage v) (.status (.error .inval)) M M
  | queryOk {v p flags} {M : PageMap} (mapped : M v = some (p, flags)) :
    Step (.queryPage v) (.mapping (.ok ⟨v, p, flags⟩)) M M
  | queryNotFound {v} {M : PageMap} (isPage : IsPage v) (notMapped : M v = none) :
    Step (.queryPage v) (.mapping (.error .notFound)) M M
  | queryInval {v} {M : PageMap} (notPage : ¬IsPage v) (notMapped : M v = none) :
    Step (.queryPage v) (.mapping (.error .inval)) M M

/-- What `vmm_query_page` reports of an address. -/
def query (M : PageMap) (v : BitVec 64) : Except Err VmmMapping :=
  match M v with
  | some (p, flags) => .ok ⟨v, p, flags⟩
  | none => .error (if IsPage v then .notFound else .inval)

end PageMap

/-- The frame to be mapped is one of physical memory. -/
def Call.MapsFrame : Call → Prop
  | .mapPage _ paddr _ => IsFrame paddr
  | _ => True

namespace Environment

variable {env : Environment space}

/-- The root table is all zero. -/
structure ZeroedRoot (env : Environment space) (s : State κ) : Prop where
  mem_root : ∀ i, s.mem env.root i = 0
  given_root : space.rootPaddr ∈ env.given s.ctx

theorem ZeroedRoot.reach_eq_some (hs : env.ZeroedRoot s) {p : List (Fin entriesPerTable)} {f : ℕ}
    (h : env.reach s p = some f) : p = [] ∧ f = env.root := by
  cases p with
  | nil => exact ⟨rfl, (Option.some_inj.mp h).symm⟩
  | cons i p =>
    rw [reach, TableTree.walk, hs.mem_root i, next_zero] at h
    cases h

theorem ZeroedRoot.inv (hs : env.ZeroedRoot s) : env.Inv s where
  unshared p q f _ _ hp hq := by
    rw [(hs.reach_eq_some hp).1, (hs.reach_eq_some hq).1]
  given p f _ hf := ⟨space.rootPaddr, hs.given_root, .inr rfl, (hs.reach_eq_some hf).2.symm⟩
  entries p f _ hf i := .inl (by rw [(hs.reach_eq_some hf).2, hs.mem_root i])

theorem ZeroedRoot.lookup_eq (hs : env.ZeroedRoot s) (v : BitVec 64) : env.lookup s v = none := by
  cases hreach : env.reach s (path v) with
  | none => rw [lookup, hreach, Option.bind_none]
  | some f => exact absurd (hs.reach_eq_some hreach).1 (by rw [path]; simp)

/-! ## `vmm_map_page` -/

theorem lookup_eq_none_of_prefix {v : BitVec 64} {p q : List (Fin entriesPerTable)}
    (hpath : path v = p ++ q) (hp : env.reach s p = none) : env.lookup s v = none := by
  have hreach : env.reach s (path v) = none := by
    rw [hpath, reach, TableTree.walk_append, ← reach, hp, Option.bind_none]
  rw [lookup, hreach, Option.bind_none]

/-- The three calls of `get_or_alloc_next_table` in `vmm_map_page`. -/
def getOrAllocPt (space : VmmSpace κ) (pml4 : ℕ) (v : BitVec 64) : EStateM Err (State κ) ℕ := do
  let pdpt ← getOrAllocNextTable space pml4 (idxPml4 v)
  let pd ← getOrAllocNextTable space pdpt (idxPdpt v)
  getOrAllocNextTable space pd (idxPd v)

theorem run_getOrAllocPt (hs : env.Inv s) (v : BitVec 64) :
    (∃ pt t, (getOrAllocPt space env.root v).run s = .ok pt t ∧ env.Quiet s t ∧
      env.reach t (path v) = some pt) ∨
    ∃ t, (getOrAllocPt space env.root v).run s = .error .nomem t ∧ env.Quiet s t ∧
      env.lookup s v = none := by
  rw [getOrAllocPt]
  obtain ⟨pdpt, s₁, hrun₁, hquiet₁, hreach₁⟩ | ⟨s₁, hrun₁, hquiet₁, hnone₁⟩ :=
    run_getOrAllocNextTable hs (q := []) rfl (by decide) (idxPml4 v)
  case inr =>
    exact .inr ⟨s₁, run_bind_of_error hrun₁, hquiet₁, lookup_eq_none_of_prefix rfl hnone₁⟩
  rw [run_bind_of_ok hrun₁]
  obtain ⟨pd, s₂, hrun₂, hquiet₂, hreach₂⟩ | ⟨s₂, hrun₂, hquiet₂, hnone₂⟩ :=
    run_getOrAllocNextTable hquiet₁.inv hreach₁ (by simp) (idxPdpt v)
  case inr =>
    refine .inr ⟨s₂, run_bind_of_error hrun₂, hquiet₁.trans hquiet₂, ?_⟩
    rw [← hquiet₁.lookup_eq]
    exact lookup_eq_none_of_prefix rfl hnone₂
  rw [run_bind_of_ok hrun₂]
  obtain ⟨pt, s₃, hrun₃, hquiet₃, hreach₃⟩ | ⟨s₃, hrun₃, hquiet₃, hnone₃⟩ :=
    run_getOrAllocNextTable hquiet₂.inv hreach₂ (by simp) (idxPd v)
  case inr =>
    refine .inr ⟨s₃, hrun₃, (hquiet₁.trans hquiet₂).trans hquiet₃, ?_⟩
    rw [← hquiet₁.lookup_eq, ← hquiet₂.lookup_eq]
    exact lookup_eq_none_of_prefix rfl hnone₃
  exact .inl ⟨pt, s₃, hrun₃, (hquiet₁.trans hquiet₂).trans hquiet₃, hreach₃⟩

theorem run_vmmMapPage_eq (env : Environment space) {v p : BitVec 64} (hv : IsPage v)
    (hp : vmmIsAligned4k p = true) (flags : BitVec 64) :
    (vmmMapPage (some space) v p flags).run s =
      (getOrAllocPt space env.root v >>= fun pt ↦ do
        let e ← readEntry pt (idxPt v)
        failIf (e &&& ptePresent ≠ 0) .exist
        writeEntry pt (idxPt v) (entry p (flags &&& allowed))).run s := by
  have hcheck : ¬(vmmIsCanonical v = false ∨ vmmIsAligned4k v = false ∨
      vmmIsAligned4k p = false) := by
    rw [hv.1, hv.2, hp]
    simp
  have hroot : tableFromPhys space space.rootPaddr = some env.root :=
    env.tableFromPhys_eq _ (.inr rfl)
  rw [vmmMapPage, run_bind_of_ok (run_failIf_of_not hcheck), hroot,
    run_bind_of_ok (run_nonNull _ s), getOrAllocPt]
  simp only [bind_assoc]
  rfl

/-- `vmm_map_page` maps the page if it was not mapped, refuses if it was, or runs out of memory. -/
theorem run_vmmMapPage (hs : env.Inv s) {v p : BitVec 64} (hv : IsPage v)
    (hp : vmmIsAligned4k p = true) (flags : BitVec 64) :
    (∃ t, (vmmMapPage (some space) v p flags).run s = .ok () t ∧ env.lookup s v = none ∧
      env.Inv t ∧ ∀ w, IsPage w → env.lookup t w = if w = v then
        some (p &&& pteAddrMask, ptePresent ||| (flags &&& allowed)) else env.lookup s w) ∨
    (∃ t, (vmmMapPage (some space) v p flags).run s = .error .exist t ∧
      env.lookup s v ≠ none ∧ env.Quiet s t) ∨
    ∃ t, (vmmMapPage (some space) v p flags).run s = .error .nomem t ∧
      env.lookup s v = none ∧ env.Quiet s t := by
  rw [run_vmmMapPage_eq env hv hp]
  obtain ⟨pt, t, hrun, hquiet, hreach⟩ | ⟨t, hrun, hquiet, hnone⟩ := run_getOrAllocPt hs v
  case inr => exact .inr (.inr ⟨t, run_bind_of_error hrun, hnone, hquiet⟩)
  rw [run_bind_of_ok hrun, run_bind_of_ok (run_readEntry pt _ t)]
  have hlookup : env.lookup s v = decode (t.mem pt (idxPt v)) := by
    rw [← hquiet.lookup_eq, lookup, hreach, Option.bind_some]
  by_cases hpresent : t.mem pt (idxPt v) &&& ptePresent ≠ 0
  · refine .inr (.inl ⟨t, run_bind_of_error (run_failIf_of hpresent), ?_, hquiet⟩)
    rw [hlookup, decode, if_neg hpresent]
    exact Option.some_ne_none _
  · rw [run_bind_of_ok (run_failIf_of_not hpresent), run_writeEntry]
    refine .inl ⟨written t pt v (entry p (flags &&& allowed)), rfl, ?_,
      hquiet.inv.written hreach _, fun w hw ↦ ?_⟩
    · rw [hlookup, decode, if_pos (not_not.mp hpresent)]
    · rw [hquiet.inv.lookup_written hreach _ hv hw, hquiet.lookup_eq, decode,
        if_neg (entry_present p _), entry_and_pteAddrMask p (flags_and_pteAddrMask flags),
        entry_and_not_pteAddrMask p (flags_and_pteAddrMask flags)]

theorem run_vmmMapPage_of_not {v p : BitVec 64} (h : ¬(IsPage v ∧ vmmIsAligned4k p = true))
    (flags : BitVec 64) : (vmmMapPage (some space) v p flags).run s = .error .inval s := by
  have hcheck : vmmIsCanonical v = false ∨ vmmIsAligned4k v = false ∨ vmmIsAligned4k p = false := by
    rw [not_and_or, not_isPage_iff, Bool.not_eq_true, or_assoc] at h
    exact h
  rw [vmmMapPage, run_bind_of_error (run_failIf_of hcheck)]

/-! ## `vmm_unmap_page` -/

/-- `vmm_unmap_page` unmaps the page if it was mapped. -/
theorem run_vmmUnmapPage (hs : env.Inv s) {v : BitVec 64} (hv : IsPage v) :
    (∃ t, (vmmUnmapPage (some space) v).run s = .ok () t ∧ env.lookup s v ≠ none ∧ env.Inv t ∧
      ∀ w, IsPage w → env.lookup t w = if w = v then none else env.lookup s w) ∨
    (vmmUnmapPage (some space) v).run s = .error .notFound s ∧ env.lookup s v = none := by
  have hfind := run_findEntry env s hv
  rw [vmmUnmapPage, lookup]
  cases hreach : env.reach s (path v) with
  | none =>
    rw [hreach] at hfind
    exact .inr ⟨run_bind_of_error hfind, rfl⟩
  | some pt =>
    rw [hreach] at hfind
    dsimp only at hfind
    rw [Option.bind_some, decode]
    split_ifs at hfind ⊢ with hpresent
    · exact .inr ⟨run_bind_of_error hfind, rfl⟩
    · rw [run_bind_of_ok hfind]
      refine .inl ⟨written s pt v 0, rfl, Option.some_ne_none _, hs.written hreach 0, ?_⟩
      intro w hw
      rw [hs.lookup_written hreach 0 hv hw]
      rfl

theorem run_vmmUnmapPage_of_not {v : BitVec 64} (hv : ¬IsPage v) :
    (vmmUnmapPage (some space) v).run s = .error .inval s := by
  rw [vmmUnmapPage, run_bind_of_error (run_findEntry_of_not hv)]

theorem run_vmmQueryPage_of_not {v : BitVec 64} (hv : ¬IsPage v) :
    (vmmQueryPage (some space) v true).run s = .error .inval s := by
  rw [vmmQueryPage, run_bind_of_ok (run_failIf_of_not (by simp)),
    run_bind_of_error (run_findEntry_of_not hv)]

/-! ## Runs -/

/-- The tables are a tree and map what `M` maps. -/
structure Represents (env : Environment space) (M : PageMap) (s : State κ) : Prop where
  inv : env.Inv s
  isPage : ∀ v, M v ≠ none → IsPage v
  lookup_eq : ∀ v, IsPage v → env.lookup s v = M v

variable {M : PageMap}

theorem Represents.quiet (h : env.Represents M s) (hst : env.Quiet s t) : env.Represents M t :=
  ⟨hst.inv, h.isPage, fun v hv ↦ (hst.lookup_eq v).trans (h.lookup_eq v hv)⟩

theorem Represents.notMapped (h : env.Represents M s) {v : BitVec 64} (hv : ¬IsPage v) :
    M v = none := by
  by_contra hmapped
  exact hv (h.isPage v hmapped)

theorem Represents.update (h : env.Represents M s) (ht : env.Inv t) {v : BitVec 64} (hv : IsPage v)
    {x : Option (BitVec 64 × BitVec 64)}
    (hlookup : ∀ w, IsPage w → env.lookup t w = if w = v then x else env.lookup s w) :
    env.Represents (Function.update M v x) t where
  inv := ht
  isPage w hw := by
    by_cases hwv : w = v
    · rwa [hwv]
    · rw [Function.update_of_ne hwv] at hw
      exact h.isPage w hw
  lookup_eq w hw := by
    rw [hlookup w hw, Function.update_apply]
    split_ifs
    · rfl
    · exact h.lookup_eq w hw

theorem Represents.run_vmmQueryPage_eq (h : env.Represents M s) (v : BitVec 64) :
    (vmmQueryPage (some space) v true).run s = match M.query v with
      | .ok m => .ok m s
      | .error e => .error e s := by
  rw [PageMap.query]
  by_cases hv : IsPage v
  · rw [run_vmmQueryPage env s hv, h.lookup_eq v hv, if_pos hv]
    cases M v <;> rfl
  · rw [run_vmmQueryPage_of_not hv, h.notMapped hv, if_neg hv]

/-- Every call is a step of the partial map. -/
theorem Represents.step (h : env.Represents M s) (c : Call) (hc : c.MapsFrame) :
    ∃ M', PageMap.Step c (step space c s).1 M M' ∧ env.Represents M' (step space c s).2 := by
  cases c with
  | mapPage v p flags =>
    rw [Vmm.step]
    by_cases hv : IsPage v
    · have hM := h.lookup_eq v hv
      obtain ⟨t, hrun, hnone, ht, hlookup⟩ | ⟨t, hrun, hsome, hquiet⟩ | ⟨t, hrun, hnone, hquiet⟩ :=
        run_vmmMapPage h.inv hv hc.1 flags
      · rw [hrun]
        rw [hc.and_pteAddrMask] at hlookup
        exact ⟨_, .mapOk hv (hM.symm.trans hnone), h.update ht hv hlookup⟩
      · rw [hrun]
        exact ⟨M, .mapExist (hM ▸ hsome), h.quiet hquiet⟩
      · rw [hrun]
        exact ⟨M, .mapNomem hv (hM.symm.trans hnone), h.quiet hquiet⟩
    · rw [run_vmmMapPage_of_not fun hand ↦ hv hand.1]
      exact ⟨M, .mapInval hv (h.notMapped hv), h⟩
  | unmapPage v =>
    rw [Vmm.step]
    by_cases hv : IsPage v
    · have hM := h.lookup_eq v hv
      obtain ⟨t, hrun, hsome, ht, hlookup⟩ | ⟨hrun, hnone⟩ := run_vmmUnmapPage h.inv hv
      · rw [hrun]
        exact ⟨_, .unmapOk (hM ▸ hsome), h.update ht hv hlookup⟩
      · rw [hrun]
        exact ⟨M, .unmapNotFound hv (hM.symm.trans hnone), h⟩
    · rw [run_vmmUnmapPage_of_not hv]
      exact ⟨M, .unmapInval hv (h.notMapped hv), h⟩
  | queryPage v =>
    rw [Vmm.step, h.run_vmmQueryPage_eq, PageMap.query]
    cases hM : M v with
    | some x => exact ⟨M, .queryOk hM, h⟩
    | none =>
      by_cases hv : IsPage v
      · rw [if_pos hv]
        exact ⟨M, .queryNotFound hv hM, h⟩
      · rw [if_neg hv]
        exact ⟨M, .queryInval hv hM, h⟩

end Environment

/-! ## A small address space

The root is frame 1, and `alloc_frame` hands out frames 2 to 17. -/

/-- Frame `n` of physical memory. -/
def frame (n : ℕ) : BitVec 64 := BitVec.ofNat 64 (n * 4096)

/-- The address space. Its context counts the calls of `alloc_frame`. -/
def smallSpace : VmmSpace ℕ where
  rootPaddr := frame 1
  allocFrame := some fun n ↦ (if n < 16 then frame (n + 2) else invalidPhys, n + 1)
  freeFrame := none
  physToVirt := some fun a ↦ some (a.toNat / 4096)

theorem toNat_frame {n : ℕ} (hn : n < 2 ^ 40) : (frame n).toNat = n * 4096 := by
  rw [frame, BitVec.toNat_ofNat]
  omega

theorem isFrame_frame {n : ℕ} (hn : n < 2 ^ 40) : IsFrame (frame n) := by
  rw [IsFrame, vmmIsAligned4k_iff, toNat_frame hn]
  omega

/-- Its callbacks do what is assumed of them. -/
def smallEnvironment : Environment smallSpace where
  table a := a.toNat / 4096
  tableFromPhys_eq a ha := by
    have haligned : vmmIsAligned4k a = true := by
      rcases ha with ha | rfl
      · exact ha.1
      · exact (isFrame_frame (by decide)).1
    simp only [tableFromPhys, smallSpace, haligned, Bool.not_true, Bool.false_eq_true, if_false]
  table_inj a b ha hb hab := by
    have haligned : ∀ c, IsFrame c ∨ c = smallSpace.rootPaddr → c.toNat % 2 ^ 12 = 0 := by
      rintro c (hc | rfl)
      · exact (vmmIsAligned4k_iff c).mp hc.1
      · exact (vmmIsAligned4k_iff _).mp (isFrame_frame (by decide)).1
    have ha' := haligned a ha
    have hb' := haligned b hb
    apply BitVec.eq_of_toNat_eq
    omega
  given n := {a | a = frame 1 ∨ ∃ m < min n 16, a = frame (m + 2)}
  alloc_spec allocFrame halloc n := by
    obtain rfl := Option.some_inj.mp halloc
    dsimp only
    constructor
    · rintro a (ha | ⟨m, hm, ha⟩)
      · exact .inl ha
      · exact .inr ⟨m, by omega, ha⟩
    · by_cases hn : n < 16
      · refine .inr ?_
        simp only [if_pos hn]
        refine ⟨isFrame_frame (by omega), ?_, .inr ⟨n, by omega, rfl⟩⟩
        rintro (ha | ⟨m, hm, ha⟩)
        · have hnat := congrArg BitVec.toNat ha
          rw [toNat_frame (by omega), toNat_frame (by omega)] at hnat
          omega
        · have hnat := congrArg BitVec.toNat ha
          rw [toNat_frame (by omega), toNat_frame (by omega)] at hnat
          omega
      · exact .inl (if_neg hn)

/-- Memory is all zero and no frame has been handed out. -/
def smallState : State ℕ := ⟨0, fun _ _ ↦ 0⟩

theorem zeroedRoot_smallState : smallEnvironment.ZeroedRoot smallState :=
  ⟨fun _ ↦ rfl, .inl rfl⟩

/-- `vmm_unmap_page` does not return `VMM_ERR_NOT_FOUND` for every address that is not mapped: the
address 1 is not mapped, and the call refuses it with `VMM_ERR_INVAL`. -/
theorem unmap_absent_inval :
    ¬∀ (κ : Type) (space : VmmSpace κ) (env : Environment space) (s : State κ),
      env.ZeroedRoot s → ∀ v,
        ((step space (.unmapPage v) s).1 = .status (.error .notFound) ↔
          ∀ m, (step space (.queryPage v) s).1 ≠ .mapping (.ok m)) := by
  intro h
  have hpage : ¬IsPage 1 := by decide
  have hiff := h ℕ smallSpace smallEnvironment smallState zeroedRoot_smallState 1
  rw [step, step, Environment.run_vmmUnmapPage_of_not hpage,
    Environment.run_vmmQueryPage_of_not hpage] at hiff
  have hnotFound := hiff.mpr fun m hm ↦ by cases hm
  cases hnotFound

/-! ## The refinement -/

open Environment in
/-- Every run of calls from a zeroed root table is a behaviour of a partial map, and in the state
reached `vmm_query_page` of every address reports that map. -/
theorem vmm_refines_pageMap (env : Environment space) {es : List (Call × Ret)}
    (hs : env.ZeroedRoot s) (hrun : Run (step space) (fun _ c ↦ c.MapsFrame) s es t) :
    ∃ M, Behaviour PageMap.Step PageMap.empty es M ∧
      ∀ v, returned ((vmmQueryPage (some space) v true).run t) = M.query v := by
  have hempty : env.Represents PageMap.empty s :=
    ⟨hs.inv, fun v hv ↦ absurd rfl hv, fun v _ ↦ hs.lookup_eq v⟩
  obtain ⟨M, hM, ht⟩ := hrun.refines hempty fun M u c hu hc ↦ hu.step c hc
  refine ⟨M, hM, fun v ↦ ?_⟩
  rw [ht.run_vmmQueryPage_eq]
  cases M.query v <;> rfl

/-- Two pages are mapped, one of them is not mapped again and then unmapped. -/
theorem vmm_refines_pageMap_two : ∃ es t M,
    es.map Prod.fst = [Call.mapPage 0x400000 0x500000 pteWritable,
      .mapPage 0x8000000000 0x500000 0, .mapPage 0x400000 0x600000 0, .unmapPage 1,
      .unmapPage 0x400000, .queryPage 0x400000, .queryPage 0x8000000000] ∧
    es.map Prod.snd = [Ret.status (.ok ()), .status (.ok ()), .status (.error .exist),
      .status (.error .inval), .status (.ok ()), .mapping (.error .notFound),
      .mapping (.ok ⟨0x8000000000, 0x500000, ptePresent⟩)] ∧
    Behaviour PageMap.Step PageMap.empty es M ∧
    ∀ v, returned ((vmmQueryPage (some smallSpace) v true).run t) = M.query v := by
  have hnil : Run (step smallSpace) (fun _ c ↦ c.MapsFrame) smallState [] _ := .nil
  have hframe : IsFrame 0x500000 := ⟨by decide, by decide⟩
  have hmapped := ((hnil.snoc (.mapPage 0x400000 0x500000 pteWritable) hframe).snoc
    (.mapPage 0x8000000000 0x500000 0) hframe).snoc (.mapPage 0x400000 0x600000 0)
    ⟨by decide, by decide⟩
  have hrun := (((hmapped.snoc (.unmapPage 1) trivial).snoc (.unmapPage 0x400000) trivial).snoc
    (.queryPage 0x400000) trivial).snoc (.queryPage 0x8000000000) trivial
  obtain ⟨M, hM⟩ := vmm_refines_pageMap smallEnvironment zeroedRoot_smallState hrun
  exact ⟨_, _, M, rfl, rfl, hM⟩

end Vmm

end Mcsos
