import Mcsos.Base.Machine
import Mcsos.Vmm.PageTable
import Mathlib.Data.Set.Insert

/-!
# The page tables as a partial map

An address space is a partial map from pages to frames with flags. `lookup` reads it off the
tables: a page is the path of its three upper indices to a table at the bottom, and the entry of
that table at its last index.

The tables form a tree (`Inv`), so that two pages never share an entry. A table that is hung into
the tree is empty, so that a call which runs out of memory half way maps nothing.
-/

namespace Mcsos

namespace Vmm

open TableTree

/-! ## Addresses and entries -/

theorem val_idx (shift : ℕ) (v : BitVec 64) : (idx shift v).val = v.toNat / 2 ^ shift % 512 := by
  have hmask : (0x1FF : BitVec 64).toNat = 2 ^ 9 - 1 := rfl
  rw [idx, Fin.val_ofNat, BitVec.toNat_and, BitVec.toNat_ushiftRight, hmask,
    Nat.and_two_pow_sub_one_eq_mod, Nat.shiftRight_eq_div_pow]
  exact Nat.mod_mod _ _

theorem vmmIsAligned4k_iff (v : BitVec 64) : vmmIsAligned4k v = true ↔ v.toNat % 2 ^ 12 = 0 := by
  have hmask : (pageSize - 1).toNat = 2 ^ 12 - 1 := rfl
  rw [vmmIsAligned4k, beq_iff_eq, ← BitVec.toNat_inj, BitVec.toNat_and, hmask,
    Nat.and_two_pow_sub_one_eq_mod]
  rfl

theorem vmmIsCanonical_iff (v : BitVec 64) : vmmIsCanonical v = true ↔
    v.toNat / 2 ^ 48 = if v.toNat / 2 ^ 47 % 2 = 0 then 0 else 0xFFFF := by
  have hone : (1 : BitVec 64).toNat = 2 ^ 1 - 1 := rfl
  have hsign : (v >>> 47) &&& 1 = 0 ↔ v.toNat / 2 ^ 47 % 2 = 0 := by
    rw [← BitVec.toNat_inj, BitVec.toNat_and, BitVec.toNat_ushiftRight, hone,
      Nat.and_two_pow_sub_one_eq_mod, Nat.shiftRight_eq_div_pow]
    rfl
  have hupper : ∀ c : BitVec 64, v >>> 48 == c ↔ v.toNat / 2 ^ 48 = c.toNat := fun c ↦ by
    rw [beq_iff_eq, ← BitVec.toNat_inj, BitVec.toNat_ushiftRight, Nat.shiftRight_eq_div_pow]
  change (if (v >>> 47) &&& 1 ≠ 0 then v >>> 48 == 0xFFFF else v >>> 48 == 0) = true ↔ _
  by_cases h : v.toNat / 2 ^ 47 % 2 = 0
  · rw [if_pos h, if_neg (not_not.mpr (hsign.mpr h)), hupper]
    rfl
  · rw [if_neg h, if_pos (mt hsign.mp h), hupper]
    rfl

/-- The addresses that the calls accept: one for each page. -/
def IsPage (v : BitVec 64) : Prop := vmmIsCanonical v = true ∧ vmmIsAligned4k v = true

instance (v : BitVec 64) : Decidable (IsPage v) := inferInstanceAs (Decidable (_ ∧ _))

theorem not_isPage_iff {v : BitVec 64} :
    ¬IsPage v ↔ vmmIsCanonical v = false ∨ vmmIsAligned4k v = false := by
  rw [IsPage, not_and_or, Bool.not_eq_true, Bool.not_eq_true]

/-- The indices on the way to the last table. -/
def path (v : BitVec 64) : List (Fin entriesPerTable) := [idxPml4 v, idxPdpt v, idxPd v]

/-- The indices of a page determine it: the sign bit is the highest bit of the first one. -/
theorem IsPage.toNat_eq {v : BitVec 64} (hv : IsPage v) :
    v.toNat = (idxPt v).val * 2 ^ 12 + (idxPd v).val * 2 ^ 21 + (idxPdpt v).val * 2 ^ 30 +
      (idxPml4 v).val * 2 ^ 39 + if (idxPml4 v).val < 256 then 0 else 0xFFFF * 2 ^ 48 := by
  obtain ⟨hcanonical, haligned⟩ := hv
  rw [vmmIsCanonical_iff] at hcanonical
  rw [vmmIsAligned4k_iff] at haligned
  rw [idxPt, idxPd, idxPdpt, idxPml4, val_idx, val_idx, val_idx, val_idx]
  split_ifs at hcanonical ⊢ <;> omega

theorem IsPage.eq_of_path_eq {v w : BitVec 64} (hv : IsPage v) (hw : IsPage w)
    (hpath : path v = path w) (hpt : idxPt v = idxPt w) : v = w := by
  rw [path, path, List.cons.injEq, List.cons.injEq, List.cons.injEq] at hpath
  obtain ⟨hpml4, hpdpt, hpd, -⟩ := hpath
  apply BitVec.eq_of_toNat_eq
  rw [hv.toNat_eq, hw.toNat_eq, hpml4, hpdpt, hpd, hpt]

/-- A page frame of physical memory. -/
def IsFrame (a : BitVec 64) : Prop := vmmIsAligned4k a = true ∧ a.toNat < 2 ^ 52

theorem getLsbD_pteAddrMask : ∀ i < 64, pteAddrMask.getLsbD i = decide (12 ≤ i ∧ i < 52) := by
  decide

theorem IsFrame.and_pteAddrMask {a : BitVec 64} (ha : IsFrame a) : a &&& pteAddrMask = a := by
  obtain ⟨haligned, hlt⟩ := ha
  rw [vmmIsAligned4k_iff] at haligned
  apply BitVec.eq_of_getLsbD_eq
  intro i hi
  rw [BitVec.getLsbD_and, getLsbD_pteAddrMask i hi]
  by_cases hmid : 12 ≤ i ∧ i < 52
  · rw [decide_eq_true hmid, Bool.and_true]
  · have hbit : a.toNat.testBit i = false := by
      by_cases hlow : i < 12
      · have hmod := Nat.testBit_mod_two_pow a.toNat 12 i
        rw [haligned, Nat.zero_testBit, decide_eq_true hlow, Bool.true_and] at hmod
        exact hmod.symm
      · exact Nat.testBit_lt_two_pow (hlt.trans_le (Nat.pow_le_pow_right Nat.two_pos (by omega)))
    rw [decide_eq_false hmid, Bool.and_false, BitVec.getLsbD, hbit]

theorem isFrame_and_pteAddrMask (e : BitVec 64) : IsFrame (e &&& pteAddrMask) := by
  constructor
  · have hmask : pteAddrMask &&& (pageSize - 1) = 0#64 := by decide
    rw [vmmIsAligned4k, BitVec.and_assoc, hmask, BitVec.and_zero]
    rfl
  · have hmask : pteAddrMask.toNat < 2 ^ 52 := by decide
    rw [BitVec.toNat_and]
    exact Nat.and_le_right.trans_lt hmask

section Entry

variable (a : BitVec 64) {b : BitVec 64} (hb : b &&& pteAddrMask = 0#64)

/-- An entry that `vmm_map_page` or `get_or_alloc_next_table` writes: an address, the present bit
and further flags `b`. -/
def entry (a b : BitVec 64) : BitVec 64 := (a &&& pteAddrMask) ||| ptePresent ||| b

theorem entry_present (b : BitVec 64) : entry a b &&& ptePresent ≠ 0 := by
  intro h
  have hbit := congrArg (BitVec.getLsbD · 0) h
  simp [entry, ptePresent] at hbit

include hb

theorem entry_and_pteAddrMask : entry a b &&& pteAddrMask = a &&& pteAddrMask := by
  have hpresent : ptePresent &&& pteAddrMask = 0#64 := by decide
  rw [entry, BitVec.and_or_distrib_right, BitVec.and_or_distrib_right, hb, hpresent,
    BitVec.and_assoc, BitVec.and_self, BitVec.or_zero, BitVec.or_zero]

theorem entry_and_not_pteAddrMask : entry a b &&& ~~~pteAddrMask = ptePresent ||| b := by
  have hpresent : ptePresent &&& ~~~pteAddrMask = ptePresent := by decide
  have hmask : pteAddrMask &&& ~~~pteAddrMask = 0#64 := by decide
  have hall : pteAddrMask ||| ~~~pteAddrMask = BitVec.allOnes 64 := by decide
  have hflags : b &&& ~~~pteAddrMask = b := by
    calc b &&& ~~~pteAddrMask = b &&& pteAddrMask ||| b &&& ~~~pteAddrMask := by
          rw [hb, BitVec.zero_or]
      _ = b := by rw [← BitVec.and_or_distrib_left, hall, BitVec.and_allOnes]
  rw [entry, BitVec.and_or_distrib_right, BitVec.and_or_distrib_right, hflags, hpresent,
    BitVec.and_assoc, hmask, BitVec.and_zero, BitVec.zero_or]

end Entry

theorem flags_and_pteAddrMask (flags : BitVec 64) : flags &&& allowed &&& pteAddrMask = 0#64 := by
  have hallowed : allowed &&& pteAddrMask = 0#64 := by decide
  rw [BitVec.and_assoc, hallowed, BitVec.and_zero]

theorem entry_pteWritable_huge (a : BitVec 64) : entry a pteWritable &&& pteHuge = 0#64 := by
  have hmask : pteAddrMask &&& pteHuge = 0#64 := by decide
  have hflags : (ptePresent ||| pteWritable) &&& pteHuge = 0#64 := by decide
  rw [entry, BitVec.or_assoc, BitVec.and_or_distrib_right, hflags, BitVec.and_assoc, hmask,
    BitVec.and_zero, BitVec.or_zero]

/-! ## The tree of tables -/

variable {κ : Type} {space : VmmSpace κ}

/-- What the callbacks of an address space are assumed to do. -/
structure Environment (space : VmmSpace κ) where
  /-- The table of each frame. -/
  table : BitVec 64 → ℕ
  tableFromPhys_eq : ∀ a, IsFrame a ∨ a = space.rootPaddr →
    tableFromPhys space a = some (table a)
  /-- Each frame has its own table. -/
  table_inj : ∀ a b, IsFrame a ∨ a = space.rootPaddr → IsFrame b ∨ b = space.rootPaddr →
    table a = table b → a = b
  /-- The root and the frames that `alloc_frame` has returned so far. -/
  given : κ → Set (BitVec 64)
  /-- `alloc_frame` returns `VMM_INVALID_PHYS`, or a frame that is neither the root nor an earlier
  result. -/
  alloc_spec : ∀ allocFrame, space.allocFrame = some allocFrame → ∀ c,
    given c ⊆ given (allocFrame c).2 ∧ ((allocFrame c).1 = invalidPhys ∨
      IsFrame (allocFrame c).1 ∧ (allocFrame c).1 ∉ given c ∧
        (allocFrame c).1 ∈ given (allocFrame c).2)

/-- The table that an entry points to. -/
def next (space : VmmSpace κ) (e : BitVec 64) : Option ℕ :=
  if e &&& ptePresent = 0 ∨ e &&& pteHuge ≠ 0 then none
  else tableFromPhys space (e &&& pteAddrMask)

namespace Environment

variable (env : Environment space) (s t : State κ)

/-- The root table. -/
def root : ℕ := env.table space.rootPaddr

theorem next_zero : next space 0 = none := if_pos (.inl (BitVec.zero_and))

theorem next_entry {a : BitVec 64} (ha : IsFrame a) :
    next space (entry a pteWritable) = some (env.table a) := by
  have hwritable : pteWritable &&& pteAddrMask = 0#64 := by decide
  rw [next, if_neg, entry_and_pteAddrMask a hwritable, ha.and_pteAddrMask,
    env.tableFromPhys_eq a (.inl ha)]
  rintro (h | h)
  · exact entry_present a _ h
  · exact h (entry_pteWritable_huge a)

/-- The table reached from the root by following the indices. -/
def reach (p : List (Fin entriesPerTable)) : Option ℕ := walk (next space) s.mem env.root p

/-- The tables form a tree of frames that were given out, and the entries above the last level are
empty or point to tables. -/
structure Inv : Prop where
  unshared : Unshared (next space) s.mem env.root 3
  given : ∀ p f, p.length ≤ 3 → env.reach s p = some f →
    ∃ a ∈ env.given s.ctx, (IsFrame a ∨ a = space.rootPaddr) ∧ env.table a = f
  entries : ∀ p f, p.length < 3 → env.reach s p = some f →
    ∀ i, s.mem f i = 0 ∨ ∃ a, IsFrame a ∧ s.mem f i = entry a pteWritable

/-- What an entry of the last level maps a page to. -/
def decode (e : BitVec 64) : Option (BitVec 64 × BitVec 64) :=
  if e &&& ptePresent = 0 then none else some (e &&& pteAddrMask, e &&& ~~~pteAddrMask)

/-- The frame and the flags that a page is mapped to. -/
def lookup (v : BitVec 64) : Option (BitVec 64 × BitVec 64) :=
  (env.reach s (path v)).bind fun pt ↦ decode (s.mem pt (idxPt v))

variable {env s t}

/-! ## Searching -/

theorem run_nextTable (env : Environment space) (f : ℕ) (i : Fin entriesPerTable) (s : State κ) :
    (nextTable space f i).run s = match next space (s.mem f i) with
      | some g => .ok g s
      | none => .error .notFound s := by
  rw [nextTable, run_bind_of_ok (run_readEntry f i s), next]
  by_cases h : s.mem f i &&& ptePresent = 0 ∨ s.mem f i &&& pteHuge ≠ 0
  · rw [if_pos h, run_bind_of_error (run_failIf_of h)]
  · rw [if_neg h, run_bind_of_ok (run_failIf_of_not h),
      env.tableFromPhys_eq _ (.inl (isFrame_and_pteAddrMask _))]
    rfl

theorem reach_path (env : Environment space) (s : State κ) (v : BitVec 64) :
    env.reach s (path v) = (next space (s.mem env.root (idxPml4 v))).bind fun pdpt ↦
      (next space (s.mem pdpt (idxPdpt v))).bind fun pd ↦ next space (s.mem pd (idxPd v)) := by
  simp only [reach, path, walk, Option.bind_fun_some]

/-- The search of `vmm_query_page` and `vmm_unmap_page` follows the path of the page. -/
theorem run_findEntry (env : Environment space) (s : State κ) {v : BitVec 64} (hv : IsPage v) :
    (findEntry space v).run s = match env.reach s (path v) with
      | none => .error .notFound s
      | some pt =>
        if s.mem pt (idxPt v) &&& ptePresent = 0 then .error .notFound s
        else .ok (pt, s.mem pt (idxPt v)) s := by
  have hcheck : ¬(vmmIsCanonical v = false ∨ vmmIsAligned4k v = false) :=
    fun h ↦ not_isPage_iff.mpr h hv
  have hroot : tableFromPhys space space.rootPaddr = some env.root :=
    env.tableFromPhys_eq _ (.inr rfl)
  rw [findEntry, run_bind_of_ok (run_failIf_of_not hcheck), hroot,
    run_bind_of_ok (run_nonNull _ s), reach_path]
  cases hpdpt : next space (s.mem env.root (idxPml4 v)) with
  | none =>
    rw [run_bind_of_error (by rw [run_nextTable env, hpdpt])]
    rfl
  | some pdpt =>
    rw [run_bind_of_ok (by rw [run_nextTable env, hpdpt]), Option.bind_some]
    cases hpd : next space (s.mem pdpt (idxPdpt v)) with
    | none =>
      rw [run_bind_of_error (by rw [run_nextTable env, hpd])]
      rfl
    | some pd =>
      rw [run_bind_of_ok (by rw [run_nextTable env, hpd]), Option.bind_some]
      cases hpt : next space (s.mem pd (idxPd v)) with
      | none =>
        rw [run_bind_of_error (by rw [run_nextTable env, hpt])]
      | some pt =>
        rw [run_bind_of_ok (by rw [run_nextTable env, hpt]), run_bind_of_ok (run_readEntry pt _ s)]
        dsimp only
        split_ifs with hpresent
        · rw [run_bind_of_error (run_failIf_of hpresent)]
        · rw [run_bind_of_ok (run_failIf_of_not hpresent)]
          rfl

theorem run_findEntry_of_not {v : BitVec 64} (hv : ¬IsPage v) :
    (findEntry space v).run s = .error .inval s := by
  rw [findEntry, run_bind_of_error (run_failIf_of (not_isPage_iff.mp hv))]

theorem run_vmmQueryPage (env : Environment space) (s : State κ) {v : BitVec 64} (hv : IsPage v) :
    (vmmQueryPage (some space) v true).run s = match env.lookup s v with
      | none => .error .notFound s
      | some (paddr, flags) => .ok ⟨v, paddr, flags⟩ s := by
  have hfind := run_findEntry env s hv
  rw [vmmQueryPage, run_bind_of_ok (run_failIf_of_not (by simp)), lookup]
  cases hreach : env.reach s (path v) with
  | none =>
    rw [hreach] at hfind
    rw [run_bind_of_error hfind]
    rfl
  | some pt =>
    rw [hreach] at hfind
    dsimp only at hfind
    rw [Option.bind_some, decode]
    split_ifs at hfind ⊢ with hpresent
    · rw [run_bind_of_error hfind]
    · rw [run_bind_of_ok hfind]
      rfl

/-! ## Adding tables -/

theorem Inv.withCtx (hs : env.Inv s) {c : κ} (h : env.given s.ctx ⊆ env.given c) :
    env.Inv { s with ctx := c } :=
  ⟨hs.unshared, fun p f hp hf ↦ (hs.given p f hp hf).imp fun _ ha ↦ ⟨h ha.1, ha.2⟩, hs.entries⟩

section Link

variable {c : κ} {q : List (Fin entriesPerTable)} {f : ℕ} {i : Fin entriesPerTable} {a : BitVec 64}
  (hs : env.Inv s) (hq : env.reach s q = some f) (hn : q.length < 3)
  (hfree : next space (s.mem f i) = none) (ha : IsFrame a) (hnew : a ∉ env.given s.ctx)
include hs hq hn hfree ha hnew

omit hq hn hfree in
theorem Inv.fresh (p : List (Fin entriesPerTable)) (hp : p.length ≤ 3) :
    env.reach s p ≠ some (env.table a) := by
  intro hreach
  obtain ⟨b, hb, hframe, htable⟩ := hs.given p _ hp hreach
  rw [env.table_inj b a hframe (.inl ha) htable] at hb
  exact hnew hb

/-- The state after the table of frame `a` has been put under entry `i` of table `f`. -/
def linked (env : Environment space) (s : State κ) (c : κ) (f : ℕ) (i : Fin entriesPerTable)
    (a : BitVec 64) : State κ :=
  ⟨c, link s.mem f i (env.table a) 0 (entry a pteWritable)⟩

theorem Inv.reach_linked (p : List (Fin entriesPerTable)) (hp : p.length ≤ 3) :
    env.reach (env.linked s c f i a) p =
      if p = q ++ [i] then some (env.table a) else env.reach s p :=
  hs.unshared.walk_link hq hn hfree (hs.fresh ha hnew) next_zero (env.next_entry ha) p hp

omit hfree in
theorem Inv.mem_linked_new (j : Fin entriesPerTable) :
    (env.linked s c f i a).mem (env.table a) j = 0 :=
  link_new hq hn (hs.fresh ha hnew) j

omit hq hn hfree in
theorem Inv.mem_linked_old {p : List (Fin entriesPerTable)} {g : ℕ} (hp : p.length ≤ 3)
    (hg : env.reach s p = some g) (j : Fin entriesPerTable) : (env.linked s c f i a).mem g j =
      if g = f ∧ j = i then entry a pteWritable else s.mem g j :=
  link_old (hs.fresh ha hnew) hp hg j

theorem Inv.linked (hmono : env.given s.ctx ⊆ env.given c) (hac : a ∈ env.given c) :
    env.Inv (env.linked s c f i a) where
  unshared := hs.unshared.link hq hn hfree (hs.fresh ha hnew) next_zero (env.next_entry ha)
  given p g hp hg := by
    rw [hs.reach_linked hq hn hfree ha hnew p hp] at hg
    split_ifs at hg with hpq
    · exact ⟨a, hac, .inl ha, Option.some_inj.mp hg⟩
    · obtain ⟨b, hb, hb'⟩ := hs.given p g hp hg
      exact ⟨b, hmono hb, hb'⟩
  entries p g hp hg j := by
    rw [hs.reach_linked hq hn hfree ha hnew p hp.le] at hg
    split_ifs at hg with hpq
    · rw [← Option.some_inj.mp hg]
      exact .inl (hs.mem_linked_new hq hn ha hnew j)
    · rw [hs.mem_linked_old ha hnew hp.le hg]
      split_ifs
      · exact .inr ⟨a, ha, rfl⟩
      · exact hs.entries p g hp hg j

theorem Inv.lookup_linked (v : BitVec 64) :
    env.lookup (env.linked s c f i a) v = env.lookup s v := by
  rw [lookup, lookup, hs.reach_linked hq hn hfree ha hnew (path v) (le_refl 3)]
  split_ifs with hpath
  · have hbefore : env.reach s (path v) = none := by
      rw [hpath]
      exact (walk_concat_of_eq_some hq i).trans hfree
    rw [hbefore, Option.bind_some, hs.mem_linked_new hq hn ha hnew, Option.bind_none]
    exact if_pos BitVec.zero_and
  · cases hg : env.reach s (path v) with
    | none => rfl
    | some g =>
      -- a table at the last level is not the one that was changed
      have hgf : g ≠ f := by
        rintro rfl
        have hpq := hs.unshared (path v) q g (le_refl 3) hn.le hg hq
        rw [← hpq] at hn
        exact absurd hn (lt_irrefl 3)
      rw [Option.bind_some, Option.bind_some, hs.mem_linked_old ha hnew (le_refl 3) hg,
        if_neg fun h ↦ hgf h.1]

end Link

/-- What a call may do before it writes an entry of the last level: the tree is kept and no page is
mapped or unmapped. -/
structure Quiet (env : Environment space) (s t : State κ) : Prop where
  inv : env.Inv t
  lookup_eq : ∀ v, env.lookup t v = env.lookup s v

theorem Quiet.trans {u : State κ} (h : env.Quiet s t) (h' : env.Quiet t u) : env.Quiet s u :=
  ⟨h'.inv, fun v ↦ (h'.lookup_eq v).trans (h.lookup_eq v)⟩

/-- `get_or_alloc_next_table` goes to the next table of the path, which it adds if it has to, or
runs out of memory. -/
theorem run_getOrAllocNextTable (hs : env.Inv s) {q : List (Fin entriesPerTable)} {f : ℕ}
    (hq : env.reach s q = some f) (hn : q.length < 3) (i : Fin entriesPerTable) :
    (∃ g t, (getOrAllocNextTable space f i).run s = .ok g t ∧ env.Quiet s t ∧
      env.reach t (q ++ [i]) = some g) ∨
    ∃ t, (getOrAllocNextTable space f i).run s = .error .nomem t ∧ env.Quiet s t ∧
      env.reach s (q ++ [i]) = none := by
  rw [getOrAllocNextTable, run_bind_of_ok (run_readEntry f i s)]
  rcases hs.entries q f hn hq i with hzero | ⟨a, ha, hentry⟩
  · have habsent : ¬((0 : BitVec 64) &&& ptePresent ≠ 0) := by decide
    rw [hzero, if_neg habsent]
    have hfree : next space (s.mem f i) = none := by rw [hzero, next_zero]
    have hnone : env.reach s (q ++ [i]) = none := (walk_concat_of_eq_some hq i).trans hfree
    cases halloc : space.allocFrame with
    | none => exact .inr ⟨s, rfl, ⟨hs, fun _ ↦ rfl⟩, hnone⟩
    | some allocFrame =>
      obtain ⟨hmono, hresult⟩ := env.alloc_spec allocFrame halloc s.ctx
      dsimp only
      rw [run_bind_of_ok (run_callAllocFrame allocFrame s)]
      rcases hresult with hinvalid | ⟨ha, hnew, hgiven⟩
      · refine .inr ⟨_, run_bind_of_error (run_failIf_of (.inl hinvalid)), ?_⟩
        exact ⟨⟨hs.withCtx hmono, fun _ ↦ rfl⟩, hnone⟩
      · have hcheck : ¬((allocFrame s.ctx).1 = invalidPhys ∨
            vmmIsAligned4k (allocFrame s.ctx).1 = false) := by
          rintro (hinvalid | hunaligned)
          · have hlt := ha.2
            rw [hinvalid] at hlt
            exact absurd hlt (by decide)
          · rw [ha.1] at hunaligned
            cases hunaligned
        rw [run_bind_of_ok (run_failIf_of_not hcheck), installTable,
          env.tableFromPhys_eq _ (.inl ha)]
        refine .inl ⟨_, env.linked s _ f i _, rfl, ?_, ?_⟩
        · exact ⟨hs.linked hq hn hfree ha hnew hmono hgiven,
            hs.lookup_linked hq hn hfree ha hnew⟩
        · rw [hs.reach_linked hq hn hfree ha hnew _ (by rwa [List.length_append]), if_pos rfl]
  · have hnext : next space (s.mem f i) = some (env.table a) := by rw [hentry, env.next_entry ha]
    have hmask : tableFromPhys space (entry a pteWritable &&& pteAddrMask) =
        some (env.table a) := by
      rw [entry_and_pteAddrMask a (by decide), ha.and_pteAddrMask, env.tableFromPhys_eq a (.inl ha)]
    have hhuge : ¬(entry a pteWritable &&& pteHuge ≠ 0) := not_not.mpr (entry_pteWritable_huge a)
    rw [hentry, if_pos (entry_present a _), run_bind_of_ok (run_failIf_of_not hhuge), hmask,
      run_nonNull]
    exact .inl ⟨_, s, rfl, ⟨hs, fun _ ↦ rfl⟩, (walk_concat_of_eq_some hq i).trans hnext⟩

/-! ## Writing an entry of the last level -/

/-- The state after the entry of page `v` in the table `pt` has been written. -/
def written (s : State κ) (pt : ℕ) (v e : BitVec 64) : State κ :=
  { s with mem := TableTree.write s.mem pt (idxPt v) e }

section Write

variable {v : BitVec 64} {pt : ℕ} (hs : env.Inv s) (hpt : env.reach s (path v) = some pt)
  (e : BitVec 64)
include hs hpt

theorem Inv.reach_written (p : List (Fin entriesPerTable)) (hp : p.length ≤ 3) :
    env.reach (written s pt v e) p = env.reach s p :=
  hs.unshared.walk_write hpt rfl (idxPt v) e p hp

theorem Inv.mem_written {p : List (Fin entriesPerTable)} {g : ℕ} (hp : p.length ≤ 3)
    (hg : env.reach s p = some g) (j : Fin entriesPerTable) :
    (written s pt v e).mem g j = if p = path v ∧ j = idxPt v then e else s.mem g j :=
  hs.unshared.entry_write hpt rfl (idxPt v) e hp hg j

theorem Inv.written : env.Inv (written s pt v e) where
  unshared := hs.unshared.congr (hs.reach_written hpt e)
  given p f hp hf := hs.given p f hp (by rwa [hs.reach_written hpt e p hp] at hf)
  entries p f hp hf i := by
    rw [hs.reach_written hpt e p hp.le] at hf
    have hne : p ≠ path v := fun h ↦ absurd (h ▸ hp) (lt_irrefl 3)
    rw [hs.mem_written hpt e hp.le hf, if_neg fun h ↦ hne h.1]
    exact hs.entries p f hp hf i

/-- Only the page changes. -/
theorem Inv.lookup_written (hv : IsPage v) {w : BitVec 64} (hw : IsPage w) :
    env.lookup (Environment.written s pt v e) w =
      if w = v then decode e else env.lookup s w := by
  rw [lookup, lookup, hs.reach_written hpt e (path w) (le_refl 3)]
  by_cases hwv : w = v
  · subst hwv
    rw [if_pos rfl, hpt, Option.bind_some, hs.mem_written hpt e (le_refl 3) hpt, if_pos ⟨rfl, rfl⟩]
  · rw [if_neg hwv]
    cases hg : env.reach s (path w) with
    | none => rfl
    | some g =>
      rw [Option.bind_some, Option.bind_some, hs.mem_written hpt e (le_refl 3) hg, if_neg]
      rintro ⟨hpath, hidx⟩
      exact hwv (hw.eq_of_path_eq hv hpath hidx)

end Write

end Environment

end Vmm

end Mcsos
