import Mcsos.Vmm.Refinement

/-!
# Mapping a page and asking for it

What `vmm_query_page` says of a page right after `vmm_map_page` has mapped it. Nothing is assumed of
the tables: they may share tables, hold large pages or entries with any bits. The allocator must not
hand out a table that is in use on the way to the page, since `get_or_alloc_next_table` empties the
table that it gets (`Allocator`, `Allocator.Covers`).

The last entry is written where no entry was present and the entries on the way are present, so the
search of `vmm_query_page` goes the same way. It returns the flags as they were asked for. The
address is returned without its bits from 52 on, which `vmm_map_page` accepts and drops.
-/

namespace Mcsos

namespace Vmm

open TableTree

variable {κ : Type} {space : VmmSpace κ} {s t : State κ} {v : BitVec 64}

/-- What is assumed of `alloc_frame`: it knows tables that are in use, and a frame that it returns
is one of physical memory whose table is not in use so far. -/
structure Allocator (space : VmmSpace κ) where
  /-- The tables in use. -/
  used : κ → Set ℕ
  alloc_spec : ∀ allocFrame, space.allocFrame = some allocFrame → ∀ c g,
    tableFromPhys space (allocFrame c).1 = some g → (allocFrame c).1.toNat < 2 ^ 52 ∧
      g ∉ used c ∧ g ∈ used (allocFrame c).2 ∧ used c ⊆ used (allocFrame c).2

/-- The tables on the way from `root` to the page are in use. -/
def Allocator.Covers (alloc : Allocator space) (root : ℕ) (s : State κ) (v : BitVec 64) : Prop :=
  ∀ p f, p <+: path v → walk (next space) s.mem root p = some f → f ∈ alloc.used s.ctx

theorem isFrame_of_tableFromPhys {a : BitVec 64} {g : ℕ} (h : tableFromPhys space a = some g)
    (hlt : a.toNat < 2 ^ 52) : IsFrame a := by
  refine ⟨?_, hlt⟩
  rw [tableFromPhys] at h
  cases haligned : vmmIsAligned4k a with
  | true => rfl
  | false =>
    rw [haligned] at h
    cases hvirt : space.physToVirt <;> rw [hvirt] at h <;> cases h

theorem next_entry_of_tableFromPhys {a : BitVec 64} {g : ℕ} (h : tableFromPhys space a = some g)
    (hlt : a.toNat < 2 ^ 52) : next space (entry a pteWritable) = some g := by
  rw [next, if_neg, entry_and_pteAddrMask a (by decide),
    (isFrame_of_tableFromPhys h hlt).and_pteAddrMask, h]
  rintro (habsent | hhuge)
  · exact entry_present a _ habsent
  · exact hhuge (entry_pteWritable_huge a)

namespace Allocator

variable {alloc : Allocator space} {root f g : ℕ} {q : List (Fin entriesPerTable)}
  {i : Fin entriesPerTable}

theorem Covers.linked (h : alloc.Covers root s v) (hq : walk (next space) s.mem root q = some f)
    (hpath : q ++ [i] <+: path v) (hfree : next space (s.mem f i) = none)
    (hnew : g ∉ alloc.used s.ctx) {c : κ} (hgiven : g ∈ alloc.used c)
    (hmono : alloc.used s.ctx ⊆ alloc.used c) {e : BitVec 64} (he : next space e = some g) :
    alloc.Covers root ⟨c, link s.mem f i g 0 e⟩ v ∧
      walk (next space) (link s.mem f i g 0 e) root (q ++ [i]) = some g := by
  have hqv : q <+: path v := (List.prefix_append q [i]).trans hpath
  have hold : ∀ r j, r ∈ alloc.used s.ctx →
      link s.mem f i g 0 e r j = if r = f ∧ j = i then e else s.mem r j := by
    intro r j hr
    have hrg : r ≠ g := fun hrg ↦ hnew (hrg ▸ hr)
    rw [link, write_apply, fill, Function.update_of_ne hrg]
  -- the way to `f` is as before: its entries point to tables, and that of `f` does not
  have hwalk : ∀ p r, p <+: q → walk (next space) s.mem root p = some r →
      walk (next space) (link s.mem f i g 0 e) root p = some r := by
    intro p r hp hr
    refine walk_of_agree hr fun p' r' j g' hp' hr' hg' ↦ ?_
    rw [hold r' j (h p' r' (hp'.trans (hp.trans hqv)) hr'), if_neg]
    rintro ⟨rfl, rfl⟩
    cases hfree.symm.trans hg'
  have hf := h q f hqv hq
  have hg : walk (next space) (link s.mem f i g 0 e) root (q ++ [i]) = some g := by
    rw [walk_concat_of_eq_some (hwalk q f List.prefix_rfl hq), hold f i hf, if_pos ⟨rfl, rfl⟩, he]
  refine ⟨fun p r hp hr ↦ ?_, hg⟩
  dsimp only at hr ⊢
  rcases List.prefix_or_prefix_of_prefix hp hpath with hshort | ⟨rest, rfl⟩
  · rcases List.prefix_concat_iff.mp hshort with rfl | hpq
    · rw [hg] at hr
      exact Option.some.inj hr ▸ hgiven
    · obtain ⟨rest, rfl⟩ := hpq
      rw [walk_append] at hq
      obtain ⟨r', hr', -⟩ := Option.bind_eq_some_iff.mp hq
      rw [hwalk p r' (List.prefix_append p rest) hr'] at hr
      exact Option.some.inj hr ▸ hmono (h p r' hp hr')
  · -- below the new table there is nothing
    rw [walk_append, hg, Option.bind_some] at hr
    cases rest with
    | nil => exact Option.some.inj hr ▸ hgiven
    | cons j rest =>
      have hgf : g ≠ f := fun hgf ↦ hnew (hgf ▸ hf)
      have hzero : link s.mem f i g 0 e g j = 0 := by
        rw [link, write_of_ne hgf, fill, Function.update_self]
      rw [walk, hzero, Environment.next_zero] at hr
      cases hr

theorem Covers.getOrAllocNextTable (h : alloc.Covers root s v)
    (hq : walk (next space) s.mem root q = some f) (hpath : q ++ [i] <+: path v)
    (hrun : (getOrAllocNextTable space f i).run s = .ok g t) :
    alloc.Covers root t v ∧ walk (next space) t.mem root (q ++ [i]) = some g := by
  rw [Vmm.getOrAllocNextTable, run_bind_of_ok (run_readEntry f i s)] at hrun
  by_cases hpresent : s.mem f i &&& ptePresent ≠ 0
  · rw [if_pos hpresent] at hrun
    obtain ⟨hhuge, hrun⟩ := run_failIf_bind_eq_ok hrun
    cases hnext : tableFromPhys space (s.mem f i &&& pteAddrMask) with
    | none =>
      rw [hnext] at hrun
      cases hrun
    | some g' =>
      rw [hnext, run_nonNull] at hrun
      cases hrun
      refine ⟨h, ?_⟩
      rw [walk_concat_of_eq_some hq, next, if_neg (not_or.mpr ⟨hpresent, hhuge⟩), hnext]
  · rw [if_neg hpresent] at hrun
    cases halloc : space.allocFrame with
    | none =>
      rw [halloc] at hrun
      cases hrun
    | some allocFrame =>
      rw [halloc] at hrun
      dsimp only at hrun
      rw [run_bind_of_ok (run_callAllocFrame allocFrame s)] at hrun
      obtain ⟨-, hrun⟩ := run_failIf_bind_eq_ok hrun
      rw [installTable] at hrun
      cases htable : tableFromPhys space (allocFrame s.ctx).1 with
      | none =>
        rw [htable] at hrun
        cases hrun
      | some g' =>
        rw [htable] at hrun
        cases hrun
        obtain ⟨hlt, hnew, hgiven, hmono⟩ := alloc.alloc_spec allocFrame halloc s.ctx g htable
        exact h.linked hq hpath (if_pos (.inl (not_not.mp hpresent))) hnew hgiven hmono
          (next_entry_of_tableFromPhys htable hlt)

end Allocator

theorem run_findEntry_of_walk {root pt : ℕ} (hv : IsPage v)
    (hroot : tableFromPhys space space.rootPaddr = some root)
    (hwalk : walk (next space) s.mem root (path v) = some pt)
    (hpresent : s.mem pt (idxPt v) &&& ptePresent ≠ 0) :
    (findEntry space v).run s = .ok (pt, s.mem pt (idxPt v)) s := by
  have hnext : ∀ {f g : ℕ} {i : Fin entriesPerTable}, next space (s.mem f i) = some g →
      (nextTable space f i).run s = .ok g s := by
    intro f g i h
    rw [next] at h
    split_ifs at h with hstop
    rw [nextTable, run_bind_of_ok (run_readEntry f i s), run_bind_of_ok (run_failIf_of_not hstop),
      h, run_nonNull]
  have hcheck : ¬(vmmIsCanonical v = false ∨ vmmIsAligned4k v = false) :=
    fun h ↦ not_isPage_iff.mpr h hv
  rw [path, walk] at hwalk
  obtain ⟨pdpt, hpdpt, hwalk⟩ := Option.bind_eq_some_iff.mp hwalk
  rw [walk] at hwalk
  obtain ⟨pd, hpd, hwalk⟩ := Option.bind_eq_some_iff.mp hwalk
  rw [walk] at hwalk
  obtain ⟨pt', hpt, hwalk⟩ := Option.bind_eq_some_iff.mp hwalk
  obtain rfl := Option.some.inj hwalk
  rw [findEntry, run_bind_of_ok (run_failIf_of_not hcheck), hroot, run_bind_of_ok (run_nonNull _ s),
    run_bind_of_ok (hnext hpdpt), run_bind_of_ok (hnext hpd), run_bind_of_ok (hnext hpt),
    run_bind_of_ok (run_readEntry _ _ s), run_bind_of_ok (run_failIf_of_not hpresent)]
  rfl

/-- An aligned address fits into an entry if it is below `2 ^ 52`. -/
theorem and_pteAddrMask_eq_iff {p : BitVec 64} (hp : vmmIsAligned4k p = true) :
    p &&& pteAddrMask = p ↔ p.toNat < 2 ^ 52 :=
  ⟨fun h ↦ h ▸ (isFrame_and_pteAddrMask p).2, fun h ↦ IsFrame.and_pteAddrMask ⟨hp, h⟩⟩

/-- **Map then query.** Right after `vmm_map_page` has mapped a page, `vmm_query_page` succeeds. It
returns the present bit and those of the requested flags that are allowed, and it returns the
address that was mapped if and only if that address is below `2 ^ 52`. -/
theorem map_then_query (alloc : Allocator space) {s t : State κ} {v p flags : BitVec 64}
    (hcovers : ∀ root, tableFromPhys space space.rootPaddr = some root → alloc.Covers root s v)
    (hmap : (vmmMapPage (some space) v p flags).run s = .ok () t) :
    ∃ m, (vmmQueryPage (some space) v true).run t = .ok m t ∧ m.vaddr = v ∧
      m.flags = ptePresent ||| (flags &&& allowed) ∧ (m.paddr = p ↔ p.toNat < 2 ^ 52) := by
  rw [vmmMapPage] at hmap
  obtain ⟨hcheck, hmap⟩ := run_failIf_bind_eq_ok hmap
  simp only [not_or, Bool.not_eq_false] at hcheck
  obtain ⟨hcanonical, haligned, hp⟩ := hcheck
  obtain ⟨root, htable⟩ : ∃ root, tableFromPhys space space.rootPaddr = some root := by
    cases htable : tableFromPhys space space.rootPaddr with
    | none =>
      rw [htable] at hmap
      cases hmap
    | some root => exact ⟨root, rfl⟩
  rw [htable, run_bind_of_ok (run_nonNull _ s)] at hmap
  obtain ⟨pdpt, s₁, hpdpt, hmap⟩ := run_bind_eq_ok hmap
  obtain ⟨pd, s₂, hpd, hmap⟩ := run_bind_eq_ok hmap
  obtain ⟨pt, s₃, hpt, hmap⟩ := run_bind_eq_ok hmap
  rw [run_bind_of_ok (run_readEntry pt _ s₃)] at hmap
  obtain ⟨habsent, hmap⟩ := run_failIf_bind_eq_ok hmap
  have ht : t.mem = write s₃.mem pt (idxPt v) (entry p (flags &&& allowed)) := by
    rw [run_writeEntry] at hmap
    cases hmap
    rfl
  obtain ⟨hcovers₁, hwalk₁⟩ := (hcovers root htable).getOrAllocNextTable (q := []) rfl
    (by simp [path]) hpdpt
  obtain ⟨hcovers₂, hwalk₂⟩ := hcovers₁.getOrAllocNextTable hwalk₁ (by simp [path]) hpd
  obtain ⟨-, hwalk₃⟩ := hcovers₂.getOrAllocNextTable hwalk₂ (List.prefix_rfl) hpt
  have hwalk : walk (next space) t.mem root (path v) = some pt := by
    refine walk_of_agree hwalk₃ fun _ r j g _ _ hg ↦ ?_
    rw [ht, write_apply, if_neg]
    rintro ⟨rfl, rfl⟩
    rw [next, if_pos (.inl (not_not.mp habsent))] at hg
    cases hg
  have hentry : t.mem pt (idxPt v) = entry p (flags &&& allowed) := by
    rw [ht, write_apply, if_pos ⟨rfl, rfl⟩]
  have hfind := run_findEntry_of_walk ⟨hcanonical, haligned⟩ htable hwalk
    (hentry ▸ entry_present p _)
  have hflags := flags_and_pteAddrMask flags
  rw [vmmQueryPage, run_bind_of_ok (run_failIf_of_not (by simp)), run_bind_of_ok hfind, hentry]
  refine ⟨_, rfl, rfl, entry_and_not_pteAddrMask p hflags, ?_⟩
  rw [entry_and_pteAddrMask p hflags, and_pteAddrMask_eq_iff hp]

/-! ## Trees of tables -/

namespace Environment

/-- The allocator of an environment: the tables in use are those of the frames handed out. -/
def allocator (env : Environment space) : Allocator space where
  used c := {f | ∃ a ∈ env.given c, (IsFrame a ∨ a = space.rootPaddr) ∧ env.table a = f}
  alloc_spec allocFrame halloc c g hg := by
    obtain ⟨hmono, hinvalid | ⟨hframe, hnew, hgiven⟩⟩ := env.alloc_spec allocFrame halloc c
    · rw [hinvalid] at hg
      have haligned : vmmIsAligned4k invalidPhys = false := by decide
      rw [tableFromPhys, haligned] at hg
      cases hvirt : space.physToVirt <;> rw [hvirt] at hg <;> cases hg
    · have htable : env.table (allocFrame c).1 = g :=
        Option.some.inj ((env.tableFromPhys_eq _ (.inl hframe)).symm.trans hg)
      refine ⟨hframe.2, ?_, ⟨_, hgiven, .inl hframe, htable⟩, ?_⟩
      · rintro ⟨b, hb, hb', hbg⟩
        rw [env.table_inj b _ hb' (.inl hframe) (hbg.trans htable.symm)] at hb
        exact hnew hb
      · exact fun f ⟨b, hb, hbf⟩ ↦ ⟨b, hmono hb, hbf⟩

/-- In every state of an address space whose tables form a tree, the tables are in use. -/
theorem Inv.covers {env : Environment space} (h : env.Inv s) (root : ℕ)
    (hroot : tableFromPhys space space.rootPaddr = some root) (v : BitVec 64) :
    env.allocator.Covers root s v := by
  intro p f hp hf
  obtain rfl : env.root = root :=
    Option.some.inj ((env.tableFromPhys_eq _ (.inr rfl)).symm.trans hroot)
  exact h.given p f hp.length_le hf

end Environment

/-- A page is mapped in an empty address space. -/
theorem map_then_query_small : ∃ t m,
    (vmmMapPage (some smallSpace) 0x400000 0x500000 pteWritable).run smallState = .ok () t ∧
      (vmmQueryPage (some smallSpace) 0x400000 true).run t = .ok m t ∧ m.paddr = 0x500000 := by
  have hmap : (vmmMapPage (some smallSpace) 0x400000 0x500000 pteWritable).run smallState =
    .ok () _ := rfl
  obtain ⟨m, hquery, -, -, hpaddr⟩ := map_then_query smallEnvironment.allocator
    (fun root hroot ↦ zeroedRoot_smallState.inv.covers root hroot _) hmap
  exact ⟨_, m, hmap, hquery, hpaddr.mpr (by decide)⟩

/-- The address `2 ^ 52` is accepted, and address zero is mapped. -/
theorem map_drops_high_bits : ∃ t,
    (vmmMapPage (some smallSpace) 0x400000 (2 ^ 52) pteWritable).run smallState = .ok () t ∧
      (vmmQueryPage (some smallSpace) 0x400000 true).run t =
        .ok ⟨0x400000, 0, ptePresent ||| pteWritable⟩ t :=
  ⟨_, rfl, rfl⟩

end Vmm

end Mcsos
