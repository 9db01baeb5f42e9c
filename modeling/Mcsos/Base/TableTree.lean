import Mathlib.Data.List.Induction
import Mathlib.Logic.Function.Basic
import Mathlib.Order.Basic
import Mathlib.Order.Nat

/-!
# Trees of tables in memory

A memory of tables has an entry for each table and index, and an entry may point to another table.
`walk` follows a list of indices from a table. As long as no table is reached by two paths
(`Unshared`), the tables reached from a root form a tree: hanging an empty table under an entry that
points nowhere adds one path and no other, and writing an entry of a table at the bottom changes no
path and one entry.

Paths have at most `n` indices: what the entries of the tables at depth `n` mean is left open.
-/

namespace Mcsos

namespace TableTree

variable {F I E : Type*} (next : E → Option F) (mem : F → I → E)

/-- The table reached from `f` by following the indices. -/
def walk : F → List I → Option F
  | f, [] => some f
  | f, i :: is => (next (mem f i)).bind fun g ↦ walk g is

/-- No table is reached from `root` by two paths of at most `n` indices. -/
def Unshared (root : F) (n : ℕ) : Prop :=
  ∀ (p q : List I) (f : F), p.length ≤ n → q.length ≤ n →
    walk next mem root p = some f → walk next mem root q = some f → p = q

variable {next mem}

theorem walk_append (f : F) (p q : List I) :
    walk next mem f (p ++ q) = (walk next mem f p).bind fun g ↦ walk next mem g q := by
  induction p generalizing f with
  | nil => rw [List.nil_append, walk, Option.bind_some]
  | cons i p ih =>
    rw [List.cons_append, walk, walk]
    cases next (mem f i) with
    | none => rfl
    | some g => exact ih g

theorem walk_concat (f : F) (p : List I) (i : I) :
    walk next mem f (p ++ [i]) = (walk next mem f p).bind fun g ↦ next (mem g i) := by
  rw [walk_append]
  simp only [walk, Option.bind_fun_some]

theorem walk_concat_of_eq_some {f g : F} {p : List I} (h : walk next mem f p = some g) (i : I) :
    walk next mem f (p ++ [i]) = next (mem g i) := by
  rw [walk_concat, h, Option.bind_some]

/-- Paths of at most `n` indices only read the tables at depth less than `n`. -/
theorem walk_congr {mem' : F → I → E} {root : F} {n : ℕ}
    (h : ∀ p f, p.length < n → walk next mem root p = some f → mem' f = mem f) (p : List I)
    (hp : p.length ≤ n) : walk next mem' root p = walk next mem root p := by
  induction p using List.reverseRecOn with
  | nil => rfl
  | append_singleton p i ih =>
    rw [List.length_append, List.length_singleton] at hp
    rw [walk_concat, walk_concat, ih (by omega)]
    cases hf : walk next mem root p with
    | none => rfl
    | some f => rw [Option.bind_some, Option.bind_some, h p f (by omega) hf]

/-- A walk only reads the entries that it follows. -/
theorem walk_of_agree {mem' : F → I → E} {root f : F} {q : List I}
    (hq : walk next mem root q = some f)
    (h : ∀ p r j g, p <+: q → walk next mem root p = some r → next (mem r j) = some g →
      mem' r j = mem r j) : walk next mem' root q = some f := by
  induction q using List.reverseRecOn generalizing f with
  | nil => exact hq
  | append_singleton q i ih =>
    obtain ⟨r, hr, hrf⟩ := Option.bind_eq_some_iff.mp ((walk_concat root q i).symm.trans hq)
    have hr' := ih hr fun p r j g hp ↦ h p r j g (hp.trans (List.prefix_append q [i]))
    rw [walk_concat_of_eq_some hr', h q r i f (List.prefix_append q [i]) hr hrf, hrf]

theorem Unshared.congr {mem' : F → I → E} {root : F} {n : ℕ} (hmem : Unshared next mem root n)
    (h : ∀ p, p.length ≤ n → walk next mem' root p = walk next mem root p) :
    Unshared next mem' root n := by
  intro p q f hp hq hpf hqf
  rw [h p hp] at hpf
  rw [h q hq] at hqf
  exact hmem p q f hp hq hpf hqf

/-- A table other than the root has one entry above it that points to it. -/
theorem Unshared.existsUnique_parent {root g : F} {n : ℕ} {p : List I}
    (hmem : Unshared next mem root n) (hp : p.length ≤ n) (hg : walk next mem root p = some g)
    (hne : g ≠ root) : ∃! x : F × I,
      (∃ q, q.length < n ∧ walk next mem root q = some x.1) ∧ next (mem x.1 x.2) = some g := by
  rcases List.eq_nil_or_concat p with rfl | ⟨q, i, rfl⟩
  · exact absurd (Option.some_inj.mp hg).symm hne
  rw [List.concat_eq_append] at hp hg
  have hlength : q.length < n := by
    rw [List.length_append, List.length_singleton] at hp
    omega
  obtain ⟨f, hf, hfg⟩ := Option.bind_eq_some_iff.mp ((walk_concat root q i).symm.trans hg)
  refine ⟨(f, i), ⟨⟨q, hlength, hf⟩, hfg⟩, ?_⟩
  rintro ⟨f', i'⟩ ⟨⟨q', hlength', hf'⟩, hfg'⟩
  -- Both entries lie at the end of a path to the same table.
  have hpath : q' ++ [i'] = q ++ [i] := by
    refine hmem _ _ g ?_ hp ((walk_concat_of_eq_some hf' i').trans hfg') hg
    rw [List.length_append, List.length_singleton]
    omega
  obtain ⟨rfl, hi⟩ := List.append_inj' hpath rfl
  rw [hf, Option.some_inj] at hf'
  rw [hf', List.singleton_inj.mp hi]

variable [DecidableEq F] [DecidableEq I]

def write (mem : F → I → E) (f : F) (i : I) (e : E) : F → I → E :=
  Function.update mem f (Function.update (mem f) i e)

def fill (mem : F → I → E) (f : F) (e : E) : F → I → E := Function.update mem f fun _ ↦ e

theorem write_apply (mem : F → I → E) (f : F) (i : I) (e : E) (g : F) (j : I) :
    write mem f i e g j = if g = f ∧ j = i then e else mem g j := by
  rw [write]
  by_cases hg : g = f
  · subst hg
    rw [Function.update_self, Function.update_apply]
    simp only [true_and]
  · rw [Function.update_of_ne hg, if_neg fun h ↦ hg h.1]

theorem write_of_ne {f g : F} (h : g ≠ f) (i : I) (e : E) : write mem f i e g = mem g :=
  Function.update_of_ne h _ _

section Bottom

variable {root f : F} {n : ℕ} {q : List I} (hmem : Unshared next mem root n)
  (hq : walk next mem root q = some f) (hn : q.length = n)
include hmem hq hn

theorem Unshared.walk_write (i : I) (e : E) (p : List I) (hp : p.length ≤ n) :
    walk next (write mem f i e) root p = walk next mem root p := by
  refine walk_congr (fun p' g hp' hg ↦ write_of_ne ?_ i e) p hp
  rintro rfl
  have heq := hmem p' q g hp'.le hn.le hg hq
  rw [heq] at hp'
  omega

theorem Unshared.entry_write (i : I) (e : E) {p : List I} {g : F} (hp : p.length ≤ n)
    (hg : walk next mem root p = some g) (j : I) :
    write mem f i e g j = if p = q ∧ j = i then e else mem g j := by
  rw [write_apply]
  by_cases hpq : p = q
  · subst hpq
    rw [hq, Option.some_inj] at hg
    simp only [hg, true_and]
  · have hgf : g ≠ f := by
      rintro rfl
      exact hpq (hmem p q g hp hn.le hg hq)
    simp only [hgf, hpq, false_and]

end Bottom

/-! ## Hanging a table into the tree -/

/-- Empty the table `g` and let entry `i` of table `f` point to it. -/
def link (mem : F → I → E) (f : F) (i : I) (g : F) (zero e : E) : F → I → E :=
  write (fill mem g zero) f i e

section Link

variable {root f g : F} {i : I} {n : ℕ} {q : List I} {zero e : E}
  (hmem : Unshared next mem root n) (hq : walk next mem root q = some f) (hn : q.length < n)
  (hfree : next (mem f i) = none) (hfresh : ∀ p, p.length ≤ n → walk next mem root p ≠ some g)
include hmem hq hn hfree hfresh

omit hmem hfree in
theorem link_new (j : I) : link mem f i g zero e g j = zero := by
  have hgf : g ≠ f := by
    rintro rfl
    exact hfresh q hn.le hq
  rw [link, write_of_ne hgf, fill, Function.update_self]

omit hmem hq hn hfree in
/-- In the tables that were reached before, only the entry that points to the new one changes. -/
theorem link_old {p : List I} {h : F} (hp : p.length ≤ n) (hh : walk next mem root p = some h)
    (j : I) : link mem f i g zero e h j = if h = f ∧ j = i then e else mem h j := by
  have hhg : h ≠ g := by
    rintro rfl
    exact hfresh p hp hh
  rw [link, write_apply, fill, Function.update_of_ne hhg]

variable (hzero : next zero = none) (he : next e = some g)
include hzero he

theorem Unshared.walk_link (p : List I) (hp : p.length ≤ n) :
    walk next (link mem f i g zero e) root p =
      if p = q ++ [i] then some g else walk next mem root p := by
  induction p using List.reverseRecOn with
  | nil => rw [if_neg (by simp), walk, walk]
  | append_singleton p j ih =>
    rw [List.length_append, List.length_singleton] at hp
    rw [walk_concat, ih (by omega)]
    by_cases hpq : p = q ++ [i]
    · -- below the new table there is nothing, as there was before
      subst hpq
      have hnone : walk next mem root (q ++ [i]) = none := by
        rw [walk_concat_of_eq_some hq, hfree]
      rw [if_pos rfl, Option.bind_some, link_new hq hn hfresh, hzero, walk_concat, hnone,
        if_neg (fun h ↦ by simpa using congrArg List.length h)]
      rfl
    · rw [if_neg hpq, walk_concat]
      cases hh : walk next mem root p with
      | none =>
        have hne : p ++ [j] ≠ q ++ [i] := by
          intro heq
          rw [(List.append_inj' heq rfl).1, hq] at hh
          cases hh
        rw [if_neg hne]
        rfl
      | some h =>
        have hiff : p ++ [j] = q ++ [i] ↔ h = f ∧ j = i := by
          constructor
          · intro heq
            obtain ⟨rfl, hji⟩ := List.append_inj' heq rfl
            rw [hq, Option.some_inj] at hh
            exact ⟨hh.symm, List.singleton_inj.mp hji⟩
          · rintro ⟨rfl, rfl⟩
            rw [hmem p q h (by omega) hn.le hh hq]
        rw [Option.bind_some, Option.bind_some, link_old hfresh (by omega) hh]
        by_cases hhf : h = f ∧ j = i
        · rw [if_pos hhf, if_pos (hiff.mpr hhf), he]
        · rw [if_neg hhf, if_neg (mt hiff.mp hhf)]

theorem Unshared.link : Unshared next (link mem f i g zero e) root n := by
  have hwalk := hmem.walk_link hq hn hfree hfresh hzero he
  intro p p' h hp hp' hph hp'h
  rw [hwalk p hp] at hph
  rw [hwalk p' hp'] at hp'h
  split_ifs at hph hp'h with hpq hp'q hp'q
  · rw [hpq, hp'q]
  · rw [← hph] at hp'h
    exact absurd hp'h (hfresh p' hp')
  · rw [← hp'h] at hph
    exact absurd hph (hfresh p hp)
  · exact hmem p p' h hp hp' hph hp'h

end Link

end TableTree

end Mcsos
