import Mcsos.Base.Fallible
import Mathlib.Data.Nat.Notation
import Mathlib.Logic.Function.Basic
import Mathlib.Tactic.SplitIfs

/-!
# Disks whose calls may fail

A disk of blocks behind three calls, each of which may fail. A call that fails does nothing. The
disk keeps a trail of its contents after every write, so that a property of all moments of a run is
a property of the state in which the run ends.

`wp C x ok err d` is the weakest precondition of the computation `x` on the contents `d`: started
with contents `d` that have the property `C`, it keeps `C` at every moment, and ends with `ok` or,
if it returns an error, with `err`. There is one rule for each call and for each way to compose
computations.

`Takes fails k x Q d` counts instead: `x` succeeds exactly if none of its `k` calls fails.
-/

namespace Mcsos

namespace FaultyDisk

variable {β ε α γ : Type}

/-- The state of a disk. -/
structure Disk (β : Type) where
  /-- Its contents. -/
  block : ℕ → β
  /-- The number of calls made so far. -/
  calls : ℕ
  /-- The contents after each write so far. -/
  trail : List (ℕ → β)

/-- The disk with an empty trail, for a run that starts here. -/
def Disk.fresh (s : Disk β) : Disk β := { s with trail := [] }

def Disk.called (s : Disk β) : Disk β := { s with calls := s.calls + 1 }

/-- Read a block; `fails n` says whether the call number `n` fails, with the error `io`. -/
def read (fails : ℕ → Bool) (io : ε) (lba : ℕ) : EStateM ε (Disk β) β := fun s ↦
  if fails s.calls then .error io s.called else .ok (s.block lba) s.called

def write (fails : ℕ → Bool) (io : ε) (lba : ℕ) (b : β) : EStateM ε (Disk β) Unit := fun s ↦
  if fails s.calls then .error io s.called
  else .ok () { s.called with
    block := Function.update s.block lba b
    trail := Function.update s.block lba b :: s.trail }

def flush (fails : ℕ → Bool) (io : ε) : EStateM ε (Disk β) Unit := fun s ↦
  if fails s.calls then .error io s.called else .ok () s.called

/-- A value that depends on the moment only. -/
def observe (f : ℕ → α) : EStateM ε (Disk β) α := fun s ↦ .ok (f s.calls) s

/-- Whether a computation succeeds. -/
def succeeds (x : EStateM ε (Disk β) α) : EStateM ε (Disk β) Bool := fun s ↦
  match x.run s with
  | .ok _ t => .ok true t
  | .error _ t => .ok false t

theorem run_succeeds_of_ok {x : EStateM ε (Disk β) α} {s t : Disk β} {a : α}
    (h : x.run s = .ok a t) : (succeeds x).run s = .ok true t := by
  rw [EStateM.run, succeeds, h]

theorem run_succeeds_of_error {x : EStateM ε (Disk β) α} {s t : Disk β} {e : ε}
    (h : x.run s = .error e t) : (succeeds x).run s = .ok false t := by
  rw [EStateM.run, succeeds, h]

/-- Some call fails. -/
def Faulty (fails : ℕ → Bool) : Prop := ∃ n, fails n = true

/-- The contents have the property `C` now and had it after every write. -/
structure Always (C : (ℕ → β) → Prop) (s : Disk β) : Prop where
  now : C s.block
  before : ∀ d ∈ s.trail, C d

/-- The contents have the property `C` in `t` and had it after every write since `s`. -/
structure Since (C : (ℕ → β) → Prop) (s t : Disk β) : Prop where
  now : C t.block
  between : ∃ l, t.trail = l ++ s.trail ∧ ∀ d ∈ l, C d

/-- How a computation that starts in `s` may end. -/
def Ends (C : (ℕ → β) → Prop) (ok : α → (ℕ → β) → Prop) (err : ε → (ℕ → β) → Prop) (s : Disk β) :
    EStateM.Result ε (Disk β) α → Prop
  | .ok a t => Since C s t ∧ ok a t.block
  | .error e t => Since C s t ∧ err e t.block

/-- The weakest precondition of a computation. -/
structure wp (C : (ℕ → β) → Prop) (x : EStateM ε (Disk β) α) (ok : α → (ℕ → β) → Prop)
    (err : ε → (ℕ → β) → Prop) (d : ℕ → β) : Prop where
  ends : ∀ s : Disk β, s.block = d → C d → Ends C ok err s (x.run s)

/-- Started with the contents `d`, a computation keeps `C` at every moment, and what it returns and
the contents it leaves are as `E` says. -/
def Meets (C : (ℕ → β) → Prop) (x : EStateM ε (Disk β) α) (E : Except ε α → (ℕ → β) → Prop)
    (d : ℕ → β) : Prop :=
  wp C x (fun a ↦ E (.ok a)) (fun e ↦ E (.error e)) d

theorem Meets.since {C : (ℕ → β) → Prop} {x : EStateM ε (Disk β) α}
    {E : Except ε α → (ℕ → β) → Prop} {s : Disk β} (h : Meets C x E s.block) (hs : C s.block) :
    Since C s (finalState (x.run s)) ∧ E (returned (x.run s)) (finalState (x.run s)).block := by
  have hx := h.ends s rfl hs
  cases hrun : x.run s with
  | ok a t =>
    rw [hrun] at hx
    exact hx
  | error e t =>
    rw [hrun] at hx
    exact hx

theorem Always.since {C : (ℕ → β) → Prop} {s t : Disk β} (hs : Always C s) (h : Since C s t) :
    Always C t := by
  obtain ⟨l, htrail, hl⟩ := h.between
  refine ⟨h.now, fun d hd ↦ ?_⟩
  rw [htrail, List.mem_append] at hd
  exact hd.elim (hl d) (hs.before d)

theorem Meets.run {C : (ℕ → β) → Prop} {x : EStateM ε (Disk β) α}
    {E : Except ε α → (ℕ → β) → Prop} {s : Disk β} (h : Meets C x E s.block) (hs : Always C s) :
    Always C (finalState (x.run s)) ∧ E (returned (x.run s)) (finalState (x.run s)).block :=
  ⟨hs.since (h.since hs.now).1, (h.since hs.now).2⟩

/-! ## Rules -/

variable {C : (ℕ → β) → Prop} {x : EStateM ε (Disk β) α} {ok ok' : α → (ℕ → β) → Prop}
  {err err' : ε → (ℕ → β) → Prop} {d : ℕ → β} {fails : ℕ → Bool} {io : ε} {lba : ℕ} {b : β}

theorem Since.refl {s : Disk β} (hs : C s.block) : Since C s s := ⟨hs, [], rfl, nofun⟩

theorem Since.called {s : Disk β} (hs : C s.block) : Since C s s.called := ⟨hs, [], rfl, nofun⟩

theorem Since.trans {s t u : Disk β} (h : Since C s t) (h' : Since C t u) : Since C s u := by
  obtain ⟨l, htrail, hl⟩ := h.between
  obtain ⟨l', htrail', hl'⟩ := h'.between
  refine ⟨h'.now, l' ++ l, by rw [htrail', htrail, List.append_assoc], fun d hd ↦ ?_⟩
  exact (List.mem_append.mp hd).elim (hl' d) (hl d)

theorem wp_pure {a : α} (h : ok a d) : wp C (pure a) ok err d := by
  constructor
  rintro s rfl hs
  exact ⟨.refl hs, h⟩

theorem wp_throw {e : ε} (h : err e d) : wp C (throw e) ok err d := by
  constructor
  rintro s rfl hs
  exact ⟨.refl hs, h⟩

theorem wp_bind {f : α → EStateM ε (Disk β) γ} {ok : γ → (ℕ → β) → Prop}
    (h : wp C x (fun a ↦ wp C (f a) ok err) err d) : wp C (x >>= f) ok err d := by
  constructor
  intro s hd hs
  have hx := h.ends s hd hs
  cases hrun : x.run s with
  | ok a t =>
    rw [hrun] at hx
    rw [run_bind_of_ok hrun]
    have hf := hx.2.ends t rfl hx.1.now
    cases hrun' : (f a).run t with
    | ok c u =>
      rw [hrun'] at hf
      exact ⟨hx.1.trans hf.1, hf.2⟩
    | error e u =>
      rw [hrun'] at hf
      exact ⟨hx.1.trans hf.1, hf.2⟩
  | error e t =>
    rw [hrun] at hx
    rw [run_bind_of_error hrun]
    exact hx

theorem wp_mono (h : wp C x ok err d) (hok : ∀ a d, C d → ok a d → ok' a d)
    (herr : ∀ e d, C d → err e d → err' e d) : wp C x ok' err' d := by
  constructor
  intro s hd hs
  have hx := h.ends s hd hs
  cases hrun : x.run s with
  | ok a t =>
    rw [hrun] at hx
    exact ⟨hx.1, hok a _ hx.1.now hx.2⟩
  | error e t =>
    rw [hrun] at hx
    exact ⟨hx.1, herr e _ hx.1.now hx.2⟩

theorem Meets.mono {E E' : Except ε α → (ℕ → β) → Prop} (h : Meets C x E d)
    (hE : ∀ r d, E r d → E' r d) : Meets C x E' d :=
  wp_mono h (fun a d _ ↦ hE (.ok a) d) fun e d _ ↦ hE (.error e) d

theorem wp_failIf {c : Prop} [Decidable c] {e : ε} {ok : Unit → (ℕ → β) → Prop}
    (hfail : c → err e d) (hok : ¬c → ok () d) : wp C (failIf c e) ok err d := by
  constructor
  rintro s rfl hs
  by_cases hc : c
  · rw [run_failIf_of hc]
    exact ⟨.refl hs, hfail hc⟩
  · rw [run_failIf_of_not hc]
    exact ⟨.refl hs, hok hc⟩

theorem wp_ofExcept {r : Except ε α} (hok : ∀ a, r = .ok a → ok a d)
    (herr : ∀ e, r = .error e → err e d) : wp C (ofExcept r) ok err d := by
  cases r with
  | ok a => exact wp_pure (hok a rfl)
  | error e => exact wp_throw (herr e rfl)

theorem Always.fresh {s : Disk β} (h : C s.block) : Always C s.fresh :=
  ⟨h, fun _ hd ↦ absurd hd List.not_mem_nil⟩

theorem wp_read {ok : β → (ℕ → β) → Prop} (hok : ok (d lba) d)
    (herr : Faulty fails → err io d) : wp C (read fails io lba) ok err d := by
  constructor
  rintro s rfl hs
  change Ends C ok err s (if fails s.calls then _ else _)
  split_ifs with hfails
  · exact ⟨.called hs, herr ⟨_, hfails⟩⟩
  · exact ⟨.called hs, hok⟩

/-- A write must keep the property `C`. -/
theorem wp_write {ok : Unit → (ℕ → β) → Prop} (hC : C (Function.update d lba b))
    (hok : ok () (Function.update d lba b)) (herr : Faulty fails → err io d) :
    wp C (write fails io lba b) ok err d := by
  constructor
  rintro s rfl hs
  change Ends C ok err s (if fails s.calls then _ else _)
  split_ifs with hfails
  · exact ⟨.called hs, herr ⟨_, hfails⟩⟩
  · refine ⟨⟨hC, [_], rfl, fun d' hd' ↦ ?_⟩, hok⟩
    rwa [List.mem_singleton.mp hd']

theorem wp_flush {ok : Unit → (ℕ → β) → Prop} (hok : ok () d) (herr : Faulty fails → err io d) :
    wp C (flush fails io) ok err d := by
  constructor
  rintro s rfl hs
  change Ends C ok err s (if fails s.calls then _ else _)
  split_ifs with hfails
  · exact ⟨.called hs, herr ⟨_, hfails⟩⟩
  · exact ⟨.called hs, hok⟩

theorem wp_observe {f : ℕ → α} (hok : ∀ n, ok (f n) d) : wp C (observe f) ok err d := by
  constructor
  rintro s rfl hs
  exact ⟨.refl hs, hok _⟩

theorem wp_succeeds {ok : Bool → (ℕ → β) → Prop}
    (h : wp C x (fun _ ↦ ok true) (fun _ ↦ ok false) d) : wp C (succeeds x) ok err d := by
  constructor
  intro s hd hs
  have hx := h.ends s hd hs
  cases hrun : x.run s with
  | ok a t =>
    rw [hrun] at hx
    rw [run_succeeds_of_ok hrun]
    exact hx
  | error e t =>
    rw [hrun] at hx
    rw [run_succeeds_of_error hrun]
    exact hx

/-! ## Blocks that are left alone -/

/-- A computation that writes other blocks than `lba` only: every property of the block `lba` holds
at all its moments. -/
def Spares (lba : ℕ) (x : EStateM ε (Disk β) α) : Prop :=
  ∀ (C : (ℕ → β) → Prop) (d : ℕ → β), (∀ d', d' lba = d lba → C d') →
    wp C x (fun _ d' ↦ d' lba = d lba) (fun _ d' ↦ d' lba = d lba) d

theorem wp_bind_spares {f : α → EStateM ε (Disk β) γ} {ok : γ → (ℕ → β) → Prop}
    (hx : Spares lba x) (hC : ∀ d', d' lba = d lba → C d')
    (hok : ∀ a d', d' lba = d lba → wp C (f a) ok err d')
    (herr : ∀ e d', d' lba = d lba → err e d') : wp C (x >>= f) ok err d :=
  wp_bind (wp_mono (hx C d hC) (fun a d' _ ↦ hok a d') fun e d' _ ↦ herr e d')

namespace Spares

protected theorem pure (a : α) : Spares lba (pure a : EStateM ε (Disk β) α) :=
  fun _ _ _ ↦ wp_pure rfl

protected theorem bind {f : α → EStateM ε (Disk β) γ} (hx : Spares lba x)
    (hf : ∀ a, Spares lba (f a)) : Spares lba (x >>= f) := by
  intro C d hC
  refine wp_bind_spares hx hC (fun a d' hd' ↦ ?_) fun _ _ h ↦ h
  rw [← hd']
  exact hf a C d' fun d'' h ↦ hC d'' (h.trans hd')

theorem failIf_bind {c : Prop} [Decidable c] {e : ε} {f : Unit → EStateM ε (Disk β) γ}
    (hf : ¬c → Spares lba (f ())) : Spares lba (failIf c e >>= f) :=
  fun C d hC ↦ wp_bind (wp_failIf (fun _ ↦ rfl) fun hc ↦ hf hc C d hC)

theorem read (fails : ℕ → Bool) (io : ε) (a : ℕ) :
    Spares lba (FaultyDisk.read fails io a : EStateM ε (Disk β) β) :=
  fun _ _ _ ↦ wp_read rfl fun _ ↦ rfl

theorem write {a : ℕ} (h : lba ≠ a) (fails : ℕ → Bool) (io : ε) (b : β) :
    Spares lba (FaultyDisk.write fails io a b) := by
  intro C d hC
  have hsame : Function.update d a b lba = d lba := Function.update_of_ne h b d
  exact wp_write (hC _ hsame) hsame fun _ ↦ rfl

end Spares

/-! ## Numbers of calls -/

/-- Started with the contents `d`, a computation makes `k` calls if none of them fails, and succeeds
with `Q`; if one of them fails, it returns an error. -/
structure Takes (fails : ℕ → Bool) (k : ℕ) (x : EStateM ε (Disk β) α)
    (Q : α → (ℕ → β) → Prop) (d : ℕ → β) : Prop where
  ok : ∀ s : Disk β, s.block = d → (∀ j < k, fails (s.calls + j) = false) →
    ∃ a t, x.run s = .ok a t ∧ t.calls = s.calls + k ∧ Q a t.block
  error : ∀ s : Disk β, s.block = d → (∃ j < k, fails (s.calls + j) = true) →
    ∃ e t, x.run s = .error e t

namespace Takes

variable {Q : α → (ℕ → β) → Prop} {k l : ℕ}

protected theorem pure {a : α} (h : Q a d) :
    Takes fails 0 (pure a : EStateM ε (Disk β) α) Q d where
  ok s hs _ := ⟨a, s, rfl, rfl, hs ▸ h⟩
  error _ _ h := absurd h.choose_spec.1 (Nat.not_lt_zero _)

/-- The calls of two computations add up. -/
protected theorem bind {f : α → EStateM ε (Disk β) γ} {R : γ → (ℕ → β) → Prop}
    (h : Takes fails k x (fun a ↦ Takes fails l (f a) R) d) :
    Takes fails (k + l) (x >>= f) R d where
  ok s hs hgood := by
    obtain ⟨a, t, hrun, hcalls, hf⟩ := h.ok s hs fun j hj ↦ hgood j (by omega)
    obtain ⟨b, u, hrun', hcalls', hR⟩ := hf.ok t rfl fun j hj ↦ by
      rw [hcalls, Nat.add_assoc]
      exact hgood (k + j) (by omega)
    exact ⟨b, u, (run_bind_of_ok hrun).trans hrun', by omega, hR⟩
  error s hs hbad := by
    by_cases hfirst : ∃ j < k, fails (s.calls + j) = true
    · obtain ⟨e, t, hrun⟩ := h.error s hs hfirst
      exact ⟨e, t, run_bind_of_error hrun⟩
    · -- the call that fails is one of the second computation
      have hgood : ∀ j < k, fails (s.calls + j) = false := by
        intro j hj
        exact Bool.eq_false_iff.mpr fun hfails ↦ hfirst ⟨j, hj, hfails⟩
      obtain ⟨j, hj, hfails⟩ := hbad
      obtain ⟨a, t, hrun, hcalls, hf⟩ := h.ok s hs hgood
      have hk : k ≤ j := by
        by_contra hlt
        exact hfirst ⟨j, Nat.lt_of_not_le hlt, hfails⟩
      obtain ⟨e, u, hrun'⟩ := hf.error t rfl
        ⟨j - k, by omega, by rwa [hcalls, show s.calls + k + (j - k) = s.calls + j by omega]⟩
      exact ⟨e, u, (run_bind_of_ok hrun).trans hrun'⟩

theorem failIf_bind {c : Prop} [Decidable c] {e : ε} {f : Unit → EStateM ε (Disk β) γ}
    {R : γ → (ℕ → β) → Prop} (hc : ¬c) (h : Takes fails k (f ()) R d) :
    Takes fails k (failIf c e >>= f) R d where
  ok s hs hgood := by
    rw [run_bind_of_ok (run_failIf_of_not hc)]
    exact h.ok s hs hgood
  error s hs hbad := by
    rw [run_bind_of_ok (run_failIf_of_not hc)]
    exact h.error s hs hbad

theorem call
    (hok : ∀ s : Disk β, s.block = d → ¬fails s.calls = true →
      ∃ a t, x.run s = .ok a t ∧ t.calls = s.calls + 1 ∧ Q a t.block)
    (herror : ∀ s : Disk β, fails s.calls = true → ∃ e t, x.run s = .error e t) :
    Takes fails 1 x Q d where
  ok s hs hgood := hok s hs (Bool.eq_false_iff.mp (hgood 0 Nat.one_pos))
  error s _ hbad := by
    obtain ⟨j, hj, hfails⟩ := hbad
    rw [Nat.lt_one_iff.mp hj] at hfails
    exact herror s hfails

theorem read {Q : β → (ℕ → β) → Prop} (h : Q (d lba) d) :
    Takes fails 1 (FaultyDisk.read fails io lba) Q d := by
  refine call (fun s hs hgood ↦ ?_) fun s hbad ↦ ⟨io, s.called, if_pos hbad⟩
  subst hs
  exact ⟨_, _, if_neg hgood, rfl, h⟩

theorem write {Q : Unit → (ℕ → β) → Prop} (h : Q () (Function.update d lba b)) :
    Takes fails 1 (FaultyDisk.write fails io lba b) Q d := by
  refine call (fun s hs hgood ↦ ?_) fun s hbad ↦ ⟨io, s.called, if_pos hbad⟩
  subst hs
  exact ⟨_, _, if_neg hgood, rfl, h⟩

end Takes

end FaultyDisk

end Mcsos
