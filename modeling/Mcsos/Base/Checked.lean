import Mcsos.Base.Reads

/-!
# Programs that check what they read

A parser of untrusted bytes: it reads memory and either gives a value or ends with an error.
`Checked ε α` is `Reads` with an error of type `ε`.

`Decides x m P C Q` is the specification of such a program: `x` reads indices with the property `P`
only, it always ends, it gives a value with the property `Q` if the condition `C` holds, and an
error if `C` does not. `C` is the format that the parser accepts. The rules follow the way the
program is built: a sequence accepts the conjunction, and the second part may use that the first
one accepted, which is what makes its reads safe.

`Filling σ ε α` is such a program that also assigns a variable of type `σ`, whose value survives an
error. `Follows y x s m F` says that `y` does what the program `x` does that has no variable: from
the result of `x` the function `F` gives the result of `y` and the variable after it.
-/

namespace Mcsos

/-- A program that reads memory and may end with an error. -/
abbrev Checked (ε α : Type) : Type := ExceptT ε Reads α

namespace Checked

variable {ε α β : Type}

/-- Read the `w`-byte little-endian word at `a`. -/
def load (w a : ℕ) : Checked ε ℕ := ExceptT.mk fun m ↦ (some (.ok (m.load w a)), List.range' a w)

/-- End with the error `e` if `c` holds. -/
def failWhen (c : Prop) [Decidable c] (e : ε) : Checked ε Unit := if c then throw e else pure ()

/-- A check that reads nothing. -/
def ofResult (r : Except ε α) : Checked ε α := ExceptT.mk (pure r)

/-- What a program reads, and what it accepts. -/
structure Decides (x : Checked ε α) (m : Mem) (P : ℕ → Prop) (C : Prop) (Q : α → Prop) : Prop where
  reads : ∀ i ∈ (x.run m).2, P i
  accepts : C → ∃ a, (x.run m).1 = some (.ok a) ∧ Q a
  rejects : ¬C → ∃ e, (x.run m).1 = some (.error e)

section
variable {m : Mem} {P : ℕ → Prop} {C D : Prop} {Q : α → Prop} {R : β → Prop}

theorem decides_pure {a : α} (h : Q a) : Decides (pure a : Checked ε α) m P True Q where
  reads _ hi := absurd hi List.not_mem_nil
  accepts _ := ⟨a, rfl, h⟩
  rejects hn := absurd trivial hn

theorem decides_throw {e : ε} (h : ¬C) : Decides (throw e : Checked ε α) m P C Q where
  reads _ hi := absurd hi List.not_mem_nil
  accepts hC := absurd hC h
  rejects _ := ⟨e, rfl⟩

theorem decides_load {w a : ℕ} (h : ∀ i, a ≤ i → i < a + w → P i) :
    Decides (load w a : Checked ε ℕ) m P True (· = m.load w a) where
  reads i hi := by
    obtain ⟨hle, hlt⟩ := List.mem_range'_1.mp hi
    exact h i hle hlt
  accepts _ := ⟨_, rfl, rfl⟩
  rejects hn := absurd trivial hn

theorem decides_ofResult {r : Except ε Unit} (h : r = .ok () ↔ C) :
    Decides (ofResult r) m P C fun _ ↦ True where
  reads _ hi := absurd hi List.not_mem_nil
  accepts hC := ⟨(), congrArg some (h.mpr hC), trivial⟩
  rejects hn := by
    cases r with
    | ok a => exact absurd (h.mp rfl) hn
    | error e => exact ⟨e, rfl⟩

theorem decides_failWhen {c : Prop} [Decidable c] {e : ε} :
    Decides (failWhen c e) m P (¬c) fun _ ↦ True := by
  rw [failWhen]
  split_ifs with hc
  · exact decides_throw (not_not_intro hc)
  · exact ⟨fun _ hi ↦ absurd hi List.not_mem_nil, fun _ ↦ ⟨(), rfl, trivial⟩,
      fun hn ↦ absurd hc hn⟩

theorem Decides.congr {x : Checked ε α} (h : Decides x m P C Q) (hiff : C ↔ D) :
    Decides x m P D Q :=
  ⟨h.reads, fun hD ↦ h.accepts (hiff.mpr hD), fun hD ↦ h.rejects fun hC ↦ hD (hiff.mp hC)⟩

theorem Decides.ends {x : Checked ε α} (h : Decides x m P C Q) : ∃ r, (x.run m).1 = some r := by
  by_cases hC : C
  · exact (h.accepts hC).elim fun a ha ↦ ⟨_, ha.1⟩
  · exact (h.rejects hC).elim fun e he ↦ ⟨_, he⟩

theorem Decides.bind {x : Checked ε α} {f : α → Checked ε β} (hx : Decides x m P C Q)
    (hf : ∀ a, C → Q a → Decides (f a) m P D R) : Decides (x >>= f) m P (C ∧ D) R := by
  have hrun : (x >>= f).run = x.run >>= ExceptT.bindCont f := rfl
  by_cases hC : C
  · obtain ⟨a, ha, hQ⟩ := hx.accepts hC
    have hfa := (hf a hC hQ).congr (and_iff_right hC).symm
    have hbind : (x >>= f).run m = (((f a).run m).1, (x.run m).2 ++ ((f a).run m).2) := by
      rw [hrun, Reads.bind_apply_some _ ha]
      rfl
    refine ⟨fun i hi ↦ ?_, fun h ↦ ?_, fun h ↦ ?_⟩
    · rw [hbind] at hi
      exact (List.mem_append.mp hi).elim (hx.reads i) (hfa.reads i)
    · rw [hbind]
      exact hfa.accepts h
    · rw [hbind]
      exact hfa.rejects h
  · obtain ⟨e, he⟩ := hx.rejects hC
    have hbind : (x >>= f).run m = (some (.error e), (x.run m).2 ++ []) := by
      rw [hrun, Reads.bind_apply_some _ he]
      rfl
    refine ⟨fun i hi ↦ ?_, fun h ↦ absurd h.1 hC, fun _ ↦ ⟨e, by rw [hbind]⟩⟩
    rw [hbind, List.append_nil] at hi
    exact hx.reads i hi

theorem Decides.bind_eq {x : Checked ε α} {f : α → Checked ε β} {a : α}
    (hx : Decides x m P C (· = a)) (hf : Decides (f a) m P D R) :
    Decides (x >>= f) m P (C ∧ D) R :=
  hx.bind fun b _ hb ↦ by rwa [hb]

theorem Decides.load_bind {w a : ℕ} {f : ℕ → Checked ε β} (h : ∀ i, a ≤ i → i < a + w → P i)
    (hf : Decides (f (m.load w a)) m P D R) : Decides (load w a >>= f) m P D R :=
  ((decides_load h).bind_eq hf).congr (Iff.of_eq (true_and D))

theorem Decides.failWhen_bind {c : Prop} [Decidable c] {e : ε} {y : Checked ε β}
    (hy : ¬c → Decides y m P D R) : Decides (failWhen c e >>= fun _ ↦ y) m P (¬c ∧ D) R :=
  decides_failWhen.bind fun _ hc _ ↦ hy hc

end

/-! ## Programs that assign a variable -/

/-- A checked program with a variable of type `σ`. -/
abbrev Filling (σ ε α : Type) : Type := ExceptT ε (StateT σ Reads) α

namespace Filling

variable {σ : Type}

/-- A program that does not know the variable. -/
def check (x : Checked ε α) : Filling σ ε α := ExceptT.mk fun s ↦ x.run >>= fun r ↦ pure (r, s)

/-- An assignment to the variable after an error. -/
def assignOnError (f : σ → σ) : Except ε α × σ → Except ε α × σ
  | (.ok a, s) => (.ok a, s)
  | (.error e, s) => (.error e, f s)

/-- An error is passed on after an assignment. -/
def onError (f : σ → σ) (y : Filling σ ε α) : Filling σ ε α :=
  ExceptT.mk fun s ↦ y.run.run s >>= fun r ↦ pure (assignOnError f r)

/-- The result and the variable at the end. -/
def result (y : Filling σ ε α) (s : σ) (m : Mem) : Option (Except ε α × σ) := (y.run.run s m).1

/-- The part of a sequence behind a part with the result `r`. -/
def andThen (f : α → Filling σ ε β) (m : Mem) : Except ε α × σ → Option (Except ε β × σ)
  | (.ok a, s) => (f a).result s m
  | (.error e, s) => some (.error e, s)

/-- The part of a sequence of programs without a variable behind a part with the result `r`. -/
def andThenRun (g : α → Checked ε β) (m : Mem) : Except ε α → Option (Except ε β)
  | .ok a => ((g a).run m).1
  | .error e => some (.error e)

/-- From the result of `x` the function `F` gives the result of `y` and the variable. -/
def Follows (y : Filling σ ε β) (x : Checked ε α) (s : σ) (m : Mem)
    (F : Except ε α → Except ε β × σ) : Prop :=
  y.result s m = (x.run m).1.map F

variable {γ : Type} {s : σ} {m : Mem}

theorem result_bind (y : Filling σ ε α) (f : α → Filling σ ε β) :
    (y >>= f).result s m = (y.result s m).bind (andThen f m) := by
  have hrun : (y >>= f).run.run s = y.run.run s >>= fun p ↦ (ExceptT.bindCont f p.1).run p.2 := rfl
  rw [result, hrun, Reads.bind_fst]
  refine Option.bind_congr fun p _ ↦ ?_
  obtain ⟨r, s'⟩ := p
  cases r <;> rfl

theorem result_check (x : Checked ε α) : (check x).result s m = (x.run m).1.map (·, s) := by
  change ((x.run >>= fun r ↦ pure (r, s)) m).1 = _
  rw [Reads.bind_fst, Option.map_eq_bind]
  rfl

theorem result_onError (f : σ → σ) (y : Filling σ ε α) :
    (onError f y).result s m = (y.result s m).map (assignOnError f) := by
  change ((y.run.run s >>= fun r ↦ pure (assignOnError f r)) m).1 = _
  rw [Reads.bind_fst, Option.map_eq_bind]
  rfl

variable {x : Checked ε α} {F : Except ε β → Except ε γ × σ} {f : α → Filling σ ε γ}
  {g : α → Checked ε β}

theorem run_bind_fst (x : Checked ε α) (g : α → Checked ε β) (m : Mem) :
    ((x >>= g).run m).1 = (x.run m).1.bind (andThenRun g m) := by
  have hrun : (x >>= g).run = x.run >>= ExceptT.bindCont g := rfl
  rw [hrun, Reads.bind_fst]
  refine Option.bind_congr fun r _ ↦ ?_
  cases r <;> rfl

theorem Follows.check_bind (herror : ∀ e, F (.error e) = (.error e, s))
    (h : ∀ a, Follows (f a) (g a) s m F) : Follows (check x >>= f) (x >>= g) s m F := by
  rw [Follows, result_bind, result_check, run_bind_fst]
  cases (x.run m).1 with
  | none => rfl
  | some r =>
    cases r with
    | ok a => exact h a
    | error e => exact congrArg some (herror e).symm

theorem Follows.onError_bind {clear : σ → σ} (herror : ∀ e, F (.error e) = (.error e, clear s))
    (h : ∀ a, Follows (f a) (g a) s m F) :
    Follows (onError clear (check x) >>= f) (x >>= g) s m F := by
  rw [Follows, result_bind, result_onError, result_check, run_bind_fst]
  cases (x.run m).1 with
  | none => rfl
  | some r =>
    cases r with
    | ok a => exact h a
    | error e => exact congrArg some (herror e).symm

theorem Follows.get_bind {x : Checked ε β} {f : σ → Filling σ ε γ} (h : Follows (f s) x s m F) :
    Follows (get >>= f) x s m F := by
  rw [Follows, result_bind]
  exact h

theorem Follows.set_bind {x : Checked ε β} {s' : σ} {f : PUnit → Filling σ ε γ}
    (h : Follows (f ⟨⟩) x s' m F) : Follows (set s' >>= f) x s m F := by
  rw [Follows, result_bind]
  exact h

theorem Follows.modify_bind {x : Checked ε β} {assign : σ → σ} {f : PUnit → Filling σ ε γ}
    (h : Follows (f ⟨⟩) x (assign s) m F) : Follows (modify assign >>= f) x s m F := by
  rw [Follows, result_bind]
  exact h

theorem Follows.ok_bind {a : α} (hx : (x.run m).1 = some (.ok a))
    (h : Follows (f a) (g a) s m F) : Follows (check x >>= f) (x >>= g) s m F := by
  rw [Follows, result_bind, result_check, run_bind_fst, hx]
  exact h

end Filling

end Checked

end Mcsos
