import Mcsos.Base.Atomic
import Mcsos.Sync.Mutex

/-!
# The mutex is linearizable

Threads that call `mcs_mutex_try_lock` and `mcs_mutex_unlock` at the same time see what they would
see if each call were executed without interruption (`mutex_linearizable`). An acquisition happens
at its compare-and-exchange, whether it succeeds or fails; an unlock happens at its last store, or
at its load if that finds another owner.

The two fields do not change together. `mcs_mutex_is_locked` agrees with the mutex on which the
calls are executed at one moment, and `mcs_mutex_owner` does so or returns 0.
-/

namespace Mcsos

namespace Sync

def mutexIsLocked (mutex : Mutex) : Bool := decide (mutex.locked ≠ 0)

def mutexOwner (mutex : Mutex) : UInt64 := mutex.owner

/-- The calls, executed without interruption. -/
def mutexApply {τ : Type} (id : τ → UInt64) : τ × MutexCall → Mutex → Status × Mutex
  | (t, .tryLock), m => mutexTryLock m (id t)
  | (t, .unlock), m => mutexUnlock m (id t)

namespace MutexSystem

open Atomic (Object Phase)

variable {τ : Type} [DecidableEq τ] {id : τ → UInt64} {s s' : MutexSystem τ} {t : τ}
  {l : Option (Visible τ MutexCall Status)} {a : Object τ MutexCall Status Mutex}

/-- The steps of the threads, with the calls and returns. -/
inductive LStep (id : τ → UInt64) :
    MutexSystem τ → Option (Visible τ MutexCall Status) → MutexSystem τ → Prop
  | call {s : MutexSystem τ} (t : τ) (c : MutexCall) (hpc : s.pc t = .idle) :
    LStep id s (some (.call t c)) (s.set t s.mutex c.entry (s.holds t))
  | access {s : MutexSystem τ} (t : τ) :
    LStep id s ((access (id t) s.mutex (s.pc t)).2.2.map fun r ↦ .ret t r.1 r.2)
      (s.set t (access (id t) s.mutex (s.pc t)).1 (Sync.access (id t) s.mutex (s.pc t)).2.1
        (holdsAfter (Sync.access (id t) s.mutex (s.pc t)).2.2 (s.holds t)))

/-- The labels change nothing: every interleaving has a history. -/
theorem reachable_iff_exec : Reachable id s ↔ ∃ h, Exec (LStep id) (init τ) h s := by
  constructor
  · intro h
    induction h with
    | refl => exact ⟨[], .nil⟩
    | tail _ hstep ih =>
      obtain ⟨h, hexec⟩ := ih
      cases hstep with
      | call t c hpc => exact ⟨_, hexec.snoc (.call t c hpc)⟩
      | access t => exact ⟨_, hexec.snoc (.access t)⟩
  · rintro ⟨h, hexec⟩
    induction hexec with
    | nil => exact .refl
    | snoc _ step ih =>
      cases step with
      | call t c hpc => exact ih.tail (.call t c hpc)
      | access t => exact ih.tail (.access t)

/-- How far the call of a thread has come. -/
def phaseAt (holds : Bool) : MutexPc → Phase MutexCall Status
  | .idle => .idle
  | .tryCas => .called .tryLock
  | .tryLoad => .decided .tryLock (if holds then .edeadlk else .ebusy)
  | .tryStore => .decided .tryLock .ok
  | .unlockLoad | .unlockOwner | .unlockLocked => .called .unlock

/-- The mutex as it is between two calls. -/
structure Abstracts (id : τ → UInt64) (a : Object τ MutexCall Status Mutex) (s : MutexSystem τ) :
    Prop where
  inv : Inv id s
  free : s.mutex.locked = 0 → a.value = mutexInit
  owned : ∀ t, s.Owns t → a.value = ⟨1, id t⟩
  phase : ∀ t, a.phase t = phaseAt (s.holds t) (s.pc t)

variable {m v : Mutex} {p : MutexPc} {b : Bool} {c : MutexCall} {o : Status}

omit [DecidableEq τ] in
theorem abstracts_init (id : τ → UInt64) : Abstracts id (Atomic.init mutexInit) (init τ) where
  inv := inv_init id
  free _ := rfl
  owned _ h := by rcases h with h | h <;> cases h
  phase _ := rfl

theorem Abstracts.set (h : Abstracts id a s) (hinv : Inv id (s.set t m p b))
    (hfree : m.locked = 0 → v = mutexInit)
    (howned : ∀ u, (s.set t m p b).Owns u → v = ⟨1, id u⟩)
    (order : List ((τ × MutexCall) × Status)) :
    Abstracts id ⟨v, Function.update a.phase t (phaseAt b p), order⟩ (s.set t m p b) where
  inv := hinv
  free := hfree
  owned := howned
  phase u := by
    change Function.update a.phase t (phaseAt b p) u = _
    by_cases hu : u = t
    · rw [hu, pc_set_self, holds_set_self, Function.update_self]
    · rw [pc_set_of_ne hu, holds_set_of_ne hu, Function.update_of_ne hu, h.phase u]

theorem Abstracts.owned_set (h : Abstracts id a s) (howns : b = true ∨ p = .tryStore → s.Owns t)
    (u : τ) (hu : (s.set t m p b).Owns u) : a.value = ⟨1, id u⟩ := by
  refine h.owned u ?_
  by_cases hut : u = t
  · rw [hut] at hu ⊢
    exact howns (owns_set_self.mp hu)
  · exact (owns_set_of_ne hut).mp hu

theorem Abstracts.stay (h : Abstracts id a s) (hinv : Inv id (s.set t m p b))
    (hlocked : m.locked = 0 → s.mutex.locked = 0) (howns : b = true ∨ p = .tryStore → s.Owns t)
    (hphase : phaseAt b p = a.phase t) : Abstracts id a (s.set t m p b) := by
  have hset := h.set hinv (fun hm ↦ h.free (hlocked hm)) (h.owned_set howns) a.order
  rwa [hphase, Function.update_eq_self] at hset

theorem Abstracts.ret (h : Abstracts id a s) (hinv : Inv id (s.set t m .idle b))
    (hlocked : m.locked = 0 → s.mutex.locked = 0) (howns : b = true → s.Owns t) :
    Abstracts id (a.setPhase t .idle) (s.set t m .idle b) :=
  h.set hinv (fun hm ↦ h.free (hlocked hm))
    (h.owned_set fun hb ↦ howns (hb.resolve_right (by decide))) a.order

theorem Abstracts.happen (h : Abstracts id a s) (hinv : Inv id (s.set t m p b))
    (happly : mutexApply id (t, c) a.value = (o, v)) (hfree : m.locked = 0 → v = mutexInit)
    (howned : ∀ u, (s.set t m p b).Owns u → v = ⟨1, id u⟩) (hphase : phaseAt b p = .decided c o) :
    Abstracts id (a.happen (mutexApply id) t c) (s.set t m p b) := by
  rw [Object.happen, happly, ← hphase]
  exact h.set hinv hfree howned _

theorem Abstracts.happen_ret (h : Abstracts id a s) (hinv : Inv id (s.set t m .idle b))
    (happly : mutexApply id (t, c) a.value = (o, v)) (hfree : m.locked = 0 → v = mutexInit)
    (howned : ∀ u, (s.set t m .idle b).Owns u → v = ⟨1, id u⟩) :
    Abstracts id ((a.happen (mutexApply id) t c).setPhase t .idle) (s.set t m .idle b) := by
  rw [Object.setPhase, Object.happen, happly, Function.update_idem]
  exact h.set hinv hfree howned _

/-! ## The answers -/

omit [DecidableEq τ] in
/-- The owner field tells a thread in a call whether it holds the mutex. -/
theorem Abstracts.owner_eq_iff (h : Abstracts id a s) (hinj : Function.Injective id)
    (hne : ∀ u, id u ≠ 0) (hpc : s.pc t ≠ .unlockLocked) :
    s.mutex.owner = id t ↔ s.holds t = true :=
  ⟨fun howner ↦ (h.inv.isOwner hinj hne howner).1, fun hheld ↦ h.inv.owner_of t ⟨hheld, hpc⟩⟩

omit [DecidableEq τ] in
theorem Abstracts.tryLock_locked (h : Abstracts id a s) (hinj : Function.Injective id)
    (hne : ∀ u, id u ≠ 0) (hpc : s.pc t = .tryCas) (hlocked : s.mutex.locked ≠ 0) :
    mutexApply id (t, .tryLock) a.value =
      (if s.holds t then .edeadlk else .ebusy, a.value) := by
  obtain ⟨u, hu⟩ := h.inv.locked_iff.mp hlocked
  have hone : (⟨1, id u⟩ : Mutex).locked ≠ 0 := show (1 : UInt32) ≠ 0 by decide
  rw [h.owned u hu, mutexApply, mutexTryLock, if_neg (hne t), if_pos hone]
  by_cases hheld : s.holds t = true
  · rw [h.inv.exclusive u t hu (.inl hheld), if_pos rfl, if_pos hheld]
  · have hut : id u ≠ id t := fun heq ↦ by
      rw [hinj heq, Owns, hpc] at hu
      exact hheld (hu.resolve_right (by decide))
    rw [if_neg hut, if_neg hheld]

omit [DecidableEq τ] in
theorem Abstracts.unlock_refused (h : Abstracts id a s) (hinj : Function.Injective id)
    (hne : ∀ u, id u ≠ 0) (hnot : ¬s.Owns t) :
    mutexApply id (t, .unlock) a.value = (.eperm, a.value) := by
  have howner : a.value.owner ≠ id t := by
    by_cases hlocked : s.mutex.locked = 0
    · rw [h.free hlocked]
      exact (hne t).symm
    · obtain ⟨u, hu⟩ := h.inv.locked_iff.mp hlocked
      rw [h.owned u hu]
      exact fun heq ↦ hnot (hinj heq ▸ hu)
  rw [mutexApply, mutexUnlock, if_neg (hne t), if_pos howner]

/-! ## The accesses -/

/-- Every access is matched by the steps of an object whose calls happen at one moment. -/
theorem Abstracts.access (h : Abstracts id a s) (hinj : Function.Injective id)
    (hne : ∀ u, id u ≠ 0) (t : τ) :
    ∃ c, Exec (Atomic.Step (mutexApply id)) a
        ((Sync.access (id t) s.mutex (s.pc t)).2.2.map fun r ↦ Visible.ret t r.1 r.2).toList c ∧
      Abstracts id c (s.set t (Sync.access (id t) s.mutex (s.pc t)).1
        (Sync.access (id t) s.mutex (s.pc t)).2.1
        (holdsAfter (Sync.access (id t) s.mutex (s.pc t)).2.2 (s.holds t))) := by
  have hinv := h.inv.access hinj hne t
  have hphase := h.phase t
  have hkeep : s.mutex.locked = 0 → s.mutex.locked = 0 := fun hfree ↦ hfree
  cases hpc : s.pc t with
  | idle =>
    rw [hpc] at hinv hphase
    have hidle : MutexPc.idle ≠ .tryStore := by decide
    exact ⟨a, .nil, h.stay hinv hkeep (fun hb ↦ .inl (hb.resolve_right hidle)) hphase.symm⟩
  | tryCas =>
    rw [hpc] at hinv
    rw [hpc, phaseAt] at hphase
    by_cases hfree : s.mutex.locked = 0
    · simp only [Sync.access, if_pos hfree] at hinv ⊢
      have happly : mutexApply id (t, .tryLock) a.value = (.ok, ⟨1, id t⟩) := by
        rw [h.free hfree, mutexApply, mutexTryLock, if_neg (hne t),
          if_neg (show ¬mutexInit.locked ≠ 0 by decide)]
      refine ⟨_, .hidden (.happen t .tryLock hphase), h.happen hinv happly ?_ (fun u hu ↦ ?_) rfl⟩
      · exact fun hone ↦ absurd hone (show (1 : UInt32) ≠ 0 by decide)
      · rw [hinv.exclusive u t hu (owns_set_self.mpr (.inr rfl))]
    · simp only [Sync.access, if_neg hfree] at hinv ⊢
      have happly := h.tryLock_locked hinj hne hpc hfree
      exact ⟨_, .hidden (.happen t .tryLock hphase), h.happen hinv happly (fun hf ↦ h.free hf)
        (h.owned_set fun hb ↦ .inl (hb.resolve_right (by decide))) rfl⟩
  | tryLoad =>
    have howner := h.owner_eq_iff hinj hne (t := t) (by simp [hpc])
    rw [hpc] at hinv hphase
    by_cases hheld : s.holds t = true
    · rw [phaseAt, if_pos hheld] at hphase
      simp only [Sync.access, if_pos (howner.mpr hheld)] at hinv ⊢
      exact ⟨_, .visible (.ret t _ _ hphase), h.ret hinv hkeep .inl⟩
    · rw [phaseAt, if_neg hheld] at hphase
      simp only [Sync.access, if_neg (mt howner.mp hheld)] at hinv ⊢
      exact ⟨_, .visible (.ret t _ _ hphase), h.ret hinv hkeep .inl⟩
  | tryStore =>
    have howns : s.Owns t := .inr hpc
    rw [hpc] at hinv hphase
    exact ⟨_, .visible (.ret t _ _ hphase), h.ret hinv hkeep fun _ ↦ howns⟩
  | unlockLoad =>
    have howner := h.owner_eq_iff hinj hne (t := t) (by simp [hpc])
    rw [hpc] at hinv hphase
    by_cases hheld : s.holds t = true
    · simp only [Sync.access, if_neg (not_not.mpr (howner.mpr hheld))] at hinv ⊢
      exact ⟨a, .nil, h.stay hinv hkeep (fun _ ↦ .inl hheld) hphase.symm⟩
    · simp only [Sync.access, if_pos (mt howner.mp hheld)] at hinv ⊢
      have hnot : ¬s.Owns t := fun hown ↦ hown.elim hheld (by simp [hpc])
      have happly := h.unlock_refused hinj hne hnot
      have hexec := Atomic.exec_happen_ret (mutexApply id) hphase
      rw [happly] at hexec
      exact ⟨_, hexec, h.happen_ret hinv happly (fun hf ↦ h.free hf)
        (h.owned_set fun hb ↦ .inl (hb.resolve_right (by decide)))⟩
  | unlockOwner =>
    have hheld := h.inv.unlocking t (.inl hpc)
    rw [hpc] at hinv hphase
    exact ⟨a, .nil, h.stay hinv hkeep (fun _ ↦ .inl hheld) hphase.symm⟩
  | unlockLocked =>
    have hheld := h.inv.unlocking t (.inr hpc)
    rw [hpc] at hinv hphase
    have happly : mutexApply id (t, .unlock) a.value = (.ok, mutexInit) := by
      rw [h.owned t (.inl hheld), mutexApply, mutexUnlock, if_neg (hne t), if_neg (not_not.mpr rfl)]
      rfl
    have hexec := Atomic.exec_happen_ret (mutexApply id) hphase
    rw [happly] at hexec
    refine ⟨_, hexec, h.happen_ret hinv happly (fun _ ↦ rfl) fun u hu ↦ ?_⟩
    -- nobody owns a mutex that is not locked
    exact absurd (show (0 : UInt32) = 0 from rfl) (hinv.locked_iff.mpr ⟨u, hu⟩)

theorem Abstracts.step (h : Abstracts id a s) (hinj : Function.Injective id)
    (hne : ∀ u, id u ≠ 0) (hstep : LStep id s l s') :
    ∃ c, Exec (Atomic.Step (mutexApply id)) a l.toList c ∧ Abstracts id c s' := by
  cases hstep with
  | access t => exact h.access hinj hne t
  | call t c hpc =>
    have hphase := h.phase t
    rw [hpc] at hphase
    have hcalled : phaseAt (s.holds t) c.entry = .called c := by cases c <;> rfl
    have hentry : c.entry ≠ .tryStore := by cases c <;> decide
    refine ⟨_, .visible (.call t c hphase), ?_⟩
    have hset := h.set (h.inv.call hpc c) h.free
      (h.owned_set fun hb ↦ hb.elim .inl fun hp ↦ absurd hp hentry) a.order
    rwa [hcalled] at hset

/-- **The mutex is linearizable.** For any number of threads with different ids other than 0, every
history of calls and returns that an interleaving of their accesses has is one of a mutex on which
each call is executed without interruption, at one moment between the call and its return. The
calls in the order of these moments are a run of `mcs_mutex_try_lock` and `mcs_mutex_unlock`, with
the answers that the threads got. At every time `mcs_mutex_is_locked` returns what it would return
for that mutex, and `mcs_mutex_owner` does so or returns 0. -/
theorem mutex_linearizable (hinj : Function.Injective id) (hne : ∀ t, id t ≠ 0)
    {h : List (Visible τ MutexCall Status)} (hexec : Exec (LStep id) (init τ) h s) :
    ∃ a, Exec (Atomic.Step (mutexApply id)) (Atomic.init mutexInit) h a ∧
      Run (mutexApply id) (fun _ _ ↦ True) mutexInit a.order a.value ∧
      (∀ t, (a.order.filter fun e ↦ decide (e.1.1 = t)).map (fun e ↦ (e.1.2, e.2)) =
        h.filterMap (Atomic.returnsOf t) ++ (a.phase t).pending) ∧
      mutexIsLocked s.mutex = mutexIsLocked a.value ∧
      (mutexOwner s.mutex = 0 ∨ mutexOwner s.mutex = mutexOwner a.value) := by
  obtain ⟨a, ha, habs⟩ := hexec.simulates (abstracts_init id)
    fun b u l v hb hstep ↦ hb.step hinj hne hstep
  refine ⟨a, ha, Atomic.run_order ha, Atomic.order_thread ha, ?_, ?_⟩
  · by_cases hlocked : s.mutex.locked = 0
    · rw [mutexIsLocked, mutexIsLocked, habs.free hlocked, hlocked]
      rfl
    · obtain ⟨t, ht⟩ := habs.inv.locked_iff.mp hlocked
      rw [mutexIsLocked, mutexIsLocked, habs.owned t ht, decide_eq_true hlocked]
      rfl
  · by_cases howner : s.mutex.owner = 0
    · exact .inl howner
    · obtain ⟨t, ht⟩ := habs.inv.exists_owner howner
      rw [mutexOwner, mutexOwner, habs.owned t ht.owns, habs.inv.owner_of t ht]
      exact .inr rfl

/-- Two threads: one is about to store itself as the owner when the other one calls, and the answer
`MCS_SYNC_EBUSY` is returned before the acquisition returns. -/
theorem mutex_linearizable_overtaken :
    let id : Bool → UInt64 := fun t ↦ if t then 1 else 2
    ∃ s : MutexSystem Bool, s.mutex = ⟨1, 1⟩ ∧ ∃ a,
      Exec (Atomic.Step (mutexApply id)) (Atomic.init mutexInit)
        [.call true .tryLock, .call false .tryLock, .ret false .tryLock .ebusy,
          .ret true .tryLock .ok] a ∧
      Run (mutexApply id) (fun _ _ ↦ True) mutexInit a.order a.value ∧
      mutexIsLocked s.mutex = mutexIsLocked a.value := by
  intro id
  have hinj : Function.Injective id := fun t u ↦ by revert t u; decide
  have hne : ∀ t, id t ≠ 0 := by decide
  have hnil : Exec (LStep id) (init Bool) [] _ := .nil
  have hexec := (((((hnil.snoc (.call true .tryLock rfl)).snoc (.access true)).snoc
    (.call false .tryLock rfl)).snoc (.access false)).snoc (.access false)).snoc (.access true)
  obtain ⟨a, ha, hrun, -, hlocked, -⟩ := mutex_linearizable hinj hne hexec
  exact ⟨_, rfl, a, ha, hrun, hlocked⟩

end MutexSystem

end Sync

end Mcsos
