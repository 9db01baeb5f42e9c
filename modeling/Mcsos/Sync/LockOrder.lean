import Mcsos.Base.WaitGraph
import Mcsos.Sync.Lockdep
import Mcsos.Sync.Spinlock

/-!
# Lock ordering rules out deadlock

Any number of threads, each with its own lock-order state, and one spinlock for each class. A
thread asks its state first, spins on `mcs_spin_try_lock`, and releases its most recently acquired
lock by `mcs_spin_unlock` and then `mcs_lockdep_after_release`; the four actions of all threads are
interleaved arbitrarily.

The lock-order state of a thread is what it holds, with the lock it is acquiring or giving up on
top (`Inv.stack_eq`). It is strictly increasing, so a thread waits at a class above all that it
holds, and the waits go up.
-/

namespace Mcsos

namespace Sync

/-- Where a thread is between its calls. -/
inductive Pc where
  /-- Outside of any acquisition or release. -/
  | idle
  /-- `mcs_lockdep_before_acquire` has accepted the class; spinning on its lock. -/
  | spinning (c : UInt32)
  /-- The lock has been unlocked; `mcs_lockdep_after_release` is still to come. -/
  | releasing (c : UInt32)

/-- The class on top of the lock-order state that the thread does not hold. -/
def Pc.pending : Pc → List UInt32
  | .idle => []
  | .spinning c => [c]
  | .releasing c => [c]

/-- The threads and their locks. -/
structure System (τ : Type) where
  lockdep : τ → LockdepState
  lock : UInt32 → Spinlock
  pc : τ → Pc
  /-- The locks a thread has acquired and not unlocked, the most recent one first. -/
  held : τ → List UInt32

namespace System

variable {τ : Type}

/-- Every state is initialised, every lock is free. -/
def init (τ : Type) : System τ where
  lockdep _ := lockdepInit
  lock c := spinInit c
  pc _ := .idle
  held _ := []

variable [DecidableEq τ]

/-- One action of a thread. -/
inductive Step : System τ → System τ → Prop
  /-- `mcs_lockdep_before_acquire`: a refused class is not waited for. -/
  | beforeAcquire {s : System τ} (t : τ) (c : UInt32) (name : UInt64) (hpc : s.pc t = .idle) :
    Step s { s with
      lockdep := Function.update s.lockdep t (lockdepBeforeAcquire (s.lockdep t) c name).2
      pc := Function.update s.pc t
        (if (lockdepBeforeAcquire (s.lockdep t) c name).1 = .ok then .spinning c else .idle) }
  /-- `mcs_spin_try_lock`, which fails and is tried again, or takes the lock. -/
  | tryLock {s : System τ} (t : τ) (c : UInt32) (hpc : s.pc t = .spinning c) :
    Step s { s with
      lock := Function.update s.lock c (spinTryLock (s.lock c)).2
      pc := Function.update s.pc t (if (spinTryLock (s.lock c)).1 then .idle else .spinning c)
      held := Function.update s.held t
        (if (spinTryLock (s.lock c)).1 then c :: s.held t else s.held t) }
  /-- `mcs_spin_unlock` of the most recently acquired lock. -/
  | unlock {s : System τ} (t : τ) (c : UInt32) (rest : List UInt32) (hpc : s.pc t = .idle)
    (hheld : s.held t = c :: rest) :
    Step s { s with
      lock := Function.update s.lock c (spinUnlock (s.lock c))
      pc := Function.update s.pc t (.releasing c)
      held := Function.update s.held t rest }
  /-- `mcs_lockdep_after_release` -/
  | afterRelease {s : System τ} (t : τ) (c : UInt32) (hpc : s.pc t = .releasing c) :
    Step s { s with
      lockdep := Function.update s.lockdep t (lockdepAfterRelease (s.lockdep t) c).2
      pc := Function.update s.pc t .idle }

/-- The states that an interleaving of the threads' actions reaches. -/
def Reachable (s : System τ) : Prop := Relation.ReflTransGen Step (init τ) s

/-- `t` spins on a lock that `u` holds. -/
def Waits (s : System τ) (t u : τ) : Prop := ∃ c, s.pc t = .spinning c ∧ c ∈ s.held u

/-! ## The invariant -/

/-- What a thread's lock-order state, program counter and held locks have to do with each other. -/
structure Local (d : LockdepState) (pc : Pc) (held : List UInt32) : Prop where
  wellFormed : d.WellFormed
  stack_eq : d.stack = held.reverse ++ pc.pending
  ne_zero : ∀ c ∈ d.stack, c ≠ 0

/-- No lock is held by two threads, and a lock word is set when some thread holds the lock. -/
structure Inv (s : System τ) : Prop where
  threads : ∀ t, Local (s.lockdep t) (s.pc t) (s.held t)
  exclusive : ∀ t u c, c ∈ s.held t → c ∈ s.held u → t = u
  locked_iff : ∀ c, (s.lock c).locked ≠ 0 ↔ ∃ t, c ∈ s.held t

omit [DecidableEq τ] in
theorem inv_init : Inv (init τ) where
  threads _ := ⟨LockdepState.wellFormed_init, rfl, nofun⟩
  exclusive := nofun
  locked_iff _ := ⟨fun h ↦ absurd rfl h, fun ⟨_, h⟩ ↦ nomatch h⟩

section Local

variable {d : LockdepState} {held : List UInt32} {c : UInt32}

theorem Local.beforeAcquire (h : Local d .idle held) (c : UInt32) (name : UInt64) :
    Local (lockdepBeforeAcquire d c name).2
      (if (lockdepBeforeAcquire d c name).1 = .ok then .spinning c else .idle) held := by
  have hstack : d.stack = held.reverse := h.stack_eq.trans (List.append_nil _)
  by_cases hok : (lockdepBeforeAcquire d c name).1 = .ok
  · have hpush := (h.wellFormed.beforeAcquire_ok hok).1
    rw [if_pos hok]
    refine ⟨h.wellFormed.beforeAcquire, by rw [hpush, hstack]; rfl, fun a ha ↦ ?_⟩
    rw [hpush, List.mem_append, List.mem_singleton] at ha
    rcases ha with ha | rfl
    · exact h.ne_zero a ha
    · exact LockdepState.beforeAcquire_ne_zero hok
  · have hsame := LockdepState.stack_beforeAcquire_of_ne hok
    rw [if_neg hok]
    exact ⟨h.wellFormed.beforeAcquire, by rw [hsame, h.stack_eq], by rw [hsame]; exact h.ne_zero⟩

theorem Local.acquired (h : Local d (.spinning c) held) : Local d .idle (c :: held) :=
  ⟨h.wellFormed, by rw [h.stack_eq, List.reverse_cons]; exact (List.append_nil _).symm, h.ne_zero⟩

theorem Local.unlocked (h : Local d .idle (c :: held)) : Local d (.releasing c) held :=
  ⟨h.wellFormed, by rw [h.stack_eq, List.reverse_cons]; exact List.append_nil _, h.ne_zero⟩

theorem Local.notMem (h : Local d (.releasing c) held) : c ∉ held := by
  intro hc
  have hsorted : d.stack.Pairwise (· < ·) := h.wellFormed
  rw [h.stack_eq, List.pairwise_append] at hsorted
  exact UInt32.lt_irrefl c (hsorted.2.2 c (List.mem_reverse.mpr hc) c (List.mem_singleton_self c))

theorem Local.afterRelease (h : Local d (.releasing c) held) :
    Local (lockdepAfterRelease d c).2 .idle held := by
  have hc : c ≠ 0 := h.ne_zero c (by rw [h.stack_eq]; simp [Pc.pending])
  have hpop : (lockdepAfterRelease d c).2.stack = held.reverse :=
    LockdepState.stack_afterRelease hc h.stack_eq
  have hsorted : d.stack.Pairwise (· < ·) := h.wellFormed
  rw [h.stack_eq, List.pairwise_append] at hsorted
  refine ⟨by rw [LockdepState.WellFormed, hpop]; exact hsorted.1, by simp [hpop, Pc.pending],
    fun a ha ↦ h.ne_zero a ?_⟩
  rw [hpop] at ha
  rw [h.stack_eq]
  exact List.mem_append_left _ ha

end Local

/-- A step of thread `t` has to be looked at for `t` only. -/
private theorem threads_update {s : System τ} (h : ∀ u, Local (s.lockdep u) (s.pc u) (s.held u))
    (t : τ) {d : LockdepState} {pc : Pc} {held : List UInt32} (ht : Local d pc held) (u : τ) :
    Local (Function.update s.lockdep t d u) (Function.update s.pc t pc u)
      (Function.update s.held t held u) := by
  by_cases hu : u = t
  · rw [hu, Function.update_self, Function.update_self, Function.update_self]
    exact ht
  · rw [Function.update_of_ne hu, Function.update_of_ne hu, Function.update_of_ne hu]
    exact h u

theorem Inv.acquire {s : System τ} (h : Inv s) {t : τ} {c : UInt32} (hpc : s.pc t = .spinning c)
    (hfree : (s.lock c).locked = 0) :
    Inv { s with
      lock := Function.update s.lock c (spinTryLock (s.lock c)).2
      pc := Function.update s.pc t .idle
      held := Function.update s.held t (c :: s.held t) } := by
  have hnone : ∀ u, c ∉ s.held u := fun u hu ↦ (h.locked_iff c).mpr ⟨u, hu⟩ hfree
  have hmem : ∀ u a, a ∈ Function.update s.held t (c :: s.held t) u ↔
      (u = t ∧ a = c) ∨ a ∈ s.held u := by
    intro u a
    by_cases hu : u = t
    · rw [hu, Function.update_self, List.mem_cons]
      simp
    · rw [Function.update_of_ne hu]
      simp [hu]
  have ht := h.threads t
  rw [hpc] at ht
  refine ⟨?_, fun u v a hu hv ↦ ?_, fun a ↦ ?_⟩
  · intro u
    have := threads_update h.threads t ht.acquired u
    rwa [Function.update_eq_self] at this
  · rw [hmem] at hu hv
    rcases hu with ⟨rfl, rfl⟩ | hu
    · rcases hv with ⟨rfl, -⟩ | hv
      · rfl
      · exact absurd hv (hnone v)
    · rcases hv with ⟨rfl, rfl⟩ | hv
      · exact absurd hu (hnone u)
      · exact h.exclusive u v a hu hv
  · simp only [hmem]
    by_cases ha : a = c
    · rw [ha, Function.update_self, locked_spinTryLock]
      exact iff_of_true (by decide) ⟨t, Or.inl ⟨rfl, rfl⟩⟩
    · rw [Function.update_of_ne ha, h.locked_iff]
      simp [ha]

theorem Inv.contended {s : System τ} (h : Inv s) {t : τ} {c : UInt32} (hpc : s.pc t = .spinning c)
    (hlocked : (s.lock c).locked ≠ 0) :
    Inv { s with
      lock := Function.update s.lock c (spinTryLock (s.lock c)).2
      pc := Function.update s.pc t (.spinning c)
      held := Function.update s.held t (s.held t) } := by
  rw [← hpc, Function.update_eq_self, Function.update_eq_self]
  refine ⟨h.threads, h.exclusive, fun a ↦ ?_⟩
  dsimp only
  by_cases ha : a = c
  · rw [ha, Function.update_self, locked_spinTryLock]
    exact iff_of_true (by decide) ((h.locked_iff c).mp hlocked)
  · rw [Function.update_of_ne ha]
    exact h.locked_iff a

theorem Inv.unlock {s : System τ} (h : Inv s) {t : τ} {c : UInt32} {rest : List UInt32}
    (hpc : s.pc t = .idle) (hheld : s.held t = c :: rest) :
    Inv { s with
      lock := Function.update s.lock c (spinUnlock (s.lock c))
      pc := Function.update s.pc t (.releasing c)
      held := Function.update s.held t rest } := by
  have ht := h.threads t
  rw [hpc, hheld] at ht
  have hsub : ∀ u a, a ∈ Function.update s.held t rest u → a ∈ s.held u ∧ (u = t → a ∈ rest) := by
    intro u a ha
    by_cases hu : u = t
    · rw [hu, Function.update_self] at ha
      rw [hu, hheld]
      exact ⟨List.mem_cons_of_mem c ha, fun _ ↦ ha⟩
    · rw [Function.update_of_ne hu] at ha
      exact ⟨ha, fun h ↦ absurd h hu⟩
  refine ⟨?_, fun u v a hu hv ↦ h.exclusive u v a (hsub u a hu).1 (hsub v a hv).1, fun a ↦ ?_⟩
  · intro u
    have := threads_update h.threads t ht.unlocked u
    rwa [Function.update_eq_self] at this
  · dsimp only
    by_cases ha : a = c
    · -- it was the only holder, and held it once
      rw [ha, Function.update_self, locked_spinUnlock]
      refine iff_of_false (not_not.mpr rfl) ?_
      rintro ⟨u, hu⟩
      obtain ⟨hmem, hrest⟩ := hsub u c hu
      have hut : u = t := h.exclusive u t c hmem (by rw [hheld]; exact List.mem_cons_self)
      exact ht.unlocked.notMem (hrest hut)
    · rw [Function.update_of_ne ha, h.locked_iff]
      refine ⟨fun ⟨u, hu⟩ ↦ ⟨u, ?_⟩, fun ⟨u, hu⟩ ↦ ⟨u, (hsub u a hu).1⟩⟩
      by_cases hut : u = t
      · rw [hut, hheld] at hu
        rw [hut, Function.update_self]
        exact (List.mem_cons.mp hu).resolve_left ha
      · rwa [Function.update_of_ne hut]

theorem Inv.step {s s' : System τ} (h : Inv s) (hstep : Step s s') : Inv s' := by
  cases hstep with
  | beforeAcquire t c name hpc =>
    have ht := h.threads t
    rw [hpc] at ht
    refine ⟨fun u ↦ ?_, h.exclusive, h.locked_iff⟩
    have := threads_update h.threads t (ht.beforeAcquire c name) u
    rwa [Function.update_eq_self] at this
  | tryLock t c hpc =>
    by_cases hfree : (s.lock c).locked = 0
    · rw [if_pos (spinTryLock_eq_true_iff.mpr hfree), if_pos (spinTryLock_eq_true_iff.mpr hfree)]
      exact h.acquire hpc hfree
    · rw [if_neg (mt spinTryLock_eq_true_iff.mp hfree),
        if_neg (mt spinTryLock_eq_true_iff.mp hfree)]
      exact h.contended hpc hfree
  | unlock t c rest hpc hheld => exact h.unlock hpc hheld
  | afterRelease t c hpc =>
    have ht := h.threads t
    rw [hpc] at ht
    refine ⟨fun u ↦ ?_, h.exclusive, h.locked_iff⟩
    have := threads_update h.threads t ht.afterRelease u
    rwa [Function.update_eq_self] at this

theorem Reachable.inv {s : System τ} (h : Reachable s) : Inv s := by
  induction h with
  | refl => exact inv_init
  | tail _ hstep ih => exact ih.step hstep

/-! ## No circular wait -/

/-- The class a thread spins on, as a number. -/
def level (s : System τ) (t : τ) : Option ℕ :=
  match s.pc t with
  | .spinning c => some c.toNat
  | _ => none

omit [DecidableEq τ] in
theorem level_eq_some {s : System τ} {t : τ} {n : ℕ} (h : s.level t = some n) :
    ∃ c, s.pc t = .spinning c ∧ c.toNat = n := by
  unfold level at h
  split at h
  · next c hc => exact ⟨c, hc, Option.some.inj h⟩
  · cases h

omit [DecidableEq τ] in
/-- A thread spins at a class above all that it holds. -/
theorem Inv.ascending {s : System τ} (h : Inv s) : Ascending s.Waits s.level := by
  rintro t u ⟨c, hpc, hc⟩
  refine ⟨c.toNat, by rw [level, hpc], fun n hn ↦ ?_⟩
  obtain ⟨d, hd, rfl⟩ := level_eq_some hn
  have hu := h.threads u
  have hsorted : (s.lockdep u).stack.Pairwise (· < ·) := hu.wellFormed
  rw [hu.stack_eq, hd, List.pairwise_append] at hsorted
  exact UInt32.lt_iff_toNat_lt.mp
    (hsorted.2.2 c (List.mem_reverse.mpr hc) d (List.mem_singleton_self d))

/-- **Lock ordering rules out deadlock.** In no state that an interleaving reaches is there a cycle
of threads each spinning on a lock that the next one holds; and if some thread spins on a held
lock, then some thread that holds a lock is not itself spinning on a held lock. -/
theorem no_circular_wait {s : System τ} (h : Reachable s) :
    (∀ t, ¬Relation.TransGen s.Waits t t) ∧
    ∀ t c, s.pc t = .spinning c → (s.lock c).locked ≠ 0 →
      ∃ u, s.held u ≠ [] ∧ ∀ d, s.pc u = .spinning d → (s.lock d).locked = 0 := by
  have hinv := h.inv
  refine ⟨hinv.ascending.not_transGen_self, fun t c hpc hlocked ↦ ?_⟩
  obtain ⟨u, hu⟩ := (hinv.locked_iff c).mp hlocked
  have hbound : ∀ v n, s.level v = some n → n < 2 ^ 32 := by
    intro v n hn
    obtain ⟨d, -, rfl⟩ := level_eq_some hn
    exact d.toNat_lt
  obtain ⟨v, v', ⟨c', -, hc'⟩, hend⟩ := hinv.ascending.exists_not_waiting hbound ⟨c, hpc, hu⟩
  refine ⟨v', List.ne_nil_of_mem hc', fun d hd ↦ ?_⟩
  by_contra hlocked'
  obtain ⟨w, hw⟩ := (hinv.locked_iff d).mp hlocked'
  exact hend w ⟨d, hd, hw⟩

/-- Two threads: one holds the lock of class 1, the other spins on it. -/
theorem no_circular_wait_two : ∃ s : System Bool, s.Reachable ∧ s.Waits false true ∧
    ¬Relation.TransGen s.Waits false false ∧
    ∃ u, s.held u ≠ [] ∧ ∀ d, s.pc u = .spinning d → (s.lock d).locked = 0 := by
  have h : ∃ s : System Bool, s.Reachable ∧ s.pc false = .spinning 1 ∧ s.held true = [1] :=
    ⟨_, ((Relation.ReflTransGen.refl.tail (Step.beforeAcquire true 1 0 rfl)).tail
      (Step.tryLock true 1 rfl)).tail (Step.beforeAcquire false 1 0 rfl), rfl, rfl⟩
  obtain ⟨s, hreach, hpc, hheld⟩ := h
  have hmem : 1 ∈ s.held true := by rw [hheld]; exact List.mem_singleton_self 1
  obtain ⟨hcycle, hwait⟩ := no_circular_wait hreach
  exact ⟨s, hreach, ⟨1, hpc, hmem⟩, hcycle false,
    hwait false 1 hpc ((hreach.inv.locked_iff 1).mpr ⟨true, hmem⟩)⟩

end System

end Sync

end Mcsos
