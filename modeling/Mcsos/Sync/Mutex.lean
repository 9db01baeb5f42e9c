import Mcsos.Sync.Lockdep
import Mathlib.Logic.Relation
import Mathlib.Logic.Function.Basic

/-!
# The mutex, access by access

`mutex.c` with each call cut into its atomic accesses: the compare-and-exchange on `locked`, the
loads and stores of `owner`, the store of `locked`. `access` performs the next one of a thread; the
accesses of all threads are interleaved arbitrarily. Undisturbed, a thread's accesses add up to the
whole call (`solo_tryLock`, `solo_unlock`).

The two fields change at different moments, so the state between them is visible: after the
exchange the mutex is locked without an owner, and again before the last store of an unlock. The
invariant is therefore about program counters. `Owns` extends the time in which a thread holds the
mutex to the access before its acquisition returns.
-/

namespace Mcsos

namespace Sync

/-- `mcs_mutex_t`. The class and the name are only stored. -/
structure Mutex where
  locked : UInt32
  owner : UInt64

def mutexInit : Mutex := ⟨0, 0⟩

/-- `mcs_mutex_try_lock`, executed without interruption. -/
def mutexTryLock (mutex : Mutex) (ownerId : UInt64) : Status × Mutex :=
  if ownerId = 0 then (.einval, mutex)
  else if mutex.locked ≠ 0 then
    if mutex.owner = ownerId then (.edeadlk, mutex) else (.ebusy, mutex)
  else (.ok, { locked := 1, owner := ownerId })

/-- `mcs_mutex_unlock`, executed without interruption. -/
def mutexUnlock (mutex : Mutex) (ownerId : UInt64) : Status × Mutex :=
  if ownerId = 0 then (.einval, mutex)
  else if mutex.owner ≠ ownerId then (.eperm, mutex)
  else (.ok, { locked := 0, owner := 0 })

/-- The two calls. -/
inductive MutexCall where
  | tryLock
  | unlock
  deriving DecidableEq

/-- The access a thread will perform next. -/
inductive MutexPc where
  /-- Not in a call. -/
  | idle
  /-- `mcs_mutex_try_lock`: the compare-and-exchange. -/
  | tryCas
  /-- `mcs_mutex_try_lock`: the exchange has failed, load the owner. -/
  | tryLoad
  /-- `mcs_mutex_try_lock`: the exchange has succeeded, store the owner. -/
  | tryStore
  /-- `mcs_mutex_unlock`: load the owner. -/
  | unlockLoad
  /-- `mcs_mutex_unlock`: the owner is the caller, store owner 0. -/
  | unlockOwner
  /-- `mcs_mutex_unlock`: store locked 0. -/
  | unlockLocked
  deriving DecidableEq

/-- The first access of a call. -/
def MutexCall.entry : MutexCall → MutexPc
  | .tryLock => .tryCas
  | .unlock => .unlockLoad

/-- The next access of a thread with the given id: the mutex and the program counter after it, and
what the call returns if this was its last access. -/
def access (ownerId : UInt64) (m : Mutex) : MutexPc → Mutex × MutexPc × Option (MutexCall × Status)
  | .idle => (m, .idle, none)
  | .tryCas =>
    if m.locked = 0 then ({ m with locked := 1 }, .tryStore, none) else (m, .tryLoad, none)
  | .tryLoad =>
    if m.owner = ownerId then (m, .idle, some (.tryLock, .edeadlk))
    else (m, .idle, some (.tryLock, .ebusy))
  | .tryStore => ({ m with owner := ownerId }, .idle, some (.tryLock, .ok))
  | .unlockLoad =>
    if m.owner ≠ ownerId then (m, .idle, some (.unlock, .eperm)) else (m, .unlockOwner, none)
  | .unlockOwner => ({ m with owner := 0 }, .unlockLocked, none)
  | .unlockLocked => ({ m with locked := 0 }, .idle, some (.unlock, .ok))

/-- Only the last store of an unlock returns `MCS_SYNC_OK` from it. -/
theorem eq_unlockLocked_of_access {ownerId : UInt64} {m : Mutex} {pc : MutexPc}
    (h : (access ownerId m pc).2.2 = some (.unlock, .ok)) : pc = .unlockLocked := by
  revert h
  fun_cases access ownerId m pc <;> simp

/-- `MCS_SYNC_EDEADLK` comes from the load after a failed exchange, which has found the caller. -/
theorem owner_eq_of_access {ownerId : UInt64} {m : Mutex} {pc : MutexPc}
    (h : (access ownerId m pc).2.2 = some (.tryLock, .edeadlk)) : m.owner = ownerId := by
  revert h
  fun_cases access ownerId m pc <;> simp [*]

/-- The accesses of one thread until its call returns. -/
def solo (ownerId : UInt64) : ℕ → Mutex → MutexPc → Option (Status × Mutex)
  | 0, _, _ => none
  | fuel + 1, m, pc =>
    match access ownerId m pc with
    | (m', _, some (_, status)) => some (status, m')
    | (m', pc', none) => solo ownerId fuel m' pc'

theorem solo_tryLock {ownerId : UInt64} (h : ownerId ≠ 0) (m : Mutex) :
    solo ownerId 2 m MutexCall.tryLock.entry = some (mutexTryLock m ownerId) := by
  by_cases hlocked : m.locked = 0
  · simp [solo, access, MutexCall.entry, mutexTryLock, h, hlocked]
  · by_cases howner : m.owner = ownerId
    · simp [solo, access, MutexCall.entry, mutexTryLock, h, hlocked, howner]
    · simp [solo, access, MutexCall.entry, mutexTryLock, h, hlocked, howner]

theorem solo_unlock {ownerId : UInt64} (h : ownerId ≠ 0) (m : Mutex) :
    solo ownerId 3 m MutexCall.unlock.entry = some (mutexUnlock m ownerId) := by
  by_cases howner : m.owner = ownerId
  · simp [solo, access, MutexCall.entry, mutexUnlock, h, howner]
  · simp [solo, access, MutexCall.entry, mutexUnlock, h, howner]

/-! ## Interleavings -/

/-- The mutex and the threads that use it. -/
structure MutexSystem (τ : Type) where
  mutex : Mutex
  pc : τ → MutexPc
  /-- The thread is between an acquisition that returned `MCS_SYNC_OK` and the return of the
  matching unlock. -/
  holds : τ → Bool

/-- Whether a thread holds the mutex after a return. -/
def holdsAfter (ret : Option (MutexCall × Status)) (before : Bool) : Bool :=
  if ret = some (.tryLock, .ok) then true
  else if ret = some (.unlock, .ok) then false
  else before

namespace MutexSystem

variable {τ : Type}

/-- The mutex as `mcs_mutex_init` leaves it, and no thread in a call. -/
def init (τ : Type) : MutexSystem τ where
  mutex := mutexInit
  pc _ := .idle
  holds _ := false

section Step

variable [DecidableEq τ]

/-- The state after thread `t` has done something. -/
def set (s : MutexSystem τ) (t : τ) (m : Mutex) (p : MutexPc) (b : Bool) : MutexSystem τ where
  mutex := m
  pc := Function.update s.pc t p
  holds := Function.update s.holds t b

/-- A thread makes a call, or performs the next access of the call it is in. -/
inductive Step (id : τ → UInt64) : MutexSystem τ → MutexSystem τ → Prop
  | call {s : MutexSystem τ} (t : τ) (c : MutexCall) (hpc : s.pc t = .idle) :
    Step id s (s.set t s.mutex c.entry (s.holds t))
  | access {s : MutexSystem τ} (t : τ) :
    Step id s (s.set t (access (id t) s.mutex (s.pc t)).1 (Sync.access (id t) s.mutex (s.pc t)).2.1
      (holdsAfter (Sync.access (id t) s.mutex (s.pc t)).2.2 (s.holds t)))

/-- The states that an interleaving reaches. -/
def Reachable (id : τ → UInt64) (s : MutexSystem τ) : Prop :=
  Relation.ReflTransGen (Step id) (init τ) s

end Step

/-- The thread holds the mutex, or has won the exchange and is about to. -/
def Owns (s : MutexSystem τ) (t : τ) : Prop := s.holds t = true ∨ s.pc t = .tryStore

/-- The thread holds the mutex and has not yet given up its ownership. -/
def IsOwner (s : MutexSystem τ) (t : τ) : Prop := s.holds t = true ∧ s.pc t ≠ .unlockLocked

structure Inv (id : τ → UInt64) (s : MutexSystem τ) : Prop where
  exclusive : ∀ t u, s.Owns t → s.Owns u → t = u
  locked_iff : s.mutex.locked ≠ 0 ↔ ∃ t, s.Owns t
  owner_of : ∀ t, s.IsOwner t → s.mutex.owner = id t
  exists_owner : s.mutex.owner ≠ 0 → ∃ t, s.IsOwner t
  tryStore : ∀ t, s.pc t = .tryStore → s.holds t = false
  unlocking : ∀ t, s.pc t = .unlockOwner ∨ s.pc t = .unlockLocked → s.holds t = true

theorem inv_init (id : τ → UInt64) : Inv id (init τ) where
  exclusive := fun _ _ h _ ↦ by rcases h with h | h <;> cases h
  locked_iff := ⟨fun h ↦ absurd rfl h, fun ⟨_, h⟩ ↦ by rcases h with h | h <;> cases h⟩
  owner_of := fun _ h ↦ by cases h.1
  exists_owner := fun h ↦ absurd rfl h
  tryStore := fun _ _ ↦ rfl
  unlocking := fun _ h ↦ by rcases h with h | h <;> cases h

theorem IsOwner.owns {s : MutexSystem τ} {t : τ} (h : s.IsOwner t) : s.Owns t := Or.inl h.1

variable [DecidableEq τ] {id : τ → UInt64} {s : MutexSystem τ} {t : τ} {m : Mutex} {p : MutexPc}
  {b : Bool}

@[simp] theorem mutex_set : (s.set t m p b).mutex = m := rfl

@[simp] theorem pc_set_self : (s.set t m p b).pc t = p := Function.update_self _ _ _

@[simp] theorem holds_set_self : (s.set t m p b).holds t = b := Function.update_self _ _ _

theorem pc_set_of_ne {u : τ} (h : u ≠ t) : (s.set t m p b).pc u = s.pc u :=
  Function.update_of_ne h _ _

theorem holds_set_of_ne {u : τ} (h : u ≠ t) : (s.set t m p b).holds u = s.holds u :=
  Function.update_of_ne h _ _

theorem owns_set_self : (s.set t m p b).Owns t ↔ b = true ∨ p = .tryStore := by
  rw [Owns, holds_set_self, pc_set_self]

theorem owns_set_of_ne {u : τ} (h : u ≠ t) : (s.set t m p b).Owns u ↔ s.Owns u := by
  rw [Owns, holds_set_of_ne h, pc_set_of_ne h, Owns]

theorem isOwner_set_self : (s.set t m p b).IsOwner t ↔ b = true ∧ p ≠ .unlockLocked := by
  rw [IsOwner, holds_set_self, pc_set_self]

theorem isOwner_set_of_ne {u : τ} (h : u ≠ t) : (s.set t m p b).IsOwner u ↔ s.IsOwner u := by
  rw [IsOwner, holds_set_of_ne h, pc_set_of_ne h, IsOwner]

/-- The two conditions on a single thread have to be looked at for the thread that moved. -/
private theorem Inv.local_set (h : Inv id s) (htry : p = .tryStore → b = false)
    (hunlock : p = .unlockOwner ∨ p = .unlockLocked → b = true) :
    (∀ u, (s.set t m p b).pc u = .tryStore → (s.set t m p b).holds u = false) ∧
    ∀ u, (s.set t m p b).pc u = .unlockOwner ∨ (s.set t m p b).pc u = .unlockLocked →
      (s.set t m p b).holds u = true := by
  refine ⟨fun u ↦ ?_, fun u ↦ ?_⟩
  all_goals
    by_cases hu : u = t
    · rw [hu, pc_set_self, holds_set_self]
      assumption
    · rw [pc_set_of_ne hu, holds_set_of_ne hu]
      first | exact h.tryStore u | exact h.unlocking u

theorem Inv.quiet (h : Inv id s) (htry : p = .tryStore → b = false)
    (hunlock : p = .unlockOwner ∨ p = .unlockLocked → b = true)
    (howns : (b = true ∨ p = .tryStore) ↔ s.Owns t)
    (howner : (b = true ∧ p ≠ .unlockLocked) ↔ s.IsOwner t) :
    Inv id (s.set t s.mutex p b) := by
  have howns' : ∀ u, (s.set t s.mutex p b).Owns u ↔ s.Owns u := by
    intro u
    by_cases hu : u = t
    · rw [hu, owns_set_self, howns]
    · exact owns_set_of_ne hu
  have howner' : ∀ u, (s.set t s.mutex p b).IsOwner u ↔ s.IsOwner u := by
    intro u
    by_cases hu : u = t
    · rw [hu, isOwner_set_self, howner]
    · exact isOwner_set_of_ne hu
  obtain ⟨h1, h2⟩ := h.local_set (t := t) (m := s.mutex) htry hunlock
  refine ⟨fun u v hu hv ↦ ?_, ?_, fun u hu ↦ ?_, fun hne ↦ ?_, h1, h2⟩
  · exact h.exclusive u v ((howns' u).mp hu) ((howns' v).mp hv)
  · simp only [howns', mutex_set]
    exact h.locked_iff
  · exact h.owner_of u ((howner' u).mp hu)
  · simp only [howner']
    exact h.exists_owner hne

/-- Winning the exchange: no thread owned the mutex. -/
theorem Inv.tryCas (h : Inv id s) (hfree : s.mutex.locked = 0) :
    Inv id (s.set t { s.mutex with locked := 1 } .tryStore (s.holds t)) := by
  have hnone : ∀ u, ¬s.Owns u := fun u hu ↦ h.locked_iff.mpr ⟨u, hu⟩ hfree
  have hfalse : s.holds t = false := Bool.eq_false_iff.mpr fun ht ↦ hnone t (Or.inl ht)
  have honly : ∀ u, (s.set t { s.mutex with locked := 1 } .tryStore (s.holds t)).Owns u →
      u = t := by
    intro u hu
    by_contra hne
    exact hnone u ((owns_set_of_ne hne).mp hu)
  have hnoOwner : ∀ u, ¬(s.set t { s.mutex with locked := 1 } .tryStore (s.holds t)).IsOwner u := by
    intro u hu
    obtain rfl := honly u hu.owns
    rw [isOwner_set_self, hfalse] at hu
    cases hu.1
  obtain ⟨h1, h2⟩ := h.local_set (t := t) (m := { s.mutex with locked := 1 }) (p := .tryStore)
    (fun _ ↦ hfalse) (fun hp ↦ by rcases hp with hp | hp <;> cases hp)
  refine ⟨fun u v hu hv ↦ ?_, ?_, fun u hu ↦ absurd hu (hnoOwner u), fun hne ↦ ?_, h1, h2⟩
  · rw [honly u hu, honly v hv]
  · exact iff_of_true (show (1 : UInt32) ≠ 0 by decide) ⟨t, owns_set_self.mpr (Or.inr rfl)⟩
  · obtain ⟨u, hu⟩ := h.exists_owner hne
    exact absurd hu.owns (hnone u)

theorem Inv.tryStored (h : Inv id s) (hpc : s.pc t = .tryStore) :
    Inv id (s.set t { s.mutex with owner := id t } .idle true) := by
  have ht : s.Owns t := Or.inr hpc
  have howns : ∀ u, (s.set t { s.mutex with owner := id t } .idle true).Owns u ↔ s.Owns u := by
    intro u
    by_cases hu : u = t
    · rw [hu, owns_set_self]
      exact iff_of_true (Or.inl rfl) ht
    · exact owns_set_of_ne hu
  obtain ⟨h1, h2⟩ := h.local_set (t := t) (m := { s.mutex with owner := id t }) (p := .idle)
    (b := true) nofun (fun _ ↦ rfl)
  refine ⟨fun u v hu hv ↦ ?_, ?_, fun u hu ↦ ?_, fun _ ↦ ⟨t, ?_⟩, h1, h2⟩
  · exact h.exclusive u v ((howns u).mp hu) ((howns v).mp hv)
  · simp only [howns, mutex_set]
    exact h.locked_iff
  · rw [h.exclusive u t ((howns u).mp hu.owns) ht]
    rfl
  · exact isOwner_set_self.mpr ⟨rfl, nofun⟩

theorem Inv.unlockOwner (h : Inv id s) (hpc : s.pc t = .unlockOwner) :
    Inv id (s.set t { s.mutex with owner := 0 } .unlockLocked (s.holds t)) := by
  have hheld : s.holds t = true := h.unlocking t (Or.inl hpc)
  have howns : ∀ u,
      (s.set t { s.mutex with owner := 0 } .unlockLocked (s.holds t)).Owns u ↔ s.Owns u := by
    intro u
    by_cases hu : u = t
    · rw [hu, owns_set_self]
      exact iff_of_true (Or.inl hheld) (Or.inl hheld)
    · exact owns_set_of_ne hu
  obtain ⟨h1, h2⟩ := h.local_set (t := t) (m := { s.mutex with owner := 0 }) (p := .unlockLocked)
    (b := s.holds t) nofun (fun _ ↦ hheld)
  refine ⟨fun u v hu hv ↦ ?_, ?_, fun u hu ↦ ?_, fun hne ↦ absurd rfl hne, h1, h2⟩
  · exact h.exclusive u v ((howns u).mp hu) ((howns v).mp hv)
  · simp only [howns, mutex_set]
    exact h.locked_iff
  · -- the only thread that could be the owner has just stopped to be it
    obtain rfl := h.exclusive u t ((howns u).mp hu.owns) (Or.inl hheld)
    exact absurd rfl (isOwner_set_self.mp hu).2

theorem Inv.unlockLocked (h : Inv id s) (hpc : s.pc t = .unlockLocked) :
    Inv id (s.set t { s.mutex with locked := 0 } .idle false) := by
  have ht : s.Owns t := Or.inl (h.unlocking t (Or.inr hpc))
  have hnone : ∀ u, ¬(s.set t { s.mutex with locked := 0 } .idle false).Owns u := by
    intro u hu
    by_cases hut : u = t
    · rw [hut, owns_set_self] at hu
      rcases hu with hu | hu <;> cases hu
    · exact hut (h.exclusive u t ((owns_set_of_ne hut).mp hu) ht)
  obtain ⟨h1, h2⟩ := h.local_set (t := t) (m := { s.mutex with locked := 0 }) (p := .idle)
    (b := false) nofun (fun hp ↦ by rcases hp with hp | hp <;> cases hp)
  refine ⟨fun u v hu _ ↦ absurd hu (hnone u), iff_of_false (fun h ↦ h rfl) fun ⟨u, hu⟩ ↦ hnone u hu,
    fun u hu ↦ absurd hu.owns (hnone u), fun hne ↦ ?_, h1, h2⟩
  -- the owner was cleared by the store before
  obtain ⟨u, hu⟩ := h.exists_owner hne
  obtain rfl := h.exclusive u t hu.owns ht
  exact absurd hpc hu.2

omit [DecidableEq τ] in
theorem Inv.isOwner (h : Inv id s) (hinj : Function.Injective id) (hne : ∀ u, id u ≠ 0)
    (howner : s.mutex.owner = id t) : s.IsOwner t := by
  obtain ⟨u, hu⟩ := h.exists_owner (by rw [howner]; exact hne t)
  have hut : u = t := hinj ((h.owner_of u hu).symm.trans howner)
  exact hut ▸ hu

theorem Inv.access (h : Inv id s) (hinj : Function.Injective id) (hne : ∀ u, id u ≠ 0) (t : τ) :
    Inv id (s.set t (Sync.access (id t) s.mutex (s.pc t)).1
      (Sync.access (id t) s.mutex (s.pc t)).2.1
      (holdsAfter (Sync.access (id t) s.mutex (s.pc t)).2.2 (s.holds t))) := by
  -- a step that leaves the mutex alone and ends at `q` keeps whether the thread holds it
  have hquiet : ∀ q, q ≠ .tryStore → q ≠ .unlockLocked → s.pc t ≠ .tryStore →
      s.pc t ≠ .unlockLocked → (q = .unlockOwner → s.holds t = true) →
      Inv id (s.set t s.mutex q (s.holds t)) := by
    intro q hq hq' hpc hpc' hown
    refine h.quiet (fun h ↦ absurd h hq) (fun h ↦ h.elim hown fun h ↦ absurd h hq') ?_ ?_
    · simp [Owns, hq, hpc]
    · simp [IsOwner, hq', hpc']
  cases hpc : s.pc t with
  | idle => exact hquiet .idle nofun nofun (by simp [hpc]) (by simp [hpc]) nofun
  | tryCas =>
    by_cases hfree : s.mutex.locked = 0
    · simp only [Sync.access, if_pos hfree]
      exact h.tryCas hfree
    · simp only [Sync.access, if_neg hfree]
      exact hquiet .tryLoad nofun nofun (by simp [hpc]) (by simp [hpc]) nofun
  | tryLoad =>
    by_cases howner : s.mutex.owner = id t
    · simp only [Sync.access, if_pos howner]
      exact hquiet .idle nofun nofun (by simp [hpc]) (by simp [hpc]) nofun
    · simp only [Sync.access, if_neg howner]
      exact hquiet .idle nofun nofun (by simp [hpc]) (by simp [hpc]) nofun
  | tryStore => exact h.tryStored hpc
  | unlockLoad =>
    by_cases howner : s.mutex.owner ≠ id t
    · simp only [Sync.access, if_pos howner]
      exact hquiet .idle nofun nofun (by simp [hpc]) (by simp [hpc]) nofun
    · simp only [Sync.access, if_neg howner]
      exact hquiet .unlockOwner nofun nofun (by simp [hpc]) (by simp [hpc])
        fun _ ↦ (h.isOwner hinj hne (not_not.mp howner)).1
  | unlockOwner => exact h.unlockOwner hpc
  | unlockLocked => exact h.unlockLocked hpc

theorem Inv.call (h : Inv id s) (hpc : s.pc t = .idle) (c : MutexCall) :
    Inv id (s.set t s.mutex c.entry (s.holds t)) := by
  have hentry : c.entry ≠ .tryStore ∧ c.entry ≠ .unlockOwner ∧ c.entry ≠ .unlockLocked := by
    cases c <;> exact ⟨nofun, nofun, nofun⟩
  refine h.quiet (fun h ↦ absurd h hentry.1)
    (fun h ↦ h.elim (fun h ↦ absurd h hentry.2.1) fun h ↦ absurd h hentry.2.2) ?_ ?_
  · simp [Owns, hentry.1, hpc]
  · simp [IsOwner, hentry.2.2, hpc]

theorem Reachable.inv (h : Reachable id s) (hinj : Function.Injective id) (hne : ∀ u, id u ≠ 0) :
    Inv id s := by
  induction h with
  | refl => exact inv_init id
  | tail _ hstep ih =>
    cases hstep with
    | call t c hpc => exact ih.call hpc c
    | access t => exact ih.access hinj hne t

/-- **The mutex is exclusive.** In every state that an interleaving of the threads' accesses
reaches, at most one thread holds the mutex, and if `locked` is 0 so is `owner`. An unlock returns
`MCS_SYNC_OK`, and an acquisition `MCS_SYNC_EDEADLK`, only to the thread that holds the mutex; the
unlock of a thread that does not hold it returns `MCS_SYNC_EPERM` at its first access and changes
neither field. -/
theorem mutex_exclusion (hinj : Function.Injective id) (hne : ∀ t, id t ≠ 0)
    (h : Reachable id s) :
    (∀ t u, s.holds t = true → s.holds u = true → t = u) ∧
    (∀ t, (Sync.access (id t) s.mutex (s.pc t)).2.2 = some (.unlock, .ok) → s.holds t = true) ∧
    (∀ t, s.pc t = .unlockLoad → s.holds t = false →
      Sync.access (id t) s.mutex (s.pc t) = (s.mutex, .idle, some (.unlock, .eperm))) ∧
    (∀ t, (Sync.access (id t) s.mutex (s.pc t)).2.2 = some (.tryLock, .edeadlk) →
      s.holds t = true) ∧
    (s.mutex.locked = 0 → s.mutex.owner = 0) := by
  have hinv := h.inv hinj hne
  refine ⟨fun t u ht hu ↦ hinv.exclusive t u (Or.inl ht) (Or.inl hu), fun t hret ↦ ?_,
    fun t hpc hheld ↦ ?_, fun t hret ↦ ?_, fun hlocked ↦ ?_⟩
  · exact hinv.unlocking t (Or.inr (eq_unlockLocked_of_access hret))
  · have howner : s.mutex.owner ≠ id t := fun heq ↦ by
      rw [(hinv.isOwner hinj hne heq).1] at hheld
      cases hheld
    rw [hpc, Sync.access, if_pos howner]
  · exact (hinv.isOwner hinj hne (owner_eq_of_access hret)).1
  · by_contra howner
    obtain ⟨t, ht⟩ := hinv.exists_owner howner
    exact hinv.locked_iff.mpr ⟨t, ht.owns⟩ hlocked

/-- Two threads with ids 1 and 2: the first holds the mutex, the second is about to unlock it. -/
theorem mutex_exclusion_two :
    let id : Bool → UInt64 := fun t ↦ if t then 1 else 2
    ∃ s : MutexSystem Bool, Reachable id s ∧ s.holds true = true ∧ s.pc false = .unlockLoad ∧
      Sync.access 2 s.mutex (s.pc false) = (s.mutex, .idle, some (.unlock, .eperm)) := by
  intro id
  have hinj : Function.Injective id := fun t u ↦ by revert t u; decide
  have hne : ∀ t, id t ≠ 0 := by decide
  have hrun : ∃ s : MutexSystem Bool, Reachable id s ∧ s.holds true = true ∧
      s.holds false = false ∧ s.pc false = .unlockLoad :=
    ⟨_, (((Relation.ReflTransGen.refl.tail (Step.call true .tryLock rfl)).tail
      (Step.access true)).tail (Step.access true)).tail (Step.call false .unlock rfl), rfl,
        rfl, rfl⟩
  obtain ⟨s, hreach, htrue, hfalse, hpc⟩ := hrun
  obtain ⟨-, -, heperm, -⟩ := mutex_exclusion hinj hne hreach
  exact ⟨s, hreach, htrue, hpc, heperm false hpc hfalse⟩

end MutexSystem

end Sync

end Mcsos
