import Mathlib.Algebra.BigOperators.Group.Finset.Basic
import Mathlib.Logic.Function.Basic
import Mcsos.Sync.Spinlock

/-!
# A counter under a spinlock

Any number of threads, each of which repeats: take the spinlock, read a shared counter, write the
value plus one, release the lock. The counter is not atomic, so the read and the write are separate
accesses. A thread that loses the exchange of `mcs_spin_try_lock` has still stored 1 into the lock
word, and polls it with loads before it tries again. The accesses of all threads are interleaved
arbitrarily; a schedule is the list of the threads in the order in which they act.

The invariant ties the program counters to the lock word and to the counter. A thread between its
exchange and its unlock keeps the word nonzero, so that nobody else wins the exchange; the value
that it has read is still that of the counter; and the counter is the start value plus the number
of writes, which a thread has made once more often than it has finished a round while it is about
to unlock.
-/

namespace Mcsos

namespace Sync

/-- The access that a thread performs next. -/
inductive WorkerPc where
  /-- The exchange of `mcs_spin_try_lock`. -/
  | exchange
  /-- The load with which `mcs_spin_lock` polls. -/
  | poll
  /-- The read of the counter. -/
  | read
  /-- The write of the counter, after `v` was read. -/
  | write (v : UInt64)
  /-- The store of `mcs_spin_unlock`. -/
  | unlock
  /-- No round is left. -/
  | done
  deriving DecidableEq

/-- A thread: where it is, and how many rounds it has finished. -/
structure Worker where
  pc : WorkerPc
  finished : ℕ

/-- What the threads share. -/
structure Shared where
  lock : Spinlock
  counter : UInt64

/-- The head of the loop over the rounds. -/
def loopHead (rounds finished : ℕ) : WorkerPc := if finished = rounds then .done else .exchange

/-- The next access of a thread. -/
def workerAccess (rounds : ℕ) (m : Shared) (w : Worker) : Shared × Worker :=
  match w.pc with
  | .exchange =>
    ({ m with lock := (spinTryLock m.lock).2 },
      { w with pc := if (spinTryLock m.lock).1 then .read else .poll })
  | .poll => (m, { w with pc := if spinIsLocked m.lock then .poll else .exchange })
  | .read => (m, { w with pc := .write m.counter })
  | .write v => ({ m with counter := v + 1 }, { w with pc := .unlock })
  | .unlock =>
    ({ m with lock := spinUnlock m.lock }, ⟨loopHead rounds (w.finished + 1), w.finished + 1⟩)
  | .done => (m, w)

/-- The threads and what they share. -/
structure CounterSystem (τ : Type) where
  shared : Shared
  worker : τ → Worker

namespace CounterSystem

variable {τ : Type} [DecidableEq τ] {rounds : τ → ℕ} {start : UInt64} {s : CounterSystem τ} {t : τ}

/-- The lock as `mcs_spin_init` leaves it, and every thread before its first round. -/
def init (classId : UInt32) (start : UInt64) (rounds : τ → ℕ) : CounterSystem τ where
  shared := ⟨spinInit classId, start⟩
  worker t := ⟨loopHead (rounds t) 0, 0⟩

/-- The state after thread `t` has changed what is shared and itself. -/
def set (s : CounterSystem τ) (t : τ) (m : Shared) (w : Worker) : CounterSystem τ :=
  ⟨m, Function.update s.worker t w⟩

theorem worker_set_self {m : Shared} {w : Worker} : (s.set t m w).worker t = w :=
  Function.update_self _ _ _

theorem worker_set_of_ne {m : Shared} {w : Worker} {u : τ} (h : u ≠ t) :
    (s.set t m w).worker u = s.worker u := Function.update_of_ne h _ _

/-- Thread `t` performs its next access. -/
def advance (rounds : τ → ℕ) (s : CounterSystem τ) (t : τ) : CounterSystem τ :=
  s.set t (workerAccess (rounds t) s.shared (s.worker t)).1
    (workerAccess (rounds t) s.shared (s.worker t)).2

/-- The state after the accesses of a schedule. -/
def runSchedule (rounds : τ → ℕ) (s : CounterSystem τ) (schedule : List τ) : CounterSystem τ :=
  schedule.foldl (advance rounds) s

end CounterSystem

/-- The thread is between its successful exchange and its unlock. -/
def WorkerPc.Inside : WorkerPc → Prop
  | .read | .write _ | .unlock => True
  | _ => False

/-- How often the thread has written the counter. -/
def Worker.writes (w : Worker) : ℕ := w.finished + if w.pc = .unlock then 1 else 0

theorem Worker.writes_eq {w : Worker} (h : w.pc ≠ .unlock) : w.writes = w.finished := by
  rw [writes, if_neg h, Nat.add_zero]

theorem loopHead_cases (rounds finished : ℕ) :
    loopHead rounds finished = .done ∧ finished = rounds ∨
      loopHead rounds finished = .exchange := by
  rw [loopHead]
  split_ifs with h
  · exact .inl ⟨rfl, h⟩
  · exact .inr rfl

theorem not_inside_loopHead (rounds finished : ℕ) : ¬(loopHead rounds finished).Inside := by
  rcases loopHead_cases rounds finished with ⟨h, -⟩ | h
  · rw [h]
    exact not_false
  · rw [h]
    exact not_false

namespace CounterSystem

variable {τ : Type} [DecidableEq τ] [Fintype τ] {rounds : τ → ℕ} {start : UInt64}
  {s : CounterSystem τ} {t : τ}

structure Inv (start : UInt64) (rounds : τ → ℕ) (s : CounterSystem τ) : Prop where
  exclusive : ∀ t u, (s.worker t).pc.Inside → (s.worker u).pc.Inside → t = u
  locked : ∀ t, (s.worker t).pc.Inside → s.shared.lock.locked ≠ 0
  value : ∀ t v, (s.worker t).pc = .write v → v = s.shared.counter
  counter : s.shared.counter = start + UInt64.ofNat (∑ t, (s.worker t).writes)
  finished : ∀ t, (s.worker t).pc = .done → (s.worker t).finished = rounds t

omit [DecidableEq τ] in
theorem inv_init (classId : UInt32) : Inv start rounds (init classId start rounds) where
  exclusive t _ h := absurd h (not_inside_loopHead (rounds t) 0)
  locked t h := absurd h (not_inside_loopHead (rounds t) 0)
  value t v h := by
    have hnot := not_inside_loopHead (rounds t) 0
    rw [show loopHead (rounds t) 0 = .write v from h] at hnot
    exact absurd trivial hnot
  counter := by
    have hnone : ∀ t : τ, ((init classId start rounds).worker t).writes = 0 := by
      intro t
      have hpc : loopHead (rounds t) 0 ≠ .unlock := fun h ↦ by
        have hnot := not_inside_loopHead (rounds t) 0
        rw [h] at hnot
        exact hnot trivial
      rw [Worker.writes, init, if_neg hpc]
    rw [Finset.sum_eq_zero fun t _ ↦ hnone t]
    exact (UInt64.add_zero start).symm
  finished t h := by
    rcases loopHead_cases (rounds t) 0 with ⟨-, heq⟩ | hne
    · exact heq
    · cases hne.symm.trans h

theorem sum_writes_set {m : Shared} {w : Worker} {d : ℕ}
    (h : w.writes = (s.worker t).writes + d) :
    ∑ u, ((s.set t m w).worker u).writes = ∑ u, (s.worker u).writes + d := by
  rw [← Finset.add_sum_erase _ _ (Finset.mem_univ t), worker_set_self, h,
    ← Finset.add_sum_erase _ (fun u ↦ (s.worker u).writes) (Finset.mem_univ t)]
  have hrest : ∑ u ∈ Finset.univ.erase t, ((s.set t m w).worker u).writes =
      ∑ u ∈ Finset.univ.erase t, (s.worker u).writes :=
    Finset.sum_congr rfl fun u hu ↦ by rw [worker_set_of_ne (Finset.ne_of_mem_erase hu)]
  rw [hrest, Nat.add_right_comm]

/-- What a thread may do. It goes inside only if nobody else is there, and while somebody is inside
the lock word is not zero. The counter changes by the number of its writes, and only while nobody
else is about to write. -/
theorem Inv.set (h : Inv start rounds s) {m : Shared} {w : Worker} {d : ℕ}
    (henter : w.pc.Inside → ∀ u ≠ t, ¬(s.worker u).pc.Inside)
    (hlocked : w.pc.Inside → m.lock.locked ≠ 0)
    (hothers : (∃ u ≠ t, (s.worker u).pc.Inside) →
      m.lock.locked ≠ 0 ∧ m.counter = s.shared.counter)
    (hvalue : ∀ v, w.pc = .write v → v = m.counter)
    (hcounter : m.counter = s.shared.counter + UInt64.ofNat d)
    (hwrites : w.writes = (s.worker t).writes + d)
    (hfinished : w.pc = .done → w.finished = rounds t) : Inv start rounds (s.set t m w) where
  exclusive u v hu hv := by
    by_cases hut : u = t
    · by_cases hvt : v = t
      · rw [hut, hvt]
      · rw [hut, worker_set_self] at hu
        rw [worker_set_of_ne hvt] at hv
        exact absurd hv (henter hu v hvt)
    · rw [worker_set_of_ne hut] at hu
      by_cases hvt : v = t
      · rw [hvt, worker_set_self] at hv
        exact absurd hu (henter hv u hut)
      · rw [worker_set_of_ne hvt] at hv
        exact h.exclusive u v hu hv
  locked u hu := by
    by_cases hut : u = t
    · rw [hut, worker_set_self] at hu
      exact hlocked hu
    · rw [worker_set_of_ne hut] at hu
      exact (hothers ⟨u, hut, hu⟩).1
  value u v hu := by
    by_cases hut : u = t
    · rw [hut, worker_set_self] at hu
      exact hvalue v hu
    · rw [worker_set_of_ne hut] at hu
      have hinside : (s.worker u).pc.Inside := by
        rw [hu]
        trivial
      exact (h.value u v hu).trans (hothers ⟨u, hut, hinside⟩).2.symm
  counter := by
    rw [sum_writes_set hwrites, UInt64.ofNat_add, ← UInt64.add_assoc, ← h.counter]
    exact hcounter
  finished u hu := by
    by_cases hut : u = t
    · rw [hut, worker_set_self] at hu ⊢
      exact hfinished hu
    · rw [worker_set_of_ne hut] at hu ⊢
      exact h.finished u hu

omit [DecidableEq τ] in
theorem Inv.alone (h : Inv start rounds s) (ht : (s.worker t).pc.Inside) :
    ∀ u ≠ t, ¬(s.worker u).pc.Inside := fun u hne hu ↦ hne (h.exclusive u t hu ht)

theorem Inv.outside (h : Inv start rounds s) (lock : Spinlock) {pc : WorkerPc}
    (hlock : s.shared.lock.locked ≠ 0 → lock.locked ≠ 0) (hpc : (s.worker t).pc ≠ .unlock)
    (hout : pc = .exchange ∨ pc = .poll) :
    Inv start rounds (s.set t { s.shared with lock := lock } { s.worker t with pc := pc }) := by
  have hinside : ¬pc.Inside := by
    rcases hout with rfl | rfl
    · exact not_false
    · exact not_false
  refine h.set (d := 0) (fun hin ↦ absurd hin hinside) (fun hin ↦ absurd hin hinside) ?_ ?_
    (UInt64.add_zero _).symm ?_ ?_
  · rintro ⟨u, -, hu⟩
    exact ⟨hlock (h.locked u hu), rfl⟩
  · rintro v rfl
    exact absurd trivial hinside
  · rw [Worker.writes_eq hpc, Worker.writes_eq]
    · rfl
    · rintro rfl
      exact hinside trivial
  · rintro rfl
    rcases hout with hpc | hpc
    · cases hpc
    · cases hpc

/-- The exchange is won: the word was zero, so nobody is inside. -/
theorem Inv.enter (h : Inv start rounds s) (hpc : (s.worker t).pc = .exchange)
    (hfree : s.shared.lock.locked = 0) :
    Inv start rounds (s.set t { s.shared with lock := (spinTryLock s.shared.lock).2 }
      { s.worker t with pc := .read }) := by
  have hnone : ∀ u, ¬(s.worker u).pc.Inside := fun u hu ↦ h.locked u hu hfree
  refine h.set (d := 0) (fun _ u _ ↦ hnone u) (fun _ ↦ ?_) ?_ nofun (UInt64.add_zero _).symm ?_
    nofun
  · rw [locked_spinTryLock]
    decide
  · rintro ⟨u, -, hu⟩
    exact absurd hu (hnone u)
  · rw [Worker.writes, Worker.writes, hpc]
    rfl

theorem Inv.read (h : Inv start rounds s) (hpc : (s.worker t).pc = .read) :
    Inv start rounds (s.set t s.shared { s.worker t with pc := .write s.shared.counter }) := by
  have hin : (s.worker t).pc.Inside := by rw [hpc]; trivial
  refine h.set (d := 0) (fun _ ↦ h.alone hin) (fun _ ↦ h.locked t hin) ?_ ?_
    (UInt64.add_zero _).symm ?_ nofun
  · rintro ⟨u, hne, hu⟩
    exact absurd hu (h.alone hin u hne)
  · intro v hv
    cases hv
    rfl
  · rw [Worker.writes, Worker.writes, hpc]
    rfl

/-- The write: the value is still that of the counter. -/
theorem Inv.write (h : Inv start rounds s) {v : UInt64} (hpc : (s.worker t).pc = .write v) :
    Inv start rounds (s.set t { s.shared with counter := v + 1 }
      { s.worker t with pc := .unlock }) := by
  have hin : (s.worker t).pc.Inside := by rw [hpc]; trivial
  refine h.set (d := 1) (fun _ ↦ h.alone hin) (fun _ ↦ h.locked t hin) ?_ nofun ?_ ?_ nofun
  · rintro ⟨u, hne, hu⟩
    exact absurd hu (h.alone hin u hne)
  · rw [h.value t v hpc]
    rfl
  · rw [Worker.writes, Worker.writes, hpc]
    rfl

theorem Inv.unlock (h : Inv start rounds s) (hpc : (s.worker t).pc = .unlock) :
    Inv start rounds (s.set t { s.shared with lock := spinUnlock s.shared.lock }
      ⟨loopHead (rounds t) ((s.worker t).finished + 1), (s.worker t).finished + 1⟩) := by
  have hin : (s.worker t).pc.Inside := by rw [hpc]; trivial
  have hhead := loopHead_cases (rounds t) ((s.worker t).finished + 1)
  have hout := not_inside_loopHead (rounds t) ((s.worker t).finished + 1)
  generalize loopHead (rounds t) ((s.worker t).finished + 1) = pc at *
  refine h.set (d := 0) (fun hin' ↦ absurd hin' hout) (fun hin' ↦ absurd hin' hout) ?_ ?_
    (UInt64.add_zero _).symm ?_ ?_
  · rintro ⟨u, hne, hu⟩
    exact absurd hu (h.alone hin u hne)
  · rintro v rfl
    exact absurd trivial hout
  · rw [Worker.writes_eq, Worker.writes, if_pos hpc]
    rintro rfl
    exact hout trivial
  · rintro rfl
    exact hhead.elim And.right nofun

theorem Inv.advance (h : Inv start rounds s) (t : τ) :
    Inv start rounds (s.advance rounds t) := by
  rw [CounterSystem.advance, workerAccess]
  cases hpc : (s.worker t).pc with
  | exchange =>
    dsimp only
    by_cases hwon : (spinTryLock s.shared.lock).1 = true
    · rw [if_pos hwon]
      exact h.enter hpc (spinTryLock_eq_true_iff.mp hwon)
    · rw [if_neg hwon]
      refine h.outside _ (fun _ ↦ ?_) (by rw [hpc]; exact nofun) (.inr rfl)
      rw [locked_spinTryLock]
      decide
  | poll =>
    refine h.outside s.shared.lock id (by rw [hpc]; exact nofun) ?_
    split_ifs with hlocked
    · exact .inr rfl
    · exact .inl rfl
  | read => exact h.read hpc
  | write v => exact h.write hpc
  | unlock => exact h.unlock hpc
  | done =>
    have hself : s.set t s.shared (s.worker t) = s := by
      rw [CounterSystem.set, Function.update_eq_self]
    dsimp only
    rw [hself]
    exact h

theorem Inv.runSchedule (h : Inv start rounds s) (schedule : List τ) :
    Inv start rounds (s.runSchedule rounds schedule) := by
  induction schedule generalizing s with
  | nil => exact h
  | cons t schedule ih => exact ih (h.advance t)

/-- **No update is lost under the spinlock.** For every number of threads and of rounds and every
interleaving of the accesses, at most one thread is between its successful exchange and its unlock,
and once all threads have finished, the counter is the start value plus the number of all rounds. -/
theorem no_lost_update (classId : UInt32) (start : UInt64) (rounds : τ → ℕ) (schedule : List τ) :
    let s := (init classId start rounds).runSchedule rounds schedule
    (∀ t u, (s.worker t).pc.Inside → (s.worker u).pc.Inside → t = u) ∧
      ((∀ t, (s.worker t).pc = .done) →
        s.shared.counter = start + UInt64.ofNat (∑ t, rounds t)) := by
  intro s
  have h : Inv start rounds s := (inv_init classId).runSchedule schedule
  refine ⟨h.exclusive, fun hdone ↦ ?_⟩
  have hwrites : ∀ t, (s.worker t).writes = rounds t := by
    intro t
    have hpc : (s.worker t).pc ≠ .unlock := by
      rw [hdone t]
      exact nofun
    rw [Worker.writes_eq hpc, h.finished t (hdone t)]
  rw [h.counter, Finset.sum_congr rfl fun t _ ↦ hwrites t]

/-- Two threads with one round each; the second one loses the exchange and polls. -/
theorem no_lost_update_two :
    ((init 100 0 fun _ : Bool ↦ 1).runSchedule (fun _ ↦ 1) [true, false, false, true, true, true,
      false, false, false, false, false]).shared.counter = 2 :=
  (no_lost_update 100 0 (fun _ : Bool ↦ 1) [true, false, false, true, true, true, false, false,
    false, false, false]).2 (by decide)

end CounterSystem

end Sync

end Mcsos
