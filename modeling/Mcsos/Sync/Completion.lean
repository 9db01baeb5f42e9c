import Mathlib.Data.Prod.Lex
import Mcsos.Base.Fairness
import Mcsos.Sync.Counter

/-!
# All rounds are completed

A thread that polls a spinlock may be overtaken again and again: `mcs_spin_lock` has no queue. But
who overtakes completes a round, and there are finitely many rounds. So under every fair schedule
all threads complete all their rounds (`fair_schedule_completes`).

The measure is the number of accesses that are still to come if nobody has to wait (`work`), and
then the number of threads whose next access only moves them between the exchange and the poll
(`waiting`). The word of the lock tells which of the two accesses that is.
-/

namespace Mcsos

namespace Sync

/-- The accesses that are left of a round. -/
def WorkerPc.left : WorkerPc → ℕ
  | .read => 2
  | .write _ => 1
  | .unlock => 0
  | _ => 3

/-- The accesses that a thread has still to make if it never waits, and three more. -/
def Worker.work (rounds : ℕ) (w : Worker) : ℕ := 4 * (rounds - w.finished) + w.pc.left

/-- The access of `mcs_spin_lock` that changes nothing but the thread. -/
def Spinlock.waitingPc (lock : Spinlock) : WorkerPc := if lock.locked = 0 then .poll else .exchange

namespace CounterSystem

variable {τ : Type} [DecidableEq τ] [Fintype τ] {rounds : τ → ℕ} {start : UInt64}
  {s : CounterSystem τ} {t : τ} {m : Shared} {w : Worker}

theorem sum_set (f : τ → Worker → ℕ) (s : CounterSystem τ) (t : τ) (m : Shared) (w : Worker) :
    ∑ u, f u ((s.set t m w).worker u) + f t (s.worker t) = ∑ u, f u (s.worker u) + f t w := by
  have hrest : ∑ u ∈ Finset.univ.erase t, f u ((s.set t m w).worker u) =
      ∑ u ∈ Finset.univ.erase t, f u (s.worker u) :=
    Finset.sum_congr rfl fun u hu ↦ by rw [worker_set_of_ne (Finset.ne_of_mem_erase hu)]
  rw [← Finset.add_sum_erase _ _ (Finset.mem_univ t), worker_set_self, hrest,
    ← Finset.add_sum_erase _ (fun u ↦ f u (s.worker u)) (Finset.mem_univ t)]
  omega

def work (rounds : τ → ℕ) (s : CounterSystem τ) : ℕ := ∑ t, (s.worker t).work (rounds t)

def waiting (s : CounterSystem τ) : ℕ :=
  ∑ t, if (s.worker t).pc = s.shared.lock.waitingPc then 1 else 0

def measure (rounds : τ → ℕ) (s : CounterSystem τ) : ℕ ×ₗ ℕ := toLex (s.work rounds, s.waiting)

theorem measure_lt_of_work (h : w.work (rounds t) < (s.worker t).work (rounds t)) :
    measure rounds (s.set t m w) < measure rounds s := by
  have hsum := sum_set (fun u ↦ Worker.work (rounds u)) s t m w
  refine Prod.Lex.toLex_lt_toLex.mpr (.inl ?_)
  rw [work, work]
  omega

theorem measure_lt_of_waiting (hwork : w.work (rounds t) = (s.worker t).work (rounds t))
    (hlock : m.lock.waitingPc = s.shared.lock.waitingPc)
    (hpc : (s.worker t).pc = s.shared.lock.waitingPc) (hpc' : w.pc ≠ s.shared.lock.waitingPc) :
    measure rounds (s.set t m w) < measure rounds s := by
  have hsum := sum_set (fun u ↦ Worker.work (rounds u)) s t m w
  have hwait := sum_set (fun _ v ↦ if v.pc = s.shared.lock.waitingPc then 1 else 0) s t m w
  rw [if_pos hpc, if_neg hpc'] at hwait
  refine Prod.Lex.toLex_lt_toLex.mpr (.inr ⟨?_, ?_⟩)
  · rw [work, work]
    omega
  · have hafter : (s.set t m w).waiting =
        ∑ u, if ((s.set t m w).worker u).pc = s.shared.lock.waitingPc then 1 else 0 := by
      rw [← hlock]
      rfl
    change (s.set t m w).waiting < s.waiting
    rw [hafter, waiting]
    omega

/-! ## Nobody is forgotten -/

/-- A thread that is not done has a round left, and if the lock is taken, somebody is inside. -/
structure Live (rounds : τ → ℕ) (s : CounterSystem τ) : Prop where
  busy : ∀ t, (s.worker t).pc ≠ .done → (s.worker t).finished < rounds t
  held : s.shared.lock.locked ≠ 0 → ∃ t, (s.worker t).pc.Inside

omit [DecidableEq τ] [Fintype τ] in
theorem lt_of_loopHead {n k : ℕ} (hle : k ≤ n) (h : loopHead n k ≠ .done) : k < n := by
  refine lt_of_le_of_ne hle fun heq ↦ h ?_
  rw [loopHead, if_pos heq]

omit [DecidableEq τ] [Fintype τ] in
theorem live_init (classId : UInt32) : Live rounds (init classId start rounds) where
  busy _ h := lt_of_loopHead (Nat.zero_le _) h
  held h := absurd rfl h

omit [Fintype τ] in
/-- A thread changes: it has a round left if it is not done, and it is inside if the lock is taken
and nobody else is. -/
theorem Live.set (h : Live rounds s) (hbusy : w.pc ≠ .done → w.finished < rounds t)
    (hheld : m.lock.locked ≠ 0 → w.pc.Inside ∨ ∃ u ≠ t, (s.worker u).pc.Inside) :
    Live rounds (s.set t m w) where
  busy u hu := by
    by_cases hut : u = t
    · rw [hut, worker_set_self] at hu ⊢
      exact hbusy hu
    · rw [worker_set_of_ne hut] at hu ⊢
      exact h.busy u hu
  held hlocked := by
    rcases hheld hlocked with hin | ⟨u, hne, hin⟩
    · exact ⟨t, by rwa [worker_set_self]⟩
    · exact ⟨u, by rwa [worker_set_of_ne hne]⟩

omit [DecidableEq τ] [Fintype τ] in
theorem Live.other (h : Live rounds s) (hout : ¬(s.worker t).pc.Inside)
    (hlocked : s.shared.lock.locked ≠ 0) : ∃ u ≠ t, (s.worker u).pc.Inside := by
  obtain ⟨u, hu⟩ := h.held hlocked
  exact ⟨u, fun heq ↦ hout (heq ▸ hu), hu⟩

omit [Fintype τ] in
theorem set_self (s : CounterSystem τ) (t : τ) : s.set t s.shared (s.worker t) = s := by
  rw [set, Function.update_eq_self]

/-! ## One access -/

/-- What an access of `t` does: nothing, or it makes the measure smaller. It does the latter if `t`
is inside, and if the lock is free and `t` is not done. -/
structure Advances (rounds : τ → ℕ) (s : CounterSystem τ) (t : τ) (s' : CounterSystem τ) :
    Prop where
  live : Live rounds s'
  eq_or_lt : s' = s ∨ measure rounds s' < measure rounds s
  lt : (s.worker t).pc.Inside ∨ s.shared.lock.locked = 0 ∧ (s.worker t).pc ≠ .done →
    measure rounds s' < measure rounds s

omit [DecidableEq τ] in
theorem Advances.of_lt {s' : CounterSystem τ} (hlive : Live rounds s')
    (hlt : measure rounds s' < measure rounds s) : Advances rounds s t s' :=
  ⟨hlive, .inr hlt, fun _ ↦ hlt⟩

theorem Live.exchange (h : Live rounds s) (hpc : (s.worker t).pc = .exchange) :
    Advances rounds s t (s.set t { s.shared with lock := (spinTryLock s.shared.lock).2 }
      { s.worker t with pc := if (spinTryLock s.shared.lock).1 then .read else .poll }) := by
  have hbusy : (s.worker t).finished < rounds t := h.busy t (by simp [hpc])
  by_cases hfree : s.shared.lock.locked = 0
  · rw [if_pos (spinTryLock_eq_true_iff.mpr hfree)]
    refine .of_lt (h.set (fun _ ↦ hbusy) fun _ ↦ .inl trivial) (measure_lt_of_work ?_)
    rw [Worker.work, Worker.work, hpc]
    exact Nat.lt_succ_self _
  · -- the exchange stores 1 where there is a 1 already
    rw [if_neg (mt spinTryLock_eq_true_iff.mp hfree)]
    have hother := h.other (by rw [hpc]; exact not_false) hfree
    have hword : s.shared.lock.waitingPc = .exchange := if_neg hfree
    refine .of_lt (h.set (fun _ ↦ hbusy) fun _ ↦ .inr hother) (measure_lt_of_waiting ?_ ?_ ?_ ?_)
    · rw [Worker.work, Worker.work, hpc]
      rfl
    · rw [hword]
      rfl
    · rw [hpc, hword]
    · simp [hword]

theorem Live.poll (h : Live rounds s) (hpc : (s.worker t).pc = .poll) :
    Advances rounds s t (s.set t s.shared
      { s.worker t with pc := if spinIsLocked s.shared.lock then .poll else .exchange }) := by
  have hbusy : (s.worker t).finished < rounds t := h.busy t (by simp [hpc])
  by_cases hfree : s.shared.lock.locked = 0
  · have hword : s.shared.lock.waitingPc = .poll := if_pos hfree
    rw [if_neg (by rw [spinIsLocked, hfree]; decide)]
    refine .of_lt (h.set (fun _ ↦ hbusy) fun hlocked ↦ absurd hfree hlocked)
      (measure_lt_of_waiting ?_ rfl ?_ ?_)
    · rw [Worker.work, Worker.work, hpc]
      rfl
    · rw [hpc, hword]
    · simp [hword]
  · have hlocked : spinIsLocked s.shared.lock = true := bne_iff_ne.mpr hfree
    rw [if_pos hlocked, ← hpc, set_self]
    refine ⟨h, .inl rfl, ?_⟩
    rintro (hin | ⟨hzero, -⟩)
    · rw [hpc] at hin
      exact hin.elim
    · exact absurd hzero hfree

/-- The read and the write: the thread stays inside, with one access less to make. -/
theorem Live.inside (h : Live rounds s) (pc : WorkerPc) (hpc : (s.worker t).pc ≠ .done)
    (hin : pc.Inside) (hleft : pc.left < (s.worker t).pc.left) (m : Shared) :
    Advances rounds s t (s.set t m { s.worker t with pc := pc }) := by
  refine .of_lt (h.set (fun _ ↦ h.busy t hpc) fun _ ↦ .inl hin) (measure_lt_of_work ?_)
  rw [Worker.work, Worker.work]
  exact Nat.add_lt_add_left hleft _

theorem Live.unlock (h : Live rounds s) (hpc : (s.worker t).pc = .unlock) :
    Advances rounds s t (s.set t { s.shared with lock := spinUnlock s.shared.lock }
      ⟨loopHead (rounds t) ((s.worker t).finished + 1), (s.worker t).finished + 1⟩) := by
  have hbusy : (s.worker t).finished < rounds t := h.busy t (by simp [hpc])
  have hleft : (loopHead (rounds t) ((s.worker t).finished + 1)).left = 3 := by
    rcases loopHead_cases (rounds t) ((s.worker t).finished + 1) with ⟨hhead, -⟩ | hhead
    · rw [hhead]
      rfl
    · rw [hhead]
      rfl
  refine .of_lt (h.set (fun hdone ↦ lt_of_loopHead hbusy hdone) fun hlocked ↦ absurd rfl hlocked)
    (measure_lt_of_work ?_)
  rw [Worker.work, Worker.work, hpc, hleft]
  change 4 * (rounds t - ((s.worker t).finished + 1)) + 3 < 4 * (rounds t - (s.worker t).finished)
  omega

theorem Live.advance (h : Live rounds s) (t : τ) :
    Advances rounds s t (s.advance rounds t) := by
  rw [CounterSystem.advance, workerAccess]
  cases hpc : (s.worker t).pc with
  | exchange => exact h.exchange hpc
  | poll => exact h.poll hpc
  | read =>
    refine h.inside (.write s.shared.counter) ?_ trivial ?_ _
    · simp [hpc]
    · rw [hpc]
      exact Nat.lt_succ_self 1
  | write v =>
    refine h.inside .unlock ?_ trivial ?_ _
    · simp [hpc]
    · rw [hpc]
      exact Nat.lt_succ_self 0
  | unlock => exact h.unlock hpc
  | done =>
    dsimp only
    rw [set_self]
    refine ⟨h, .inl rfl, ?_⟩
    rintro (hin | ⟨-, hdone⟩)
    · rw [hpc] at hin
      exact hin.elim
    · exact absurd hpc hdone

/-- Unless all threads are done, one of them has an access that makes the measure smaller: the one
that is inside, or if nobody is, any that is not done. -/
theorem Live.exists_lt (h : Live rounds s) (hdone : ¬∀ t, (s.worker t).pc = .done) :
    ∃ t, measure rounds (s.advance rounds t) < measure rounds s := by
  by_cases hin : ∃ t, (s.worker t).pc.Inside
  · obtain ⟨t, ht⟩ := hin
    exact ⟨t, (h.advance t).lt (.inl ht)⟩
  · obtain ⟨t, ht⟩ := not_forall.mp hdone
    have hfree : s.shared.lock.locked = 0 := by
      by_contra hlocked
      exact hin (h.held hlocked)
    exact ⟨t, (h.advance t).lt (.inr ⟨hfree, ht⟩)⟩

omit [Fintype τ] in
theorem advance_of_done (h : ∀ t, (s.worker t).pc = .done) (t : τ) : s.advance rounds t = s := by
  rw [CounterSystem.advance, workerAccess, h t]
  exact set_self s t

omit [DecidableEq τ] in
theorem Inv.counter_of_done (h : Inv start rounds s) (hdone : ∀ t, (s.worker t).pc = .done) :
    s.shared.counter = start + UInt64.ofNat (∑ t, rounds t) := by
  have hwrites (t : τ) : (s.worker t).writes = rounds t := by
    rw [Worker.writes_eq (by simp [hdone t]), h.finished t (hdone t)]
  rw [h.counter, Finset.sum_congr rfl fun t _ ↦ hwrites t]

/-- **Every fair schedule completes.** If each thread is scheduled again and again, then from some
moment on all threads have completed their rounds, and the counter is the start value plus their
number. -/
theorem fair_schedule_completes (classId : UInt32) (start : UInt64) (rounds : τ → ℕ)
    {schedule : ℕ → τ} (hfair : Fair schedule) : ∃ n, ∀ m, n ≤ m →
      let s := (init classId start rounds).runSchedule rounds ((List.range m).map schedule)
      (∀ t, (s.worker t).pc = .done ∧ (s.worker t).finished = rounds t) ∧
        s.shared.counter = start + UInt64.ofNat (∑ t, rounds t) := by
  have hlive : Live rounds (init classId start rounds) := live_init classId
  obtain ⟨n, hdone⟩ := hfair.exists_done hlive (fun s t h ↦ (h.advance t).live)
    (fun s t h ↦ (h.advance t).eq_or_lt) fun s h hnot ↦ h.exists_lt hnot
  refine ⟨n, fun m hle ↦ ?_⟩
  intro s
  have hs : s = after (CounterSystem.advance rounds) (init classId start rounds) schedule n :=
    after_eq_of_le (fun t ↦ advance_of_done hdone t) hle
  have hinv : Inv start rounds s := (inv_init classId).runSchedule _
  rw [← hs] at hdone
  exact ⟨fun t ↦ ⟨hdone t, hinv.finished t (hdone t)⟩, hinv.counter_of_done hdone⟩

/-- Two threads that take turns. -/
theorem fair_schedule_completes_two : ∃ n, ∀ m, n ≤ m →
    ((init 100 0 fun _ : Bool ↦ 3).runSchedule (fun _ ↦ 3)
      ((List.range m).map fun k ↦ decide (k % 2 = 0))).shared.counter = 6 := by
  have hfair : Fair fun k ↦ decide (k % 2 = 0) := by
    intro t n
    cases t with
    | true => exact ⟨2 * n, by omega, decide_eq_true (by omega)⟩
    | false => exact ⟨2 * n + 1, by omega, decide_eq_false (by omega)⟩
  obtain ⟨n, hn⟩ := fair_schedule_completes 100 0 (fun _ ↦ 3) hfair
  exact ⟨n, fun m hm ↦ (hn m hm).2⟩

end CounterSystem

end Sync

end Mcsos
