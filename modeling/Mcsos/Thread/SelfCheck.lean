import Mcsos.Thread.RunQueue

/-!
# The self-check of the scheduler

`mcsos_sched_validate` walks the ready list of a scheduler that may be corrupt: the links, states
and magic numbers of the threads are arbitrary, and the links may lead into a cycle or never to
`NULL`.
The only bound of its loop is the test `count > runnable_count + 1`. As `runnable_count` is below
2^63 the sum does not wrap, and the loop ends after `runnable_count + 2` rounds at the latest
(`validateFrom_spec`). It returns `MCSOS_SCHED_OK` exactly for a list that is as it should be
(`SoundChain`).
-/

namespace Mcsos

namespace Sched

open LinkedQueue

variable {s : State} {p last : Ptr} {fuel : ℕ} {count : UInt64}

/-- The links lead from `ready_head` through `q` to `NULL`. There are `runnable_count` threads on
the way, all valid, `READY` and other than the current thread, and the last one is `ready_tail`. -/
structure SoundChain (s : State) (q : List Ptr) : Prop where
  chain : Seg s.nexts s.sched.readyHead q 0
  length : q.length = s.sched.runnableCount.toNat
  nonnull : 0 ∉ q
  magic : ∀ p ∈ q, (s.threads p).magic = threadMagic
  ready : ∀ p ∈ q, s.states p = .ready
  current_notMem : s.sched.current ∉ q
  tail : s.sched.readyTail = q.getLast?.getD 0

theorem validThreadObject_iff :
    validThreadObject s p = true ↔ p ≠ 0 ∧ (s.threads p).magic = threadMagic := by
  simp [validThreadObject]

/-- What the loop finds when it returns `MCSOS_SCHED_OK` from the cursor `p` on. -/
structure Walked (s : State) (p last : Ptr) (count : ℕ) (q : List Ptr) : Prop where
  chain : Seg s.nexts p q 0
  length : count + q.length = s.sched.runnableCount.toNat
  valid : ∀ x ∈ q, validThreadObject s x = true
  ready : ∀ x ∈ q, s.states x = .ready
  current_notMem : s.sched.current ∉ q
  tail : s.sched.readyTail = q.getLast?.getD last

theorem Walked.cons {q : List Ptr} {n : ℕ} (h : Walked s (s.nexts p) p (n + 1) q)
    (hvalid : validThreadObject s p = true) (hready : s.states p = .ready)
    (hcurrent : p ≠ s.sched.current) : Walked s p last n (p :: q) where
  chain := ⟨rfl, h.chain⟩
  length := by
    rw [← h.length, List.length_cons]
    omega
  valid := List.forall_mem_cons.mpr ⟨hvalid, h.valid⟩
  ready := List.forall_mem_cons.mpr ⟨hready, h.ready⟩
  current_notMem := by simp [hcurrent.symm, h.current_notMem]
  tail := by simp [h.tail, List.getLast?_cons]

/-- The loop ends within the rounds that its counter leaves it. -/
theorem validateFrom_spec (hrunnable : s.sched.runnableCount.toNat < 2 ^ 63)
    (hcount : count.toNat ≤ s.sched.runnableCount.toNat + 1)
    (hfuel : s.sched.runnableCount.toNat + 2 ≤ count.toNat + fuel) :
    ∃ rc, validateFrom s fuel p last count = some rc ∧
      (rc = .ok → ∃ q, Walked s p last count.toNat q) := by
  -- the count grows with each round, so the rounds left decrease
  induction fuel generalizing p last count with
  | zero => omega
  | succ fuel ih =>
    have hone : (count + 1).toNat = count.toNat + 1 := toNat_add_one (by omega)
    have hbound : (s.sched.runnableCount + 1).toNat = s.sched.runnableCount.toNat + 1 :=
      toNat_add_one (by omega)
    by_cases hp : p = 0
    · rw [hp, validateFrom_null]
      split_ifs with htail hlength
      · exact ⟨_, rfl, fun h ↦ nomatch h⟩
      · exact ⟨_, rfl, fun h ↦ nomatch h⟩
      · rw [not_not] at htail hlength
        exact ⟨_, rfl, fun _ ↦ ⟨[], rfl, by rw [hlength]; rfl, by simp, by simp, by simp,
          htail.symm⟩⟩
    · rw [validateFrom.eq_def]
      dsimp only
      rw [if_neg hp]
      split_ifs with hbad hcurrent hlong
      · exact ⟨_, rfl, fun h ↦ nomatch h⟩
      · exact ⟨_, rfl, fun h ↦ nomatch h⟩
      · exact ⟨_, rfl, fun h ↦ nomatch h⟩
      · obtain ⟨hvalid, hready⟩ := not_or.mp hbad
        rw [gt_iff_lt, UInt64.lt_iff_toNat_lt, hone, hbound] at hlong
        obtain ⟨rc, hrc, hok⟩ := @ih (s.nexts p) p (count + 1) (by omega) (by omega)
        refine ⟨rc, hrc, fun h ↦ ?_⟩
        obtain ⟨q, hq⟩ := hok h
        rw [hone] at hq
        exact ⟨p :: q, hq.cons (by simpa using hvalid) (not_not.mp hready) hcurrent⟩

/-- **The self-check is sound, complete and always ends**, whatever the links, states and magic
numbers of the threads are. -/
theorem validate_exact (s : State) (hinit : s.sched.initialized = true)
    (hcurrent : validThreadObject s s.sched.current = true)
    (hrunnable : s.sched.runnableCount.toNat < 2 ^ 63) :
    (∃ rc, mcsosSchedValidate s = some rc) ∧
      (mcsosSchedValidate s = some .ok ↔ ∃ q, SoundChain s q) := by
  have hloop : mcsosSchedValidate s = validateFrom s rounds s.sched.readyHead 0 0 := by
    rw [mcsosSchedValidate, if_neg (by rw [hinit, hcurrent]; decide)]
  obtain ⟨rc, hrc, hok⟩ := @validateFrom_spec s s.sched.readyHead 0 rounds 0 hrunnable
    (Nat.zero_le _) (by rw [rounds]; omega)
  refine ⟨⟨rc, hloop.trans hrc⟩, fun h ↦ ?_, fun h ↦ ?_⟩
  · obtain ⟨q, hq⟩ := hok (Option.some.inj ((hloop.trans hrc).symm.trans h))
    refine ⟨q, hq.chain, ?_, ?_, fun p hp ↦ ?_, hq.ready, hq.current_notMem, hq.tail⟩
    · rw [← hq.length]
      exact (Nat.zero_add _).symm
    · exact fun h0 ↦ ne_zero_of_valid (hq.valid 0 h0) rfl
    · exact (validThreadObject_iff.mp (hq.valid p hp)).2
  · obtain ⟨q, hq⟩ := h
    refine validate_of_seg hinit hcurrent hq.chain hq.ready (fun p hp ↦ ?_) hq.current_notMem
      hq.length.symm ?_ hq.tail
    · exact validThreadObject_iff.mpr ⟨ne_of_mem_of_not_mem hp hq.nonnull, hq.magic p hp⟩
    · rw [hq.length]
      omega

/-- A scheduler whose only ready thread, at address 2, is linked to `next`. -/
def oneReady (next : Ptr) : State where
  sched := ⟨true, 1, 1, 2, 2, 1, 0, 0, 0⟩
  threads p := ⟨threadMagic, 0, "", if p = 2 then .ready else .running, zeroContext, 0, 0, 0, 0,
    next, 0, 0, 0⟩
  stack _ := 0

/-- The check accepts the list of one thread, and rejects the thread that is linked to itself. -/
theorem validate_exact_one :
    (∃ q, SoundChain (oneReady 0) q) ∧ ¬∃ q, SoundChain (oneReady 2) q := by
  refine ⟨(validate_exact (oneReady 0) rfl (by decide) (by decide)).2.mp (by decide +kernel), ?_⟩
  rw [← (validate_exact (oneReady 2) rfl (by decide) (by decide)).2]
  decide +kernel

end Sched

end Mcsos
