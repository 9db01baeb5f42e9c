import Mcsos.Thread.Fifo

/-!
# The limits of the scheduler

Two things that the scheduler promises and does not keep.

`mcsos_sched_enqueue` accepts a `READY` thread. Called with a thread that is in the list already, it
clears the link of the thread and then links it behind the last one: the list is cut after the
thread, or, if the thread was the last one, it is linked to itself and has no end. Either way
`mcsos_sched_ready_count` does not return `runnable_count` (`Core.requeue`). Every other call is
safe (`enqueue_keeps_queue_iff`).

`mcsos_sched_yield` does not take the state `RUNNING` from the idle thread. From the first dispatch
on, two threads are `RUNNING` whenever the current thread is not the idle thread
(`Inv.running_iff`).
-/

namespace Mcsos

namespace Sched

open LinkedQueue

variable {t : System} {c : Call} {s s' : State} {p r : Ptr} {q q' : List Ptr}

/-! ## Enqueueing twice -/

/-- The loop of `mcsos_sched_ready_count` does not leave a thread that is linked to itself. -/
theorem countFrom_self {fuel : ℕ} {count : UInt64} (hp : p ≠ 0) (h : s.nexts p = p) :
    countFrom s fuel p count = none := by
  induction fuel generalizing count with
  | zero =>
    rw [countFrom.eq_def]
    exact if_neg hp
  | succ fuel ih => rw [countFrom_succ hp, h, ih]

theorem Lists.enqueue_mem (h : Lists s q) (hp : p ∈ q) :
    (mcsosSchedEnqueue p s).2.nexts =
        Function.update (Function.update s.nexts p 0) s.sched.readyTail p ∧
      (mcsosSchedEnqueue p s).2.sched.initialized = true ∧
        (mcsosSchedEnqueue p s).2.sched.readyHead = s.sched.readyHead ∧
          (mcsosSchedEnqueue p s).2.sched.runnableCount = s.sched.runnableCount + 1 := by
  have htail : s.sched.readyTail ≠ 0 :=
    fun h0 ↦ List.ne_nil_of_mem hp (h.queue.tail_eq_null.mp h0)
  have hready : (s.threads p).state = .ready := h.ready p hp
  have hlink : Sched.linkTail p (s.modify p fun t ↦ { t with state := .ready, next := 0 }) =
      { (s.modify p fun t ↦ { t with state := .ready, next := 0 }).modify s.sched.readyTail
          fun t ↦ { t with next := p } with sched := { s.sched with readyTail := p } } :=
    if_neg htail
  have hnexts : ((s.modify p fun t ↦ { t with state := .ready, next := 0 }).modify
      s.sched.readyTail fun t ↦ { t with next := p }).nexts =
        Function.update (Function.update s.nexts p 0) s.sched.readyTail p := by
    rw [nexts_modify, nexts_modify]
  rw [mcsosSchedEnqueue, if_neg (by rw [h.initialized, h.valid p hp]; decide),
    if_neg (fun hne ↦ hne.2.1 hready)]
  dsimp only
  rw [hlink]
  exact ⟨hnexts, h.initialized, rfl, rfl⟩

theorem Lists.readyTail_eq {pre post : List Ptr} (h : Lists s (pre ++ p :: post)) :
    s.sched.readyTail = p ∨ s.sched.readyTail ∈ post := by
  have hlast := h.queue.last
  rcases List.eq_nil_or_concat' post with rfl | ⟨ys, y, rfl⟩
  · rw [List.getLast?_concat, Option.getD_some] at hlast
    exact .inl hlast
  · rw [← List.cons_append, ← List.append_assoc, List.getLast?_concat, Option.getD_some] at hlast
    exact .inr (hlast ▸ List.mem_append_right ys List.mem_cons_self)

/-- A thread of the list is enqueued again: the links no longer give `runnable_count` threads. -/
theorem Core.requeue (h : Core s q) (hp : p ∈ q) :
    mcsosSchedReadyCount (mcsosSchedEnqueue p s).2 ≠
      some (mcsosSchedEnqueue p s).2.sched.runnableCount := by
  obtain ⟨hnexts, hinit, hhead, hcount⟩ := h.enqueue_mem hp
  have hlt := length_lt_of_nodup h.queue.nodup h.queue.null_notMem
  have hp0 := ne_zero_of_valid (h.valid p hp)
  obtain ⟨pre, post, rfl⟩ := List.append_of_mem hp
  obtain ⟨mid, hpre, hmid, -⟩ := seg_append.mp h.queue.seg
  obtain rfl : mid = p := hmid
  have hlast := h.readyTail_eq
  have hnull : 0 ∉ pre := fun hmem ↦ h.queue.null_notMem (List.mem_append_left _ hmem)
  have hdisjoint := List.disjoint_of_nodup_append h.queue.nodup
  rw [List.length_append, List.length_cons] at hlt
  generalize (mcsosSchedEnqueue mid s).2 = s' at *
  -- the links before the thread are the old ones
  have hseg : Seg s'.nexts s.sched.readyHead pre mid := by
    refine hpre.congr fun r hr ↦ ?_
    rw [hnexts, Function.update_of_ne, Function.update_of_ne]
    · rintro rfl
      exact hdisjoint hr List.mem_cons_self
    · rintro rfl
      exact hdisjoint hr (List.mem_cons.mpr hlast)
  rw [mcsosSchedReadyCount, if_neg (by rw [hinit]; decide), rounds, hhead, hcount,
    show 2 ^ 64 = pre.length + (2 ^ 64 - pre.length - 1 + 1) by omega, countFrom_seg hseg hnull,
    UInt64.zero_add]
  by_cases htail : s.sched.readyTail = mid
  · rw [countFrom_self hp0 (by rw [hnexts, htail, Function.update_self])]
    exact Option.some_ne_none _ |>.symm
  · have hnext : s'.nexts mid = 0 := by
      rw [hnexts, Function.update_of_ne (Ne.symm htail), Function.update_self]
    rw [countFrom_succ hp0, hnext, countFrom_null, h.runnableCount_eq]
    intro heq
    have hlen := congrArg UInt64.toNat ((UInt64.add_left_inj 1).mp (Option.some.inj heq))
    rw [List.length_append, List.length_cons, UInt64.toNat_ofNat_of_lt', UInt64.toNat_ofNat_of_lt']
      at hlen
    · omega
    · exact hlt
    · exact Nat.lt_of_le_of_lt (Nat.le_add_right _ _) hlt

/-- The calls with any prepared thread, whatever its state. -/
def AnyThread (t : System) : Call → Prop
  | .prepare thread .. => t.Fresh thread
  | .enqueue thread => thread ∈ t.prepared
  | _ => True

/-- The call enqueues a `READY` thread. -/
def Requeues (t : System) : Call → Prop
  | .enqueue thread => t.state.states thread = .ready
  | _ => False

/-- What the functions that inspect the list say of a sound one. -/
def SoundQueue (s : State) : Prop :=
  mcsosSchedValidate s = some .ok ∧ mcsosSchedReadyCount s = some s.sched.runnableCount

theorem gentle_of_anyThread (h : AnyThread t c) (hc : ¬Requeues t c) : Gentle t c := by
  cases c with
  | prepare => exact h
  | enqueue => exact hc
  | markReady => trivial
  | yield => trivial
  | tick => trivial
  | blockCurrent => trivial

theorem Inv.soundQueue (h : Inv t q) : SoundQueue t.state := ⟨h.validate, h.readyCount⟩

theorem Inv.mem_of_ready (h : Inv t q) (hp : p ∈ t.prepared) (hready : t.state.states p = .ready) :
    p ∈ q := by
  rcases h.tracked p (.inl hp) with ⟨hnew, -⟩ | hmem | rfl | hblocked
  · rw [hready] at hnew
    cases hnew
  · exact hmem
  · rw [h.current_running] at hready
    cases hready
  · rw [hready] at hblocked
    cases hblocked

theorem Inv.soundQueue_step_iff (h : Inv t q) (hc : AnyThread t c) :
    SoundQueue (t.step c).2.state ↔ ¬Requeues t c := by
  refine ⟨fun hsound hrequeues ↦ ?_, fun hnot ↦ ?_⟩
  · cases c with
    | enqueue thread => exact h.requeue (h.mem_of_ready hc hrequeues) hsound.2
    | prepare => exact hrequeues
    | markReady => exact hrequeues
    | yield => exact hrequeues
    | tick => exact hrequeues
    | blockCurrent => exact hrequeues
  · obtain ⟨q', hinv, -⟩ := h.follows (gentle_of_anyThread hc hnot)
    exact hinv.soundQueue

/-- The list is sound as long as no `READY` thread is enqueued, and the first call that enqueues one
ends that. -/
theorem enqueue_keeps_queue_iff {boot : Ptr} {s₀ : State} {es : List (Call × Status)}
    (hboot : (mcsosSchedulerInit boot s₀).1 = .ok)
    (hrun : Run System.step (fun t c ↦ AnyThread t c ∧ ¬Requeues t c) (start boot s₀) es t) :
    SoundQueue t.state ∧
      ∀ c, AnyThread t c → (SoundQueue (t.step c).2.state ↔ ¬Requeues t c) := by
  obtain ⟨q, -, hinv, -⟩ := Run.inv (fun _ _ h ↦ gentle_of_anyThread h.1 h.2) hboot hrun
  exact ⟨hinv.soundQueue, fun _ ↦ hinv.soundQueue_step_iff⟩

/-- A thread is prepared and enqueued; it must not be enqueued again. -/
theorem enqueue_keeps_queue_iff_two : ∃ es t,
    Run System.step (fun t c ↦ AnyThread t c ∧ ¬Requeues t c) (start 1 blankState) es t ∧
      SoundQueue t.state ∧ t.state.states 2 = .ready ∧
        ¬SoundQueue (t.step (.enqueue 2)).2.state := by
  have hrun : Run System.step (fun t c ↦ AnyThread t c ∧ ¬Requeues t c) (start 1 blankState) _ _ :=
    (Run.nil.snoc prepareTwo ⟨⟨List.not_mem_nil, by decide +kernel⟩, id⟩).snoc (.enqueue 2)
      ⟨by exact List.mem_cons_self, show ¬State.states _ 2 = .ready by decide +kernel⟩
  obtain ⟨hsound, hstep⟩ := enqueue_keeps_queue_iff (by decide +kernel) hrun
  exact ⟨_, _, hrun, hsound, by decide +kernel,
    fun h ↦ (hstep (.enqueue 2) (by exact List.mem_cons_self)).mp h
      (show State.states _ 2 = .ready by decide +kernel)⟩

/-- Enqueued twice, a thread is linked to itself. Both calls return `MCSOS_SCHED_OK`. -/
theorem enqueue_twice_corrupts : ∃ es t, Run System.step AnyThread (start 1 blankState) es t ∧
    es.map Prod.snd = [.ok, .ok, .ok] ∧ mcsosSchedValidate t.state = some .ecorrupt ∧
      mcsosSchedReadyCount t.state = none := by
  have hrun : Run System.step AnyThread (start 1 blankState) _ _ :=
    ((Run.nil.snoc prepareTwo (by exact ⟨List.not_mem_nil, by decide +kernel⟩)).snoc (.enqueue 2)
      (by exact List.mem_cons_self)).snoc (.enqueue 2) (by exact List.mem_cons_self)
  refine ⟨_, _, hrun, by decide +kernel, by decide +kernel, ?_⟩
  rw [mcsosSchedReadyCount, if_neg (by decide +kernel)]
  exact countFrom_self (p := 2) (by decide) (by decide +kernel)

/-! ## Running threads -/

/-- The scheduler knows the boot thread and the prepared threads. -/
def System.Known (t : System) (p : Ptr) : Prop := p = t.state.sched.idle ∨ p ∈ t.prepared

/-- The current thread is `RUNNING`, and no other known thread is. -/
def OnlyCurrentRuns (t : System) : Prop :=
  t.state.states t.state.sched.current = .running ∧
    ∀ p, t.Known p → t.state.states p = .running → p = t.state.sched.current

/-- The call takes the processor from the idle thread. -/
def LeavesIdle (t : System) : Call → Prop
  | .yield => t.state.sched.readyHead ≠ 0
  | _ => False

/-- The `RUNNING` threads are the current thread and the idle thread. -/
theorem Inv.running_iff (h : Inv t q) (hp : t.Known p) :
    t.state.states p = .running ↔ p = t.state.sched.current ∨ p = t.state.sched.idle := by
  constructor
  · intro hrunning
    refine hp.symm.imp_left fun hmem ↦ ?_
    rcases h.tracked p (.inl hmem) with ⟨hnew, -⟩ | hq | heq | hblocked
    · rw [hrunning] at hnew
      cases hnew
    · exact absurd (h.ready p hq) (by rw [hrunning]; decide)
    · exact heq
    · rw [hrunning] at hblocked
      cases hblocked
  · rintro (rfl | rfl)
    · exact h.current_running
    · exact h.idle_running

theorem Inv.onlyCurrentRuns_iff (h : Inv t q) :
    OnlyCurrentRuns t ↔ t.state.sched.current = t.state.sched.idle := by
  refine ⟨fun honly ↦ (honly.2 _ (.inl rfl) h.idle_running).symm, fun heq ↦
    ⟨h.current_running, fun p hp hrunning ↦ ?_⟩⟩
  exact ((h.running_iff hp).mp hrunning).elim id fun hidle ↦ hidle.trans heq.symm

/-- While the idle thread runs, only a yield with ready threads ends that. -/
theorem Inv.idle_step_iff (h : Inv t q) (hidle : t.state.sched.current = t.state.sched.idle)
    (hc : Gentle t c) : OnlyCurrentRuns (t.step c).2 ↔ ¬LeavesIdle t c := by
  obtain ⟨q', hinv, hidle', hstep⟩ := h.follows hc
  rw [hinv.onlyCurrentRuns_iff, hidle']
  have hsame : ∀ {a : Fifo}, (t.step c).2.fifo q' = a → a.current = t.state.sched.current →
      ((t.step c).2.state.sched.current = t.state.sched.idle ↔ ¬False) :=
    fun heq hcurrent ↦ iff_of_true ((congrArg Fifo.current heq).trans (hcurrent.trans hidle)) id
  cases c with
  | prepare => exact hsame hstep rfl
  | enqueue => exact hstep.elim (fun h ↦ hsame h.2 rfl) (fun h ↦ hsame h.2 rfl)
  | markReady => exact hstep.elim (fun h ↦ hsame h.2 rfl) (fun h ↦ hsame h.2 rfl)
  | tick => exact hsame hstep.2 rfl
  | blockCurrent => exact hsame ((if_pos hidle).mp hstep).2 rfl
  | yield =>
    have hcurrent := congrArg Fifo.current hstep.2
    cases q with
    | nil =>
      have hhead := h.queue.head_eq_null.mpr rfl
      exact iff_of_true hcurrent (not_not.mpr hhead)
    | cons x q =>
      have hhead : t.state.sched.readyHead ≠ 0 :=
        fun h0 ↦ List.cons_ne_nil x q (h.queue.head_eq_null.mp h0)
      have hx : x ≠ t.state.sched.idle := fun heq ↦ h.idle_notMem (heq ▸ List.mem_cons_self)
      exact iff_of_false (fun heq ↦ hx (hcurrent.symm.trans heq)) (not_not.mpr hhead)

/-- Exactly one thread is `RUNNING` as long as the idle thread does not yield to another one, and
the first such yield ends that. -/
theorem one_running_iff {boot : Ptr} {s₀ : State} {es : List (Call × Status)}
    (hboot : (mcsosSchedulerInit boot s₀).1 = .ok)
    (hrun : Run System.step (fun t c ↦ Gentle t c ∧ ¬LeavesIdle t c) (start boot s₀) es t) :
    OnlyCurrentRuns t ∧
      ∀ c, Gentle t c → (OnlyCurrentRuns (t.step c).2 ↔ ¬LeavesIdle t c) := by
  have h0 := ne_zero_of_init hboot
  have hstart : (start boot s₀).state.sched.current = (start boot s₀).state.sched.idle := by
    rw [start, mcsosSchedulerInit, if_neg h0]
  have hinvariant : (∃ q, Inv t q) ∧ OnlyCurrentRuns t := by
    refine hrun.invariant (P := fun u ↦ (∃ q, Inv u q) ∧ OnlyCurrentRuns u)
      ⟨⟨[], inv_start h0 s₀⟩, (inv_start h0 s₀).onlyCurrentRuns_iff.mpr hstart⟩ ?_
    rintro u c ⟨⟨q, hinv⟩, honly⟩ ⟨hc, hstays⟩
    obtain ⟨q', hinv', -⟩ := hinv.follows hc
    exact ⟨⟨q', hinv'⟩, (hinv.idle_step_iff (hinv.onlyCurrentRuns_iff.mp honly) hc).mpr hstays⟩
  obtain ⟨⟨q, hinv⟩, honly⟩ := hinvariant
  exact ⟨honly, fun c hc ↦ hinv.idle_step_iff (hinv.onlyCurrentRuns_iff.mp honly) hc⟩

/-- A thread is prepared and enqueued, and marked as ready once more, which fails. When the idle
thread yields to it, two threads run. -/
theorem one_running_iff_two : ∃ es t,
    Run System.step (fun t c ↦ Gentle t c ∧ ¬LeavesIdle t c) (start 1 blankState) es t ∧
      es.map Prod.snd = [.ok, .ok, .estate] ∧ OnlyCurrentRuns t ∧
        ¬OnlyCurrentRuns (t.step .yield).2 := by
  have hrun : Run System.step (fun t c ↦ Gentle t c ∧ ¬LeavesIdle t c) (start 1 blankState) _ _ :=
    ((Run.nil.snoc prepareTwo ⟨⟨List.not_mem_nil, by decide +kernel⟩, id⟩).snoc (.enqueue 2)
      ⟨show State.states _ 2 ≠ .ready by decide +kernel, id⟩).snoc (.markReady 2) ⟨trivial, id⟩
  obtain ⟨honly, hstep⟩ := one_running_iff (by decide +kernel) hrun
  exact ⟨_, _, hrun, by decide +kernel, honly, fun h ↦ (hstep .yield trivial).mp h
    (show Scheduler.readyHead _ ≠ 0 by decide +kernel)⟩

/-- A prepared thread has been dispatched, and the boot thread is still `RUNNING`. -/
theorem idle_stays_running : ∃ es t, Run System.step Allowed (start 1 blankState) es t ∧
    es.map Prod.snd = [.ok, .ok, .ok] ∧ t.Known 1 ∧ t.state.sched.current = 2 ∧
      t.state.states 1 = .running ∧ t.state.states 2 = .running := by
  have hrun : Run System.step Allowed (start 1 blankState) _ _ :=
    ((Run.nil.snoc prepareTwo (by exact ⟨List.not_mem_nil, by decide +kernel⟩)).snoc (.enqueue 2)
      (.inl (by decide +kernel))).snoc .yield trivial
  exact ⟨_, _, hrun, by decide +kernel, .inl (by decide +kernel), by decide +kernel,
    by decide +kernel, by decide +kernel⟩

end Sched

end Mcsos
