import Mcsos.Base.Machine
import Mcsos.Thread.RunQueue

/-!
# The scheduler as a queue

Runs of the scheduler after `mcsos_scheduler_init`. The memory before it is arbitrary; a run
remembers which threads have been prepared and which have been enqueued, because the rules of use
speak of them. `Gentle` is what the invariant needs: a thread is prepared only before it is given to
the scheduler, and `mcsos_sched_enqueue` is not called with a `READY` thread. The idle thread is
`RUNNING` all the time, which is why it never gets into the list.

`mcsos_sched_enqueue` must accept a `READY` thread, as `mcsos_sched_yield` calls it with one, and it
cannot tell whether the thread is in the list already. If it is, its link is cleared or points to
the thread itself (`Core.requeue`).
-/

namespace Mcsos

namespace Sched

open LinkedQueue

/-! ## Runs -/

inductive Call where
  | prepare (thread : Ptr) (name : String) (entry arg stackBase : Ptr) (stackSize id : UInt64)
  | enqueue (thread : Ptr)
  | markReady (thread : Ptr)
  | yield
  | tick
  | blockCurrent

def Call.run : Call → State → Status × State
  | .prepare thread name entry arg stackBase stackSize id =>
    mcsosThreadPrepare thread name entry arg stackBase stackSize id
  | .enqueue thread => mcsosSchedEnqueue thread
  | .markReady thread => mcsosThreadMarkReady thread
  | .yield => mcsosSchedYield
  | .tick => mcsosSchedTick
  | .blockCurrent => mcsosThreadBlockCurrent

/-- The scheduler and its threads, and which of them have been prepared and enqueued so far. -/
structure System where
  state : State
  prepared : List Ptr
  enqueued : List Ptr

/-- The thread that a successful call has prepared. -/
def Call.prepares : Call → Status → List Ptr
  | .prepare thread .., .ok => [thread]
  | _, _ => []

/-- The thread that a successful call has enqueued. -/
def Call.enqueues : Call → Status → List Ptr
  | .enqueue thread, .ok => [thread]
  | .markReady thread, .ok => [thread]
  | _, _ => []

def System.step (c : Call) (t : System) : Status × System :=
  let (rc, s) := c.run t.state
  (rc, ⟨s, c.prepares rc ++ t.prepared, c.enqueues rc ++ t.enqueued⟩)

/-- After `mcsos_scheduler_init`. -/
def start (boot : Ptr) (s : State) : System := ⟨(mcsosSchedulerInit boot s).2, [], []⟩

/-- The thread has not been given to the scheduler. -/
def System.Fresh (t : System) (p : Ptr) : Prop := p ∉ t.enqueued ∧ p ≠ t.state.sched.idle

/-- The calls after which the list is a list. -/
def Gentle (t : System) : Call → Prop
  | .prepare thread .. => t.Fresh thread
  | .enqueue thread => t.state.states thread ≠ .ready
  | _ => True

variable {t : System} {c : Call} {s s' : State} {p r : Ptr} {q q' : List Ptr}

theorem System.step_eq {rc : Status} (h : c.run t.state = (rc, s)) :
    t.step c = (rc, ⟨s, c.prepares rc ++ t.prepared, c.enqueues rc ++ t.enqueued⟩) := by
  rw [System.step, h]

theorem System.step_of_failed {rc : Status} (h : c.run t.state = (rc, t.state)) (hrc : rc ≠ .ok) :
    t.step c = (rc, t) := by
  have hprepares : c.prepares rc = [] := by cases c <;> cases rc <;> first | rfl | contradiction
  have henqueues : c.enqueues rc = [] := by cases c <;> cases rc <;> first | rfl | contradiction
  rw [step_eq h, hprepares, henqueues]
  rfl

/-! ## What one call does -/

theorem ne_of_running (hr : s.states r = .running)
    (hp : s.states p = .new ∨ s.states p = .blocked) : r ≠ p := by
  rintro rfl
  rw [hr] at hp
  exact absurd hp (by decide)

theorem prepare_cases (thread : Ptr) (name : String) (entry arg stackBase : Ptr)
    (stackSize id : UInt64) (s : State) :
    (∃ rc, rc ≠ .ok ∧
      mcsosThreadPrepare thread name entry arg stackBase stackSize id s = (rc, s)) ∨
    ∃ stack new, thread ≠ 0 ∧ new.magic = threadMagic ∧ new.state = .new ∧
      mcsosThreadPrepare thread name entry arg stackBase stackSize id s =
        (.ok, ⟨s.sched, Function.update s.threads thread new, stack⟩) := by
  rw [mcsosThreadPrepare]
  split
  · exact .inl ⟨_, by decide, rfl⟩
  · next hne =>
    split
    · exact .inl ⟨_, by decide, rfl⟩
    · dsimp only
      split
      · exact .inl ⟨_, by decide, rfl⟩
      · split
        · exact .inl ⟨_, by decide, rfl⟩
        · exact .inr ⟨_, _, fun h0 ↦ hne (.inl h0), rfl, rfl, rfl⟩

theorem markReady_cases (p : Ptr) (s : State) :
    (∃ rc, rc ≠ .ok ∧ mcsosThreadMarkReady p s = (rc, s)) ∨
      s.states p = .blocked ∧ mcsosThreadMarkReady p s = mcsosSchedEnqueue p s := by
  rw [mcsosThreadMarkReady]
  split
  · exact .inl ⟨_, by decide, rfl⟩
  · split
    · exact .inl ⟨_, by decide, rfl⟩
    · next hblocked => exact .inr ⟨not_not.mp hblocked, rfl⟩

theorem Seated.prepare {new : Thread} {stack : Ptr → UInt64} (h : Seated s q)
    (hcurrent : p ≠ s.sched.current) (hqueue : p ∉ q) (hp : p ≠ 0)
    (hmagic : new.magic = threadMagic) :
    Seated ⟨s.sched, Function.update s.threads p new, stack⟩ q := by
  generalize hs : (⟨s.sched, Function.update s.threads p new, stack⟩ : State) = s'
  have hsched : s'.sched = s.sched := by rw [← hs]
  have hself : s'.threads p = new := by rw [← hs]; exact Function.update_self ..
  have hother : ∀ r, r ≠ p → s'.threads r = s.threads r := by
    intro r hr
    rw [← hs]
    exact Function.update_of_ne hr ..
  have hvalid : ∀ r, r ≠ p → validThreadObject s' r = validThreadObject s r := by
    intro r hr
    rw [validThreadObject, hother r hr, validThreadObject]
  refine ⟨h.congr (by rw [hsched]; exact ⟨rfl, rfl, rfl, rfl⟩) fun r hr ↦ ?_, ?_, ?_, ?_⟩
  · have hne := ne_of_mem_of_not_mem hr hqueue
    exact ⟨congrArg Thread.next (hother r hne), congrArg Thread.state (hother r hne), hvalid r hne⟩
  · rw [hsched, hvalid _ hcurrent.symm, h.current_valid]
  · rw [hsched]
    by_cases hidle : s.sched.idle = p
    · rw [hidle, validThreadObject, hself, hmagic]
      exact (Bool.and_eq_true _ _).mpr ⟨decide_eq_true hp, decide_eq_true rfl⟩
    · rw [hvalid _ hidle, h.idle_valid]
  · rw [hsched]
    exact h.current_notMem

theorem Seated.enqueue_cases (h : Seated s q) (hcurrent : s.states s.sched.current = .running)
    (hp : s.states p ≠ .ready) :
    (∃ rc, rc ≠ .ok ∧ mcsosSchedEnqueue p s = (rc, s) ∧
      ¬(validThreadObject s p = true ∧ (s.states p = .new ∨ s.states p = .blocked))) ∨
    ∃ s', mcsosSchedEnqueue p s = (.ok, s') ∧ Seated s' (q ++ [p]) ∧ Keeps s s' ∧
      (s.states p = .new ∨ s.states p = .blocked) ∧
        s'.states = Function.update s.states p .ready := by
  by_cases hvalid : validThreadObject s p = true
  · by_cases hstate : s.states p = .new ∨ s.states p = .blocked
    · obtain ⟨s', henqueue, hlists, hkeeps, hstates⟩ := h.enqueue (h.notMem_of_state hp) hvalid
        (hstate.imp_right .inr)
      refine .inr ⟨s', henqueue, ⟨hlists, ?_, ?_, ?_⟩, hkeeps, hstate, hstates⟩
      · rw [hkeeps.valid, hkeeps.current, h.current_valid]
      · rw [hkeeps.valid, hkeeps.idle, h.idle_valid]
      · rw [hkeeps.current, List.mem_append, List.mem_singleton]
        exact fun hmem ↦ hmem.elim h.current_notMem (ne_of_running hcurrent hstate)
    · refine .inl ⟨.estate, by decide, ?_, fun hand ↦ hstate hand.2⟩
      obtain ⟨hnew, hblocked⟩ := not_or.mp hstate
      rw [mcsosSchedEnqueue, if_neg (by rw [h.initialized, hvalid]; decide),
        if_pos ⟨hnew, hp, hblocked⟩]
  · refine .inl ⟨.einval, by decide, ?_, fun hand ↦ hvalid hand.1⟩
    rw [mcsosSchedEnqueue, if_pos (.inr (eq_false_of_ne_true hvalid))]

/-! ## The invariant of a run -/

/-- The ready list is `q`, and no thread is lost. -/
structure Inv (t : System) (q : List Ptr) : Prop extends Core t.state q where
  current_running : t.state.states t.state.sched.current = .running
  queue_enqueued : ∀ p ∈ q, p ∈ t.enqueued
  current_enqueued : t.state.sched.current = t.state.sched.idle ∨
    t.state.sched.current ∈ t.enqueued
  idle_prepared : t.state.sched.idle ∉ t.prepared
  idle_enqueued : t.state.sched.idle ∉ t.enqueued
  prepared_valid : ∀ p ∈ t.prepared, validThreadObject t.state p = true
  tracked : ∀ p, p ∈ t.prepared ∨ p ∈ t.enqueued →
    t.state.states p = .new ∧ p ∉ t.enqueued ∨ p ∈ q ∨ p = t.state.sched.current ∨
      t.state.states p = .blocked

theorem ne_zero_of_init {boot : Ptr} (h : (mcsosSchedulerInit boot s).1 = .ok) : boot ≠ 0 := by
  rintro rfl
  rw [mcsosSchedulerInit, if_pos rfl] at h
  cases h

theorem inv_start {boot : Ptr} (hboot : boot ≠ 0) (s : State) : Inv (start boot s) [] := by
  have hstart : (start boot s).state = (mcsosSchedulerInit boot s).2 := rfl
  rw [mcsosSchedulerInit, if_neg hboot] at hstart
  have hvalid : validThreadObject (start boot s).state boot = true := by
    rw [hstart, validThreadObject, Bool.and_eq_true, decide_eq_true_eq, decide_eq_true_eq]
    refine ⟨hboot, ?_⟩
    dsimp only
    rw [Function.update_self]
  have hrunning : (start boot s).state.states boot = .running := by
    rw [hstart, State.states]
    dsimp only
    rw [Function.update_self]
  have hcurrent : (start boot s).state.sched.current = boot := by rw [hstart]
  have hidle : (start boot s).state.sched.idle = boot := by rw [hstart]
  refine
    { initialized := by rw [hstart]
      queue := by
        rw [hstart]
        exact .nil
      count := by
        rw [hstart]
        rfl
      ready := fun _ hp ↦ absurd hp List.not_mem_nil
      valid := fun _ hp ↦ absurd hp List.not_mem_nil
      current_valid := by rw [hcurrent, hvalid]
      idle_valid := by rw [hidle, hvalid]
      current_notMem := List.not_mem_nil
      idle_running := by rw [hidle, hrunning]
      current_running := by rw [hcurrent, hrunning]
      queue_enqueued := fun _ hp ↦ absurd hp List.not_mem_nil
      current_enqueued := .inl (hcurrent.trans hidle.symm)
      idle_prepared := List.not_mem_nil
      idle_enqueued := List.not_mem_nil
      prepared_valid := fun _ hp ↦ absurd hp List.not_mem_nil
      tracked := fun _ hp ↦ hp.elim (absurd · List.not_mem_nil) (absurd · List.not_mem_nil) }

namespace Inv

theorem prepare {new : Thread} {stack : Ptr → UInt64} (h : Inv t q) (hfresh : t.Fresh p)
    (hp : p ≠ 0) (hmagic : new.magic = threadMagic) (hnew : new.state = .new) :
    Inv ⟨⟨t.state.sched, Function.update t.state.threads p new, stack⟩, p :: t.prepared,
      t.enqueued⟩ q := by
  obtain ⟨hnotMem, hidle⟩ := hfresh
  have hcurrent : t.state.sched.current ≠ p := by
    rintro rfl
    exact h.current_enqueued.elim hidle hnotMem
  have hseated : Seated ⟨t.state.sched, Function.update t.state.threads p new, stack⟩ q :=
    h.seated.prepare hcurrent.symm (mt (h.queue_enqueued p) hnotMem) hp hmagic
  generalize hs : (⟨t.state.sched, Function.update t.state.threads p new, stack⟩ : State) = s'
    at hseated
  have hsched : s'.sched = t.state.sched := by rw [← hs]
  have hself : s'.threads p = new := by rw [← hs]; exact Function.update_self ..
  have hother : ∀ r, r ≠ p → s'.threads r = t.state.threads r := by
    intro r hr
    rw [← hs]
    exact Function.update_of_ne hr ..
  have hstates : ∀ r, r ≠ p → s'.states r = t.state.states r :=
    fun r hr ↦ congrArg Thread.state (hother r hr)
  refine
    { toCore := hseated.core (by rw [hsched, hstates _ hidle.symm, h.idle_running])
      current_running := by rw [hsched, hstates _ hcurrent, h.current_running]
      queue_enqueued := h.queue_enqueued
      current_enqueued := by rw [hsched]; exact h.current_enqueued
      idle_prepared := ?_
      idle_enqueued := by rw [hsched]; exact h.idle_enqueued
      prepared_valid := fun r hr ↦ ?_
      tracked := fun r hr ↦ ?_ }
  · rw [hsched]
    exact fun hmem ↦ (List.mem_cons.mp hmem).elim hidle.symm h.idle_prepared
  · by_cases hne : r = p
    · rw [hne, validThreadObject, hself, hmagic]
      exact (Bool.and_eq_true _ _).mpr ⟨decide_eq_true hp, decide_eq_true rfl⟩
    · rw [validThreadObject, hother r hne]
      exact h.prepared_valid r ((List.mem_cons.mp hr).resolve_left hne)
  · by_cases hne : r = p
    · rw [hne, State.states, hself]
      exact .inl ⟨hnew, hnotMem⟩
    · rw [hstates r hne, hsched]
      exact h.tracked r (hr.imp_left fun hmem ↦ (List.mem_cons.mp hmem).resolve_left hne)

theorem quiet (h : Inv t q) (hcore : Core s q) (hkeeps : Keeps t.state s)
    (hstates : s.states = t.state.states) : Inv ⟨s, t.prepared, t.enqueued⟩ q where
  toCore := hcore
  current_running := by rw [hkeeps.current, hstates, h.current_running]
  queue_enqueued := h.queue_enqueued
  current_enqueued := by rw [hkeeps.current, hkeeps.idle]; exact h.current_enqueued
  idle_prepared := by rw [hkeeps.idle]; exact h.idle_prepared
  idle_enqueued := by rw [hkeeps.idle]; exact h.idle_enqueued
  prepared_valid := fun r hr ↦ by rw [hkeeps.valid, h.prepared_valid r hr]
  tracked := fun r hr ↦ by rw [hstates, hkeeps.current]; exact h.tracked r hr

theorem enqueued (h : Inv t q) (hcore : Core s (q ++ [p])) (hkeeps : Keeps t.state s)
    (hp : t.state.states p = .new ∨ t.state.states p = .blocked)
    (hstates : s.states = Function.update t.state.states p .ready) :
    Inv ⟨s, t.prepared, p :: t.enqueued⟩ (q ++ [p]) := by
  have hcurrent := ne_of_running h.current_running hp
  refine
    { toCore := hcore
      current_running := by
        rw [hkeeps.current, hstates, Function.update_of_ne hcurrent, h.current_running]
      queue_enqueued := fun r hr ↦ ?_
      current_enqueued := by
        rw [hkeeps.current, hkeeps.idle]
        exact h.current_enqueued.imp_right (List.mem_cons_of_mem p)
      idle_prepared := by rw [hkeeps.idle]; exact h.idle_prepared
      idle_enqueued := ?_
      prepared_valid := fun r hr ↦ by rw [hkeeps.valid, h.prepared_valid r hr]
      tracked := fun r hr ↦ ?_ }
  · rcases List.mem_append.mp hr with hr | hr
    · exact List.mem_cons_of_mem p (h.queue_enqueued r hr)
    · exact List.mem_cons.mpr (.inl (List.mem_singleton.mp hr))
  · rw [hkeeps.idle]
    exact fun hmem ↦ (List.mem_cons.mp hmem).elim (ne_of_running h.idle_running hp)
      h.idle_enqueued
  · by_cases heq : r = p
    · exact .inr (.inl (List.mem_append_right q (List.mem_singleton.mpr heq)))
    · rw [hstates, Function.update_of_ne heq, hkeeps.current]
      refine (h.tracked r (hr.imp_right fun hmem ↦ (List.mem_cons.mp hmem).resolve_left heq)).imp
        (fun hnew ↦ ⟨hnew.1, fun hmem ↦ ?_⟩) (Or.imp_left fun hmem ↦ List.mem_append_left [p] hmem)
      exact (List.mem_cons.mp hmem).elim heq hnew.2

theorem yielded (h : Inv t q) (hyielded : Core.Yielded s q s' q')
    (hkeeps : Keeps t.state s)
    (hstates : ∀ r, r ≠ t.state.sched.current → s.states r = t.state.states r)
    (hcurrent : t.state.sched.current ∈ back s ∨
      t.state.sched.current = t.state.sched.idle ∨ s.states t.state.sched.current = .blocked) :
    Inv ⟨s', t.prepared, t.enqueued⟩ q' := by
  obtain ⟨hqueue, hback, hnext, hqueue'⟩ := hyielded.mem
  have hidle := hyielded.idle.trans hkeeps.idle
  have hbackEq : ∀ r ∈ back s, r = t.state.sched.current ∧ r ∈ t.enqueued := by
    intro r hr
    obtain ⟨hr, hne⟩ := Core.mem_back hr
    rw [hkeeps.current] at hr
    rw [hkeeps.idle, hr] at hne
    exact ⟨hr, hr ▸ h.current_enqueued.resolve_left hne⟩
  have henqueued : s'.sched.current = t.state.sched.idle ∨ s'.sched.current ∈ t.enqueued :=
    hnext.imp (fun heq ↦ heq.trans hkeeps.idle) (h.queue_enqueued _)
  refine
    { toCore := hyielded.core
      current_running := by rw [hyielded.states, if_pos rfl]
      queue_enqueued := fun r hr ↦ (hqueue' r hr).elim (h.queue_enqueued r) fun hr ↦
        (hbackEq r hr).2
      current_enqueued := by rw [hidle]; exact henqueued
      idle_prepared := by rw [hidle]; exact h.idle_prepared
      idle_enqueued := by rw [hidle]; exact h.idle_enqueued
      prepared_valid := fun r hr ↦ by rw [hyielded.valid, hkeeps.valid, h.prepared_valid r hr]
      tracked := fun r hr ↦ ?_ }
  have hrIdle : r ≠ t.state.sched.idle := by
    rintro rfl
    exact hr.elim h.idle_prepared h.idle_enqueued
  -- a thread that is neither dispatched nor put back has the state it had
  by_cases hnow : r = s'.sched.current
  · exact .inr (.inr (.inl hnow))
  by_cases hput : r ∈ back s
  · exact .inr (.inl (hback r hput))
  rw [hyielded.states, if_neg hnow, if_neg hput]
  by_cases hold : r = t.state.sched.current
  · refine .inr (.inr (.inr ?_))
    rw [hold] at hput hrIdle ⊢
    exact (hcurrent.resolve_left hput).resolve_left hrIdle
  · rw [hstates r hold]
    rcases h.tracked r hr with hnew | hmem | heq | hblocked
    · exact .inl hnew
    · exact .inr (.inl ((hqueue r hmem).resolve_left hnow))
    · exact absurd heq hold
    · exact .inr (.inr (.inr hblocked))

end Inv

/-- The calls of the abstract scheduler, with what they return. -/
def Fifo.Step (idle : Ptr) (c : Call) (rc : Status) (a b : Fifo) : Prop :=
  match c with
  | .prepare .. => b = a
  | .enqueue thread => rc = .ok ∧ b = ⟨a.current, a.ready ++ [thread]⟩ ∨ rc ≠ .ok ∧ b = a
  | .markReady thread => rc = .ok ∧ b = ⟨a.current, a.ready ++ [thread]⟩ ∨ rc ≠ .ok ∧ b = a
  | .yield => rc = .ok ∧ b = a.dispatch idle (if a.current = idle then [] else [a.current])
  | .tick => rc = .ok ∧ b = a
  | .blockCurrent =>
    if a.current = idle then rc = .estate ∧ b = a else rc = .ok ∧ b = a.dispatch idle []

/-- The scheduler and its threads as a queue. -/
def System.fifo (t : System) (q : List Ptr) : Fifo := ⟨t.state.sched.current, q⟩

/-- What a call is for: the invariant holds after it, and the abstract scheduler does the same. -/
def Follows (t : System) (q : List Ptr) (c : Call) : Prop :=
  ∃ q', Inv (t.step c).2 q' ∧ (t.step c).2.state.sched.idle = t.state.sched.idle ∧
    Fifo.Step t.state.sched.idle c (t.step c).1 (t.fifo q) ((t.step c).2.fifo q')

namespace Inv

theorem follows_of_failed (h : Inv t q) (rc : Status) (hc : c.run t.state = (rc, t.state))
    (hrc : rc ≠ .ok) (hstep : Fifo.Step t.state.sched.idle c rc (t.fifo q) (t.fifo q)) :
    Follows t q c := by
  refine ⟨q, ?_⟩
  rw [System.step_of_failed hc hrc]
  exact ⟨h, rfl, hstep⟩

theorem follows_enqueue (h : Inv t q) (hp : t.state.states p ≠ .ready) :
    Follows t q (.enqueue p) := by
  rcases h.seated.enqueue_cases h.current_running hp with ⟨rc, hrc, hc, -⟩ |
    ⟨s, hc, hseated, hkeeps, hstate, hstates⟩
  · exact h.follows_of_failed (c := .enqueue p) rc hc hrc (.inr ⟨hrc, rfl⟩)
  · refine ⟨q ++ [p], ?_⟩
    rw [System.step_eq (c := .enqueue p) hc]
    have hidle := Function.update_of_ne (ne_of_running h.idle_running hstate) .ready t.state.states
    have hcore := hseated.core (by rw [hkeeps.idle, hstates, hidle, h.idle_running])
    exact ⟨h.enqueued hcore hkeeps hstate hstates, hkeeps.idle,
      .inl ⟨rfl, congrArg (Fifo.mk · (q ++ [p])) hkeeps.current⟩⟩

theorem follows_markReady (h : Inv t q) : Follows t q (.markReady p) := by
  rcases markReady_cases p t.state with ⟨rc, hrc, hc⟩ | ⟨hblocked, hrun⟩
  · exact h.follows_of_failed (c := .markReady p) rc hc hrc (.inr ⟨hrc, rfl⟩)
  · have hstep : t.step (.markReady p) = t.step (.enqueue p) := by
      rw [System.step, System.step, Call.run, Call.run, hrun]
      obtain ⟨rc, s⟩ := mcsosSchedEnqueue p t.state
      cases rc <;> rfl
    have hfollows := h.follows_enqueue (p := p) (by rw [hblocked]; decide)
    rw [Follows, ← hstep] at hfollows
    exact hfollows

theorem back_eq (h : Inv t q) : back t.state =
    if t.state.sched.current = t.state.sched.idle then [] else [t.state.sched.current] := by
  rw [back]
  by_cases hidle : t.state.sched.current = t.state.sched.idle
  · rw [if_pos hidle, if_neg fun hand ↦ hand.2 hidle]
  · rw [if_neg hidle, if_pos ⟨h.current_running, hidle⟩]

theorem follows_yield (h : Inv t q) : Follows t q .yield := by
  obtain ⟨s', q', hc, hyielded⟩ := h.toCore.yield
  refine ⟨q', ?_⟩
  rw [System.step_eq (c := .yield) hc]
  refine ⟨h.yielded hyielded ⟨rfl, rfl, rfl⟩ (fun _ _ ↦ rfl) ?_, hyielded.idle, rfl, ?_⟩
  · rw [h.back_eq]
    by_cases hidle : t.state.sched.current = t.state.sched.idle
    · exact .inr (.inl hidle)
    · rw [if_neg hidle]
      exact .inl List.mem_cons_self
  · exact hyielded.dispatch.trans (by rw [h.back_eq]; rfl)

theorem follows_blockCurrent (h : Inv t q) : Follows t q .blockCurrent := by
  by_cases hidle : t.state.sched.current = t.state.sched.idle
  · refine h.follows_of_failed (c := .blockCurrent) .estate ?_ (by decide) ?_
    · change mcsosThreadBlockCurrent t.state = _
      rw [mcsosThreadBlockCurrent, if_neg (by rw [h.initialized, h.current_valid]; decide),
        if_pos hidle]
    · exact (if_pos hidle).mpr ⟨rfl, rfl⟩
  · obtain ⟨hc, hcore⟩ := h.block hidle
    obtain ⟨s', q', hyield, hyielded⟩ := hcore.yield
    have hblocked : (t.state.modify t.state.sched.current fun t ↦
        { t with state := .blocked }).states t.state.sched.current = .blocked := by
      rw [states_modify, Function.update_self]
    have hback : back (t.state.modify t.state.sched.current fun t ↦ { t with state := .blocked }) =
        [] := by
      rw [back, if_neg]
      rintro ⟨hrunning, -⟩
      rw [show (State.modify _ _ _).sched.current = t.state.sched.current from rfl, hblocked]
        at hrunning
      cases hrunning
    refine ⟨q', ?_⟩
    rw [System.step_eq (c := .blockCurrent) (hc.trans hyield)]
    refine ⟨h.yielded hyielded ⟨rfl, rfl, valid_modify rfl⟩ (fun r hr ↦ ?_) (.inr (.inr hblocked)),
      hyielded.idle, ?_⟩
    · rw [states_modify, Function.update_of_ne hr]
    · refine (if_neg hidle).mpr ⟨rfl, hyielded.dispatch.trans ?_⟩
      rw [hback]
      rfl

/-- Every call that may be made keeps the invariant and follows the abstract scheduler. -/
theorem follows (h : Inv t q) (hc : Gentle t c) : Follows t q c := by
  cases c with
  | prepare thread name entry arg stackBase stackSize id =>
    rcases prepare_cases thread name entry arg stackBase stackSize id t.state with
      ⟨rc, hrc, heq⟩ | ⟨stack, new, h0, hmagic, hnew, heq⟩
    · exact h.follows_of_failed (c := .prepare ..) rc heq hrc rfl
    · refine ⟨q, ?_⟩
      rw [System.step_eq (c := .prepare ..) heq]
      exact ⟨h.prepare hc h0 hmagic hnew, rfl, rfl⟩
  | enqueue thread => exact h.follows_enqueue hc
  | markReady thread => exact h.follows_markReady
  | yield => exact h.follows_yield
  | tick =>
    obtain ⟨s', heq, hcore, hkeeps, hstates⟩ := h.tick
    refine ⟨q, ?_⟩
    rw [System.step_eq (c := .tick) heq]
    exact ⟨h.quiet hcore hkeeps hstates, hkeeps.idle, rfl,
      congrArg (Fifo.mk · q) hkeeps.current⟩
  | blockCurrent => exact h.follows_blockCurrent

end Inv

/-! ## The scheduler refines the queue -/

/-- The calls that the rules of use allow: a thread is prepared before it is given to the scheduler,
and only a `NEW` or `BLOCKED` thread is enqueued. -/
def Allowed (t : System) : Call → Prop
  | .prepare thread .. => t.Fresh thread
  | .enqueue thread => t.state.states thread = .new ∨ t.state.states thread = .blocked
  | .markReady thread => t.state.states thread = .new ∨ t.state.states thread = .blocked
  | _ => True

theorem gentle_of_allowed (h : Allowed t c) : Gentle t c := by
  cases c with
  | prepare => exact h
  | enqueue thread =>
    intro hready
    change t.state.states thread = .new ∨ t.state.states thread = .blocked at h
    rw [hready] at h
    exact absurd h (by decide)
  | markReady => trivial
  | yield => trivial
  | tick => trivial
  | blockCurrent => trivial

/-- The list is `q` and is sound, and every thread that was ever enqueued has one place. -/
structure Conserves (t : System) (q : List Ptr) : Prop where
  chain : Seg t.state.nexts t.state.sched.readyHead q 0
  tail : t.state.sched.readyTail = q.getLast?.getD 0
  count : t.state.sched.runnableCount.toNat = q.length
  nodup : q.Nodup
  ready : ∀ p ∈ q, t.state.states p = .ready
  current_notMem : t.state.sched.current ∉ q
  idle_notMem : t.state.sched.idle ∉ q
  place : ∀ p ∈ t.enqueued,
    p = t.state.sched.current ∧ p ∉ q ∧ t.state.states p ≠ .blocked ∨
    p ≠ t.state.sched.current ∧ p ∈ q ∧ t.state.states p ≠ .blocked ∨
    p ≠ t.state.sched.current ∧ p ∉ q ∧ t.state.states p = .blocked
  validate : mcsosSchedValidate t.state = some .ok

theorem Inv.conserves (h : Inv t q) : Conserves t q := by
  refine ⟨h.queue.seg, h.queue.last, h.count, h.queue.nodup, h.ready, h.current_notMem,
    h.idle_notMem, fun p hp ↦ ?_, h.validate⟩
  rcases h.tracked p (.inr hp) with ⟨-, hnot⟩ | hmem | rfl | hblocked
  · exact absurd hp hnot
  · refine .inr (.inl ⟨fun heq ↦ h.current_notMem (heq ▸ hmem), hmem, ?_⟩)
    rw [h.ready p hmem]
    decide
  · refine .inl ⟨rfl, h.current_notMem, ?_⟩
    rw [h.current_running]
    decide
  · refine .inr (.inr ⟨?_, h.notMem_of_state (by rw [hblocked]; decide), hblocked⟩)
    rintro rfl
    rw [h.current_running] at hblocked
    cases hblocked

theorem Inv.enqueue_ok (h : Inv t q) (hp : p ∈ t.prepared)
    (hstate : t.state.states p = .new ∨ t.state.states p = .blocked) :
    (mcsosSchedEnqueue p t.state).1 = .ok := by
  have hready : t.state.states p ≠ .ready := by
    intro hready
    rw [hready] at hstate
    exact absurd hstate (by decide)
  rcases h.seated.enqueue_cases h.current_running hready with ⟨-, -, -, hnot⟩ | ⟨s, hc, -⟩
  · exact absurd ⟨h.prepared_valid p hp, hstate⟩ hnot
  · rw [hc]

theorem Run.inv {ok : System → Call → Prop} {boot : Ptr} {s₀ : State} {es : List (Call × Status)}
    (hok : ∀ t c, ok t c → Gentle t c) (hboot : (mcsosSchedulerInit boot s₀).1 = .ok)
    (hrun : Run System.step ok (start boot s₀) es t) :
    ∃ q, Behaviour (Fifo.Step boot) ⟨boot, []⟩ es (t.fifo q) ∧ Inv t q ∧
      t.state.sched.idle = boot := by
  have h0 := ne_zero_of_init hboot
  have hstart : (start boot s₀).fifo [] = ⟨boot, []⟩ ∧ (start boot s₀).state.sched.idle = boot := by
    rw [System.fifo, start, mcsosSchedulerInit, if_neg h0]
    exact ⟨rfl, rfl⟩
  have hrefines : ∃ a, Behaviour (Fifo.Step boot) ⟨boot, []⟩ es a ∧
      ∃ q, Inv t q ∧ a = t.fifo q ∧ t.state.sched.idle = boot := by
    refine hrun.refines (R := fun a u ↦ ∃ q, Inv u q ∧ a = u.fifo q ∧ u.state.sched.idle = boot)
      ⟨[], inv_start h0 s₀, hstart.1.symm, hstart.2⟩ ?_
    rintro a u c ⟨q, hinv, rfl, hidle⟩ hc
    obtain ⟨q', hinv', hidle', hstep⟩ := hinv.follows (hok u c hc)
    exact ⟨_, hidle ▸ hstep, q', hinv', rfl, hidle'.trans hidle⟩
  obtain ⟨a, hbehaviour, q, hinv, rfl, hidle⟩ := hrefines
  exact ⟨q, hbehaviour, hinv, hidle⟩

/-- The scheduler refines a queue, without losing or duplicating a thread. -/
theorem scheduler_refines_fifo {boot : Ptr} {s₀ : State} {es : List (Call × Status)}
    (hboot : (mcsosSchedulerInit boot s₀).1 = .ok)
    (hrun : Run System.step Allowed (start boot s₀) es t) :
    ∃ q, Behaviour (Fifo.Step boot) ⟨boot, []⟩ es (t.fifo q) ∧ Conserves t q ∧
      ∀ p ∈ t.prepared, t.state.states p = .new ∨ t.state.states p = .blocked →
        (mcsosSchedEnqueue p t.state).1 = .ok := by
  obtain ⟨q, hbehaviour, hinv, -⟩ := Run.inv (fun _ _ ↦ gentle_of_allowed) hboot hrun
  exact ⟨q, hbehaviour, hinv.conserves, fun _ hp ↦ hinv.enqueue_ok hp⟩

/-- Memory in which no thread has been prepared. -/
def blankState : State where
  sched := ⟨false, 0, 0, 0, 0, 0, 0, 0, 0⟩
  threads _ := ⟨0, 0, "", .new, zeroContext, 0, 0, 0, 0, 0, 0, 0, 0⟩
  stack _ := 0

/-- A thread at address 2 is prepared with a stack of 8192 bytes. -/
def prepareTwo : Call := .prepare 2 "a" 4096 0 65536 8192 1

/-- A thread is prepared, enqueued and dispatched: the list is empty again. -/
theorem scheduler_refines_fifo_dispatch : ∃ es t q,
    Run System.step Allowed (start 1 blankState) es t ∧
      es.map Prod.snd = [.ok, .ok, .ok] ∧ t.state.sched.current = 2 ∧
        Behaviour (Fifo.Step 1) ⟨1, []⟩ es (t.fifo q) ∧ Conserves t q := by
  have hrun : Run System.step Allowed (start 1 blankState) _ _ :=
    ((Run.nil.snoc prepareTwo (by exact ⟨List.not_mem_nil, by decide +kernel⟩)).snoc (.enqueue 2)
      (.inl (by decide +kernel))).snoc .yield trivial
  obtain ⟨q, hbehaviour, hconserves, -⟩ := scheduler_refines_fifo (by decide +kernel) hrun
  exact ⟨_, _, q, hrun, by decide +kernel, by decide +kernel, hbehaviour, hconserves⟩

end Sched

end Mcsos
