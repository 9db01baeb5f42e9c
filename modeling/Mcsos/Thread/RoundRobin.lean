import Mcsos.Thread.Fifo
import Mathlib.Data.List.Infix

/-!
# Bounded waiting

How long a ready thread waits. A *switch* is a call of `mcsos_sched_yield` or
`mcsos_thread_block_current` that returns `MCSOS_SCHED_OK`. Every switch takes the first thread of
the list, and everything else that happens to the list happens behind its last thread: after `n`
switches the first list without its first `n` threads is still at the front (`Waits.run`). So the
thread at position `k` is dispatched by the switch number `k + 1`.

`mcsos_thread_prepare` does not ask whether the scheduler holds the thread. It clears the link of a
thread in the list, which loses the threads behind it. The current thread becomes `NEW` and can get
into the list while it runs; if it then blocks and is woken up, it is enqueued a second time, and
again the threads behind it are lost. `turn_lost` has both runs. Here, unlike in
`Mcsos.Thread.Fifo`, any other thread may be prepared again, the idle thread too, so its state is
not part of the invariant.
-/

namespace Mcsos

namespace Sched

open LinkedQueue

/-! ## Positions and switches -/

/-- The links lead from `ready_head` through `q` to the end. -/
def State.Chain (s : State) (q : List Ptr) : Prop := Seg s.nexts s.sched.readyHead q 0 ∧ 0 ∉ q

/-- The thread is in the ready list. -/
def State.Queued (s : State) (p : Ptr) : Prop := ∃ q, s.Chain q ∧ p ∈ q

/-- The call dispatches the next thread. -/
def Call.switches : Call → Status → Bool
  | .yield, .ok => true
  | .blockCurrent, .ok => true
  | _, _ => false

def switches (es : List (Call × Status)) : ℕ := es.countP fun e ↦ e.1.switches e.2

/-- `mcsos_sched_enqueue` is called with `NEW` threads. -/
def NewOnly (s : State) : Call → Prop
  | .enqueue thread => s.states thread = .new
  | _ => True

/-- No thread in the ready list is prepared. -/
def SparesQueued (s : State) (c : Call) : Prop := ∀ p ∈ c.prepares (c.run s).1, ¬s.Queued p

/-- The current thread is not prepared. -/
def SparesCurrent (s : State) (c : Call) : Prop :=
  ∀ p ∈ c.prepares (c.run s).1, p ≠ s.sched.current

/-- The calls after which no thread loses its turn. -/
def InTurn (s : State) (c : Call) : Prop := NewOnly s c ∧ SparesQueued s c ∧ SparesCurrent s c

/-- In every state reached by the calls that `ok` allows, the thread at position `k` of the ready
list waits for `k` switches, whatever else is called, and the next one dispatches it. -/
def TakesTurns (ok : State → Call → Prop) (start : State) : Prop :=
  ∀ es t, Run Call.run ok start es t → ∀ q k x, t.Chain q → q[k]? = some x →
    ∀ es' u, Run Call.run ok t es' u →
      (switches es' ≤ k → u.sched.current ≠ x) ∧
      (switches es' = k → ∀ c : Call, c.switches (c.run u).1 = true →
        (c.run u).2.sched.current = x)

variable {s s' t u : State} {c : Call} {p x : Ptr} {q q' : List Ptr} {k : ℕ}
  {es : List (Call × Status)}

instance : Decidable (s.Chain q) := inferInstanceAs (Decidable (_ ∧ _))

theorem TakesTurns.mono {ok ok' : State → Call → Prop} (h : TakesTurns ok' s)
    (hok : ∀ s c, ok s c → ok' s c) : TakesTurns ok s :=
  fun _ _ hrun _ _ _ hchain hx _ _ hrun' ↦
    h _ _ (hrun.mono hok) _ _ _ hchain hx _ _ (hrun'.mono hok)

theorem State.Chain.unique (h : s.Chain q) (h' : s.Chain q') : q = q' := h.1.unique h'.1 h.2 h'.2

theorem State.Chain.queued_iff (h : s.Chain q) : s.Queued p ↔ p ∈ q := by
  refine ⟨fun ⟨q', h', hp⟩ ↦ ?_, fun hp ↦ ⟨q, h, hp⟩⟩
  rwa [h.unique h']

theorem switches_snoc {rc : Status} :
    switches (es ++ [(c, rc)]) = switches es + if c.switches rc then 1 else 0 := by
  rw [switches, List.countP_append, List.countP_singleton]
  rfl

/-! ## One call -/

/-- The ready list is `q` and the current thread runs. -/
structure Waits (s : State) (q : List Ptr) : Prop extends Seated s q where
  current_running : s.states s.sched.current = .running

theorem Waits.chain (h : Waits s q) : s.Chain q := ⟨h.queue.seg, h.queue.null_notMem⟩

/-- What a call does to the list: a switch takes the first thread, and threads are added behind the
last. -/
structure Advances (q : List Ptr) (switch : Bool) (s' : State) (q' : List Ptr) : Prop where
  waits : Waits s' q'
  keeps : q.drop (if switch then 1 else 0) <+: q'
  first : switch → ∀ x, q[0]? = some x → s'.sched.current = x

theorem Advances.of_not_switch {switch : Bool} (h : Waits s' q') (hswitch : switch = false)
    (hq : q <+: q') : Advances q switch s' q' := by
  subst hswitch
  exact ⟨h, hq, nofun⟩

theorem Seated.Dispatched.advances {switch : Bool} (h : Seated.Dispatched s q s' q')
    (hswitch : switch = true) : Advances q switch s' q' := by
  subst hswitch
  have hwaits : Waits s' q' := ⟨h.seated, by rw [h.states, if_pos rfl]⟩
  have hdispatch := h.dispatch
  cases q with
  | nil => exact ⟨hwaits, List.nil_prefix, nofun⟩
  | cons y q =>
    obtain ⟨hcurrent, rfl⟩ := Fifo.mk.inj hdispatch
    refine ⟨hwaits, List.prefix_append q (back s), fun _ x hx ↦ ?_⟩
    rw [hcurrent]
    exact Option.some.inj hx

namespace Waits

theorem enqueue (h : Waits s q) (hp : s.states p ≠ .ready) :
    ∃ q', Waits (mcsosSchedEnqueue p s).2 q' ∧ q <+: q' := by
  rcases h.enqueue_cases h.current_running hp with ⟨rc, -, hc, -⟩ |
    ⟨s', hc, hseated, hkeeps, hstate, hstates⟩
  · rw [hc]
    exact ⟨q, h, List.prefix_refl q⟩
  · rw [hc]
    refine ⟨q ++ [p], ⟨hseated, ?_⟩, List.prefix_append q [p]⟩
    rw [hkeeps.current, hstates,
      Function.update_of_ne (ne_of_running h.current_running hstate), h.current_running]

theorem prepare {thread entry arg stackBase : Ptr} {name : String} {stackSize id : UInt64}
    (h : Waits s q)
    (hqueued : SparesQueued s (.prepare thread name entry arg stackBase stackSize id))
    (hcurrent : SparesCurrent s (.prepare thread name entry arg stackBase stackSize id)) :
    Waits (mcsosThreadPrepare thread name entry arg stackBase stackSize id s).2 q := by
  rcases prepare_cases thread name entry arg stackBase stackSize id s with
    ⟨rc, -, hc⟩ | ⟨stack, new, h0, hmagic, -, hc⟩
  · rw [hc]
    exact h
  · have hmem : thread ∈ Call.prepares (.prepare thread name entry arg stackBase stackSize id)
        (Call.run (.prepare thread name entry arg stackBase stackSize id) s).1 := by
      rw [Call.run, hc]
      exact List.mem_cons_self
    have hne := hcurrent thread hmem
    have hnotMem := mt h.chain.queued_iff.mpr (hqueued thread hmem)
    rw [hc]
    refine ⟨h.toSeated.prepare hne hnotMem h0 hmagic, ?_⟩
    rw [← h.current_running]
    exact congrArg Thread.state (Function.update_of_ne hne.symm ..)

theorem step (h : Waits s q) (hok : InTurn s c) :
    ∃ q', Advances q (c.switches (c.run s).1) (c.run s).2 q' := by
  obtain ⟨hnew, hqueued, hcurrent⟩ := hok
  cases c with
  | prepare thread name entry arg stackBase stackSize id =>
    exact ⟨q, .of_not_switch (h.prepare hqueued hcurrent) rfl (List.prefix_refl q)⟩
  | enqueue thread =>
    obtain ⟨q', hwaits, hq⟩ := h.enqueue (p := thread) (by rw [hnew]; decide)
    exact ⟨q', .of_not_switch hwaits rfl hq⟩
  | markReady thread =>
    rcases markReady_cases thread s with ⟨rc, -, hc⟩ | ⟨hblocked, hc⟩
    · refine ⟨q, .of_not_switch ?_ rfl (List.prefix_refl q)⟩
      rw [Call.run, hc]
      exact h
    · obtain ⟨q', hwaits, hq⟩ := h.enqueue (p := thread) (by rw [hblocked]; decide)
      refine ⟨q', .of_not_switch ?_ rfl hq⟩
      rw [Call.run, hc]
      exact hwaits
  | yield =>
    obtain ⟨s', q', hc, hdispatched⟩ := h.toSeated.yield
    rw [Call.run, hc]
    exact ⟨q', hdispatched.advances rfl⟩
  | tick =>
    obtain ⟨s', hc, hseated, hkeeps, hstates⟩ := h.toSeated.tick
    refine ⟨q, .of_not_switch ?_ rfl (List.prefix_refl q)⟩
    rw [Call.run, hc]
    exact ⟨hseated, by rw [hkeeps.current, hstates, h.current_running]⟩
  | blockCurrent =>
    by_cases hidle : s.sched.current = s.sched.idle
    · have hc : mcsosThreadBlockCurrent s = (.estate, s) := by
        rw [mcsosThreadBlockCurrent, if_neg (by rw [h.initialized, h.current_valid]; decide),
          if_pos hidle]
      rw [Call.run, hc]
      exact ⟨q, .of_not_switch h rfl (List.prefix_refl q)⟩
    · -- the current thread is blocked before the list is touched
      obtain ⟨hc, hseated⟩ := h.toSeated.block hidle
      obtain ⟨s', q', hyield, hdispatched⟩ := hseated.yield
      rw [Call.run, hc, hyield]
      exact ⟨q', hdispatched.advances rfl⟩

end Waits

/-! ## Runs -/

/-- After `n` switches the list without its first `n` threads is at the front. -/
theorem Waits.run (h : Waits t q) (hrun : Run Call.run InTurn t es u) :
    ∃ q', Waits u q' ∧ q.drop (switches es) <+: q' := by
  induction hrun with
  | nil => exact ⟨q, h, List.prefix_refl q⟩
  | snoc _ c allowed ih =>
    obtain ⟨q', hwaits, hq⟩ := ih
    obtain ⟨q'', hadvances⟩ := hwaits.step allowed
    refine ⟨q'', hadvances.waits, ?_⟩
    rw [switches_snoc, ← List.drop_drop]
    exact (hq.drop _).trans hadvances.keeps

theorem waits_start {boot : Ptr} (hboot : (mcsosSchedulerInit boot s).1 = .ok) :
    Waits (mcsosSchedulerInit boot s).2 [] := by
  have hinv := inv_start (ne_zero_of_init hboot) s
  exact ⟨hinv.seated, hinv.current_running⟩

theorem getElem?_sub_of_drop {n : ℕ} (h : q.drop n <+: q') (hx : q[k]? = some x) (hn : n ≤ k) :
    q'[k - n]? = some x := by
  obtain ⟨l, rfl⟩ := h
  have hdrop : (q.drop n)[k - n]? = some x := by rw [List.getElem?_drop, Nat.add_sub_cancel' hn, hx]
  rw [List.getElem?_append_left (List.getElem?_eq_some_iff.mp hdrop).1, hdrop]

/-- Round robin: the thread at position `k` is dispatched by the switch number `k + 1`. -/
theorem scheduler_takes_turns {boot : Ptr} {s₀ : State}
    (hboot : (mcsosSchedulerInit boot s₀).1 = .ok) :
    TakesTurns InTurn (mcsosSchedulerInit boot s₀).2 := by
  intro es t hrun q k x hchain hx es' u hrun'
  obtain ⟨q₀, hwaits₀, -⟩ := (waits_start hboot).run hrun
  obtain rfl := hwaits₀.chain.unique hchain
  obtain ⟨q', hwaits, hq⟩ := hwaits₀.run hrun'
  constructor
  · rintro hle rfl
    exact hwaits.current_notMem (List.mem_of_getElem? (getElem?_sub_of_drop hq hx hle))
  · intro heq c hswitch
    have hfirst := getElem?_sub_of_drop hq hx heq.le
    rw [heq, Nat.sub_self] at hfirst
    -- a switch is neither an enqueue nor a prepare
    have hok : InTurn u c := by
      cases c with
      | yield => exact ⟨trivial, nofun, nofun⟩
      | blockCurrent => exact ⟨trivial, nofun, nofun⟩
      | prepare => exact nomatch hswitch
      | enqueue => exact nomatch hswitch
      | markReady => exact nomatch hswitch
      | tick => exact nomatch hswitch
    obtain ⟨q'', hadvances⟩ := hwaits.step hok
    exact hadvances.first hswitch x hfirst

/-! ## Two runs -/

/-- A thread with a stack of 8192 bytes is prepared. -/
def prepareAt (p : Ptr) : Call := .prepare p "a" 4096 0 65536 8192 1

theorem eq_of_mem_prepares {r : Ptr} {rc : Status} (h : r ∈ (prepareAt p).prepares rc) : r = p := by
  cases rc with
  | ok => exact List.mem_singleton.mp h
  | _ => exact absurd h List.not_mem_nil

theorem sparesQueued_prepareAt (h : s.Chain []) : SparesQueued s (prepareAt p) :=
  fun _ _ hr ↦ List.not_mem_nil (h.queued_iff.mp hr)

theorem sparesCurrent_prepareAt (h : p ≠ s.sched.current) : SparesCurrent s (prepareAt p) :=
  fun _ hr ↦ eq_of_mem_prepares hr ▸ h

/-- The threads 2 and 3 are prepared and enqueued. -/
def twoReady : State :=
  ((Call.enqueue 3).run ((Call.enqueue 2).run ((prepareAt 3).run
    ((prepareAt 2).run (mcsosSchedulerInit 1 blankState).2).2).2).2).2

theorem run_twoReady (ok : State → Call → Prop)
    (hprepare : ∀ s p, State.Chain s [] → p ≠ s.sched.current → ok s (prepareAt p))
    (henqueue : ∀ s p, s.states p = .new → ok s (.enqueue p)) :
    ∃ es, Run Call.run ok (mcsosSchedulerInit 1 blankState).2 es twoReady := by
  refine ⟨_, (((Run.nil.snoc (prepareAt 2) (hprepare _ 2 ?_ ?_)).snoc (prepareAt 3)
    (hprepare _ 3 ?_ ?_)).snoc (.enqueue 2) (henqueue _ 2 ?_)).snoc (.enqueue 3)
    (henqueue _ 3 ?_)⟩ <;> decide +kernel

/-- Two threads wait, the second for one switch. -/
theorem scheduler_takes_turns_second : ∃ es u,
    Run Call.run InTurn (mcsosSchedulerInit 1 blankState).2 es twoReady ∧ twoReady.Chain [2, 3] ∧
      Run Call.run InTurn twoReady [(.yield, .ok)] u ∧ u.sched.current ≠ 3 ∧
        (mcsosSchedYield u).2.sched.current = 3 := by
  obtain ⟨es, hrun⟩ := run_twoReady InTurn (fun _ _ hchain hne ↦
    ⟨trivial, sparesQueued_prepareAt hchain, sparesCurrent_prepareAt hne⟩)
    fun _ _ hnew ↦ ⟨hnew, nofun, nofun⟩
  have hchain : twoReady.Chain [2, 3] := by decide +kernel
  have hrun' : Run Call.run InTurn twoReady _ _ := Run.nil.snoc Call.yield ⟨trivial, nofun, nofun⟩
  have hturn := scheduler_takes_turns (by decide +kernel) es _ hrun _ 1 3 hchain rfl _ _ hrun'
  exact ⟨es, _, hrun, hchain, hrun', hturn.1 (by decide +kernel),
    hturn.2 (by decide +kernel) .yield (by decide +kernel)⟩

/-- The thread 2 is prepared again while it runs and enqueued between the threads 3 and 4. -/
def selfReady : State :=
  ((Call.enqueue 4).run ((Call.enqueue 2).run ((Call.enqueue 3).run ((prepareAt 4).run
    ((prepareAt 3).run ((prepareAt 2).run (Call.yield.run ((Call.enqueue 2).run
      ((prepareAt 2).run (mcsosSchedulerInit 1 blankState).2).2).2).2).2).2).2).2).2).2

theorem run_selfReady (ok : State → Call → Prop)
    (hprepare : ∀ s p, State.Chain s [] → ok s (prepareAt p))
    (henqueue : ∀ s p, s.states p = .new → ok s (.enqueue p)) (hyield : ∀ s, ok s .yield) :
    ∃ es, Run Call.run ok (mcsosSchedulerInit 1 blankState).2 es selfReady := by
  refine ⟨_, ((((((((Run.nil.snoc (prepareAt 2) (hprepare _ 2 ?_)).snoc (.enqueue 2)
    (henqueue _ 2 ?_)).snoc .yield (hyield _)).snoc (prepareAt 2) (hprepare _ 2 ?_)).snoc
    (prepareAt 3) (hprepare _ 3 ?_)).snoc (prepareAt 4) (hprepare _ 4 ?_)).snoc (.enqueue 3)
    (henqueue _ 3 ?_)).snoc (.enqueue 2) (henqueue _ 2 ?_)).snoc (.enqueue 4)
    (henqueue _ 4 ?_)⟩ <;> decide +kernel

/-- A thread loses its turn when the thread before it in the list is prepared again, and when the
current thread is. -/
theorem turn_lost :
    ¬TakesTurns NewOnly (mcsosSchedulerInit 1 blankState).2 ∧
    ¬TakesTurns (fun s c ↦ NewOnly s c ∧ SparesCurrent s c) (mcsosSchedulerInit 1 blankState).2 ∧
    ¬TakesTurns (fun s c ↦ NewOnly s c ∧ SparesQueued s c) (mcsosSchedulerInit 1 blankState).2 := by
  have hchain : twoReady.Chain [2, 3] := by decide +kernel
  have hchain' : selfReady.Chain [3, 2, 4] := by decide +kernel
  have hqueued : ¬TakesTurns (fun s c ↦ NewOnly s c ∧ SparesCurrent s c)
      (mcsosSchedulerInit 1 blankState).2 := by
    intro hturns
    obtain ⟨es, hrun⟩ := run_twoReady (fun s c ↦ NewOnly s c ∧ SparesCurrent s c)
      (fun _ _ _ hne ↦ ⟨trivial, sparesCurrent_prepareAt hne⟩) fun _ _ hnew ↦ ⟨hnew, nofun⟩
    have hrun' : Run Call.run (fun s c ↦ NewOnly s c ∧ SparesCurrent s c) twoReady _ _ :=
      (Run.nil.snoc (prepareAt 2) ⟨trivial, sparesCurrent_prepareAt (by decide +kernel)⟩).snoc
        Call.yield ⟨trivial, nofun⟩
    have hturn := (hturns es _ hrun _ 1 3 hchain rfl _ _ hrun').2 (by decide +kernel) .yield
      (by decide +kernel)
    exact absurd hturn (by decide +kernel)
  refine ⟨fun hturns ↦ hqueued (hturns.mono fun _ _ ↦ And.left), hqueued, fun hturns ↦ ?_⟩
  obtain ⟨es, hrun⟩ := run_selfReady (fun s c ↦ NewOnly s c ∧ SparesQueued s c)
    (fun _ _ hnil ↦ ⟨trivial, sparesQueued_prepareAt hnil⟩) (fun _ _ hnew ↦ ⟨hnew, nofun⟩)
    fun _ ↦ ⟨trivial, nofun⟩
  have hrun' : Run Call.run (fun s c ↦ NewOnly s c ∧ SparesQueued s c) selfReady _ _ :=
    ((Run.nil.snoc Call.blockCurrent ⟨trivial, nofun⟩).snoc (Call.markReady 2)
      ⟨trivial, nofun⟩).snoc Call.yield ⟨trivial, nofun⟩
  have hturn := (hturns es _ hrun _ 2 4 hchain' rfl _ _ hrun').2 (by decide +kernel) .yield
    (by decide +kernel)
  exact absurd hturn (by decide +kernel)

end Sched

end Mcsos
