import Mathlib.Order.CompletePartialOrder
import Mathlib.Order.Interval.Set.Disjoint
import Mcsos.Thread.RoundRobin
import Mcsos.Thread.Start

/-!
# Every thread on its own stack

The scheduler with switches, and the words in the stacks. A thread that computes may leave anything
in the registers and in its own stack, as long as the stack pointer stays there; of the other stacks
it knows nothing. The boot thread, which is the idle thread, has the stack that the kernel was
started on, as `mcsos_scheduler_init` gives it none.

What makes this a promise to all threads is the scheduler: it loads a stack pointer only from the
context of a thread that it was given, and that is where the thread left it, or where
`mcsos_thread_prepare` put it. So with stacks that do not overlap, the stack pointer is always in
the stack of the current thread, and a thread that waits finds its registers and its stack as they
were (`stacks_isolated`).
-/

namespace Mcsos

namespace Sched

variable {s s' s'' : State} {p r : Ptr} {f : Thread → Thread} {q : List Ptr} {c : Call}
  {boot : Set Ptr}

/-! ## Where the stacks are -/

/-- The addresses of a stack. -/
def stackRange (base : Ptr) (size : UInt64) : Set Ptr :=
  {a | base.toNat ≤ a.toNat ∧ a.toNat < base.toNat + size.toNat}

/-- The stack of a thread; `boot` is that of the idle thread. -/
def State.stackOf (s : State) (boot : Set Ptr) (p : Ptr) : Set Ptr :=
  if p = s.sched.idle then boot else stackRange (s.threads p).stackBase (s.threads p).stackSize

/-- The idle thread is the same, all threads have their stacks, and nothing is written there. -/
structure SameStacks (s s' : State) : Prop where
  idle : s'.sched.idle = s.sched.idle
  stack : s'.stack = s.stack
  base : ∀ p, (s'.threads p).stackBase = (s.threads p).stackBase
  size : ∀ p, (s'.threads p).stackSize = (s.threads p).stackSize

namespace SameStacks

protected theorem refl (s : State) : SameStacks s s := ⟨rfl, rfl, fun _ ↦ rfl, fun _ ↦ rfl⟩

protected theorem trans (h : SameStacks s s') (h' : SameStacks s' s'') : SameStacks s s'' :=
  ⟨h'.idle.trans h.idle, h'.stack.trans h.stack, fun p ↦ (h'.base p).trans (h.base p),
    fun p ↦ (h'.size p).trans (h.size p)⟩

theorem modify (s : State) (p : Ptr) (hbase : ∀ t, (f t).stackBase = t.stackBase)
    (hsize : ∀ t, (f t).stackSize = t.stackSize) : SameStacks s (s.modify p f) := by
  have hfields : ∀ r, ((s.modify p f).threads r).stackBase = (s.threads r).stackBase ∧
      ((s.modify p f).threads r).stackSize = (s.threads r).stackSize := by
    intro r
    by_cases hr : r = p
    · rw [hr, threads_modify_self]
      exact ⟨hbase _, hsize _⟩
    · rw [threads_modify_of_ne hr]
      exact ⟨rfl, rfl⟩
  exact ⟨rfl, rfl, fun r ↦ (hfields r).1, fun r ↦ (hfields r).2⟩

theorem setSched (h : SameStacks s s') {sched : Scheduler} (hidle : sched.idle = s.sched.idle) :
    SameStacks s { s' with sched := sched } := ⟨hidle, h.stack, h.base, h.size⟩

theorem stackOf_eq (h : SameStacks s s') (boot : Set Ptr) (p : Ptr) :
    s'.stackOf boot p = s.stackOf boot p := by
  rw [State.stackOf, State.stackOf, h.idle, h.base, h.size]

end SameStacks

/-! ## The calls leave the stacks alone -/

theorem sameStacks_linkTail (p : Ptr) (s : State) : SameStacks s (linkTail p s) := by
  rw [linkTail]
  split
  · exact (SameStacks.refl s).setSched rfl
  · have hnext : SameStacks s (s.modify s.sched.readyTail fun t ↦ { t with next := p }) :=
      .modify s _ (fun _ ↦ rfl) fun _ ↦ rfl
    exact hnext.setSched rfl

theorem sameStacks_enqueue (p : Ptr) (s : State) : SameStacks s (mcsosSchedEnqueue p s).2 := by
  rw [mcsosSchedEnqueue]
  split
  · exact .refl s
  split
  · exact .refl s
  have hready : SameStacks s (s.modify p fun t ↦ { t with state := .ready, next := 0 }) :=
    .modify s p (fun _ ↦ rfl) fun _ ↦ rfl
  have hlink := hready.trans (sameStacks_linkTail p _)
  exact hlink.setSched hlink.idle

theorem sameStacks_pickNext (s : State) : SameStacks s (mcsosSchedPickNext s).2 := by
  rw [mcsosSchedPickNext]
  split
  · exact .refl s
  split
  · exact .refl s
  · have hnext : SameStacks s (s.modify s.sched.readyHead fun t ↦ { t with next := 0 }) :=
      .modify s _ (fun _ ↦ rfl) fun _ ↦ rfl
    exact hnext.setSched rfl

theorem sameStacks_dispatch (old new : Ptr) (s : State) : SameStacks s (dispatch old new s) := by
  have hrunning : SameStacks s (s.modify new fun t ↦ { t with state := .running }) :=
    .modify s new (fun _ ↦ rfl) fun _ ↦ rfl
  have hold : SameStacks s (addSwitch old _) :=
    hrunning.trans (.modify _ old (fun _ ↦ rfl) fun _ ↦ rfl)
  have hnew : SameStacks s (addSwitch new _) := hold.trans (.modify _ new (fun _ ↦ rfl) fun _ ↦ rfl)
  exact hnew.setSched hnew.idle

theorem sameStacks_yield (s : State) : SameStacks s (mcsosSchedYield s).2 := by
  have hpick := sameStacks_pickNext s
  rw [mcsosSchedYield]
  dsimp only
  split_ifs
  · exact .refl s
  · exact hpick
  · have hrunning : SameStacks (mcsosSchedPickNext s).2 ((mcsosSchedPickNext s).2.modify
        s.sched.current fun t ↦ { t with state := .running }) :=
      .modify _ _ (fun _ ↦ rfl) fun _ ↦ rfl
    exact hpick.trans hrunning
  · have hstate : SameStacks (mcsosSchedPickNext s).2 ((mcsosSchedPickNext s).2.modify
        s.sched.current fun t ↦ { t with state := .ready }) :=
      .modify _ _ (fun _ ↦ rfl) fun _ ↦ rfl
    have hready := hpick.trans hstate
    have henqueue := hready.trans (sameStacks_enqueue s.sched.current _)
    generalize mcsosSchedEnqueue s.sched.current _ = e at henqueue
    obtain ⟨rc, t⟩ := e
    cases rc with
    | ok => exact henqueue.trans (sameStacks_dispatch _ _ t)
    | _ => exact henqueue
  · exact hpick.trans (sameStacks_dispatch _ _ _)

/-- The call is not one of `mcsos_thread_prepare`. -/
def Call.NoPrepare (c : Call) : Prop :=
  ∀ thread name entry arg stackBase stackSize id,
    c ≠ .prepare thread name entry arg stackBase stackSize id

theorem Call.noPrepare_or (c : Call) : c.NoPrepare ∨
    ∃ thread name entry arg stackBase stackSize id,
      c = .prepare thread name entry arg stackBase stackSize id := by
  by_cases h : c.NoPrepare
  · exact .inl h
  · rw [NoPrepare] at h
    push Not at h
    exact .inr h

/-- No call but `mcsos_thread_prepare` gives a thread a stack or writes to one. -/
theorem sameStacks_run (hc : c.NoPrepare) (s : State) : SameStacks s (c.run s).2 := by
  cases c with
  | prepare thread name entry arg stackBase stackSize id => exact absurd rfl (hc _ _ _ _ _ _ _)
  | enqueue thread => exact sameStacks_enqueue thread s
  | markReady thread =>
    rw [Call.run, mcsosThreadMarkReady]
    split_ifs
    · exact .refl s
    · exact .refl s
    · exact sameStacks_enqueue thread s
  | yield => exact sameStacks_yield s
  | tick =>
    rw [Call.run, mcsosSchedTick]
    split_ifs
    · exact .refl s
    · have hticks : SameStacks s (s.modify s.sched.current fun t ↦
          { t with ticks := t.ticks + 1 }) := .modify s _ (fun _ ↦ rfl) fun _ ↦ rfl
      exact hticks.setSched rfl
  | blockCurrent =>
    rw [Call.run, mcsosThreadBlockCurrent]
    split_ifs
    · exact .refl s
    · exact .refl s
    · have hblocked : SameStacks s (s.modify s.sched.current fun t ↦
          { t with state := .blocked }) := .modify s _ (fun _ ↦ rfl) fun _ ↦ rfl
      exact hblocked.trans (sameStacks_yield _)

/-! ## Which thread comes next -/

theorem Seated.Dispatched.mem {q' : List Ptr} (h : Seated.Dispatched s q s' q') :
    (s'.sched.current = s.sched.idle ∨ s'.sched.current ∈ q) ∧ ∀ r ∈ q', r ∈ q ∨ r ∈ back s := by
  have hdispatch := h.dispatch
  cases q with
  | nil =>
    obtain ⟨hcurrent, rfl⟩ := Fifo.mk.inj hdispatch
    exact ⟨.inl hcurrent, fun _ ↦ .inr⟩
  | cons x q =>
    obtain ⟨hcurrent, rfl⟩ := Fifo.mk.inj hdispatch
    refine ⟨.inr (hcurrent ▸ List.mem_cons_self), fun r hr ↦ ?_⟩
    exact (List.mem_append.mp hr).imp_left (List.mem_cons_of_mem x)

/-- The calls after which the list is in order: no `READY` thread is enqueued, and no thread that is
in the list or current is prepared again. -/
structure InOrder (s : State) (c : Call) : Prop where
  unready : ∀ p, c = .enqueue p → s.states p ≠ .ready
  queued : SparesQueued s c
  current : SparesCurrent s c

/-- The list `q` and the current thread of `s` against those of a state after a call. -/
structure Draws (s : State) (q new : List Ptr) (s' : State) (q' : List Ptr) : Prop where
  waits : Waits s' q'
  queue : ∀ r ∈ q', r ∈ q ∨ r ∈ new ∨ r = s.sched.current ∧ r ≠ s.sched.idle
  current : s'.sched.current = s.sched.current ∨ s'.sched.current ∈ q ∨
    s'.sched.current = s.sched.idle

namespace Draws

theorem of_eq {new : List Ptr} (hwaits : Waits s' q)
    (hcurrent : s'.sched.current = s.sched.current) : Draws s q new s' q :=
  ⟨hwaits, fun _ ↦ .inl, .inl hcurrent⟩

theorem of_dispatched {q' new : List Ptr} (hdispatched : Seated.Dispatched s' q s'' q')
    (hcurrent : s'.sched.current = s.sched.current) (hidle : s'.sched.idle = s.sched.idle) :
    Draws s q new s'' q' := by
  obtain ⟨hnext, hqueue⟩ := hdispatched.mem
  refine ⟨⟨hdispatched.seated, by rw [hdispatched.states, if_pos rfl]⟩, fun r hr ↦ ?_, ?_⟩
  · refine (hqueue r hr).imp_right fun hback ↦ .inr ?_
    rw [← hcurrent, ← hidle]
    exact Core.mem_back hback
  · rw [hidle] at hnext
    exact .inr hnext.symm

end Draws

namespace Waits

variable (h : Waits s q)
include h

theorem draws_enqueue (hp : s.states p ≠ .ready) :
    ∃ q', Draws s q [p] (mcsosSchedEnqueue p s).2 q' := by
  rcases h.enqueue_cases h.current_running hp with ⟨rc, -, hc, -⟩ |
    ⟨s', hc, hseated, hkeeps, hstate, hstates⟩
  · rw [hc]
    exact ⟨q, .of_eq h rfl⟩
  · rw [hc]
    refine ⟨q ++ [p], ⟨hseated, ?_⟩, fun r hr ↦ ?_, .inl hkeeps.current⟩
    · rw [hkeeps.current, hstates,
        Function.update_of_ne (ne_of_running h.current_running hstate), h.current_running]
    · exact (List.mem_append.mp hr).imp_right .inl

/-- Whatever is called, the threads in the list and the current one are among those from before,
with the one that was enqueued. -/
theorem draws (hok : InOrder s c) : ∃ q' new, Draws s q new (c.run s).2 q' ∧
    ∀ r ∈ new, c = .enqueue r ∨ c = .markReady r := by
  have hnone : ∀ r ∈ ([] : List Ptr), c = .enqueue r ∨ c = .markReady r := by
    intro r hr
    exact absurd hr List.not_mem_nil
  cases c with
  | prepare thread name entry arg stackBase stackSize id =>
    have hsched := Machine.sched_prepare thread name entry arg stackBase stackSize id s
    exact ⟨q, [], Draws.of_eq (h.prepare hok.queued hok.current)
      (congrArg Scheduler.current hsched), hnone⟩
  | enqueue thread =>
    obtain ⟨q', hdraws⟩ := h.draws_enqueue (hok.unready thread rfl)
    refine ⟨q', [thread], hdraws, fun r hr ↦ ?_⟩
    rw [List.mem_singleton.mp hr]
    exact .inl rfl
  | markReady thread =>
    rcases markReady_cases thread s with ⟨rc, -, hc⟩ | ⟨hblocked, hc⟩
    · rw [Call.run, hc]
      exact ⟨q, [], Draws.of_eq h rfl, hnone⟩
    · obtain ⟨q', hdraws⟩ := h.draws_enqueue (p := thread) (by rw [hblocked]; decide)
      rw [Call.run, hc]
      refine ⟨q', [thread], hdraws, fun r hr ↦ ?_⟩
      rw [List.mem_singleton.mp hr]
      exact .inr rfl
  | yield =>
    obtain ⟨s', q', hc, hdispatched⟩ := h.toSeated.yield
    rw [Call.run, hc]
    exact ⟨q', [], Draws.of_dispatched hdispatched rfl rfl, hnone⟩
  | tick =>
    obtain ⟨s', hc, hseated, hkeeps, hstates⟩ := h.toSeated.tick
    rw [Call.run, hc]
    exact ⟨q, [], Draws.of_eq ⟨hseated, by rw [hkeeps.current, hstates, h.current_running]⟩
      hkeeps.current, hnone⟩
  | blockCurrent =>
    by_cases hidle : s.sched.current = s.sched.idle
    · have hc : mcsosThreadBlockCurrent s = (.estate, s) := by
        rw [mcsosThreadBlockCurrent, if_neg (by rw [h.initialized, h.current_valid]; decide),
          if_pos hidle]
      rw [Call.run, hc]
      exact ⟨q, [], Draws.of_eq h rfl, hnone⟩
    · obtain ⟨hc, hseated⟩ := h.toSeated.block hidle
      obtain ⟨s', q', hyield, hdispatched⟩ := hseated.yield
      rw [Call.run, hc, hyield]
      exact ⟨q', [], Draws.of_dispatched hdispatched rfl rfl, hnone⟩

theorem setContext (p : Ptr) (context : Context) :
    Waits (s.modify p fun t ↦ { t with context := context }) q := by
  have hnexts : (s.modify p fun t ↦ { t with context := context }).nexts = s.nexts :=
    nexts_modify_of_eq rfl
  have hstates : (s.modify p fun t ↦ { t with context := context }).states = s.states :=
    states_modify_of_eq rfl
  have hvalid : validThreadObject (s.modify p fun t ↦ { t with context := context }) =
    validThreadObject s := valid_modify rfl
  refine ⟨⟨h.toLists.congr ⟨rfl, rfl, rfl, rfl⟩ fun r _ ↦
    ⟨congrFun hnexts r, congrFun hstates r, congrFun hvalid r⟩, ?_, ?_, h.current_notMem⟩, ?_⟩
  · rw [hvalid]
    exact h.current_valid
  · rw [hvalid]
    exact h.idle_valid
  · rw [hstates]
    exact h.current_running

end Waits

/-! ## Prepared stacks -/

theorem eq_of_mem_prepare {thread entry arg stackBase : Ptr} {name : String}
    {stackSize id : UInt64} {rc : Status}
    (h : p ∈ (Call.prepare thread name entry arg stackBase stackSize id).prepares rc) :
    p = thread := by
  cases rc with
  | ok => exact List.mem_singleton.mp h
  | _ => exact absurd h List.not_mem_nil

section Prepare

variable {thread entry arg stackBase : Ptr} {name : String} {stackSize id : UInt64}
  (h : (mcsosThreadPrepare thread name entry arg stackBase stackSize id s).1 = .ok)
include h

theorem prepare_ok : ∃ new : Thread, new.context.rsp = stackTop stackBase stackSize ∧
    new.stackBase = stackBase ∧ new.stackSize = stackSize ∧
    (mcsosThreadPrepare thread name entry arg stackBase stackSize id s).2 =
      ⟨s.sched, Function.update s.threads thread new,
        Function.update s.stack (stackTop stackBase stackSize) 0⟩ := by
  rw [mcsosThreadPrepare] at h ⊢
  dsimp only at h ⊢
  split_ifs at h ⊢
  exact ⟨_, rfl, rfl, rfl, rfl⟩

theorem stackTop_mem : stackTop stackBase stackSize ∈ stackRange stackBase stackSize := by
  have hnull : ¬(thread = 0 ∨ entry = 0 ∨ stackBase = 0) := by
    intro hnull
    rw [mcsosThreadPrepare, if_pos hnull] at h
    cases h
  rcases prepare_of_nonnull name arg stackSize id s hnull with ⟨-, heq⟩ | ⟨hgood, -⟩
  · rw [heq] at h
    cases h
  · obtain ⟨hsize, hend⟩ := not_or.mp hgood
    rw [stackRange, Set.mem_ofPred_eq, toNat_stackTop hgood]
    omega

end Prepare

/-! ## The machine with stacks -/

/-- What can happen: the current thread computes, which leaves any values in the registers and in
the words of the stacks, or it calls the scheduler. -/
inductive Act where
  | compute (regs : Reg → UInt64) (rip : UInt64) (stack : Ptr → UInt64)
  | call (c : Call)

/-- The machine, and the threads that have been prepared. -/
structure Threads where
  machine : Machine
  prepared : List Ptr

namespace Threads

def state (t : Threads) : State := t.machine.state

def current (t : Threads) : Ptr := t.machine.current

def step (label : UInt64) : Act → Threads → Status × Threads
  | .compute regs rip stack, t => (.ok, ⟨⟨{ t.state with stack := stack }, regs, rip⟩, t.prepared⟩)
  | .call c, t => ((t.machine.step label (.call c)).1, ⟨(t.machine.step label (.call c)).2,
      c.prepares (t.machine.step label (.call c)).1 ++ t.prepared⟩)

/-- The threads that the scheduler may be given, and the idle thread. -/
def Known (t : Threads) (p : Ptr) : Prop := p = t.state.sched.idle ∨ p ∈ t.prepared

def stackOf (t : Threads) (boot : Set Ptr) (p : Ptr) : Set Ptr := t.state.stackOf boot p

/-- The rules of use: a thread keeps its stack pointer in its own stack and writes to no other; a
thread is prepared once, with a stack apart from the others; and the scheduler is given prepared
threads, by `mcsos_sched_enqueue` none that is `READY` already. -/
def Ok (boot : Set Ptr) (t : Threads) : Act → Prop
  | .compute regs _ stack => regs .rsp ∈ t.stackOf boot t.current ∧
    ∀ a, a ∉ t.stackOf boot t.current → stack a = t.state.stack a
  | .call (.prepare thread _ _ _ stackBase stackSize _) => ¬t.Known thread ∧
    ∀ r, t.Known r → Disjoint (stackRange stackBase stackSize) (t.stackOf boot r)
  | .call (.enqueue thread) => thread ∈ t.prepared ∧ t.state.states thread ≠ .ready
  | .call (.markReady thread) => thread ∈ t.prepared
  | .call _ => True

/-! ## The invariant -/

/-- The stacks are apart, and the stack pointers are where they belong. -/
structure Housed (boot : Set Ptr) (t : Threads) (q : List Ptr) : Prop where
  waits : Waits t.state q
  queue : ∀ p ∈ q, p ∈ t.prepared
  current : t.Known t.current
  idle : t.state.sched.idle ∉ t.prepared
  disjoint : ∀ p r, t.Known p → t.Known r → p ≠ r →
    Disjoint (t.stackOf boot p) (t.stackOf boot r)
  rsp : t.machine.regs .rsp ∈ t.stackOf boot t.current
  saved : ∀ p, t.Known p → p ≠ t.current → (t.state.contexts p).rsp ∈ t.stackOf boot p

variable {label : UInt64} {t u : Threads} {a : Act}

theorem state_call (label : UInt64) (c : Call) (t : Threads) :
    (step label (.call c) t).2.machine = t.machine.switchTo label (c.run t.state).2 := by
  rw [step, Machine.step_call]
  rfl

theorem state_switchTo (label : UInt64) (m : Machine) (s : State) :
    (m.switchTo label s).state = s ∨
      ∃ context, (m.switchTo label s).state = s.modify m.current fun t ↦
        { t with context := context } := by
  by_cases hcurrent : s.sched.current = m.current
  · rw [Machine.switchTo_of_eq hcurrent]
    exact .inl rfl
  · rw [Machine.switchTo_of_ne hcurrent, state_mcsosContextSwitch]
    exact .inr ⟨_, rfl⟩

theorem sched_call (label : UInt64) (c : Call) (t : Threads) :
    (step label (.call c) t).2.state.sched = (c.run t.state).2.sched := by
  rw [state, state_call]
  rcases state_switchTo label t.machine (c.run t.state).2 with heq | ⟨context, heq⟩
  · rw [heq]
  · rw [heq]
    rfl

theorem sameStacks_call (label : UInt64) (c : Call) (t : Threads) :
    SameStacks (c.run t.state).2 (step label (.call c) t).2.state := by
  change SameStacks _ (step label (.call c) t).2.machine.state
  rw [state_call]
  rcases state_switchTo label t.machine (c.run t.state).2 with heq | ⟨context, heq⟩
  · rw [heq]
    exact .refl _
  · rw [heq]
    exact .modify _ _ (fun _ ↦ rfl) fun _ ↦ rfl

theorem waits_call (h : Waits (c.run t.state).2 q) :
    Waits (step label (.call c) t).2.state q := by
  rw [state, state_call]
  rcases state_switchTo label t.machine (c.run t.state).2 with heq | ⟨context, heq⟩
  · rwa [heq]
  · rw [heq]
    exact h.setContext _ context

section Call

variable (label : UInt64) (hc : c.NoPrepare)
include hc

theorem prepared_call (t : Threads) : (step label (.call c) t).2.prepared = t.prepared := by
  have hnone : ∀ rc, c.prepares rc = [] := by
    intro rc
    cases c with
    | prepare => exact absurd rfl (hc _ _ _ _ _ _ _)
    | _ => rfl
  rw [step, hnone, List.nil_append]

theorem sameStacks_step (t : Threads) : SameStacks t.state (step label (.call c) t).2.state :=
  (sameStacks_run hc t.state).trans (sameStacks_call label c t)

theorem not_renews {m : Machine} (p : Ptr) : ¬m.Renews p (.call c) := by
  intro hp
  cases c with
  | prepare => exact absurd rfl (hc _ _ _ _ _ _ _)
  | _ => exact hp

end Call

/-- A thread is added, and its stack is filled in. -/
def addThread (t : Threads) (p : Ptr) (new : Thread) (stack : Ptr → UInt64) : Threads :=
  ⟨{ t.machine with state := ⟨t.state.sched, Function.update t.state.threads p new, stack⟩ },
    p :: t.prepared⟩

section AddThread

variable {new : Thread} {stack : Ptr → UInt64}

theorem threads_addThread_of_ne (h : r ≠ p) :
    (t.addThread p new stack).state.threads r = t.state.threads r :=
  Function.update_of_ne h ..

theorem contexts_addThread_self : (t.addThread p new stack).state.contexts p = new.context :=
  congrArg Thread.context (Function.update_self ..)

theorem contexts_addThread_of_ne (h : r ≠ p) :
    (t.addThread p new stack).state.contexts r = t.state.contexts r :=
  congrArg Thread.context (threads_addThread_of_ne h)

theorem stackOf_addThread_self (h : p ≠ t.state.sched.idle) :
    (t.addThread p new stack).stackOf boot p = stackRange new.stackBase new.stackSize := by
  have hidle : (t.addThread p new stack).state.sched.idle = t.state.sched.idle := rfl
  have hself : (t.addThread p new stack).state.threads p = new := Function.update_self ..
  rw [stackOf, State.stackOf, hidle, if_neg h, hself]

theorem stackOf_addThread_of_ne (h : r ≠ p) :
    (t.addThread p new stack).stackOf boot r = t.stackOf boot r := by
  rw [stackOf, State.stackOf, threads_addThread_of_ne h]
  rfl

theorem known_of_addThread (h : (t.addThread p new stack).Known r) (hr : r ≠ p) : t.Known r :=
  h.imp_right fun hmem ↦ (List.mem_cons.mp hmem).resolve_left hr

end AddThread

/-- `mcsos_thread_prepare` fails, or it makes a thread whose stack pointer is in its stack, with a
word there. -/
theorem step_prepare (label : UInt64) (thread : Ptr) (name : String) (entry arg stackBase : Ptr)
    (stackSize id : UInt64) (t : Threads) :
    (step label (.call (.prepare thread name entry arg stackBase stackSize id)) t).2 = t ∨
      ∃ new : Thread, new.stackBase = stackBase ∧ new.stackSize = stackSize ∧
        new.context.rsp ∈ stackRange stackBase stackSize ∧
        (step label (.call (.prepare thread name entry arg stackBase stackSize id)) t).2 =
          t.addThread thread new (Function.update t.state.stack new.context.rsp 0) := by
  have hstep : step label (.call (.prepare thread name entry arg stackBase stackSize id)) t =
      ((mcsosThreadPrepare thread name entry arg stackBase stackSize id t.state).1,
        ⟨{ t.machine with state :=
            (mcsosThreadPrepare thread name entry arg stackBase stackSize id t.state).2 },
          (Call.prepare thread name entry arg stackBase stackSize id).prepares
            (mcsosThreadPrepare thread name entry arg stackBase stackSize id t.state).1 ++
              t.prepared⟩) := rfl
  rw [hstep]
  rcases prepare_cases thread name entry arg stackBase stackSize id t.state with
    ⟨rc, hrc, heq⟩ | ⟨_, _, -, -, -, heq⟩
  · have hnone : (Call.prepare thread name entry arg stackBase stackSize id).prepares rc = [] := by
      cases rc with
      | ok => exact absurd rfl hrc
      | _ => rfl
    rw [heq, hnone]
    exact .inl rfl
  · have hrc : (mcsosThreadPrepare thread name entry arg stackBase stackSize id t.state).1 = .ok :=
      congrArg Prod.fst heq
    obtain ⟨new, hrsp, hbase, hsize, hstate⟩ := prepare_ok hrc
    refine .inr ⟨new, hbase, hsize, hrsp ▸ stackTop_mem hrc, ?_⟩
    rw [hrc, hstate, hrsp]
    rfl

namespace Housed

variable (h : Housed boot t q)
include h

theorem inOrder (hok : t.Ok boot (.call c)) : InOrder t.state c := by
  have hfresh : ∀ p ∈ c.prepares (c.run t.state).1, ¬t.Known p := by
    intro p hp
    cases c with
    | prepare thread name entry arg stackBase stackSize id =>
      rw [eq_of_mem_prepare hp]
      exact hok.1
    | _ => exact absurd hp List.not_mem_nil
  refine ⟨?_, fun p hp hqueued ↦ ?_, fun p hp heq ↦ ?_⟩
  · rintro p rfl
    exact hok.2
  · exact hfresh p hp (.inr (h.queue p (h.waits.chain.queued_iff.mp hqueued)))
  · exact hfresh p hp (heq ▸ h.current)

theorem draws_call (label : UInt64) (hok : t.Ok boot (.call c)) :
    ∃ q', Waits (step label (.call c) t).2.state q' ∧ (∀ r ∈ q', r ∈ t.prepared) ∧
      t.Known (step label (.call c) t).2.current := by
  obtain ⟨q', new, hdraws, hnew⟩ := h.waits.draws (h.inOrder hok)
  have hqueued : ∀ r ∈ new, r ∈ t.prepared := by
    intro r hr
    rcases hnew r hr with rfl | rfl
    · exact hok.1
    · exact hok
  refine ⟨q', waits_call hdraws.waits, fun r hr ↦ ?_, ?_⟩
  · rcases hdraws.queue r hr with hold | hr' | ⟨rfl, hidle⟩
    · exact h.queue r hold
    · exact hqueued r hr'
    · exact h.current.resolve_left hidle
  · have hcurrent : (step label (.call c) t).2.current = (c.run t.state).2.sched.current :=
      congrArg Scheduler.current (sched_call label c t)
    rw [hcurrent]
    rcases hdraws.current with heq | hmem | heq
    · rw [heq]
      exact h.current
    · exact .inr (h.queue _ hmem)
    · exact .inl heq

theorem rsp_call (hcurrent : t.Known (step label (.call c) t).2.current) :
    (step label (.call c) t).2.machine.regs .rsp ∈
      t.stackOf boot (step label (.call c) t).2.current := by
  by_cases hswitched : (step label (.call c) t).2.current = t.current
  · have hsame : (c.run t.state).2.sched.current = t.machine.current :=
      (congrArg Scheduler.current (sched_call label c t)).symm.trans hswitched
    have hregs : (step label (.call c) t).2.machine.regs = t.machine.regs := by
      rw [state_call, Machine.switchTo_of_eq hsame]
    rw [hswitched, hregs]
    exact h.rsp
  · have hfile : (t.machine.step label (.call c)).2.file =
      t.state.contexts (step label (.call c) t).2.current :=
        (Machine.step_of_switched hswitched).2
    have hrsp : (step label (.call c) t).2.machine.regs .rsp =
      (t.state.contexts (step label (.call c) t).2.current).rsp := congrArg Context.rsp hfile
    rw [hrsp]
    exact h.saved _ hcurrent hswitched

theorem saved_call (hc : c.NoPrepare) (hp : t.Known p)
    (hne : p ≠ (step label (.call c) t).2.current) :
    ((step label (.call c) t).2.state.contexts p).rsp ∈ t.stackOf boot p := by
  by_cases hpc : p = t.current
  · have hcontext : (step label (.call c) t).2.state.contexts t.current =
      { t.machine.file with rip := label } :=
        (Machine.step_of_switched fun heq ↦ hne (hpc.trans heq.symm)).1
    rw [hpc, hcontext]
    exact h.rsp
  · have hcontext : (step label (.call c) t).2.state.contexts p = t.state.contexts p :=
      Machine.contexts_step (Ne.symm hpc) (not_renews hc p)
    rw [hcontext]
    exact h.saved p hp hpc

theorem call (label : UInt64) (hc : c.NoPrepare) (hok : t.Ok boot (.call c)) :
    ∃ q', Housed boot (step label (.call c) t).2 q' := by
  obtain ⟨q', hwaits, hqueue, hcurrent⟩ := h.draws_call label hok
  have hprepared := prepared_call label hc t
  have hstacks := sameStacks_step label hc t
  have hknown : ∀ r, (step label (.call c) t).2.Known r ↔ t.Known r := by
    intro r
    rw [Known, Known, hprepared, hstacks.idle]
  have hstackOf : ∀ r, (step label (.call c) t).2.stackOf boot r = t.stackOf boot r :=
    hstacks.stackOf_eq boot
  refine ⟨q', hwaits, fun r hr ↦ hprepared ▸ hqueue r hr, (hknown _).mpr hcurrent, ?_, ?_, ?_, ?_⟩
  · rw [hprepared, hstacks.idle]
    exact h.idle
  · intro p r hp hr hne
    rw [hstackOf, hstackOf]
    exact h.disjoint p r ((hknown p).mp hp) ((hknown r).mp hr) hne
  · rw [hstackOf]
    exact h.rsp_call hcurrent
  · intro p hp hne
    rw [hstackOf]
    exact h.saved_call hc ((hknown p).mp hp) hne

theorem add {new : Thread} {stack : Ptr → UInt64} {q' : List Ptr} (hfresh : ¬t.Known p)
    (hapart : ∀ r, t.Known r →
      Disjoint (stackRange new.stackBase new.stackSize) (t.stackOf boot r))
    (hrsp : new.context.rsp ∈ stackRange new.stackBase new.stackSize)
    (hwaits : Waits (t.addThread p new stack).state q') (hqueue : ∀ r ∈ q', r ∈ t.prepared) :
    Housed boot (t.addThread p new stack) q' := by
  have hpidle : p ≠ t.state.sched.idle := fun heq ↦ hfresh (.inl heq)
  have hcurrent : t.current ≠ p := fun heq ↦ hfresh (heq ▸ h.current)
  refine ⟨hwaits, fun r hr ↦ List.mem_cons_of_mem p (hqueue r hr),
    h.current.imp_right (List.mem_cons_of_mem p), ?_, fun r x hr hx hrx ↦ ?_, ?_, fun r hr hrc ↦ ?_⟩
  · exact fun hmem ↦ (List.mem_cons.mp hmem).elim hpidle.symm h.idle
  · -- the new stack is apart from the old ones, which are as they were
    by_cases hrp : r = p
    · have hxp : x ≠ p := fun hxp ↦ hrx (hrp.trans hxp.symm)
      rw [hrp, stackOf_addThread_self hpidle, stackOf_addThread_of_ne hxp]
      exact hapart x (known_of_addThread hx hxp)
    · by_cases hxp : x = p
      · rw [hxp, stackOf_addThread_self hpidle, stackOf_addThread_of_ne hrp]
        exact (hapart r (known_of_addThread hr hrp)).symm
      · rw [stackOf_addThread_of_ne hrp, stackOf_addThread_of_ne hxp]
        exact h.disjoint r x (known_of_addThread hr hrp) (known_of_addThread hx hxp) hrx
  · change t.machine.regs .rsp ∈ (t.addThread p new stack).stackOf boot t.current
    rw [stackOf_addThread_of_ne hcurrent]
    exact h.rsp
  · by_cases hrp : r = p
    · rw [hrp, stackOf_addThread_self hpidle, contexts_addThread_self]
      exact hrsp
    · rw [stackOf_addThread_of_ne hrp, contexts_addThread_of_ne hrp]
      exact h.saved r (known_of_addThread hr hrp) hrc

theorem prepare (label : UInt64) {thread entry arg stackBase : Ptr} {name : String}
    {stackSize id : UInt64}
    (hok : t.Ok boot (.call (.prepare thread name entry arg stackBase stackSize id))) :
    ∃ q', Housed boot
      (step label (.call (.prepare thread name entry arg stackBase stackSize id)) t).2 q' := by
  obtain ⟨q', hwaits, hqueue, -⟩ := h.draws_call label hok
  rcases step_prepare label thread name entry arg stackBase stackSize id t with
    heq | ⟨new, rfl, rfl, hrsp, heq⟩
  · rw [heq]
    exact ⟨q, h⟩
  · rw [heq] at hwaits ⊢
    exact ⟨q', h.add hok.1 hok.2 hrsp hwaits hqueue⟩

theorem compute (label : UInt64) {regs : Reg → UInt64} {rip : UInt64} {stack : Ptr → UInt64}
    (hok : t.Ok boot (.compute regs rip stack)) :
    Housed boot (step label (.compute regs rip stack) t).2 q where
  waits := ⟨⟨⟨h.waits.initialized, h.waits.queue, h.waits.count, h.waits.ready, h.waits.valid⟩,
    h.waits.current_valid, h.waits.idle_valid, h.waits.current_notMem⟩, h.waits.current_running⟩
  queue := h.queue
  current := h.current
  idle := h.idle
  disjoint := h.disjoint
  rsp := hok.1
  saved := h.saved

/-- Every act that the rules allow keeps the stacks apart. -/
theorem step (label : UInt64) (hok : t.Ok boot a) :
    ∃ q', Housed boot (step label a t).2 q' := by
  cases a with
  | compute regs rip stack => exact ⟨q, h.compute label hok⟩
  | call c =>
    rcases c.noPrepare_or with hc | ⟨_, _, _, _, _, _, _, rfl⟩
    · exact h.call label hc hok
    · exact h.prepare label hok

end Housed

/-! ## Threads that wait -/

/-- The thread `p` has its context and its stack in `u` as it had them in `t`. -/
structure Undisturbed (boot : Set Ptr) (p : Ptr) (t u : Threads) : Prop where
  known : u.Known p
  stackOf_eq : u.stackOf boot p = t.stackOf boot p
  context_eq : u.state.contexts p = t.state.contexts p
  stack_eq : ∀ x ∈ t.stackOf boot p, u.state.stack x = t.state.stack x

namespace Undisturbed

protected theorem refl (h : t.Known p) : Undisturbed boot p t t := ⟨h, rfl, rfl, fun _ _ ↦ rfl⟩

protected theorem trans {v : Threads} (h : Undisturbed boot p t u) (h' : Undisturbed boot p u v) :
    Undisturbed boot p t v :=
  ⟨h'.known, h'.stackOf_eq.trans h.stackOf_eq, h'.context_eq.trans h.context_eq,
    fun x hx ↦ (h'.stack_eq x (h.stackOf_eq ▸ hx)).trans (h.stack_eq x hx)⟩

end Undisturbed

theorem undisturbed_call (label : UInt64) (hc : c.NoPrepare) (hp : t.Known p)
    (hpc : t.current ≠ p) : Undisturbed boot p t (step label (.call c) t).2 := by
  have hstacks := sameStacks_step label hc t
  refine ⟨?_, hstacks.stackOf_eq boot p, ?_, fun x _ ↦ congrFun hstacks.stack x⟩
  · rw [Known, prepared_call label hc, hstacks.idle]
    exact hp
  · exact Machine.contexts_step hpc (not_renews hc p)

/-- The word that `mcsos_thread_prepare` writes is in the stack of the new thread. -/
theorem undisturbed_prepare (label : UInt64) {thread entry arg stackBase : Ptr} {name : String}
    {stackSize id : UInt64}
    (hok : t.Ok boot (.call (.prepare thread name entry arg stackBase stackSize id)))
    (hp : t.Known p) : Undisturbed boot p t
      (step label (.call (.prepare thread name entry arg stackBase stackSize id)) t).2 := by
  have hne : p ≠ thread := by
    rintro rfl
    exact hok.1 hp
  rcases step_prepare label thread name entry arg stackBase stackSize id t with
    heq | ⟨new, -, -, hrsp, heq⟩
  · rw [heq]
    exact .refl hp
  · rw [heq]
    refine ⟨hp.imp_right (List.mem_cons_of_mem thread), stackOf_addThread_of_ne hne,
      contexts_addThread_of_ne hne, fun x hx ↦ ?_⟩
    have hxne : x ≠ new.context.rsp := by
      rintro rfl
      exact Set.disjoint_left.mp (hok.2 p hp) hrsp hx
    exact Function.update_of_ne hxne ..

/-- A thread that does not run is left alone, whatever the current thread does. -/
theorem Housed.undisturbed (h : Housed boot t q) (label : UInt64) (hok : t.Ok boot a)
    (hp : t.Known p) (hpc : t.current ≠ p) :
    Undisturbed boot p t (Threads.step label a t).2 := by
  cases a with
  | compute regs rip stack =>
    refine ⟨hp, rfl, rfl, fun x hx ↦ hok.2 x ?_⟩
    exact Set.disjoint_left.mp (h.disjoint p t.current hp h.current hpc.symm) hx
  | call c =>
    rcases c.noPrepare_or with hc | ⟨_, _, _, _, _, _, _, rfl⟩
    · exact undisturbed_call label hc hp hpc
    · exact undisturbed_prepare label hok hp

/-! ## Runs -/

/-- After `mcsos_scheduler_init`, with any values in the registers. -/
def start (b : Ptr) (s : State) (regs : Reg → UInt64) (rip : UInt64) : Threads :=
  ⟨⟨(mcsosSchedulerInit b s).2, regs, rip⟩, []⟩

variable {b : Ptr} {regs : Reg → UInt64} {rip : UInt64} {es : List (Act × Status)}

theorem housed_start (hboot : (mcsosSchedulerInit b s).1 = .ok) (hrsp : regs .rsp ∈ boot) :
    Housed boot (start b s regs rip) [] := by
  have h0 := ne_zero_of_init hboot
  have hcurrent : (start b s regs rip).current = (start b s regs rip).state.sched.idle := by
    rw [start, state, current, Machine.current, mcsosSchedulerInit, if_neg h0]
  have hknown : ∀ p, (start b s regs rip).Known p → p = (start b s regs rip).current := by
    intro p hp
    exact (hp.resolve_right List.not_mem_nil).trans hcurrent.symm
  refine ⟨waits_start hboot, fun _ hp ↦ absurd hp List.not_mem_nil, .inl hcurrent,
    List.not_mem_nil, fun p r hp hr hne ↦ ?_, ?_, fun p hp hne ↦ absurd (hknown p hp) hne⟩
  · exact absurd ((hknown p hp).trans (hknown r hr).symm) hne
  · rw [stackOf, State.stackOf, if_pos hcurrent]
    exact hrsp

theorem housed_of_run (hboot : (mcsosSchedulerInit b s).1 = .ok) (hrsp : regs .rsp ∈ boot)
    (hrun : Run (step label) (Ok boot) (start b s regs rip) es t) : ∃ q, Housed boot t q := by
  refine hrun.invariant (P := fun t ↦ ∃ q, Housed boot t q) ⟨[], housed_start hboot hrsp⟩ ?_
  rintro t a ⟨q, h⟩ hok
  exact h.step label hok

/-- **Every thread on its own stack.** In every run in which the threads keep to the rules of use,
the stack pointer is in the stack of the current thread and no two stacks overlap. From any state
reached, as long as a thread does not run, its saved registers and the words in its stack stay as
they are, whatever the other threads compute, call or prepare. -/
theorem stacks_isolated (hboot : (mcsosSchedulerInit b s).1 = .ok) (hrsp : regs .rsp ∈ boot)
    (hrun : Run (step label) (Ok boot) (start b s regs rip) es t) :
    t.machine.regs .rsp ∈ t.stackOf boot t.current ∧
    (∀ p r, t.Known p → t.Known r → p ≠ r → Disjoint (t.stackOf boot p) (t.stackOf boot r)) ∧
    ∀ p es' u, t.Known p → Run (step label) (fun v a ↦ v.Ok boot a ∧ v.current ≠ p) t es' u →
      u.state.contexts p = t.state.contexts p ∧ u.stackOf boot p = t.stackOf boot p ∧
        ∀ x ∈ t.stackOf boot p, u.state.stack x = t.state.stack x := by
  obtain ⟨q, h⟩ := housed_of_run hboot hrsp hrun
  refine ⟨h.rsp, h.disjoint, fun p es' u hp haway ↦ ?_⟩
  have hu : (∃ q, Housed boot u q) ∧ Undisturbed boot p t u := by
    refine haway.invariant (P := fun u ↦ (∃ q, Housed boot u q) ∧ Undisturbed boot p t u)
      ⟨⟨q, h⟩, .refl hp⟩ ?_
    rintro v a ⟨⟨q, hv⟩, htv⟩ ⟨hok, hpc⟩
    exact ⟨hv.step label hok, htv.trans (hv.undisturbed label hok htv.known hpc)⟩
  exact ⟨hu.2.context_eq, hu.2.stackOf_eq, hu.2.stack_eq⟩

/-- A stack for the boot thread. -/
def bootStack : Set Ptr := stackRange 0x1000 0x1000

/-- The boot thread at work. -/
def booted : Threads := start 1 blankState (fun _ ↦ 0x1800) 0

/-- The boot thread has prepared a thread and enqueued it. -/
def oneEnqueued : Threads := (step 9 (.call (.enqueue 2)) (step 9 (.call (prepareAt 2)) booted).2).2

theorem disjoint_bootStack : Disjoint (stackRange 65536 8192) bootStack := by
  refine Set.disjoint_left.mpr fun x hx hx' ↦ ?_
  have hlow : (65536 : UInt64).toNat ≤ x.toNat := hx.1
  have hhigh : x.toNat < (0x1000 : UInt64).toNat + (0x1000 : UInt64).toNat := hx'.2
  have hlit : (65536 : UInt64).toNat = 65536 ∧ (0x1000 : UInt64).toNat = 0x1000 := by decide
  omega

theorem ok_prepareAt : booted.Ok bootStack (.call (prepareAt 2)) := by
  refine ⟨fun hknown ↦ hknown.elim (by decide +kernel) List.not_mem_nil, fun r hr ↦ ?_⟩
  rw [stackOf, State.stackOf, if_pos (hr.resolve_right List.not_mem_nil)]
  exact disjoint_bootStack

theorem ok_compute : oneEnqueued.Ok bootStack
    (.compute (fun _ ↦ 0x1700) 5 (Function.update oneEnqueued.state.stack 0x1800 7)) := by
  have hboot : oneEnqueued.stackOf bootStack oneEnqueued.current = bootStack := by
    rw [stackOf, State.stackOf, if_pos (by decide +kernel)]
  rw [Ok, hboot]
  refine ⟨⟨by decide, by decide⟩, fun x hx ↦ Function.update_of_ne ?_ ..⟩
  rintro rfl
  exact hx ⟨by decide, by decide⟩

/-- The boot thread prepares a thread and enqueues it, writes to its own stack and yields. -/
theorem stacks_isolated_two : ∃ es es' u, Run (step 9) (Ok bootStack) booted es oneEnqueued ∧
    Run (step 9) (fun v a ↦ v.Ok bootStack a ∧ v.current ≠ 2) oneEnqueued es' u ∧
      es.length = 2 ∧ es'.length = 2 ∧ u.current = 2 ∧
      u.state.contexts 2 = oneEnqueued.state.contexts 2 := by
  have hnil : Run (step 9) (Ok bootStack) booted [] _ := .nil
  have hrun : Run (step 9) (Ok bootStack) booted _ oneEnqueued :=
    (hnil.snoc (.call (prepareAt 2)) ok_prepareAt).snoc (.call (.enqueue 2))
      ⟨by decide +kernel, by decide +kernel⟩
  have hnil' : Run (step 9) (fun v a ↦ v.Ok bootStack a ∧ v.current ≠ 2) oneEnqueued [] _ := .nil
  have haway := (hnil'.snoc _ ⟨ok_compute, by decide +kernel⟩).snoc (.call .yield)
    ⟨trivial, by decide +kernel⟩
  have hrsp : (0x1800 : UInt64) ∈ bootStack := ⟨by decide, by decide⟩
  have hisolated := stacks_isolated (by decide +kernel) hrsp hrun
  exact ⟨_, _, _, hrun, haway, rfl, rfl, by decide +kernel,
    (hisolated.2.2 2 _ _ (.inr (by decide +kernel)) haway).1⟩

end Threads

end Sched

end Mcsos
