import Mcsos.Base.Machine
import Mcsos.Thread.Fifo

/-!
# Context switches

`context_switch.S`, and the scheduler with the call of it that ends `mcsos_sched_yield` outside
`MCSOS_HOST_TEST`. The processor has one register file for all threads. The routine saves it in the
context of the old thread and loads it from the context of the new one; the offsets are those of the
words of `mcsos_context_t`. It saves the address of its own label `1` as the instruction pointer,
where a `ret` returns to the caller with the thread's own stack.

Only `mcsos_thread_prepare` and the routine write contexts, and the routine writes that of the
thread that runs. So what a thread has saved is there when it is dispatched again, whatever the
scheduler and the other threads do in between (`context_preserved`).
-/

namespace Mcsos

namespace Sched

variable {s s' : State} {p r : Ptr} {f : Thread → Thread}

/-! ## The routine -/

/-- The registers that `context_switch.S` names, except the instruction pointer and the two that
hold its arguments. -/
inductive Reg where
  | rax
  | rsp
  | rbp
  | rbx
  | r12
  | r13
  | r14
  | r15
  deriving DecidableEq

/-- The word of the context at a byte offset. The fields of `mcsos_context_t` are eight words in
this order. -/
def Context.word (c : Context) : ℕ → UInt64
  | 0 => c.rsp
  | 8 => c.rbp
  | 16 => c.rbx
  | 24 => c.r12
  | 32 => c.r13
  | 40 => c.r14
  | 48 => c.r15
  | 56 => c.rip
  | _ => 0

/-- Store a word of the context at a byte offset. -/
def Context.setWord (c : Context) (value : UInt64) : ℕ → Context
  | 0 => { c with rsp := value }
  | 8 => { c with rbp := value }
  | 16 => { c with rbx := value }
  | 24 => { c with r12 := value }
  | 32 => { c with r13 := value }
  | 40 => { c with r14 := value }
  | 48 => { c with r15 := value }
  | 56 => { c with rip := value }
  | _ => c

/-- The memory of the scheduler and the registers of the processor. -/
structure Machine where
  state : State
  regs : Reg → UInt64
  rip : UInt64

namespace Machine

def current (m : Machine) : Ptr := m.state.sched.current

/-- The registers that make up a thread's execution state. -/
def file (m : Machine) : Context :=
  ⟨m.regs .rsp, m.regs .rbp, m.regs .rbx, m.regs .r12, m.regs .r13, m.regs .r14, m.regs .r15, m.rip⟩

def setReg (m : Machine) (reg : Reg) (value : UInt64) : Machine :=
  { m with regs := Function.update m.regs reg value }

end Machine

/-- The instructions of the routine. `rdi` and `rsi` point to contexts of threads. -/
inductive Instr where
  /-- `leaq 1f(%rip), %dst` -/
  | leaq (dst : Reg)
  /-- `movq %src, offset(%rdi)` -/
  | save (src : Reg) (offset : ℕ)
  /-- `movq offset(%rsi), %dst` -/
  | load (offset : ℕ) (dst : Reg)
  /-- `jmp *offset(%rsi)` -/
  | jmp (offset : ℕ)

/-- The effect of an instruction. The pointers are given as the threads whose contexts they point
to; `label` is the address of the label `1`. -/
def Instr.exec (label : UInt64) (rdi rsi : Ptr) (m : Machine) : Instr → Machine
  | .leaq dst => m.setReg dst label
  | .save src offset =>
    { m with state := m.state.modify rdi fun t ↦
        { t with context := t.context.setWord (m.regs src) offset } }
  | .load offset dst => m.setReg dst ((m.state.threads rsi).context.word offset)
  | .jmp offset => { m with rip := (m.state.threads rsi).context.word offset }

/-- The first half of the routine. -/
def saves : List Instr :=
  [.leaq .rax, .save .rsp 0, .save .rbp 8, .save .rbx 16, .save .r12 24, .save .r13 32,
    .save .r14 40, .save .r15 48, .save .rax 56]

/-- The second half of the routine. -/
def loads : List Instr :=
  [.load 0 .rsp, .load 8 .rbp, .load 16 .rbx, .load 24 .r12, .load 32 .r13, .load 40 .r14,
    .load 48 .r15, .jmp 56]

/-- `mcsos_context_switch`, up to where the new thread goes on. -/
def mcsosContextSwitch (label : UInt64) (oldThread newThread : Ptr) (m : Machine) : Machine :=
  (saves ++ loads).foldl (Instr.exec label oldThread newThread) m

/-- The stores write the registers of the old thread, with the label as its instruction pointer. -/
theorem foldl_saves (label : UInt64) (old new : Ptr) (m : Machine) :
    (saves.foldl (Instr.exec label old new) m).state = m.state.modify old fun t ↦
      { t with context := { m.file with rip := label } } := by
  simp only [saves, List.foldl_cons, List.foldl_nil, Instr.exec, Machine.setReg, State.modify,
    Function.update_self, Function.update_idem]
  rfl

theorem foldl_loads (label : UInt64) (old new : Ptr) (m : Machine) :
    (loads.foldl (Instr.exec label old new) m).state = m.state ∧
      (loads.foldl (Instr.exec label old new) m).file = (m.state.threads new).context :=
  ⟨rfl, rfl⟩

theorem state_mcsosContextSwitch (label : UInt64) (old new : Ptr) (m : Machine) :
    (mcsosContextSwitch label old new m).state = m.state.modify old fun t ↦
      { t with context := { m.file with rip := label } } := by
  rw [mcsosContextSwitch, List.foldl_append, (foldl_loads label old new _).1, foldl_saves]

theorem file_mcsosContextSwitch {old new : Ptr} (h : new ≠ old) (label : UInt64) (m : Machine) :
    (mcsosContextSwitch label old new m).file = (m.state.threads new).context := by
  rw [mcsosContextSwitch, List.foldl_append, (foldl_loads label old new _).2, foldl_saves,
    threads_modify_of_ne h]

/-! ## The scheduler with switches -/

/-- `mcsos_sched_yield`, with the switch at its end. -/
def Machine.mcsosSchedYield (label : UInt64) (m : Machine) : Status × Machine :=
  let s := m.state
  if s.sched.initialized = false ∨ validThreadObject s s.sched.current = false then (.einval, m)
  else
    let oldThread := s.sched.current
    let (nextThread, s) := mcsosSchedPickNext s
    if validThreadObject s nextThread = false then (.ecorrupt, { m with state := s })
    else if nextThread = oldThread then
      (.ok, { m with state := s.modify oldThread fun t ↦ { t with state := .running } })
    else if (s.threads oldThread).state = .running ∧ oldThread ≠ s.sched.idle then
      let s := s.modify oldThread fun t ↦ { t with state := .ready }
      match mcsosSchedEnqueue oldThread s with
      | (.ok, s) =>
        (.ok, mcsosContextSwitch label oldThread nextThread
          { m with state := dispatch oldThread nextThread s })
      | (rc, s) => (rc, { m with state := s })
    else
      (.ok, mcsosContextSwitch label oldThread nextThread
        { m with state := dispatch oldThread nextThread s })

/-- `mcsos_thread_block_current`, with the switch at the end of `mcsos_sched_yield`. -/
def Machine.mcsosThreadBlockCurrent (label : UInt64) (m : Machine) : Status × Machine :=
  let s := m.state
  if s.sched.initialized = false ∨ validThreadObject s s.sched.current = false then (.einval, m)
  else if s.sched.current = s.sched.idle then (.estate, m)
  else
    { m with state := s.modify s.sched.current fun t ↦
        { t with state := .blocked } }.mcsosSchedYield label

/-- What can happen: the thread that runs computes, which leaves any values in the registers, or it
calls a function of the scheduler. -/
inductive Event where
  | compute (regs : Reg → UInt64) (rip : UInt64)
  | call (c : Call)

def Machine.step (label : UInt64) : Event → Machine → Status × Machine
  | .compute regs rip, m => (.ok, ⟨m.state, regs, rip⟩)
  | .call .yield, m => m.mcsosSchedYield label
  | .call .blockCurrent, m => m.mcsosThreadBlockCurrent label
  | .call c, m => ((c.run m.state).1, { m with state := (c.run m.state).2 })

/-! ## The functions of the scheduler keep contexts -/

def State.contexts (s : State) : Ptr → Context := fun p ↦ (s.threads p).context

theorem contexts_modify :
    (s.modify p f).contexts = Function.update s.contexts p (f (s.threads p)).context :=
  Function.comp_update Thread.context s.threads p _

theorem contexts_modify_of_eq (h : (f (s.threads p)).context = (s.threads p).context) :
    (s.modify p f).contexts = s.contexts := by
  rw [contexts_modify, h]
  exact Function.update_eq_self p s.contexts

/-- The same thread runs, and no context has changed. -/
structure SameContexts (s s' : State) : Prop where
  current : s'.sched.current = s.sched.current
  contexts : s'.contexts = s.contexts

namespace SameContexts

protected theorem refl (s : State) : SameContexts s s := ⟨rfl, rfl⟩

protected theorem trans {s₁ s₂ s₃ : State} (h : SameContexts s₁ s₂) (h' : SameContexts s₂ s₃) :
    SameContexts s₁ s₃ :=
  ⟨h'.current.trans h.current, h'.contexts.trans h.contexts⟩

theorem modify (s : State) (p : Ptr) (h : ∀ t, (f t).context = t.context) :
    SameContexts s (s.modify p f) :=
  ⟨rfl, contexts_modify_of_eq (h _)⟩

end SameContexts

theorem sameContexts_linkTail (p : Ptr) (s : State) : SameContexts s (linkTail p s) := by
  rw [linkTail]
  split
  · exact ⟨rfl, rfl⟩
  · have hnext : SameContexts s (s.modify s.sched.readyTail fun t ↦ { t with next := p }) :=
      .modify s _ fun _ ↦ rfl
    exact ⟨rfl, hnext.contexts⟩

theorem sameContexts_enqueue (p : Ptr) (s : State) :
    SameContexts s (mcsosSchedEnqueue p s).2 := by
  rw [mcsosSchedEnqueue]
  split
  · exact .refl s
  split
  · exact .refl s
  have hready : SameContexts s (s.modify p fun t ↦ { t with state := .ready, next := 0 }) :=
    .modify s p fun _ ↦ rfl
  have hlink := hready.trans (sameContexts_linkTail p _)
  exact ⟨hlink.current, hlink.contexts⟩

theorem sameContexts_pickNext (s : State) : SameContexts s (mcsosSchedPickNext s).2 := by
  rw [mcsosSchedPickNext]
  split
  · exact .refl s
  split
  · exact .refl s
  · have hnext : SameContexts s (s.modify s.sched.readyHead fun t ↦ { t with next := 0 }) :=
      .modify s _ fun _ ↦ rfl
    exact ⟨rfl, hnext.contexts⟩

theorem sameContexts_tick (s : State) : SameContexts s (mcsosSchedTick s).2 := by
  rw [mcsosSchedTick]
  split
  · exact .refl s
  · have hticks : SameContexts s (s.modify s.sched.current fun t ↦
      { t with ticks := t.ticks + 1 }) := .modify s _ fun _ ↦ rfl
    exact ⟨rfl, hticks.contexts⟩

theorem sameContexts_markReady (p : Ptr) (s : State) :
    SameContexts s (mcsosThreadMarkReady p s).2 := by
  rw [mcsosThreadMarkReady]
  split
  · exact .refl s
  split
  · exact .refl s
  · exact sameContexts_enqueue p s

theorem contexts_dispatch (old new : Ptr) (s : State) :
    (dispatch old new s).contexts = s.contexts := by
  have hrunning : SameContexts s (s.modify new fun t ↦ { t with state := .running }) :=
    .modify s new fun _ ↦ rfl
  have hold : SameContexts _ (addSwitch old _) := hrunning.trans (.modify _ old fun _ ↦ rfl)
  have hnew : SameContexts _ (addSwitch new _) := hold.trans (.modify _ new fun _ ↦ rfl)
  exact hnew.contexts

/-- `mcsos_sched_yield` leaves the current thread as it is, or it ends with `dispatch`. -/
theorem yield_cases (label : UInt64) (m : Machine) :
    (∃ rc s, mcsosSchedYield m.state = (rc, s) ∧ SameContexts m.state s ∧
        m.mcsosSchedYield label = (rc, { m with state := s })) ∨
      ∃ s next, next ≠ m.current ∧ SameContexts m.state s ∧
        mcsosSchedYield m.state = (.ok, dispatch m.current next s) ∧
        m.mcsosSchedYield label = (.ok, mcsosContextSwitch label m.current next
          { m with state := dispatch m.current next s }) := by
  rw [mcsosSchedYield, Machine.mcsosSchedYield]
  dsimp only
  split_ifs
  · exact .inl ⟨_, _, rfl, .refl _, rfl⟩
  · exact .inl ⟨_, _, rfl, sameContexts_pickNext _, rfl⟩
  · exact .inl ⟨_, _, rfl, (sameContexts_pickNext _).trans (.modify _ _ fun _ ↦ rfl), rfl⟩
  · next hnext _ =>
    have hready : SameContexts m.state ((mcsosSchedPickNext m.state).2.modify m.current fun t ↦
      { t with state := .ready }) := (sameContexts_pickNext _).trans (.modify _ _ fun _ ↦ rfl)
    have henqueue := hready.trans (sameContexts_enqueue m.current _)
    rcases hrc : mcsosSchedEnqueue m.current ((mcsosSchedPickNext m.state).2.modify m.current
      fun t ↦ { t with state := .ready }) with ⟨rc, s⟩
    rw [hrc] at henqueue
    rw [Machine.current] at hrc
    rw [hrc]
    cases rc with
    | ok => exact .inr ⟨s, _, hnext, henqueue, rfl, rfl⟩
    | _ => exact .inl ⟨_, s, rfl, henqueue, rfl⟩
  · next hnext _ => exact .inr ⟨_, _, hnext, sameContexts_pickNext _, rfl, rfl⟩

namespace Machine

/-- The scheduler has done its work on the memory; another thread than before may be current now,
and then the processor is switched to it. -/
def switchTo (label : UInt64) (m : Machine) (s : State) : Machine :=
  if s.sched.current = m.current then { m with state := s }
  else mcsosContextSwitch label m.current s.sched.current { m with state := s }

variable {label : UInt64} {m w : Machine} {e : Event}

theorem switchTo_of_eq (h : s.sched.current = m.current) :
    m.switchTo label s = { m with state := s } := if_pos h

theorem switchTo_of_ne (h : s.sched.current ≠ m.current) : m.switchTo label s =
    mcsosContextSwitch label m.current s.sched.current { m with state := s } := if_neg h

theorem mcsosSchedYield_eq (label : UInt64) (m : Machine) :
    m.mcsosSchedYield label =
      ((Sched.mcsosSchedYield m.state).1, m.switchTo label (Sched.mcsosSchedYield m.state).2) := by
  rcases yield_cases label m with ⟨rc, s, hhost, hsame, hswitch⟩ | ⟨s, next, hne, -, hhost, hswitch⟩
  · rw [hhost, hswitch]
    exact Prod.ext rfl (switchTo_of_eq hsame.current).symm
  · rw [hhost, hswitch]
    exact Prod.ext rfl (switchTo_of_ne hne).symm

theorem mcsosThreadBlockCurrent_eq (label : UInt64) (m : Machine) :
    m.mcsosThreadBlockCurrent label = ((Sched.mcsosThreadBlockCurrent m.state).1,
      m.switchTo label (Sched.mcsosThreadBlockCurrent m.state).2) := by
  rw [mcsosThreadBlockCurrent, Sched.mcsosThreadBlockCurrent]
  split_ifs
  · exact Prod.ext rfl (switchTo_of_eq rfl).symm
  · exact Prod.ext rfl (switchTo_of_eq rfl).symm
  · exact mcsosSchedYield_eq label _

theorem sched_prepare (thread : Ptr) (name : String) (entry arg stackBase : Ptr)
    (stackSize id : UInt64) (s : State) :
    (mcsosThreadPrepare thread name entry arg stackBase stackSize id s).2.sched = s.sched := by
  rcases prepare_cases thread name entry arg stackBase stackSize id s with
    ⟨_, -, heq⟩ | ⟨_, _, -, -, -, heq⟩ <;> rw [heq]

/-- The scheduler of the kernel is the one without switches, followed by a switch whenever another
thread has become current. -/
theorem step_call (label : UInt64) (c : Call) (m : Machine) :
    step label (.call c) m = ((c.run m.state).1, m.switchTo label (c.run m.state).2) := by
  cases c with
  | prepare =>
    exact Prod.ext rfl (switchTo_of_eq (congrArg Scheduler.current (sched_prepare ..))).symm
  | enqueue thread =>
    exact Prod.ext rfl (switchTo_of_eq (sameContexts_enqueue thread m.state).current).symm
  | markReady thread =>
    exact Prod.ext rfl (switchTo_of_eq (sameContexts_markReady thread m.state).current).symm
  | yield => exact mcsosSchedYield_eq label m
  | tick => exact Prod.ext rfl (switchTo_of_eq (sameContexts_tick m.state).current).symm
  | blockCurrent => exact mcsosThreadBlockCurrent_eq label m

/-! ## Saved contexts -/

/-- The event makes the thread `p` a new one. -/
def Renews (m : Machine) (p : Ptr) : Event → Prop
  | .call (.prepare thread name entry arg stackBase stackSize id) => thread = p ∧
    (mcsosThreadPrepare thread name entry arg stackBase stackSize id m.state).1 = .ok
  | _ => False

theorem contexts_yield (s : State) : (Sched.mcsosSchedYield s).2.contexts = s.contexts := by
  rcases yield_cases 0 ⟨s, fun _ ↦ 0, 0⟩ with ⟨_, _, hhost, hsame, -⟩ | ⟨_, _, -, hsame, hhost, -⟩
  · rw [hhost]
    exact hsame.contexts
  · rw [hhost, contexts_dispatch]
    exact hsame.contexts

theorem contexts_blockCurrent (s : State) :
    (Sched.mcsosThreadBlockCurrent s).2.contexts = s.contexts := by
  rw [Sched.mcsosThreadBlockCurrent]
  split_ifs
  · rfl
  · rfl
  · exact (contexts_yield _).trans (contexts_modify_of_eq rfl)

theorem contexts_run {c : Call} (h : ¬m.Renews p (.call c)) :
    (c.run m.state).2.contexts p = m.state.contexts p := by
  cases c with
  | prepare thread name entry arg stackBase stackSize id =>
    rw [Call.run]
    rcases prepare_cases thread name entry arg stackBase stackSize id m.state with
      ⟨rc, -, heq⟩ | ⟨stack, new, -, -, -, heq⟩
    · rw [heq]
    · have hne : p ≠ thread := fun hp ↦ h ⟨hp.symm, by rw [heq]⟩
      rw [heq]
      exact congrArg Thread.context (Function.update_of_ne hne new m.state.threads)
  | enqueue thread => exact congrFun (sameContexts_enqueue thread m.state).contexts p
  | markReady thread => exact congrFun (sameContexts_markReady thread m.state).contexts p
  | yield => exact congrFun (contexts_yield m.state) p
  | tick => exact congrFun (sameContexts_tick m.state).contexts p
  | blockCurrent => exact congrFun (contexts_blockCurrent m.state) p

theorem contexts_step (hp : m.current ≠ p) (h : ¬m.Renews p e) :
    (step label e m).2.state.contexts p = m.state.contexts p := by
  cases e with
  | compute regs rip => rfl
  | call c =>
    rw [step_call, ← contexts_run h]
    by_cases hcurrent : (c.run m.state).2.sched.current = m.current
    · rw [switchTo_of_eq hcurrent]
    · rw [switchTo_of_ne hcurrent, state_mcsosContextSwitch, contexts_modify]
      exact Function.update_of_ne hp.symm ..

/-- A step after which another thread runs is a switch. It saves the registers of the thread that
ran, and the other thread gets those of its context. -/
theorem step_of_switched (h : (step label e m).2.current ≠ m.current) :
    (step label e m).2.state.contexts m.current = { m.file with rip := label } ∧
      (step label e m).2.file = m.state.contexts (step label e m).2.current := by
  cases e with
  | compute regs rip => exact absurd rfl h
  | call c =>
    have hrenews : ¬m.Renews (c.run m.state).2.sched.current (.call c) := by
      intro hrenews
      cases c with
      | prepare => exact h (congrArg Scheduler.current (sched_prepare ..))
      | _ => exact hrenews
    rw [step_call] at h ⊢
    by_cases hcurrent : (c.run m.state).2.sched.current = m.current
    · rw [switchTo_of_eq hcurrent] at h
      exact absurd hcurrent h
    · rw [switchTo_of_ne hcurrent]
      refine ⟨?_, ?_⟩
      · rw [state_mcsosContextSwitch, contexts_modify]
        exact Function.update_self ..
      · rw [file_mcsosContextSwitch hcurrent, current, state_mcsosContextSwitch]
        exact contexts_run hrenews

/-! ## Runs -/

/-- The thread `p` does not run and is not made a new one. -/
def Away (p : Ptr) (m : Machine) (e : Event) : Prop := m.current ≠ p ∧ ¬m.Renews p e

/-- A thread that gets the processor after it was away has the registers of its context from the
time when it went away. -/
theorem file_of_away {es : List (Event × Status)} {e' : Event}
    (hrun : Run (step label) (Away p) m es w) (hw : w.current ≠ p)
    (hback : (step label e' w).2.current = p) :
    (step label e' w).2.file = m.state.contexts p := by
  have hcontext : w.state.contexts p = m.state.contexts p :=
    hrun.invariant (P := fun u ↦ u.state.contexts p = m.state.contexts p) rfl
      fun _ _ hu hallowed ↦ (contexts_step hallowed.1 hallowed.2).trans hu
  have hswitched : (step label e' w).2.current ≠ w.current := by
    rw [hback]
    exact hw.symm
  rw [(step_of_switched hswitched).2, hback, hcontext]

theorem entry_of_prepared {thread : Ptr} {name : String} {entry arg stackBase : Ptr}
    {stackSize id : UInt64} {s : State}
    (h : (mcsosThreadPrepare thread name entry arg stackBase stackSize id s).1 = .ok) :
    ((mcsosThreadPrepare thread name entry arg stackBase stackSize id s).2.contexts thread).rip =
      entry := by
  rw [mcsosThreadPrepare] at h ⊢
  dsimp only at h ⊢
  split_ifs at h ⊢
  rw [State.contexts]
  dsimp only
  rw [Function.update_self]

/-- A prepared thread that gets the processor for the first time starts at its entry, with the
context that was prepared for it. -/
theorem first_dispatch {v : Machine} {name : String} {entry arg stackBase : Ptr}
    {stackSize id : UInt64} {e' : Event} {es : List (Event × Status)}
    (hprepare : step label (.call (.prepare p name entry arg stackBase stackSize id)) m = (.ok, v))
    (hrun : Run (step label) (Away p) v es w) (hw : w.current ≠ p)
    (hback : (step label e' w).2.current = p) :
    (step label e' w).2.rip = entry ∧ (step label e' w).2.file = (v.state.threads p).context := by
  have hfile := file_of_away hrun hw hback
  have hok : (mcsosThreadPrepare p name entry arg stackBase stackSize id m.state).1 = .ok :=
    congrArg Prod.fst hprepare
  obtain rfl : _ = v := congrArg Prod.snd hprepare
  have hrip := congrArg Context.rip hfile
  exact ⟨hrip.trans (entry_of_prepared hok), hfile⟩

/-- In every run in which threads compute and call the scheduler, a thread that was switched out
and gets the processor again goes on at the label in the routine that switched it out, with the
registers it had there. A prepared thread that gets the processor for the first time starts at its
entry, with the registers that were prepared for it. -/
theorem context_preserved (label : UInt64) (p : Ptr) :
    (∀ (m w : Machine) (e e' : Event) (es : List (Event × Status)), m.current = p →
      (step label e m).2.current ≠ p → Run (step label) (Away p) (step label e m).2 es w →
      w.current ≠ p → (step label e' w).2.current = p →
        (step label e' w).2.file = { m.file with rip := label }) ∧
    ∀ (m v w : Machine) (name : String) (entry arg stackBase : Ptr) (stackSize id : UInt64)
      (e' : Event) (es : List (Event × Status)),
      step label (.call (.prepare p name entry arg stackBase stackSize id)) m = (.ok, v) →
      v.current ≠ p → Run (step label) (Away p) v es w →
      w.current ≠ p → (step label e' w).2.current = p →
        (step label e' w).2.rip = entry ∧
          (step label e' w).2.file = (v.state.threads p).context := by
  refine ⟨?_, ?_⟩
  · intro m w e e' es hcurrent hout hrun hw hback
    rw [file_of_away hrun hw hback]
    subst hcurrent
    exact (step_of_switched hout).1
  · intro m v w name entry arg stackBase stackSize id e' es hprepare _ hrun hw hback
    exact first_dispatch hprepare hrun hw hback

/-- The boot thread is about to yield to a prepared thread. -/
def twoThreads : Machine :=
  ⟨((Call.enqueue 2).run (prepareTwo.run (mcsosSchedulerInit 1 blankState).2).2).2, fun _ ↦ 7, 8⟩

/-- The boot thread yields, the other thread fills the registers and yields too. -/
theorem context_preserved_boot : ∃ w : Machine, w.current = 2 ∧
    (step 9 (.call .yield) w).2.current = 1 ∧
      (step 9 (.call .yield) w).2.file = ⟨7, 7, 7, 7, 7, 7, 7, 9⟩ := by
  have hrun : Run (step 9) (Away 1) (step 9 (.call .yield) twoThreads).2 _ _ :=
    Run.nil.snoc (.compute (fun _ ↦ 5) 6) ⟨by decide +kernel, id⟩
  exact ⟨_, by decide +kernel, by decide +kernel, (context_preserved 9 1).1 twoThreads _
    (.call .yield) (.call .yield) _ rfl (by decide +kernel) hrun (by decide +kernel)
    (by decide +kernel)⟩

end Machine

end Sched

end Mcsos
