import Mathlib.Algebra.Group.Nat.Defs
import Mathlib.Data.Nat.Notation
import Mathlib.Logic.Function.Basic

/-!
# The thread scheduler

`mcsos_thread.c`. A thread object is known by its address, 0 for `NULL`; the memory gives what is
stored in the object at every address, and two objects do not overlap. There is one scheduler: the
functions refuse a null `sched` before they read anything, and the pointer is not an argument here.
The registers that `mcsos_context_switch` saves are those of the machine, the scheduler never reads
them; the last statement of `mcsos_sched_yield` is left out, as it is under `MCSOS_HOST_TEST`. The
scheduler with it is in `Mcsos.Thread.Context`.

The two loops over the ready list follow `next` until it is null. They are given as many rounds as
there are addresses, and `none` means that they are not enough: such a loop never ends.
-/

namespace Mcsos

namespace Sched

/-! ## Constants and types -/

def threadMagic : UInt64 := 0x4d435448524541

def minKernelStack : UInt64 := 4096

def stackAlign : UInt64 := 16

/-- The `MCSOS_SCHED_*` codes that the functions return. -/
inductive Status where
  | ok
  | einval
  | estack
  | estate
  | ecorrupt
  deriving DecidableEq

/-- `mcsos_thread_state_t` -/
inductive ThreadState where
  | new
  | ready
  | running
  | blocked
  | zombie
  deriving DecidableEq

/-- `mcsos_context_t` -/
structure Context where
  rsp : UInt64
  rbp : UInt64
  rbx : UInt64
  r12 : UInt64
  r13 : UInt64
  r14 : UInt64
  r15 : UInt64
  rip : UInt64
  deriving DecidableEq

/-- An address. -/
abbrev Ptr := UInt64

/-- `mcsos_thread_t` -/
structure Thread where
  magic : UInt64
  id : UInt64
  name : String
  state : ThreadState
  context : Context
  entry : Ptr
  arg : Ptr
  stackBase : Ptr
  stackSize : UInt64
  next : Ptr
  switches : UInt64
  ticks : UInt64
  exitCode : Int32
  deriving DecidableEq

/-- `mcsos_scheduler_t` -/
structure Scheduler where
  initialized : Bool
  current : Ptr
  idle : Ptr
  readyHead : Ptr
  readyTail : Ptr
  runnableCount : UInt64
  contextSwitches : UInt64
  ticks : UInt64
  nextId : UInt64
  deriving DecidableEq

/-- The scheduler, the thread objects, and the words in the stacks of the threads. -/
structure State where
  sched : Scheduler
  threads : Ptr → Thread
  stack : Ptr → UInt64

/-- Assignments to fields of the thread at `p`. -/
def State.modify (s : State) (p : Ptr) (f : Thread → Thread) : State :=
  { s with threads := Function.update s.threads p (f (s.threads p)) }

/-! ## Threads -/

def alignDownUintptr (value alignment : UInt64) : UInt64 := value &&& ~~~(alignment - 1)

def validThreadObject (s : State) (thread : Ptr) : Bool :=
  thread ≠ 0 && (s.threads thread).magic = threadMagic

def zeroContext : Context := ⟨0, 0, 0, 0, 0, 0, 0, 0⟩

def mcsosSchedulerInit (bootThread : Ptr) (s : State) : Status × State :=
  if bootThread = 0 then (.einval, s)
  else
    (.ok, { s with
      threads := Function.update s.threads bootThread
        { magic := threadMagic, id := 0, name := "boot", state := .running, entry := 0, arg := 0,
          stackBase := 0, stackSize := 0, next := 0, switches := 0, ticks := 0, exitCode := 0,
          context := zeroContext }
      sched :=
        { current := bootThread, idle := bootThread, readyHead := 0, readyTail := 0, nextId := 1,
          runnableCount := 0, contextSwitches := 0, ticks := 0, initialized := true } })

def mcsosThreadPrepare (thread : Ptr) (name : String) (entry arg stackBase : Ptr)
    (stackSize id : UInt64) (s : State) : Status × State :=
  if thread = 0 ∨ entry = 0 ∨ stackBase = 0 then (.einval, s)
  else if stackSize < minKernelStack then (.estack, s)
  else
    let low := stackBase
    let high := low + stackSize
    if high ≤ low then (.estack, s)
    else
      let top := alignDownUintptr high stackAlign
      if top ≤ low + 128 then (.estack, s)
      else
        let top := top - 8
        (.ok, { s with
          stack := Function.update s.stack top 0
          threads := Function.update s.threads thread
            { magic := threadMagic, id := id, name := name, state := .new,
              context := { zeroContext with rsp := top, rip := entry }, entry := entry, arg := arg,
              stackBase := stackBase, stackSize := stackSize, next := 0, switches := 0, ticks := 0,
              exitCode := 0 } })

/-! ## The ready list -/

/-- The assignments of `mcsos_sched_enqueue` to the list. -/
def linkTail (thread : Ptr) (s : State) : State :=
  if s.sched.readyTail = 0 then
    { s with sched := { s.sched with readyHead := thread, readyTail := thread } }
  else
    { s.modify s.sched.readyTail fun t ↦ { t with next := thread } with
      sched := { s.sched with readyTail := thread } }

def mcsosSchedEnqueue (thread : Ptr) (s : State) : Status × State :=
  if s.sched.initialized = false ∨ validThreadObject s thread = false then (.einval, s)
  else if (s.threads thread).state ≠ .new ∧ (s.threads thread).state ≠ .ready ∧
      (s.threads thread).state ≠ .blocked then (.estate, s)
  else
    let s := s.modify thread fun t ↦ { t with state := .ready, next := 0 }
    let s := linkTail thread s
    (.ok, { s with sched := { s.sched with runnableCount := s.sched.runnableCount + 1 } })

/-- The assignments of `mcsos_sched_pick_next` when the list is not empty. -/
def unlinkHead (thread : Ptr) (s : State) : State :=
  { s.modify thread fun t ↦ { t with next := 0 } with
    sched := { s.sched with
      readyHead := (s.threads thread).next
      readyTail := if (s.threads thread).next = 0 then 0 else s.sched.readyTail
      runnableCount :=
        if s.sched.runnableCount > 0 then s.sched.runnableCount - 1
        else s.sched.runnableCount } }

def mcsosSchedPickNext (s : State) : Ptr × State :=
  if s.sched.initialized = false then (0, s)
  else if s.sched.readyHead = 0 then (s.sched.idle, s)
  else (s.sched.readyHead, unlinkHead s.sched.readyHead s)

/-! ## Dispatching -/

/-- `thread->switches++` -/
def addSwitch (thread : Ptr) (s : State) : State :=
  s.modify thread fun t ↦ { t with switches := t.switches + 1 }

/-- The end of `mcsos_sched_yield`: `next_thread` becomes the current thread. -/
def dispatch (oldThread nextThread : Ptr) (s : State) : State :=
  let s := s.modify nextThread fun t ↦ { t with state := .running }
  let s := addSwitch nextThread (addSwitch oldThread s)
  { s with sched := { s.sched with
      current := nextThread
      contextSwitches := s.sched.contextSwitches + 1 } }

def mcsosSchedYield (s : State) : Status × State :=
  if s.sched.initialized = false ∨ validThreadObject s s.sched.current = false then (.einval, s)
  else
    let oldThread := s.sched.current
    let (nextThread, s) := mcsosSchedPickNext s
    if validThreadObject s nextThread = false then (.ecorrupt, s)
    else if nextThread = oldThread then
      (.ok, s.modify oldThread fun t ↦ { t with state := .running })
    else if (s.threads oldThread).state = .running ∧ oldThread ≠ s.sched.idle then
      let s := s.modify oldThread fun t ↦ { t with state := .ready }
      match mcsosSchedEnqueue oldThread s with
      | (.ok, s) => (.ok, dispatch oldThread nextThread s)
      | (rc, s) => (rc, s)
    else (.ok, dispatch oldThread nextThread s)

def mcsosSchedTick (s : State) : Status × State :=
  if s.sched.initialized = false ∨ validThreadObject s s.sched.current = false then (.einval, s)
  else
    let s := { s with sched := { s.sched with ticks := s.sched.ticks + 1 } }
    (.ok, s.modify s.sched.current fun t ↦ { t with ticks := t.ticks + 1 })

def mcsosThreadBlockCurrent (s : State) : Status × State :=
  if s.sched.initialized = false ∨ validThreadObject s s.sched.current = false then (.einval, s)
  else if s.sched.current = s.sched.idle then (.estate, s)
  else mcsosSchedYield (s.modify s.sched.current fun t ↦ { t with state := .blocked })

def mcsosThreadMarkReady (thread : Ptr) (s : State) : Status × State :=
  if validThreadObject s thread = false then (.einval, s)
  else if (s.threads thread).state ≠ .blocked then (.estate, s)
  else mcsosSchedEnqueue thread s

/-! ## Inspection -/

/-- The number of addresses. -/
def rounds : ℕ := 2 ^ 64

/-- The loop of `mcsos_sched_ready_count`. -/
def countFrom (s : State) : ℕ → Ptr → UInt64 → Option UInt64
  | fuel, cursor, count =>
    if cursor = 0 then some count
    else
      match fuel with
      | 0 => none
      | fuel + 1 => countFrom s fuel (s.threads cursor).next (count + 1)

def mcsosSchedReadyCount (s : State) : Option UInt64 :=
  if s.sched.initialized = false then some 0 else countFrom s rounds s.sched.readyHead 0

/-- The loop of `mcsos_sched_validate` and the two tests after it. -/
def validateFrom (s : State) : ℕ → Ptr → Ptr → UInt64 → Option Status
  | fuel, cursor, last, count =>
    if cursor = 0 then
      if last ≠ s.sched.readyTail then some .ecorrupt
      else if count ≠ s.sched.runnableCount then some .ecorrupt
      else some .ok
    else
      match fuel with
      | 0 => none
      | fuel + 1 =>
        if validThreadObject s cursor = false ∨ (s.threads cursor).state ≠ .ready then
          some .ecorrupt
        else if cursor = s.sched.current then some .ecorrupt
        else if count + 1 > s.sched.runnableCount + 1 then some .ecorrupt
        else validateFrom s fuel (s.threads cursor).next cursor (count + 1)

def mcsosSchedValidate (s : State) : Option Status :=
  if s.sched.initialized = false ∨ validThreadObject s s.sched.current = false then some .einval
  else validateFrom s rounds s.sched.readyHead 0 0

end Sched

end Mcsos
