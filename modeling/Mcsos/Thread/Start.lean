import Mcsos.Base.Bytes
import Mcsos.Thread.Context

/-!
# How a thread starts

What `mcsos_thread_prepare` promises a thread: a stack, an entry point and an argument.

The stack is computed in 64-bit arithmetic from a base and a size that may be anything. The checks
refuse exactly the stacks that are too small or that reach the end of the address space
(`prepare_of_nonnull`); the test against `low + 128` never fails after the other two.

The argument is stored in the thread object, and nothing reads it from there. The first dispatch
jumps to the entry point from inside `mcsos_context_switch`, whose own first argument is still in
`rdi`: the address of the context of the thread that was switched out.
-/

namespace Mcsos

namespace Sched

/-! ## Stacks -/

variable {thread entry arg stackBase : Ptr} {name : String} {stackSize id : UInt64} {s : State}

theorem toNat_alignDown (value : UInt64) :
    (alignDownUintptr value stackAlign).toNat = value.toNat / 16 * 16 := by
  have hmask : (~~~(stackAlign - 1)).toNat = 2 ^ 64 - 2 ^ 4 := by decide
  rw [alignDownUintptr, UInt64.toNat_and, hmask]
  exact and_highMask value.toNat_lt (by decide)

/-- The stack is too small, or it does not end below the end of the address space. -/
def BadStack (stackBase stackSize : UInt64) : Prop :=
  stackSize.toNat < 4096 ∨ 2 ^ 64 ≤ stackBase.toNat + stackSize.toNat

/-- The word that `mcsos_thread_prepare` leaves on the stack. -/
def stackTop (stackBase stackSize : UInt64) : UInt64 :=
  alignDownUintptr (stackBase + stackSize) stackAlign - 8

theorem toNat_stackTop (h : ¬BadStack stackBase stackSize) : (stackTop stackBase stackSize).toNat =
    (stackBase.toNat + stackSize.toNat) / 16 * 16 - 8 := by
  obtain ⟨hsize, hend⟩ := not_or.mp h
  have hhigh : (stackBase + stackSize).toNat = stackBase.toNat + stackSize.toNat := by
    rw [UInt64.toNat_add]
    exact Nat.mod_eq_of_lt (not_le.mp hend)
  have htop := toNat_alignDown (stackBase + stackSize)
  rw [hhigh] at htop
  have h8 : (8 : UInt64).toNat = 8 := rfl
  rw [stackTop, UInt64.toNat_sub_of_le _ _ (UInt64.le_iff_toNat_le.mpr (by omega)), htop, h8]

/-- `mcsos_thread_prepare` with pointers that are not `NULL` refuses a bad stack, and makes a thread
of every other one. -/
theorem prepare_of_nonnull (name : String) (arg : Ptr) (stackSize id : UInt64) (s : State)
    (hnull : ¬(thread = 0 ∨ entry = 0 ∨ stackBase = 0)) :
    BadStack stackBase stackSize ∧
        mcsosThreadPrepare thread name entry arg stackBase stackSize id s = (.estack, s) ∨
      ¬BadStack stackBase stackSize ∧
        (mcsosThreadPrepare thread name entry arg stackBase stackSize id s).1 = .ok ∧
        ((mcsosThreadPrepare thread name entry arg stackBase stackSize id s).2.threads thread
          ).context = { zeroContext with rsp := stackTop stackBase stackSize, rip := entry } := by
  have hbound := stackSize.toNat_lt
  have hmin : stackSize < minKernelStack ↔ stackSize.toNat < 4096 := UInt64.lt_iff_toNat_lt
  have hhigh : (stackBase + stackSize).toNat = (stackBase.toNat + stackSize.toNat) % 2 ^ 64 :=
    UInt64.toNat_add ..
  have hwrap : stackBase + stackSize ≤ stackBase ↔
      (stackBase.toNat + stackSize.toNat) % 2 ^ 64 ≤ stackBase.toNat := by
    rw [UInt64.le_iff_toNat_le, hhigh]
  rw [mcsosThreadPrepare, if_neg hnull]
  by_cases hsmall : stackSize.toNat < 4096
  · exact .inl ⟨.inl hsmall, if_pos (hmin.mpr hsmall)⟩
  rw [if_neg (mt hmin.mp hsmall)]
  dsimp only
  by_cases hend : 2 ^ 64 ≤ stackBase.toNat + stackSize.toNat
  · exact .inl ⟨.inr hend, if_pos (hwrap.mpr (by omega))⟩
  rw [if_neg (mt hwrap.mp (by omega)), if_neg]
  · exact .inr ⟨not_or.mpr ⟨hsmall, hend⟩, rfl, by simp [stackTop]⟩
  · -- a stack of 4096 bytes is more than 128 bytes high after the alignment
    have h128 : (stackBase + 128).toNat = stackBase.toNat + 128 := by
      rw [UInt64.toNat_add]
      exact Nat.mod_eq_of_lt (by change stackBase.toNat + 128 < _; omega)
    rw [UInt64.le_iff_toNat_le, toNat_alignDown, hhigh, h128]
    omega

/-- **Prepared stacks are usable.** The stack pointer of a prepared thread is 8 modulo 16, the word
at it lies in the stack, and at least 112 bytes of the stack are below it. With pointers that are
not `NULL`, a stack is refused if and only if it is smaller than 4096 bytes or does not end below
2^64, and then nothing has changed. -/
theorem prepared_stack_usable (thread : Ptr) (name : String) (entry arg stackBase : Ptr)
    (stackSize id : UInt64) (s : State) :
    ((mcsosThreadPrepare thread name entry arg stackBase stackSize id s).1 = .ok →
      ∃ rsp : UInt64,
        ((mcsosThreadPrepare thread name entry arg stackBase stackSize id s).2.threads thread
          ).context.rsp = rsp ∧
        rsp.toNat % 16 = 8 ∧ stackBase.toNat + 112 ≤ rsp.toNat ∧
          rsp.toNat + 8 ≤ stackBase.toNat + stackSize.toNat) ∧
    (thread ≠ 0 → entry ≠ 0 → stackBase ≠ 0 →
      ((mcsosThreadPrepare thread name entry arg stackBase stackSize id s).1 = .estack ↔
        stackSize.toNat < 4096 ∨ 2 ^ 64 ≤ stackBase.toNat + stackSize.toNat)) ∧
    ((mcsosThreadPrepare thread name entry arg stackBase stackSize id s).1 = .estack →
      (mcsosThreadPrepare thread name entry arg stackBase stackSize id s).2 = s) := by
  by_cases hnull : thread = 0 ∨ entry = 0 ∨ stackBase = 0
  · rw [mcsosThreadPrepare, if_pos hnull]
    refine ⟨fun h ↦ (by cases h), fun hthread hentry hbase ↦ ?_, fun h ↦ (by cases h)⟩
    exact absurd hnull (by simp [hthread, hentry, hbase])
  · rcases prepare_of_nonnull name arg stackSize id s hnull with
      ⟨hbad, heq⟩ | ⟨hgood, hok, hcontext⟩
    · rw [heq]
      exact ⟨fun h ↦ (by cases h), fun _ _ _ ↦ iff_of_true rfl hbad, fun _ ↦ rfl⟩
    · rw [hok, hcontext]
      refine ⟨fun _ ↦ ⟨_, rfl, ?_⟩, fun _ _ _ ↦ iff_of_false (fun h ↦ by cases h) hgood,
        fun h ↦ (by cases h)⟩
      rw [toNat_stackTop hgood]
      obtain ⟨hsize, hend⟩ := not_or.mp hgood
      omega

/-- A stack that ends with the address space is refused. -/
theorem prepared_stack_usable_last :
    (mcsosThreadPrepare 2 "a" 4096 0 0xffffffffffffe000 8192 1 blankState).1 = .estack :=
  ((prepared_stack_usable 2 "a" 4096 0 0xffffffffffffe000 8192 1 blankState).2.1 (by decide)
    (by decide) (by decide)).mpr (.inr (by decide))

/-! ## Arguments -/

/-- The offset of `context` in `mcsos_thread_t`, behind three words and the state. -/
def contextOffset : UInt64 := 32

/-- `&thread->context` -/
def contextAddr (thread : Ptr) : UInt64 := thread + contextOffset

/-- The thread whose context is at an address. -/
def contextOwner (a : UInt64) : Ptr := a - contextOffset

/-- The machine with the registers of the first two arguments of a call. -/
structure Cpu where
  machine : Machine
  rdi : UInt64
  rsi : UInt64

namespace Cpu

variable {label : UInt64} {p : Ptr}

/-- The effect of an instruction of `context_switch.S`. None of them writes `rdi` or `rsi`. -/
def exec (label : UInt64) (c : Cpu) (i : Instr) : Cpu :=
  { c with machine := i.exec label (contextOwner c.rdi) (contextOwner c.rsi) c.machine }

/-- The call `mcsos_context_switch(&old_thread->context, &next_thread->context)`, up to where the
new thread goes on. -/
def mcsosContextSwitch (label : UInt64) (oldThread nextThread : Ptr) (m : Machine) : Cpu :=
  (saves ++ loads).foldl (exec label) ⟨m, contextAddr oldThread, contextAddr nextThread⟩

theorem foldl_exec (is : List Instr) (c : Cpu) : is.foldl (exec label) c =
    { c with machine :=
        is.foldl (Instr.exec label (contextOwner c.rdi) (contextOwner c.rsi)) c.machine } := by
  induction is generalizing c with
  | nil => rfl
  | cons i is ih => rw [List.foldl_cons, ih, List.foldl_cons, exec]

theorem mcsosContextSwitch_eq (old next : Ptr) (m : Machine) : mcsosContextSwitch label old next m =
    ⟨Sched.mcsosContextSwitch label old next m, contextAddr old, contextAddr next⟩ := by
  have howner : ∀ t, contextOwner (contextAddr t) = t := fun t ↦ UInt64.add_sub_cancel ..
  rw [mcsosContextSwitch, foldl_exec, howner, howner, Sched.mcsosContextSwitch]

/-- The thread that runs computes, which leaves any values in the registers, or it calls a function
of the scheduler. -/
inductive Event where
  | compute (regs : Reg → UInt64) (rip rdi rsi : UInt64)
  | call (c : Call)

/-- The scheduler has done its work on the memory; another thread than before may be current now,
and then `mcsos_sched_yield` ends with the call of `mcsos_context_switch`. -/
def switchTo (label : UInt64) (c : Cpu) (s : State) : Cpu :=
  if s.sched.current = c.machine.current then { c with machine := { c.machine with state := s } }
  else mcsosContextSwitch label c.machine.current s.sched.current { c.machine with state := s }

def step (label : UInt64) : Event → Cpu → Status × Cpu
  | .compute regs rip rdi rsi, c => (.ok, ⟨⟨c.machine.state, regs, rip⟩, rdi, rsi⟩)
  | .call call, c =>
    ((call.run c.machine.state).1, c.switchTo label (call.run c.machine.state).2)

/-- The event without the two registers. -/
def Event.toMachine : Event → Sched.Event
  | .compute regs rip _ _ => .compute regs rip
  | .call c => .call c

/-- Without the two registers this is the machine of `Mcsos.Thread.Context`. -/
theorem step_toMachine (label : Ptr) (e : Event) (c : Cpu) :
    Machine.step label e.toMachine c.machine =
      ((step label e c).1, (step label e c).2.machine) := by
  cases e with
  | compute regs rip rdi rsi => rfl
  | call call =>
    refine (Machine.step_call label call c.machine).trans (Prod.ext rfl ?_)
    change _ = (c.switchTo label (call.run c.machine.state).2).machine
    rw [switchTo, Machine.switchTo]
    split_ifs
    · rfl
    · rw [mcsosContextSwitch_eq]

/-- A step after which another thread runs leaves the address of the context of the old one in
`rdi`. -/
theorem rdi_of_switched {e : Event} {c : Cpu}
    (h : (step label e c).2.machine.current ≠ c.machine.current) :
    (step label e c).2.rdi = contextAddr c.machine.current := by
  cases e with
  | compute regs rip rdi rsi => exact absurd rfl h
  | call call =>
    change (c.switchTo label (call.run c.machine.state).2).machine.current ≠ _ at h
    change (c.switchTo label (call.run c.machine.state).2).rdi = _
    rw [switchTo] at h ⊢
    split_ifs at h ⊢ with hsame
    · exact absurd hsame h
    · rw [mcsosContextSwitch_eq]

/-- The thread `p` does not run and is not made a new one. -/
def Away (p : Ptr) (c : Cpu) (e : Event) : Prop := c.machine.Away p e.toMachine

/-- A thread that was prepared and gets the processor for the first time is at its entry, and has
its argument in `rdi` if and only if the argument is the address of the context of the thread that
was switched out. -/
theorem argument_passed_iff (label : UInt64) (p : Ptr) (c v w : Cpu) (name : String)
    (entry arg stackBase : Ptr) (stackSize id : UInt64) (e' : Event) (es : List (Event × Status))
    (hprepare : step label (.call (.prepare p name entry arg stackBase stackSize id)) c = (.ok, v))
    (hrun : Run (step label) (Away p) v es w) (hw : w.machine.current ≠ p)
    (hfirst : (step label e' w).2.machine.current = p) :
    ((step label e' w).2.machine.rip = entry ∧ (step label e' w).2.rdi = arg) ↔
      arg = contextAddr w.machine.current := by
  have hmachine : Run (Machine.step label) (Machine.Away p) v.machine _ w.machine :=
    hrun.map (f := machine) (g := Event.toMachine) (step_toMachine label) fun _ _ haway ↦ haway
  have hprepared : Machine.step label (.call (.prepare p name entry arg stackBase stackSize id))
      c.machine = (.ok, v.machine) := by
    have heq := step_toMachine label (.call (.prepare p name entry arg stackBase stackSize id)) c
    rwa [hprepare] at heq
  have hstep := congrArg Prod.snd (step_toMachine label e' w)
  have hcurrent : (Machine.step label e'.toMachine w.machine).2.current = p := by rwa [hstep]
  have hrip := (Machine.first_dispatch hprepared hmachine hw hcurrent).1
  rw [hstep] at hrip
  have hswitched : (step label e' w).2.machine.current ≠ w.machine.current := by
    rw [hfirst]
    exact hw.symm
  rw [rdi_of_switched hswitched]
  exact ⟨fun h ↦ h.2.symm, fun h ↦ ⟨hrip, h.symm⟩⟩

/-- The boot thread, at address 0x1000. -/
def booted : Cpu := ⟨⟨(mcsosSchedulerInit 0x1000 blankState).2, fun _ ↦ 0, 0⟩, 0, 0⟩

/-- A thread at address 0x2000 is prepared with the argument `arg`. -/
def prepareDemo (arg : Ptr) : Event :=
  .call (.prepare 0x2000 "demo-a" 0x4000 arg 0x10000 8192 1)

/-- The one argument that reaches the thread if the boot thread yields to it. -/
theorem argument_passed_iff_boot : ∃ v es w, step 9 (prepareDemo 0x1020) booted = (.ok, v) ∧
    Run (step 9) (Away 0x2000) v es w ∧ (step 9 (.call .yield) w).2.machine.rip = 0x4000 ∧
      (step 9 (.call .yield) w).2.rdi = 0x1020 := by
  have hprepare : step 9 (prepareDemo 0x1020) booted = (.ok, _) := Prod.ext (by decide +kernel) rfl
  have hrun : Run (step 9) (Away 0x2000) (step 9 (prepareDemo 0x1020) booted).2 _ _ :=
    Run.nil.snoc (.call (.enqueue 0x2000)) ⟨by decide +kernel, id⟩
  exact ⟨_, _, _, hprepare, hrun, (argument_passed_iff 9 0x2000 booted _ _ "demo-a" 0x4000 0x1020
    0x10000 8192 1 (.call .yield) _ hprepare hrun (by decide +kernel) (by decide +kernel)).mpr
      (by decide +kernel)⟩

/-- A thread is prepared with the argument 0, enqueued and dispatched. It is at its entry with the
address of the context of the boot thread as its argument. -/
theorem argument_lost : ∃ v w, step 9 (prepareDemo 0) booted = (.ok, v) ∧
    step 9 (.call (.enqueue 0x2000)) v = (.ok, w) ∧
    (step 9 (.call .yield) w).2.machine.current = 0x2000 ∧
    (step 9 (.call .yield) w).2.machine.rip = 0x4000 ∧ (step 9 (.call .yield) w).2.rdi = 0x1020 :=
  ⟨_, _, Prod.ext (by decide +kernel) rfl, Prod.ext (by decide +kernel) rfl, by decide +kernel,
    by decide +kernel, by decide +kernel⟩

end Cpu

end Sched

end Mcsos
