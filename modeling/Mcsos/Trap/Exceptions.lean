import Mcsos.Base.Machine
import Mcsos.Trap.Dispatch
import Mcsos.Trap.Interrupt

/-!
# A program under exceptions

The kernel of `kernel/core` after `x86_64_idt_init`, with a program that causes exceptions. It has
no interrupts. A breakpoint is logged and counted, and the program goes on as if nothing had
happened; the first other exception is the end (`exceptions_end_or_return`).
-/

namespace Mcsos

namespace Trap

/-- What does not change: the addresses of the stubs, the lower end of the stack, and the table
before it was initialised. -/
structure CoreConfig where
  sym : Symbols
  low : ℕ
  idt : Idt

structure CoreSystem where
  cpu : Cpu
  kernel : CoreKernel
  halted : Bool

inductive CoreEvent where
  /-- The program does something. -/
  | program (f : Cpu → Cpu)
  /-- The program causes an exception. -/
  | exception (vector : UInt8) (error : UInt64) (l : Leftover)

namespace CoreConfig

variable (cfg : CoreConfig)

/-- The stubs and the dispatcher of `kernel/`. -/
def handler : Handler CoreKernel := ⟨isrCommon, coreTrapDispatch⟩

/-- The effect of an event. Nothing happens any more when the kernel has stopped. -/
def step (e : CoreEvent) (s : CoreSystem) : Unit × CoreSystem :=
  if s.halted then ((), s)
  else
    match e with
    | .program f => ((), { s with cpu := f s.cpu })
    | .exception v error l =>
      ((), (handler.enter cfg.sym cfg.low l (x86_64IdtInit cfg.sym cfg.idt) v error s.cpu
        s.kernel).elim { s with halted := true } fun r ↦ { s with cpu := r.1, kernel := r.2 })

/-- The program does not look below its stack pointer, and there is room for a trap frame. -/
def ok (s : CoreSystem) : CoreEvent → Prop
  | .program f => ∀ c c', SameProgram cfg.low c c' → SameProgram cfg.low (f c) (f c')
  | .exception _ _ _ => s.halted = false → Room cfg.low isrCommon s.cpu

end CoreConfig

def CoreEvent.apply (c : Cpu) : CoreEvent → Cpu
  | .program f => f c
  | .exception _ _ _ => c

def CoreEvent.isBreakpoint : CoreEvent → Bool
  | .program _ => false
  | .exception v _ _ => v = 3

/-- The event is an exception that the kernel does not handle. -/
def CoreEvent.isFatal : CoreEvent → Bool
  | .program _ => false
  | .exception v _ _ => v ≠ 3

variable {cfg : CoreConfig} {s t : CoreSystem}

theorem coreStep_exception (hs : s.halted = false) (v : UInt8) (error : UInt64) (l : Leftover) :
    cfg.step (.exception v error l) s =
      ((), (CoreConfig.handler.enter cfg.sym cfg.low l (x86_64IdtInit cfg.sym cfg.idt) v error s.cpu
        s.kernel).elim { s with halted := true } fun r ↦ { s with cpu := r.1, kernel := r.2 }) := by
  rw [CoreConfig.step, if_neg (by rw [hs]; decide)]

theorem coreHandler_enter_eq (hroom : Room cfg.low isrCommon s.cpu) (l : Leftover) {v : UInt8}
    (hv : v.toNat < 32) (error : UInt64) :
    ∃ resume : TrapFrame → Cpu,
      (∀ f, Resumes (s.cpu.area cfg.low) f s.cpu.rsp s.cpu.ss (resume f)) ∧
      CoreConfig.handler.enter cfg.sym cfg.low l (x86_64IdtInit cfg.sym cfg.idt) v error s.cpu
          s.kernel =
        (coreTrapDispatch ⟨s.cpu.regs, UInt64.ofNat v.toNat, errorCode v.toNat error, s.cpu.rip,
          s.cpu.cs, s.cpu.rflags⟩ s.kernel).map fun r ↦ (resume r.1, r.2) := by
  have hgate : x86_64IdtInit cfg.sym cfg.idt v =
      gate (cfg.sym.isrStub v.toNat) kernelCodeSelector (exceptionGateType v.toNat) := by
    rw [x86_64IdtInit_apply, if_pos hv]
  refine Handler.enter_eq (H := CoreConfig.handler) matches_isrCommon hroom l (by omega) ?_ ?_
    error s.kernel
  · rw [hgate, present_gate_iff, exceptionGateType]
    split_ifs <;> decide
  · rw [hgate, offset_gate]

theorem coreTrapDispatch_breakpoint (frame : TrapFrame) (h : frame.vector = 3) (k : CoreKernel) :
    ∃ log, coreTrapDispatch frame k = some (frame, ⟨log, k.trapCount + 1⟩) :=
  ⟨_, by rw [coreTrapDispatch, if_pos h]⟩

theorem coreStep_breakpoint (hroom : Room cfg.low isrCommon s.cpu) (hs : s.halted = false)
    (error : UInt64) (l : Leftover) : ∃ c log, SameProgram cfg.low c s.cpu ∧
      (cfg.step (.exception 3 error l) s).2 = ⟨c, ⟨log, s.kernel.trapCount + 1⟩, false⟩ := by
  obtain ⟨resume, hresume, henter⟩ :=
    coreHandler_enter_eq hroom l (v := 3) (by decide) error
  let frame : TrapFrame := ⟨s.cpu.regs, UInt64.ofNat (UInt8.toNat 3),
    errorCode (UInt8.toNat 3) error, s.cpu.rip, s.cpu.cs, s.cpu.rflags⟩
  obtain ⟨log, hdispatch⟩ := coreTrapDispatch_breakpoint frame rfl s.kernel
  refine ⟨resume frame, log, (hresume frame).sameProgram, ?_⟩
  rw [coreStep_exception hs, henter, hdispatch, hs]
  rfl

/-- Every other exception is the end, and so is a vector without a gate. -/
theorem coreStep_fatal (hroom : Room cfg.low isrCommon s.cpu) (hs : s.halted = false)
    {v : UInt8} (hv : v ≠ 3) (error : UInt64) (l : Leftover) :
    (cfg.step (.exception v error l) s).2 = { s with halted := true } := by
  rw [coreStep_exception hs]
  by_cases hlt : v.toNat < 32
  · obtain ⟨resume, -, henter⟩ := coreHandler_enter_eq hroom l hlt error
    have hvector : UInt64.ofNat v.toNat ≠ 3 := by
      intro h
      have hnat := congrArg UInt64.toNat h
      rw [UInt64.toNat_ofNat', Nat.mod_eq_of_lt (by omega)] at hnat
      exact hv (UInt8.toNat_inj.mp hnat)
    rw [henter, coreTrapDispatch, if_neg hvector]
    rfl
  · have habsent : ¬(x86_64IdtInit cfg.sym cfg.idt v).Present := by
      rw [x86_64IdtInit_apply, if_neg hlt, present_gate_iff]
      decide
    rw [Handler.enter, if_neg habsent]
    rfl

theorem coreStep_halted (hs : s.halted = true) (e : CoreEvent) : (cfg.step e s).2 = s :=
  congrArg Prod.snd (if_pos hs)

theorem coreStep_program (hs : s.halted = false) (f : Cpu → Cpu) :
    (cfg.step (.program f) s).2 = { s with cpu := f s.cpu } := by
  rw [CoreConfig.step, if_neg (by rw [hs]; decide)]

/-- The program is where its own steps take it, and the breakpoints are counted. -/
structure Counted (low : ℕ) (s : CoreSystem) (es : List CoreEvent) (t : CoreSystem) : Prop where
  program : SameProgram low t.cpu (es.foldl CoreEvent.apply s.cpu)
  trapCount : t.kernel.trapCount =
    s.kernel.trapCount + UInt64.ofNat (es.countP CoreEvent.isBreakpoint)

theorem Counted.step {es : List CoreEvent} (h : Counted cfg.low s es t) (ht : t.halted = false)
    {e : CoreEvent} (hok : cfg.ok t e) :
    (cfg.step e t).2.halted = e.isFatal ∧
      (e.isFatal = false → Counted cfg.low s (es ++ [e]) (cfg.step e t).2) := by
  cases e with
  | program f =>
    rw [coreStep_program ht]
    refine ⟨ht, fun _ ↦ ⟨?_, ?_⟩⟩
    · rw [List.foldl_append]
      exact hok _ _ h.program
    · rw [List.countP_append]
      exact h.trapCount
  | exception v error l =>
    by_cases hv : v = 3
    · subst hv
      obtain ⟨c, log, hsame, hstep⟩ := coreStep_breakpoint (hok ht) ht error l
      rw [hstep]
      refine ⟨rfl, fun _ ↦ ⟨?_, ?_⟩⟩
      · rw [List.foldl_append]
        exact hsame.trans h.program
      · rw [List.countP_append, UInt64.ofNat_add, ← UInt64.add_assoc, ← h.trapCount]
        rfl
    · have hfatal : (CoreEvent.exception v error l).isFatal = true := decide_eq_true hv
      rw [coreStep_fatal (hok ht) ht hv, hfatal]
      exact ⟨rfl, fun hno ↦ absurd hno (by decide)⟩

/-- The kernel stops at the first exception that is not a breakpoint, and not before. Until then the
program is in the state that its own steps give, and the breakpoints are counted. -/
theorem exceptions_end_or_return (hs : s.halted = false) {es : List (CoreEvent × Unit)}
    (hrun : Run cfg.step cfg.ok s es t) :
    (t.halted = true ↔ ∃ e ∈ es, e.1.isFatal = true) ∧
      (t.halted = false → Counted cfg.low s (es.map Prod.fst) t) := by
  induction hrun with
  | nil => exact ⟨by simp [hs], fun _ ↦ ⟨.refl _ _, (UInt64.add_zero _).symm⟩⟩
  | @snoc es t hrun e hok ih =>
    obtain ⟨hhalted, hcounted⟩ := ih
    by_cases ht : t.halted = true
    · rw [coreStep_halted ht]
      obtain ⟨e', he', hfatal⟩ := hhalted.mp ht
      exact ⟨iff_of_true ht ⟨e', List.mem_append_left _ he', hfatal⟩,
        fun hno ↦ absurd ht (by rw [hno]; decide)⟩
    · have hrunning := Bool.eq_false_of_not_eq_true ht
      obtain ⟨hstop, hstep⟩ := (hcounted hrunning).step hrunning hok
      rw [hstop]
      refine ⟨⟨fun h ↦ ⟨_, List.mem_append_right _ (List.mem_singleton_self _), h⟩, ?_⟩, ?_⟩
      · rintro ⟨e', he', hfatal⟩
        rcases List.mem_append.mp he' with hmem | hmem
        · exact absurd (hhalted.mpr ⟨e', hmem, hfatal⟩) ht
        · rwa [List.mem_singleton.mp hmem] at hfatal
      · rw [List.map_append]
        exact hstep

/-- A breakpoint after a step that does nothing. -/
theorem exceptions_end_or_return_breakpoint :
    let cfg : CoreConfig := ⟨packedStubs, 0x1000, emptyIdt⟩
    let s : CoreSystem := ⟨readyCpu, ⟨[], 0⟩, false⟩
    let l : Leftover := ⟨fun _ ↦ 7, 0, fun _ ↦ 9⟩
    ∃ t, Run cfg.step cfg.ok s [(.program id, ()), (.exception 3 0 l, ())] t ∧
      t.halted = false ∧ Counted cfg.low s [.program id, .exception 3 0 l] t := by
  intro cfg s l
  have hnil : Run cfg.step cfg.ok s [] _ := .nil
  have hrun := (hnil.snoc (.program id) fun _ _ h ↦ h).snoc (.exception 3 0 l)
    fun _ ↦ room_readyCpu rfl
  obtain ⟨hhalted, hcounted⟩ := exceptions_end_or_return rfl hrun
  have hrunning := Bool.eq_false_of_not_eq_true (mt hhalted.mp (by simp [CoreEvent.isFatal]))
  exact ⟨_, hrun, hrunning, hcounted hrunning⟩

end Trap

end Mcsos
