import Mcsos.Base.Machine
import Mcsos.Trap.Controllers
import Mcsos.Trap.Interrupt

/-!
# A program under interrupts

The kernel of `src/` after its start-up code, with a program that is interrupted. Between two steps
of the program devices ask for interrupts, drivers change the masks, the processor takes an
interrupt, or the program hits a breakpoint.

The system does what an ideal one does (`interrupts_refine`). The interrupts cannot be seen by the
program: whatever happens in between, it is in the state that its own steps give. This needs a
program that does not look below its stack pointer (`Respects`), which is what `-mno-red-zone` asks
of the compiler, and room on the stack for a trap frame. Every interrupt is ended at the controllers
that have it in service, so no request is ever held up or lost.
-/

namespace Mcsos

namespace Trap

/-! ## The system -/

/-- The processor with the program, the interrupt table and the kernel. -/
structure System where
  cpu : Cpu
  idt : Idt
  kernel : Kernel
  halted : Bool

/-- What does not change: the addresses of the stubs, the lower end of the stack and the system
calls. -/
structure Config where
  sym : Symbols
  low : ℕ
  dispatchFrame : SyscallFrame → Kernel → Option (SyscallFrame × Kernel)

inductive Event where
  /-- The program does something. -/
  | program (f : Cpu → Cpu)
  /-- A device asks for an interrupt. -/
  | raise (line : Line)
  | unmask (line : Line)
  | maskAll
  | configure (hz : UInt32)
  /-- The processor looks for interrupts. -/
  | interrupt (l : Leftover)
  /-- The program hits a breakpoint. -/
  | breakpoint (l : Leftover)

/-- The drivers of the start-up code. -/
def startDrivers : PortM Unit := do
  picRemap picMasterOffset picSlaveOffset
  picMaskAll
  picUnmaskIrq 0
  pitConfigureHz 100

namespace Config

variable (cfg : Config)

/-- The stubs and the dispatcher of `src/`. -/
def handler : Handler Kernel := ⟨isrCommonStub, x86_64TrapDispatch cfg.dispatchFrame⟩

/-- The kernel as `kmain` has set up its interrupts, from any state of the devices. -/
def boot (cs : UInt16) (cpu : Cpu) (board : Board) (ticks : UInt64) : System where
  cpu := cpu
  idt := kmainIdt cfg.sym cs
  kernel := (⟨board, ticks⟩ : Kernel).drive startDrivers
  halted := false

/-- A vector without an error code is delivered. -/
def deliver (v : UInt8) (l : Leftover) (k : Kernel) (s : System) : System :=
  (cfg.handler.enter cfg.sym cfg.low l s.idt v 0 s.cpu k).elim { s with halted := true } fun r ↦
    { s with cpu := r.1, kernel := r.2 }

/-- The effect of an event, and the line of the interrupt that is taken. -/
def step : Event → System → Option Line × System
  | .program f, s => (none, { s with cpu := f s.cpu })
  | .raise line, s =>
    (none, { s with kernel := { s.kernel with board := s.kernel.board.raise line } })
  | .unmask line, s =>
    (none, { s with kernel := s.kernel.drive (picUnmaskIrq (UInt8.ofNat line.irq)) })
  | .maskAll, s => (none, { s with kernel := s.kernel.drive picMaskAll })
  | .configure hz, s => (none, { s with kernel := s.kernel.drive (pitConfigureHz hz) })
  | .interrupt l, s =>
    if s.cpu.rflags &&& interruptFlag = 0 then (none, s)
    else s.kernel.board.accept.elim (none, s) fun r ↦
      (some r.1, cfg.deliver r.2.1 l { s.kernel with board := r.2.2 } s)
  | .breakpoint l, s => (none, cfg.deliver 3 l s.kernel s)

/-- The program cannot tell two states apart that differ only below the stack pointer. -/
def Respects (f : Cpu → Cpu) : Prop :=
  ∀ c c', SameProgram cfg.low c c' → SameProgram cfg.low (f c) (f c')

/-- There is room for a trap frame whenever one is needed. -/
def ok (s : System) : Event → Prop
  | .program f => cfg.Respects f
  | .interrupt _ => Room cfg.low isrCommonStub s.cpu
  | .breakpoint _ => Room cfg.low isrCommonStub s.cpu
  | _ => True

/-- The gates of the stubs are filled. -/
def Gates (idt : Idt) : Prop :=
  ∀ v : UInt8, v.toNat < 48 → (idt v).Present ∧ (idt v).offset = cfg.sym.isrStub v.toNat

end Config

variable {cfg : Config} {s t : System} {b b' : Board} {k : Kernel}

/-! ## One interrupt -/

theorem gates_boot (cs : UInt16) (cpu : Cpu) (board : Board) (ticks : UInt64) :
    cfg.Gates (cfg.boot cs cpu board ticks).idt := by
  intro v hv
  change (kmainIdt cfg.sym cs v).Present ∧ (kmainIdt cfg.sym cs v).offset = _
  rw [kmainIdt_stub cfg.sym cs hv]
  exact ⟨present_gate_iff.mpr (by decide), offset_gate _ _ _⟩

theorem deliver_of_dispatch (hgates : cfg.Gates s.idt) (hroom : Room cfg.low isrCommonStub s.cpu)
    {v : UInt8} (hv : v.toNat < 48) (l : Leftover) {k' : Kernel}
    (hdispatch : ∀ frame : TrapFrame, frame.vector = UInt64.ofNat v.toNat → frame.rip = s.cpu.rip →
      x86_64TrapDispatch cfg.dispatchFrame frame k = some (frame, k')) :
    ∃ c, SameProgram cfg.low c s.cpu ∧
      cfg.deliver v l k s = { s with cpu := c, kernel := k' } := by
  obtain ⟨hpresent, hoffset⟩ := hgates v hv
  obtain ⟨resume, hresume, henter⟩ := Handler.enter_eq (H := cfg.handler) matches_isrCommonStub
    hroom l hv hpresent hoffset 0 k
  have hsame := (hresume ⟨s.cpu.regs, UInt64.ofNat v.toNat, errorCode v.toNat 0, s.cpu.rip,
    s.cpu.cs, s.cpu.rflags⟩).sameProgram
  refine ⟨_, hsame, ?_⟩
  rw [Config.deliver, henter]
  change (Option.map _ (x86_64TrapDispatch cfg.dispatchFrame _ k)).elim _ _ = _
  rw [hdispatch _ rfl rfl]
  rfl

theorem handleIrq_eq (irq : UInt8) (k : Kernel) : ∃ sent, handleIrq irq k =
    ⟨{ ((picSendEoi irq).run k.board).2 with sent := sent },
      if irq = 0 then k.ticks + 1 else k.ticks⟩ := by
  rw [handleIrq, Kernel.drive, run_picSendEoi, run_picSendEoi]
  by_cases h0 : irq = 0
  · rw [if_pos h0, if_pos h0, timerOnIrq0]
    dsimp only
    split_ifs <;> exact ⟨_, rfl⟩
  · rw [if_neg h0, if_neg h0]
    exact ⟨_, rfl⟩

theorem ofNat_irq_eq_zero_iff (line : Line) : UInt8.ofNat line.irq = 0 ↔ line = .timer := by
  rw [Line.timer]
  cases line with
  | master n =>
    rw [Line.master.injEq]
    exact (by decide : ∀ n : Fin 8, UInt8.ofNat (Line.master n).irq = 0 ↔ n = 0) n
  | slave n =>
    exact iff_of_false ((by decide : ∀ n : Fin 8, UInt8.ofNat (Line.slave n).irq ≠ 0) n) (by simp)

theorem deliver_accept (hidle : Idle s.kernel.board) (hgates : cfg.Gates s.idt)
    (hroom : Room cfg.low isrCommonStub s.cpu) {line : Line} {v : UInt8}
    (haccept : s.kernel.board.accept = some (line, v, b')) (l : Leftover) :
    ∃ c sent, SameProgram cfg.low c s.cpu ∧
      cfg.deliver v l { s.kernel with board := b' } s =
        { s with
          cpu := c
          kernel.board := { s.kernel.board.clear line with sent := sent }
          kernel.ticks := if line = .timer then s.kernel.ticks + 1 else s.kernel.ticks } := by
  obtain ⟨hv, hend⟩ := accept_eq_some hidle haccept
  have hirq : line.irq < 16 := by cases line <;> simp only [Line.irq] <;> omega
  obtain ⟨sent, hhandle⟩ := handleIrq_eq (UInt8.ofNat line.irq) { s.kernel with board := b' }
  obtain ⟨c, hsame, heq⟩ := deliver_of_dispatch (v := v) hgates hroom (by omega) l fun _ hvector _ ↦
    x86_64TrapDispatch_irq hvector (by omega) (by omega)
  refine ⟨c, sent, hsame, heq.trans ?_⟩
  rw [hv, Nat.add_sub_cancel_left, hhandle, hend]
  simp only [ofNat_irq_eq_zero_iff]

theorem deliver_breakpoint (hgates : cfg.Gates s.idt) (hroom : Room cfg.low isrCommonStub s.cpu)
    (l : Leftover) : ∃ c bytes, SameProgram cfg.low c s.cpu ∧
      cfg.deliver 3 l s.kernel s = { s with cpu := c, kernel := s.kernel.send bytes } := by
  obtain ⟨c, hsame, heq⟩ := deliver_of_dispatch (k := s.kernel) hgates hroom (v := 3) (by decide) l
    fun frame hvector hrip ↦ by
      rw [x86_64TrapDispatch_breakpoint hvector, hrip]
  exact ⟨c, _, hsame, heq⟩

/-! ## What the program and the devices see -/

/-- What the system is for: a program that no interrupt touches, the lines with their requests, and
the number of ticks. -/
structure Ideal where
  program : Cpu
  pending : Line → Bool
  masked : Line → Bool
  ticks : UInt64

/-- The request of a line has been handled. -/
def Ideal.handle (line : Line) (a : Ideal) : Ideal :=
  { a with
    pending := Function.update a.pending line false
    ticks := if line = .timer then a.ticks + 1 else a.ticks }

def Ideal.raise (line : Line) (a : Ideal) : Ideal :=
  if line = .master cascade then a else { a with pending := Function.update a.pending line true }

/-- An interrupt takes the request of the highest priority that is not masked and nothing else. -/
def Ideal.step : Event → Ideal → Option Line × Ideal
  | .program f, a => (none, { a with program := f a.program })
  | .raise line, a => (none, a.raise line)
  | .unmask line, a => (none, { a with masked := Function.update a.masked line false })
  | .maskAll, a => (none, { a with masked := fun _ ↦ true })
  | .configure _, a => (none, a)
  | .interrupt _, a =>
    if a.program.rflags &&& interruptFlag = 0 then (none, a)
    else (priority.find? (deliverable a.pending a.masked)).elim (none, a) fun line ↦
      (some line, a.handle line)
  | .breakpoint _, a => (none, a)

/-- The system does what it is for. -/
structure Sim (cfg : Config) (a : Ideal) (s : System) : Prop where
  gates : cfg.Gates s.idt
  idle : Idle s.kernel.board
  running : s.halted = false
  program : SameProgram cfg.low s.cpu a.program
  pending : s.kernel.board.pending = a.pending
  masked : s.kernel.board.masked = a.masked
  ticks : s.kernel.ticks = a.ticks

section

variable {a : Ideal}

theorem Sim.interrupt (h : Sim cfg a s) (l : Leftover) (hroom : Room cfg.low isrCommonStub s.cpu) :
    (Ideal.step (.interrupt l) a).1 = (cfg.step (.interrupt l) s).1 ∧
      Sim cfg (Ideal.step (.interrupt l) a).2 (cfg.step (.interrupt l) s).2 := by
  have hline := accept_line h.idle
  rw [h.pending, h.masked] at hline
  rw [Ideal.step, Config.step, ← h.program.rflags, ← hline]
  split_ifs with hflag
  · exact ⟨rfl, h⟩
  cases haccept : s.kernel.board.accept with
  | none => exact ⟨rfl, h⟩
  | some r =>
    obtain ⟨line, v, b'⟩ := r
    obtain ⟨c, sent, hsame, hdeliver⟩ := deliver_accept h.idle h.gates hroom haccept l
    refine ⟨rfl, ?_⟩
    change Sim cfg (a.handle line) (cfg.deliver v l { s.kernel with board := b' } s)
    rw [hdeliver]
    exact
      { gates := h.gates
        idle := { idle_clear h.idle line with }
        running := h.running
        program := hsame.trans h.program
        pending := (pending_clear _ line).trans (h.pending ▸ rfl)
        masked := (masked_clear _ line).trans h.masked
        ticks := by rw [Ideal.handle, h.ticks] }

theorem Sim.breakpoint (h : Sim cfg a s) (l : Leftover) (hroom : Room cfg.low isrCommonStub s.cpu) :
    Sim cfg a (cfg.step (.breakpoint l) s).2 := by
  obtain ⟨c, bytes, hsame, hdeliver⟩ := deliver_breakpoint h.gates hroom l
  rw [Config.step, hdeliver]
  exact { h with idle := { h.idle with }, program := hsame.trans h.program }

theorem Sim.raise (h : Sim cfg a s) (line : Line) :
    Sim cfg (a.raise line) (cfg.step (.raise line) s).2 := by
  have hpending := pending_raise s.kernel.board line
  rw [h.pending] at hpending
  have hmasked := (masked_raise s.kernel.board line).trans h.masked
  rw [Ideal.raise]
  split_ifs at hpending ⊢ with h2
  · exact { h with idle := idle_raise h.idle line, pending := hpending, masked := hmasked }
  · exact { h with idle := idle_raise h.idle line, pending := hpending, masked := hmasked }

theorem Sim.unmask (h : Sim cfg a s) (line : Line) :
    Sim cfg { a with masked := Function.update a.masked line false }
      (cfg.step (.unmask line) s).2 :=
  { h with
    idle := idle_unmask h.idle line
    pending := (pending_unmask h.idle line).trans h.pending
    masked := (masked_unmask h.idle line).trans (h.masked ▸ rfl) }

theorem Sim.maskAll (h : Sim cfg a s) :
    Sim cfg { a with masked := fun _ ↦ true } (cfg.step .maskAll s).2 :=
  { h with
    idle := idle_maskAll h.idle
    pending := (pending_maskAll h.idle).trans h.pending
    masked := funext (masked_maskAll h.idle) }

/-- Every event is one of the ideal system. -/
theorem Sim.step (h : Sim cfg a s) {e : Event} (hok : cfg.ok s e) :
    (Ideal.step e a).1 = (cfg.step e s).1 ∧ Sim cfg (Ideal.step e a).2 (cfg.step e s).2 := by
  cases e with
  | program f => exact ⟨rfl, { h with program := hok _ _ h.program }⟩
  | raise line => exact ⟨rfl, h.raise line⟩
  | unmask line => exact ⟨rfl, h.unmask line⟩
  | maskAll => exact ⟨rfl, h.maskAll⟩
  | configure hz => exact ⟨rfl, { h with idle := { h.idle with } }⟩
  | interrupt l => exact h.interrupt l hok
  | breakpoint l => exact ⟨rfl, h.breakpoint l hok⟩

/-- After the start-up code only the timer can interrupt. -/
def Ideal.boot (cpu : Cpu) (ticks : UInt64) : Ideal :=
  ⟨cpu, fun _ ↦ false, fun line ↦ decide (line ≠ .timer), ticks⟩

theorem sim_boot (cs : UInt16) (cpu : Cpu) (board : Board) (ticks : UInt64) :
    Sim cfg (.boot cpu ticks) (cfg.boot cs cpu board ticks) := by
  have hremap := idle_remap board
  have hmask := idle_maskAll hremap
  have hunmask := idle_unmask hmask .timer
  have hpending := ((pending_unmask hmask .timer).trans (pending_maskAll hremap)).trans
    (pending_remap board)
  have hmasked := masked_unmask hmask .timer
  rw [funext (masked_maskAll hremap)] at hmasked
  exact
    { gates := gates_boot cs cpu board ticks
      idle := { hunmask with }
      running := rfl
      program := .refl cfg.low cpu
      pending := hpending
      masked := by
        refine hmasked.trans (funext fun line ↦ ?_)
        by_cases h : line = .timer <;> simp [Ideal.boot, h]
      ticks := rfl }

end

/-- Whatever the controllers did before, and whatever the devices and the drivers do at any time:
the program is in the state that its own steps give, and every request is handled once, in the order
of priority, unless it is masked. The kernel never stops. -/
theorem interrupts_refine (cs : UInt16) (cpu : Cpu) (board : Board) (ticks : UInt64)
    {es : List (Event × Option Line)}
    (hrun : Run cfg.step cfg.ok (cfg.boot cs cpu board ticks) es t) :
    ∃ a, Run Ideal.step (fun _ _ ↦ True) (Ideal.boot cpu ticks) es a ∧
      SameProgram cfg.low t.cpu a.program ∧ t.kernel.board.pending = a.pending ∧
      t.kernel.ticks = a.ticks ∧ t.halted = false := by
  obtain ⟨a, hideal, hsim⟩ := hrun.simulates (R := Sim cfg) (sim_boot cs cpu board ticks)
    fun b u e hsim hok ↦ ⟨trivial, hsim.step hok⟩
  exact ⟨a, hideal, hsim.program, hsim.pending, hsim.ticks, hsim.running⟩

/-- The controllers as the firmware may leave them: not cascaded, with interrupts that end by
themselves. -/
def firmwareBoard : Board :=
  let pic : Pic := ⟨8, 0, {cascade}, {cascade}, .mask, true, true, 0, 3⟩
  ⟨pic, pic, ⟨0, 0, none⟩, []⟩

/-- The lines 12 and 0 ask for interrupts, line 0 twice. Line 12, which has the lower priority, can
interrupt when it and line 2 are unmasked. -/
theorem interrupts_refine_two :
    let cfg : Config := ⟨packedStubs, 0x1000, fun _ _ ↦ none⟩
    let l : Leftover := ⟨fun _ ↦ 7, 0, fun _ ↦ 9⟩
    ∃ es t a, es.map Prod.fst = [.raise (.slave 4), .raise .timer, .raise .timer, .interrupt l,
        .interrupt l, .unmask (.slave 4), .unmask (.master cascade), .interrupt l] ∧
      es.map Prod.snd = [none, none, none, some .timer, none, none, none, some (.slave 4)] ∧
      Run cfg.step cfg.ok (cfg.boot 8 readyCpu firmwareBoard 5) es t ∧
      Run Ideal.step (fun _ _ ↦ True) (Ideal.boot readyCpu 5) es a ∧
      SameProgram cfg.low t.cpu a.program ∧ t.kernel.ticks = a.ticks := by
  intro cfg l
  have hroom : ∀ c : Cpu, c.rsp = readyCpu.rsp → Room cfg.low isrCommonStub c := fun c hc ↦ by
    rw [Room, hc]
    exact room_readyCpu rfl
  have hnil : Run cfg.step cfg.ok (cfg.boot 8 readyCpu firmwareBoard 5) [] _ := .nil
  have hraised := ((hnil.snoc (.raise (.slave 4)) trivial).snoc (.raise .timer) trivial).snoc
    (.raise .timer) trivial
  have htaken := (hraised.snoc (.interrupt l) (hroom _ rfl)).snoc (.interrupt l)
    (hroom _ (by decide +kernel))
  have hrun := ((htaken.snoc (.unmask (.slave 4)) trivial).snoc (.unmask (.master cascade))
    trivial).snoc (.interrupt l) (hroom _ (by decide +kernel))
  obtain ⟨a, hideal, hprogram, -, hticks, -⟩ := interrupts_refine 8 readyCpu firmwareBoard 5 hrun
  exact ⟨_, _, a, rfl, by decide +kernel, hrun, hideal, hprogram, hticks⟩

end Trap

end Mcsos
