import Mcsos.Trap.Devices
import Mcsos.Trap.Entry

/-!
# The dispatchers

The two functions `x86_64_trap_dispatch`. The one of `idt.c` handles the vectors of the interrupt
controllers and the breakpoint; it also has a branch for the vector of the system call, although the
gate of that vector leads to a stub of its own. The one of `kernel/core/trap.c` logs every trap and
returns from breakpoints only. Every other vector ends in a panic, from which there is no return.
-/

namespace Mcsos

namespace Trap

open Console (text serialWriteString serialWriteDec64 serialWriteHex64 logKeyValueHex64)

/-! ## The kernel with interrupts -/

/-- The devices and the variable `g_ticks`. -/
structure Kernel where
  board : Board
  ticks : UInt64

namespace Kernel

/-- A driver runs. -/
def drive (driver : PortM Unit) (k : Kernel) : Kernel := { k with board := (driver.run k.board).2 }

def send (bytes : List UInt8) (k : Kernel) : Kernel := { k with board := k.board.send bytes }

end Kernel

def timerOnIrq0 (k : Kernel) : Kernel :=
  let k := { k with ticks := k.ticks + 1 }
  if k.ticks % 100 = 0 then
    k.send (serialWriteString (text "[MCSOS:TIMER] ticks=") ++ serialWriteDec64 k.ticks ++
      serialWriteString (text "\n"))
  else k

/-- `mcsos_syscall_frame_t` -/
structure SyscallFrame where
  nr : UInt64
  arg0 : UInt64
  arg1 : UInt64
  arg2 : UInt64
  arg3 : UInt64
  arg4 : UInt64
  arg5 : UInt64
  ret : UInt64

/-- The frame of the system call that the registers ask for. -/
def syscallFrame (regs : Reg → UInt64) : SyscallFrame :=
  ⟨regs .rax, regs .rdi, regs .rsi, regs .rdx, regs .r10, regs .r8, regs .r9, 0⟩

def picMasterOffset : UInt8 := 0x20
def picSlaveOffset : UInt8 := 0x28

/-- The branch for the vectors of the interrupt controllers. -/
def handleIrq (irq : UInt8) (k : Kernel) : Kernel :=
  let k :=
    if irq = 0 then timerOnIrq0 k
    else k.send (serialWriteString (text "[MCSOS:IRQ] unexpected irq=") ++
      serialWriteDec64 irq.toUInt64 ++ serialWriteString (text "\n"))
  k.drive (picSendEoi irq)

/-- `x86_64_trap_dispatch` of `idt.c`; `dispatchFrame` is `mcsos_syscall_dispatch_frame`. -/
def x86_64TrapDispatch (dispatchFrame : SyscallFrame → Kernel → Option (SyscallFrame × Kernel))
    (frame : TrapFrame) (k : Kernel) : Option (TrapFrame × Kernel) :=
  if frame.vector ≥ picMasterOffset.toUInt64 ∧ frame.vector < picSlaveOffset.toUInt64 + 8 then
    some (frame, handleIrq (frame.vector - picMasterOffset.toUInt64).toUInt8 k)
  else if frame.vector = 0x80 then
    (dispatchFrame (syscallFrame frame.regs) k).map fun r ↦
      ({ frame with regs := Function.update frame.regs .rax r.1.ret }, r.2)
  else if frame.vector = 3 then
    some (frame, k.send (serialWriteString (text "[MCSOS:TRAP] breakpoint rip=") ++
      serialWriteHex64 frame.rip ++ serialWriteString (text "\n")))
  else none

def exceptionNames : List String :=
  ["#DE Divide Error", "#DB Debug", "NMI Interrupt", "#BP Breakpoint", "#OF Overflow",
    "#BR Bound Range Exceeded", "#UD Invalid Opcode", "#NM Device Not Available",
    "#DF Double Fault", "Coprocessor Segment Overrun", "#TS Invalid TSS", "#NP Segment Not Present",
    "#SS Stack Segment Fault", "#GP General Protection Fault", "#PF Page Fault", "Reserved",
    "#MF x87 Floating-Point Exception", "#AC Alignment Check", "#MC Machine Check",
    "#XM SIMD Floating-Point Exception", "#VE Virtualization Exception",
    "#CP Control Protection Exception", "Reserved", "Reserved", "Reserved", "Reserved", "Reserved",
    "Reserved", "#HV Hypervisor Injection Exception", "#VC VMM Communication Exception",
    "#SX Security Exception", "Reserved"]

def trapName (vector : UInt64) : String :=
  exceptionNames.getD vector.toNat "external-or-user-defined-interrupt"

def logTrapFrame (frame : TrapFrame) : List UInt8 :=
  logKeyValueHex64 "trap_vector" frame.vector ++ logKeyValueHex64 "trap_error" frame.errorCode ++
    logKeyValueHex64 "trap_rip" frame.rip ++ logKeyValueHex64 "trap_cs" frame.cs ++
    logKeyValueHex64 "trap_rflags" frame.rflags ++ logKeyValueHex64 "trap_rax" (frame.regs .rax) ++
    logKeyValueHex64 "trap_rbx" (frame.regs .rbx) ++
    logKeyValueHex64 "trap_rcx" (frame.regs .rcx) ++ logKeyValueHex64 "trap_rdx" (frame.regs .rdx)

/-- The log and the variable `trap_count` of `kernel/core`. -/
structure CoreKernel where
  log : List UInt8
  trapCount : UInt64

/-- `x86_64_trap_dispatch` of `kernel/core/trap.c`. -/
def coreTrapDispatch (frame : TrapFrame) (k : CoreKernel) : Option (TrapFrame × CoreKernel) :=
  let log := k.log ++ serialWriteString (text "[M4] trap dispatch: ") ++
    serialWriteString (text (trapName frame.vector)) ++ [10] ++ logTrapFrame frame
  if frame.vector = 3 then
    let handled := serialWriteString (text "[M4] breakpoint handled; returning with iretq") ++ [10]
    some (frame, ⟨log ++ handled, k.trapCount + 1⟩)
  else none

/-! ## What the dispatcher leaves in the frame -/

variable {dispatchFrame : SyscallFrame → Kernel → Option (SyscallFrame × Kernel)}
  {frame : TrapFrame} {k : Kernel}

theorem x86_64TrapDispatch_irq {v : ℕ} (hframe : frame.vector = UInt64.ofNat v) (hv : 32 ≤ v)
    (hv' : v < 48) : x86_64TrapDispatch dispatchFrame frame k =
      some (frame, handleIrq (UInt8.ofNat (v - 32)) k) := by
  have hnat : frame.vector.toNat = v := by
    rw [hframe, UInt64.toNat_ofNat']
    omega
  have hle : picMasterOffset.toUInt64 ≤ frame.vector :=
    UInt64.le_iff_toNat_le.mpr (hnat.symm ▸ hv)
  have hlt : frame.vector < picSlaveOffset.toUInt64 + 8 :=
    UInt64.lt_iff_toNat_lt.mpr (hnat.symm ▸ hv')
  have hirq : (frame.vector - picMasterOffset.toUInt64).toUInt8 = UInt8.ofNat (v - 32) := by
    rw [← UInt8.toNat_inj, UInt64.toNat_toUInt8, UInt64.toNat_sub_of_le _ _ hle, hnat,
      UInt8.toNat_ofNat']
    rfl
  rw [x86_64TrapDispatch, if_pos ⟨hle, hlt⟩, hirq]

theorem x86_64TrapDispatch_breakpoint (hframe : frame.vector = 3) :
    x86_64TrapDispatch dispatchFrame frame k =
      some (frame, k.send (serialWriteString (text "[MCSOS:TRAP] breakpoint rip=") ++
        serialWriteHex64 frame.rip ++ serialWriteString (text "\n"))) := by
  rw [x86_64TrapDispatch, hframe, if_neg (by decide), if_neg (by decide), if_pos rfl]

end Trap

end Mcsos
