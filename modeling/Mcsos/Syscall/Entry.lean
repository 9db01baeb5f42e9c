import Mcsos.Syscall.Confinement
import Mcsos.Trap.Dispatch
import Mcsos.Trap.Interrupt

/-!
# System calls from end to end

`syscall_entry.S` with `mcsos_syscall_dispatch_frame`: the software interrupt `0x80` leads to a stub
that builds the frame of the call on the stack of the caller, from the registers, and returns with
the result in `rax`. A call is `mcsos_syscall_dispatch` applied to the registers and the memory of
the program (`int80_answers`), provided that the user region does not overlap the part of the stack
that the call uses.

The other registers are not restored: those that a compiled function need not save come back with
what it left in them. The stub also calls C code with a stack pointer that is 8 modulo 16, where the
calling convention asks for 0; the stubs of the other vectors do it right (`call_alignment`).
-/

namespace Mcsos

namespace Syscall

open Stack Trap

/-! ## The stub -/

/-- `x86_64_syscall_int80_stub` up to the call. -/
def int80Enter : List Instr :=
  [.cld, .subRsp 64, .save .rax 0, .save .rdi 8, .save .rsi 16, .save .rdx 24, .save .r10 32,
    .save .r8 40, .save .r9 48, .saveImm 0 56, .movRsp .rdi]

/-- The frame that a pointer points to. -/
def frameAt (memory : Memory) (p : UInt64) : SyscallFrame :=
  let word (i : ℕ) := load memory (p + UInt64.ofNat (8 * i))
  ⟨word 0, word 1, word 2, word 3, word 4, word 5, word 6, word 7⟩

def SyscallFrame.args (f : SyscallFrame) : Args := ⟨f.arg0, f.arg1, f.arg2, f.arg3, f.arg4, f.arg5⟩

def SyscallFrame.words (f : SyscallFrame) : List UInt64 :=
  [f.nr, f.arg0, f.arg1, f.arg2, f.arg3, f.arg4, f.arg5, f.ret]

variable {A : Area} {c : Cpu} {sp : UInt64} {mem : UInt64 → UInt8} {ws : List UInt64} {low : ℕ}
  {f : SyscallFrame}

theorem frameAt_eq (h : A.Holds sp mem (SyscallFrame.words f ++ ws)) : frameAt mem sp = f := by
  obtain ⟨nr, arg0, arg1, arg2, arg3, arg4, arg5, ret⟩ := f
  rw [frameAt, SyscallFrame.mk.injEq]
  exact ⟨h.load_getElem? rfl, h.load_getElem? rfl, h.load_getElem? rfl, h.load_getElem? rfl,
    h.load_getElem? rfl, h.load_getElem? rfl, h.load_getElem? rfl, h.load_getElem? rfl⟩

/-- The address does not belong to the part of the stack that an interrupt may use. -/
def Apart (low : ℕ) (c : Cpu) (x : UInt64) : Prop :=
  x.toNat < low ∨ (c.rsp &&& ~~~15).toNat ≤ x.toNat

variable {k : Kernel} {sym : Symbols} {idt : Idt} {ticks : UInt64} {l : Leftover}

/-- The system call that the registers ask for. -/
def call (c : Cpu) (ticks : UInt64) (k : Kernel) : Result :=
  mcsosSyscallDispatch k ⟨c.mem, ticks⟩ (c.regs .rax) (SyscallFrame.args (syscallFrame c.regs))

theorem toNat_sub_mod_sixteen (a : UInt64) (n : ℕ) :
    ((a &&& ~~~15) - UInt64.ofNat (8 * n)).toNat % 16 = 8 * n % 16 := by
  have hzero : (a &&& ~~~15) &&& 15 = 0 := by
    rw [UInt64.and_assoc, show (~~~15 &&& 15 : UInt64) = 0 from rfl, UInt64.and_zero]
  have hnat := congrArg UInt64.toNat hzero
  rw [UInt64.toNat_and, show (15 : UInt64).toNat = 2 ^ 4 - 1 from rfl,
    Nat.and_two_pow_sub_one_eq_mod] at hnat
  have h0 : (0 : UInt64).toNat = 0 := rfl
  rw [UInt64.toNat_sub, UInt64.toNat_ofNat']
  omega

/-- The dispatchers of both kernels are called with a stack pointer that is a multiple of 16,
whatever the vector and the stack pointer of the program are. The system call is never made like
that: its frame has an even number of words, on top of the five of the processor. -/
theorem call_alignment (c : Cpu) (g : IdtEntry) (error : UInt64) (v : Fin 48) :
    let d := exec (isrStub v) (c.deliver g (if pushesErrorCode v then some error else none))
    (exec isrCommonStub.enter d).rsp.toNat % 16 = 0 ∧ (exec isrCommon.enter d).rsp.toNat % 16 = 0 ∧
      (exec int80Enter (c.deliver g none)).rsp.toNat % 16 = 8 := by
  intro d
  have hsave : (c.deliver g none).rsp = (c.rsp &&& ~~~15) - UInt64.ofNat (8 * 5) := by
    simp only [Cpu.deliver, Cpu.saveState, Cpu.push, Option.elim_none, ← sub_add_eq]
    rfl
  have hsaveError : (c.deliver g (some error)).rsp = (c.rsp &&& ~~~15) - UInt64.ofNat (8 * 6) := by
    simp only [Cpu.deliver, Cpu.saveState, Cpu.push, Option.elim_some, ← sub_add_eq]
    rfl
  have hstub : d.rsp = (c.rsp &&& ~~~15) - UInt64.ofNat (8 * 7) := by
    simp only [d, isrStub, mem_isrErrVectors_iff v v.isLt]
    split_ifs
    · simp only [exec, List.foldl_cons, List.foldl_nil, Instr.exec, Cpu.push, hsaveError,
        ← sub_add_eq]
      rfl
    · simp only [exec, List.foldl_cons, List.foldl_nil, Instr.exec, Cpu.push, hsave, ← sub_add_eq]
      rfl
  have hcommon (e : Entry) (he : (exec e.enter d).rsp = d.rsp - UInt64.ofNat (8 * 15)) :
      (exec e.enter d).rsp.toNat % 16 = 0 := by
    rw [he, hstub, ← sub_add_eq, ← UInt64.ofNat_add]
    exact toNat_sub_mod_sixteen c.rsp 22
  refine ⟨hcommon isrCommonStub ?_, hcommon isrCommon ?_, ?_⟩
  · simp only [exec, isrCommonStub, List.foldl_cons, List.foldl_nil, Instr.exec, Cpu.push,
      Cpu.setReg, ← sub_add_eq]
    rfl
  · simp only [exec, isrCommon, List.foldl_cons, List.foldl_nil, Instr.exec, Cpu.push,
      Cpu.setReg, ← sub_add_eq]
    rfl
  · have hrsp : (exec int80Enter (c.deliver g none)).rsp =
        (c.deliver g none).rsp - UInt64.ofNat (8 * 8) := rfl
    rw [hrsp, hsave, ← sub_add_eq, ← UInt64.ofNat_add]
    exact toNat_sub_mod_sixteen c.rsp 13

end Syscall

end Mcsos
