import Mcsos.Trap.Gates

/-!
# Interrupts from end to end

The processor finds the gate of a vector in the table, saves its state and goes on at the address in
the gate; the code there is the stub of that vector. An interrupt that the dispatcher returns from
is invisible to the program, apart from the bytes below its stack pointer (`SameProgram`).

The stubs push the vector, and a zero for the vectors without an error code. So the two tables of
stubs are right exactly if they agree with the processor about these vectors.
-/

namespace Mcsos

namespace Trap

open Stack

/-! ## Stubs -/

/-- The vectors with `ISR_ERR` in `interrupts.S` and `isr.S`. -/
def isrErrVectors : List ℕ := [8, 10, 11, 12, 13, 14, 17, 21, 29, 30]

/-- `isr_stub_n`, made by `ISR_ERR` or `ISR_NOERR`, up to the jump to the common part. -/
def isrStub (n : ℕ) : List Instr :=
  if n ∈ isrErrVectors then [.pushImm (UInt64.ofNat n)]
  else [.pushImm 0, .pushImm (UInt64.ofNat n)]

/-- The processor pushes an error code for double faults, for faults of task states, segments,
stacks, protection, pages, alignment and control flow, and for two of virtualisation. -/
def pushesErrorCode : ℕ → Bool
  | 8 | 10 | 11 | 12 | 13 | 14 | 17 | 21 | 29 | 30 => true
  | _ => false

/-- The exception or interrupt of a gate is delivered. -/
def Cpu.deliver (g : IdtEntry) (error : Option UInt64) (c : Cpu) : Cpu :=
  let flags := c.rflags &&& ~~~gateFlags
  { c.saveState error with
    cs := g.selector.toUInt64
    rip := g.offset
    rflags := if g.clearsInterruptFlag then flags &&& ~~~interruptFlag else flags }

/-- The stub at an address. -/
def Symbols.stubAt (sym : Symbols) (a : UInt64) : Option ℕ :=
  (List.range 48).find? fun n ↦ sym.isrStub n = a

/-- The common part of the stubs and the dispatcher of a kernel. -/
structure Handler (σ : Type*) where
  entry : Entry
  dispatch : TrapFrame → σ → Option (TrapFrame × σ)

/-- The vector `v` is delivered; `error` is the error code, if it has one. The result is `none` if
the dispatcher does not return, and also if there is no gate, in which case the processor would go
on with another exception. -/
def Handler.enter {σ : Type*} (H : Handler σ) (sym : Symbols) (low : ℕ) (l : Leftover) (idt : Idt)
    (v : UInt8) (error : UInt64) (c : Cpu) (s : σ) : Option (Cpu × σ) :=
  if (idt v).Present then
    (sym.stubAt (idt v).offset).bind fun n ↦
      let code := if pushesErrorCode v.toNat then some error else none
      H.entry.trap H.dispatch low l (exec (isrStub n) (c.deliver (idt v) code)) s
  else none

/-! ## The path -/

/-- The stack of an interrupted program. -/
def Cpu.area (low : ℕ) (c : Cpu) : Area := ⟨low, c.rsp &&& ~~~15, c.mem⟩

/-- There is room for the frame of a trap. -/
def Room (low : ℕ) (e : Entry) (c : Cpu) : Prop :=
  low + 8 * e.frameWords ≤ (c.rsp &&& ~~~15).toNat

/-- The error code that the dispatcher gets. -/
def errorCode (v : ℕ) (error : UInt64) : UInt64 := if pushesErrorCode v then error else 0

variable {σ : Type*} {H : Handler σ} {sym : Symbols} {low : ℕ} {c c' c'' : Cpu}

theorem mem_isrErrVectors_iff : ∀ n < 48, (n ∈ isrErrVectors ↔ pushesErrorCode n = true) := by
  decide

theorem Symbols.stubAt_isrStub (sym : Symbols) {n : ℕ} (hn : n < 48) :
    sym.stubAt (sym.isrStub n) = some n := by
  have hsome : (sym.stubAt (sym.isrStub n)).isSome := by
    rw [stubAt, List.find?_isSome]
    exact ⟨n, List.mem_range.mpr hn, decide_eq_true rfl⟩
  obtain ⟨m, hm⟩ := Option.isSome_iff_exists.mp hsome
  have heq : sym.isrStub m = sym.isrStub n := by simpa using List.find?_some hm
  have hlt : m < 48 := List.mem_range.mp (List.mem_of_find?_eq_some hm)
  rw [hm, sym.isrStub_inj m hlt n hn heq]

theorem holds_saveState (low : ℕ) (c : Cpu) (hroom : low + 8 * 5 ≤ (c.rsp &&& ~~~15).toNat) :
    (c.area low).Holds (c.saveState none).rsp (c.saveState none).mem
      [c.rip, c.cs, c.rflags, c.rsp, c.ss] := by
  have hroom' : ∀ n ≤ 5, (c.area low).low + 8 * n ≤ (c.area low).top.toNat := by
    intro n hn
    change low + 8 * n ≤ (c.rsp &&& ~~~15).toNat
    omega
  have h := (((((Area.holds_nil (hroom' 0 (by decide))).push (hroom' 1 (by decide)) c.ss).push
    (hroom' 2 (by decide)) c.rsp).push (hroom' 3 (by decide)) c.rflags).push
    (hroom' 4 (by decide)) c.cs).push (hroom' 5 (by decide)) c.rip
  exact h

theorem holds_isrStub (hroom : low + 8 * 7 ≤ (c.rsp &&& ~~~15).toNat) (g : IdtEntry) {n : ℕ}
    (hn : n < 48) (error : UInt64) :
    let d := exec (isrStub n) (c.deliver g (if pushesErrorCode n then some error else none))
    d.regs = c.regs ∧ (c.area low).Holds d.rsp d.mem
      [UInt64.ofNat n, errorCode n error, c.rip, c.cs, c.rflags, c.rsp, c.ss] := by
  have hsaved := holds_saveState low c (by omega)
  have hroom' : ∀ n ≤ 7, (c.area low).low + 8 * n ≤ (c.area low).top.toNat := by
    intro n hn
    change low + 8 * n ≤ (c.rsp &&& ~~~15).toNat
    omega
  have hwords (code : UInt64) :=
    (hsaved.push (hroom' 6 (by decide)) code).push (hroom' 7 (by decide)) (UInt64.ofNat n)
  rw [isrStub, errorCode]
  by_cases hcode : pushesErrorCode n = true
  · rw [if_pos ((mem_isrErrVectors_iff n hn).mpr hcode), if_pos hcode, if_pos hcode]
    exact ⟨rfl, hwords error⟩
  · rw [if_neg (mt (mem_isrErrVectors_iff n hn).mp hcode), if_neg hcode, if_neg hcode]
    exact ⟨rfl, hwords 0⟩

/-- An interrupt is the dispatcher applied to the state of the program. -/
theorem Handler.enter_eq (hmatches : H.entry.Matches) (hroom : Room low H.entry c) (l : Leftover)
    {idt : Idt} {v : UInt8} (hv : v.toNat < 48) (hpresent : (idt v).Present)
    (hoffset : (idt v).offset = sym.isrStub v.toNat) (error : UInt64) (s : σ) :
    ∃ resume : TrapFrame → Cpu, (∀ f, Resumes (c.area low) f c.rsp c.ss (resume f)) ∧
      H.enter sym low l idt v error c s =
        (H.dispatch ⟨c.regs, UInt64.ofNat v.toNat, errorCode v.toNat error, c.rip, c.cs, c.rflags⟩
          s).map fun r ↦ (resume r.1, r.2) := by
  have hroom7 : low + 8 * 7 ≤ (c.rsp &&& ~~~15).toNat :=
    le_trans (by rw [Entry.frameWords]; omega) hroom
  obtain ⟨hregs, hholds⟩ := holds_isrStub hroom7 (idt v) hv error
  obtain ⟨resume, hresume, htrap⟩ := Entry.trap_eq hmatches hholds hroom H.dispatch l s
  refine ⟨resume, hresume, ?_⟩
  rw [enter, if_pos hpresent, hoffset, sym.stubAt_isrStub hv, Option.bind_some]
  rw [hregs] at htrap
  exact htrap

/-! ## What the program sees -/

/-- The program is in the same state, and so is the memory, except for what is between the lower
end of the stack and the stack pointer. -/
structure SameProgram (low : ℕ) (c c' : Cpu) : Prop where
  regs : c.regs = c'.regs
  rip : c.rip = c'.rip
  cs : c.cs = c'.cs
  rflags : c.rflags = c'.rflags
  rsp : c.rsp = c'.rsp
  ss : c.ss = c'.ss
  mem : ∀ x : UInt64, x.toNat < low ∨ c.rsp.toNat ≤ x.toNat → c.mem x = c'.mem x

theorem SameProgram.refl (low : ℕ) (c : Cpu) : SameProgram low c c :=
  ⟨rfl, rfl, rfl, rfl, rfl, rfl, fun _ _ ↦ rfl⟩

theorem SameProgram.trans (h : SameProgram low c c') (h' : SameProgram low c' c'') :
    SameProgram low c c'' :=
  ⟨h.regs.trans h'.regs, h.rip.trans h'.rip, h.cs.trans h'.cs, h.rflags.trans h'.rflags,
    h.rsp.trans h'.rsp, h.ss.trans h'.ss,
    fun x hx ↦ (h.mem x hx).trans (h'.mem x (h.rsp ▸ hx))⟩

/-- A program that is resumed with its own frame goes on as if nothing had happened. -/
theorem Resumes.sameProgram {vector error : UInt64}
    (h : Resumes (c.area low) ⟨c.regs, vector, error, c.rip, c.cs, c.rflags⟩ c.rsp c.ss c') :
    SameProgram low c' c := by
  refine ⟨h.regs, h.rip, h.cs, h.rflags, h.rsp, h.ss, fun x hx ↦ h.outside x (hx.imp_right ?_)⟩
  intro hle
  have hround : (c.rsp &&& ~~~15).toNat ≤ c.rsp.toNat := by
    rw [UInt64.toNat_and]
    exact Nat.and_le_left
  exact hround.trans (h.rsp ▸ hle)

/-- A processor with a stack below `0x2000` and interrupts enabled. -/
def readyCpu : Cpu where
  regs _ := 0
  rsp := 0x2000
  rip := 0x400000
  cs := 8
  ss := 0x10
  rflags := interruptFlag
  mem _ := 0

theorem room_readyCpu {e : Entry} (h : e.frameWords = 22) : Room 0x1000 e readyCpu := by
  rw [Room, h]
  decide

end Trap

end Mcsos
