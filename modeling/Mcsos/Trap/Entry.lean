import Mcsos.Base.Stack

/-!
# Entering and leaving the kernel

`interrupts.S` and `isr.S`: the stubs that the gates of the interrupt table point to, and the common
part that saves the registers, calls the dispatcher and returns with `iretq`. The repository has two
kernels, and each has its own order of the registers in the trap frame; an `Entry` is one of them,
with the members of the frame as the header declares them and the instructions as the assembly has
them.

The processor pushes `ss`, `rsp`, `rflags`, `cs` and `rip` below the stack pointer, rounded down to
a multiple of 16, and for some vectors an error code. The stubs of the other vectors push a zero in
its place. A compiled function may leave anything in the registers that it need not save and in the
part of the stack below its frame (`Leftover`); the size of that part is not known here, so the
stack has a lower end `low` that it must not cross.

`Entry.trap_eq` is the specification: the whole path, from the interrupted program and back, is the
dispatcher applied to the registers of that program. Everything else is as before.
-/

namespace Mcsos

namespace Trap

open Stack

/-! ## The processor -/

/-- The general registers, except the stack pointer. -/
inductive Reg where
  | rax
  | rbx
  | rcx
  | rdx
  | rbp
  | rdi
  | rsi
  | r8
  | r9
  | r10
  | r11
  | r12
  | r13
  | r14
  | r15
  deriving DecidableEq

/-- The processor and the memory. -/
structure Cpu where
  regs : Reg → UInt64
  rsp : UInt64
  rip : UInt64
  cs : UInt64
  ss : UInt64
  rflags : UInt64
  mem : UInt64 → UInt8

/-- The registers that a compiled function gives back as it found them. -/
def calleeSaved : List Reg := [.rbx, .rbp, .r12, .r13, .r14, .r15]

def directionFlag : UInt64 := 0x400

def interruptFlag : UInt64 := 0x200

/-- The flags that every gate clears: `TF`, `NT`, `RF` and `VM`. -/
def gateFlags : UInt64 := 0x34100

namespace Cpu

def push (v : UInt64) (c : Cpu) : Cpu :=
  { c with rsp := c.rsp - 8, mem := store c.mem (c.rsp - 8) v }

/-- The word at the stack pointer. -/
def head (c : Cpu) : UInt64 := load c.mem c.rsp

def drop (n : ℕ) (c : Cpu) : Cpu := { c with rsp := c.rsp + UInt64.ofNat n }

def setReg (r : Reg) (v : UInt64) (c : Cpu) : Cpu := { c with regs := Function.update c.regs r v }

def iretq (c : Cpu) : Cpu :=
  { c with
    rip := c.head
    cs := (c.drop 8).head
    rflags := (c.drop 16).head
    rsp := (c.drop 24).head
    ss := (c.drop 32).head }

/-- What the processor pushes for an interrupt, after it has rounded the stack pointer down. -/
def saveState (error : Option UInt64) (c : Cpu) : Cpu :=
  let saved := { c with rsp := c.rsp &&& ~~~15 }
    |>.push c.ss |>.push c.rsp |>.push c.rflags |>.push c.cs |>.push c.rip
  error.elim saved fun code ↦ saved.push code

end Cpu

/-- The instructions of the stubs. -/
inductive Instr where
  | cld
  | pushq (src : Reg)
  | pushImm (value : UInt64)
  | popq (dst : Reg)
  /-- `movq %rsp, %dst` -/
  | movRsp (dst : Reg)
  | addRsp (n : ℕ)
  | subRsp (n : ℕ)
  /-- `movq %src, offset(%rsp)` -/
  | save (src : Reg) (offset : ℕ)
  /-- `movq $value, offset(%rsp)` -/
  | saveImm (value : UInt64) (offset : ℕ)
  /-- `movq offset(%rsp), %dst` -/
  | restore (offset : ℕ) (dst : Reg)

def Instr.exec (c : Cpu) : Instr → Cpu
  | .cld => { c with rflags := c.rflags &&& ~~~directionFlag }
  | .pushq src => c.push (c.regs src)
  | .pushImm value => c.push value
  | .popq dst => (c.drop 8).setReg dst c.head
  | .movRsp dst => c.setReg dst c.rsp
  | .addRsp n => c.drop n
  | .subRsp n => { c with rsp := c.rsp - UInt64.ofNat n }
  | .save src offset => { c with mem := store c.mem (c.rsp + UInt64.ofNat offset) (c.regs src) }
  | .saveImm value offset => { c with mem := store c.mem (c.rsp + UInt64.ofNat offset) value }
  | .restore offset dst => c.setReg dst (load c.mem (c.rsp + UInt64.ofNat offset))

def exec (is : List Instr) (c : Cpu) : Cpu := is.foldl Instr.exec c

/-- What a compiled function leaves behind where it may leave anything. -/
structure Leftover where
  regs : Reg → UInt64
  rflags : UInt64
  mem : UInt64 → UInt8

/-- The processor after a compiled function has returned. The function has written `mem` through
its pointers; the return address and its own data are between `low` and the stack pointer. -/
def Cpu.returned (low : ℕ) (l : Leftover) (mem : UInt64 → UInt8) (c : Cpu) : Cpu :=
  { c with
    regs := fun r ↦ if r ∈ calleeSaved then c.regs r else l.regs r
    rflags := l.rflags
    mem := fun x ↦ if low ≤ x.toNat ∧ x.toNat < c.rsp.toNat then l.mem x else mem x }

/-! ## Trap frames -/

/-- `struct trap_frame` and `x86_64_trap_frame_t`. -/
structure TrapFrame where
  regs : Reg → UInt64
  vector : UInt64
  errorCode : UInt64
  rip : UInt64
  cs : UInt64
  rflags : UInt64

/-- The words of a frame; the registers are in the order `fields`. -/
def TrapFrame.words (fields : List Reg) (f : TrapFrame) : List UInt64 :=
  fields.map f.regs ++ [f.vector, f.errorCode, f.rip, f.cs, f.rflags]

/-- The frame that a pointer points to. -/
def frameAt (fields : List Reg) (mem : UInt64 → UInt8) (p : UInt64) : TrapFrame where
  regs r := load mem (p + UInt64.ofNat (8 * fields.idxOf r))
  vector := load mem (p + UInt64.ofNat (8 * fields.length))
  errorCode := load mem (p + UInt64.ofNat (8 * (fields.length + 1)))
  rip := load mem (p + UInt64.ofNat (8 * (fields.length + 2)))
  cs := load mem (p + UInt64.ofNat (8 * (fields.length + 3)))
  rflags := load mem (p + UInt64.ofNat (8 * (fields.length + 4)))

/-- Words are written one after the other. -/
def writeWords (mem : UInt64 → UInt8) (p : UInt64) : List UInt64 → UInt64 → UInt8
  | [] => mem
  | w :: ws => writeWords (store mem p w) (p + 8) ws

/-! ## The common part -/

/-- The common part of the stubs of a kernel: the registers in its trap frame, and what is done
before and after the call of its dispatcher. -/
structure Entry where
  fields : List Reg
  enter : List Instr
  leave : List Instr

/-- The registers are saved in the order in which the frame has them, and restored from there. -/
structure Entry.Matches (e : Entry) : Prop where
  enter : ∃ flags ⊆ [Instr.cld],
    e.enter = flags ++ e.fields.reverse.map .pushq ++ [.movRsp .rdi]
  leave : e.leave = e.fields.map .popq ++ [.addRsp 16]
  complete : ∀ r, r ∈ e.fields

/-- From the jump to the common part to the interrupted program. The dispatcher gets a pointer to
the frame in `rdi` and may write the frame; `none` means that it does not return. -/
def Entry.trap {σ : Type*} (e : Entry) (dispatch : TrapFrame → σ → Option (TrapFrame × σ))
    (low : ℕ) (l : Leftover) (c : Cpu) (s : σ) : Option (Cpu × σ) :=
  let c := exec e.enter c
  (dispatch (frameAt e.fields c.mem (c.regs .rdi)) s).map fun r ↦
    let mem := writeWords c.mem (c.regs .rdi) (r.1.words e.fields)
    ((exec e.leave (c.returned low l mem)).iretq, r.2)

/-- `struct trap_frame`, `isr_common_stub` -/
def isrCommonStub : Entry where
  fields := [.rax, .rbx, .rcx, .rdx, .rbp, .rdi, .rsi, .r8, .r9, .r10, .r11, .r12, .r13, .r14, .r15]
  enter := [.cld, .pushq .r15, .pushq .r14, .pushq .r13, .pushq .r12, .pushq .r11, .pushq .r10,
    .pushq .r9, .pushq .r8, .pushq .rsi, .pushq .rdi, .pushq .rbp, .pushq .rdx, .pushq .rcx,
    .pushq .rbx, .pushq .rax, .movRsp .rdi]
  leave := [.popq .rax, .popq .rbx, .popq .rcx, .popq .rdx, .popq .rbp, .popq .rdi, .popq .rsi,
    .popq .r8, .popq .r9, .popq .r10, .popq .r11, .popq .r12, .popq .r13, .popq .r14, .popq .r15,
    .addRsp 16]

/-- `x86_64_trap_frame_t`, `isr_common` -/
def isrCommon : Entry where
  fields := [.r15, .r14, .r13, .r12, .r11, .r10, .r9, .r8, .rsi, .rdi, .rbp, .rdx, .rcx, .rbx, .rax]
  enter := [.pushq .rax, .pushq .rbx, .pushq .rcx, .pushq .rdx, .pushq .rbp, .pushq .rdi,
    .pushq .rsi, .pushq .r8, .pushq .r9, .pushq .r10, .pushq .r11, .pushq .r12, .pushq .r13,
    .pushq .r14, .pushq .r15, .movRsp .rdi]
  leave := [.popq .r15, .popq .r14, .popq .r13, .popq .r12, .popq .r11, .popq .r10, .popq .r9,
    .popq .r8, .popq .rsi, .popq .rdi, .popq .rbp, .popq .rdx, .popq .rcx, .popq .rbx, .popq .rax,
    .addRsp 16]

/-! ## Sequences of stack instructions -/

section

variable {A : Area} {c : Cpu} {ws : List UInt64} {rs : List Reg}

theorem exec_append (is js : List Instr) (c : Cpu) : exec (is ++ js) c = exec js (exec is c) :=
  List.foldl_append

/-- Registers are pushed, the last one to the stack pointer. -/
theorem exec_pushes (rs : List Reg) (h : A.Holds c.rsp c.mem ws)
    (hfits : A.low + 8 * (ws.length + rs.length) ≤ A.top.toNat) :
    ∃ sp mem, exec (rs.map .pushq) c = { c with rsp := sp, mem := mem } ∧
      A.Holds sp mem (rs.reverse.map c.regs ++ ws) := by
  induction rs generalizing c ws with
  | nil => exact ⟨c.rsp, c.mem, rfl, h⟩
  | cons r rs ih =>
    rw [List.length_cons] at hfits
    have hpush : A.Holds (c.push (c.regs r)).rsp (c.push (c.regs r)).mem (c.regs r :: ws) :=
      h.push (by omega) (c.regs r)
    obtain ⟨sp, mem, hexec, hholds⟩ := ih hpush (by rw [List.length_cons]; omega)
    refine ⟨sp, mem, hexec, ?_⟩
    rw [List.reverse_cons, List.map_append, List.append_assoc]
    exact hholds

theorem exec_pops {f : Reg → UInt64} (h : A.Holds c.rsp c.mem (rs.map f ++ ws)) :
    ∃ sp, exec (rs.map .popq) c =
        { c with rsp := sp, regs := fun r ↦ if r ∈ rs then f r else c.regs r } ∧
      A.Holds sp c.mem ws := by
  induction rs generalizing c with
  | nil => exact ⟨c.rsp, by simp [exec], h⟩
  | cons r rs ih =>
    have hpop : A.Holds ((c.drop 8).setReg r c.head).rsp ((c.drop 8).setReg r c.head).mem
        (rs.map f ++ ws) := h.pop
    have hhead : c.head = f r := h.load_head
    obtain ⟨sp, hexec, hholds⟩ := ih hpop
    refine ⟨sp, hexec.trans ?_, hholds⟩
    have hregs : (fun r' ↦ if r' ∈ rs then f r' else Function.update c.regs r c.head r') =
        fun r' ↦ if r' ∈ r :: rs then f r' else c.regs r' := by
      funext r'
      by_cases hmem : r' ∈ rs
      · rw [if_pos hmem, if_pos (List.mem_cons_of_mem r hmem)]
      · by_cases heq : r' = r
        · rw [if_neg hmem, heq, Function.update_self, hhead, if_pos List.mem_cons_self]
        · rw [if_neg hmem, Function.update_of_ne heq, if_neg (by simp [heq, hmem])]
    rw [← hregs]
    rfl

theorem holds_writeWords {sp : UInt64} {mem : UInt64 → UInt8} {olds : List UInt64}
    (us news : List UInt64) (h : A.Holds sp mem (us ++ (olds ++ ws)))
    (hlength : olds.length = news.length) :
    A.Holds sp (writeWords mem (sp + UInt64.ofNat (8 * us.length)) news) (us ++ (news ++ ws)) := by
  induction news generalizing olds us mem with
  | nil =>
    rw [List.length_eq_zero_iff.mp hlength] at h
    exact h
  | cons new news ih =>
    cases olds with
    | nil => exact absurd hlength (by simp)
    | cons old olds =>
      have hstore := h.store_append us new
      rw [List.append_cons us new] at hstore
      have hrest := ih (us ++ [new]) hstore (by simpa using hlength)
      rw [List.append_assoc] at hrest
      rw [writeWords, UInt64.add_assoc, show (8 : UInt64) = UInt64.ofNat 8 from rfl,
        ← UInt64.ofNat_add, show 8 * us.length + 8 = 8 * (us ++ [new]).length by simp; omega]
      exact hrest

theorem iretq_eq {rip cs rflags rsp ss : UInt64}
    (h : A.Holds c.rsp c.mem (rip :: cs :: rflags :: rsp :: ss :: ws)) :
    c.iretq = { c with rip := rip, cs := cs, rflags := rflags, rsp := rsp, ss := ss } := by
  have hcs : load c.mem (c.rsp + UInt64.ofNat 8) = cs := h.load_getElem? (i := 1) rfl
  have hrflags : load c.mem (c.rsp + UInt64.ofNat 16) = rflags := h.load_getElem? (i := 2) rfl
  have hrsp : load c.mem (c.rsp + UInt64.ofNat 24) = rsp := h.load_getElem? (i := 3) rfl
  have hss : load c.mem (c.rsp + UInt64.ofNat 32) = ss := h.load_getElem? (i := 4) rfl
  rw [Cpu.iretq]
  simp only [Cpu.head, Cpu.drop, h.load_head, hcs, hrflags, hrsp, hss]

theorem frameAt_eq {fields : List Reg} {f : TrapFrame} {sp : UInt64} {mem : UInt64 → UInt8}
    (h : A.Holds sp mem (f.words fields ++ ws)) (hcomplete : ∀ r, r ∈ fields) :
    frameAt fields mem sp = f := by
  have hregs : (frameAt fields mem sp).regs = f.regs := by
    funext r
    have hidx : fields.idxOf r < fields.length := List.idxOf_lt_length_iff.mpr (hcomplete r)
    refine h.load_getElem? ?_
    rw [TrapFrame.words, List.append_assoc, List.getElem?_append_left (by simpa using hidx),
      List.getElem?_map, List.getElem?_eq_getElem hidx, List.getElem_idxOf]
    rfl
  -- the other members are the words behind the registers
  have htail (i : ℕ) : (f.words fields ++ ws)[fields.length + i]? =
      ([f.vector, f.errorCode, f.rip, f.cs, f.rflags] ++ ws)[i]? := by
    rw [TrapFrame.words, List.append_assoc, List.getElem?_append_right (by simp)]
    simp
  have hword {i : ℕ} {w : UInt64}
      (hi : ([f.vector, f.errorCode, f.rip, f.cs, f.rflags] ++ ws)[i]? = some w) :
      load mem (sp + UInt64.ofNat (8 * (fields.length + i))) = w :=
    h.load_getElem? ((htail i).trans hi)
  obtain ⟨regs, vector, errorCode, rip, cs, rflags⟩ := f
  rw [frameAt, TrapFrame.mk.injEq]
  exact ⟨hregs, hword (i := 0) rfl, hword (i := 1) rfl, hword (i := 2) rfl, hword (i := 3) rfl,
    hword (i := 4) rfl⟩

theorem holds_returned {mem : UInt64 → UInt8} (h : A.Holds c.rsp mem ws) (l : Leftover) :
    A.Holds (c.returned A.low l mem).rsp (c.returned A.low l mem).mem ws := by
  refine h.scratch fun x hx ↦ if_neg ?_
  omega

theorem exec_flags {is : List Instr} (h : is ⊆ [.cld]) (c : Cpu) :
    ∃ rflags, exec is c = { c with rflags := rflags } := by
  induction is generalizing c with
  | nil => exact ⟨c.rflags, rfl⟩
  | cons i is ih =>
    obtain rfl : i = .cld := List.mem_singleton.mp (h List.mem_cons_self)
    obtain ⟨rflags, hexec⟩ := ih (fun j hj ↦ h (List.mem_cons_of_mem _ hj)) (Instr.exec c .cld)
    exact ⟨rflags, hexec⟩

end

/-! ## The whole path -/

/-- The program goes on as the frame says, and the memory outside of the stack is as before. -/
structure Resumes (A : Area) (f : TrapFrame) (rsp ss : UInt64) (c : Cpu) : Prop where
  regs : c.regs = f.regs
  rip : c.rip = f.rip
  cs : c.cs = f.cs
  rflags : c.rflags = f.rflags
  rsp : c.rsp = rsp
  ss : c.ss = ss
  outside : ∀ x : UInt64, x.toNat < A.low ∨ A.top.toNat ≤ x.toNat → c.mem x = A.start x

/-- The number of words in a trap frame, with the two that only the processor reads. -/
def Entry.frameWords (e : Entry) : ℕ := 7 + e.fields.length

namespace Entry

variable {e : Entry} {A : Area} {c : Cpu} {vector error rip cs rflags rsp ss : UInt64}

theorem exec_enter (hmatches : e.Matches)
    (h : A.Holds c.rsp c.mem [vector, error, rip, cs, rflags, rsp, ss])
    (hfits : A.low + 8 * e.frameWords ≤ A.top.toNat) :
    (exec e.enter c).regs .rdi = (exec e.enter c).rsp ∧
      A.Holds (exec e.enter c).rsp (exec e.enter c).mem
        ((⟨c.regs, vector, error, rip, cs, rflags⟩ : TrapFrame).words e.fields ++ [rsp, ss]) := by
  obtain ⟨is, hflags, henter⟩ := hmatches.enter
  obtain ⟨flags, hexec⟩ := exec_flags hflags c
  obtain ⟨sp, mem, hpushes, hholds⟩ :=
    exec_pushes (c := { c with rflags := flags }) e.fields.reverse h
      (by rw [List.length_reverse]; exact hfits)
  have hall : exec e.enter c =
      ({ c with rflags := flags, rsp := sp, mem := mem } : Cpu).setReg .rdi sp := by
    rw [henter, exec_append, exec_append, hexec, hpushes]
    rfl
  rw [List.reverse_reverse] at hholds
  rw [hall]
  constructor
  · change Function.update c.regs .rdi sp .rdi = sp
    exact Function.update_self ..
  · rw [TrapFrame.words, List.append_assoc]
    exact hholds

theorem exec_leave (hmatches : e.Matches) {f : TrapFrame}
    (h : A.Holds c.rsp c.mem (f.words e.fields ++ [rsp, ss])) :
    Resumes A f rsp ss (exec e.leave c).iretq := by
  rw [TrapFrame.words, List.append_assoc] at h
  obtain ⟨sp, hpops, hholds⟩ := exec_pops h
  have hdrop := hholds.drop [f.vector, f.errorCode]
  have hregs : (fun r ↦ if r ∈ e.fields then f.regs r else c.regs r) = f.regs := by
    funext r
    exact if_pos (hmatches.complete r)
  rw [hmatches.leave, exec_append, hpops, hregs]
  change Resumes A f rsp ss (({ c with rsp := sp, regs := f.regs } : Cpu).drop 16).iretq
  rw [iretq_eq hdrop]
  exact ⟨rfl, rfl, rfl, rfl, rfl, rfl, hholds.outside⟩

/-- From the common part on, a trap is the dispatcher applied to the registers of the program that
was interrupted. If the dispatcher returns, the program goes on with what it left in the frame. -/
theorem trap_eq {σ : Type*} (hmatches : e.Matches)
    (h : A.Holds c.rsp c.mem [vector, error, rip, cs, rflags, rsp, ss])
    (hfits : A.low + 8 * e.frameWords ≤ A.top.toNat)
    (dispatch : TrapFrame → σ → Option (TrapFrame × σ)) (l : Leftover) (s : σ) :
    ∃ resume : TrapFrame → Cpu, (∀ f, Resumes A f rsp ss (resume f)) ∧
      e.trap dispatch A.low l c s =
        (dispatch ⟨c.regs, vector, error, rip, cs, rflags⟩ s).map fun r ↦ (resume r.1, r.2) := by
  obtain ⟨hrdi, hholds⟩ := exec_enter hmatches h hfits
  have hframe := frameAt_eq hholds hmatches.complete
  refine ⟨fun f ↦ (exec e.leave ((exec e.enter c).returned A.low l
    (writeWords (exec e.enter c).mem (exec e.enter c).rsp (f.words e.fields)))).iretq,
    fun f ↦ ?_, ?_⟩
  · refine exec_leave hmatches ?_
    have hwritten := holds_writeWords [] (f.words e.fields) hholds
      (by simp [TrapFrame.words])
    rw [List.length_nil, Nat.mul_zero, show UInt64.ofNat 0 = 0 from rfl, UInt64.add_zero]
      at hwritten
    exact holds_returned hwritten l
  · rw [trap, hrdi, hframe]

end Entry

theorem matches_isrCommonStub : isrCommonStub.Matches :=
  ⟨⟨[.cld], List.Subset.refl _, rfl⟩, rfl, fun r ↦ by cases r <;> decide⟩

theorem matches_isrCommon : isrCommon.Matches :=
  ⟨⟨[], List.nil_subset _, rfl⟩, rfl, fun r ↦ by cases r <;> decide⟩

end Trap

end Mcsos
