import Mathlib.Data.List.Induction
import Mcsos.Trap.Entry

/-!
# The interrupt table

The two files `idt.c`. A gate has the address of its handler in three members, which the processor
puts together again (`IdtEntry.offset`). `idt_init` fills the gates of the exceptions and of the two
interrupt controllers, `idt_install_gate` any other one; the kernel of `kernel/core` first clears
the whole table and has gates for the exceptions only.

After any number of installations each gate leads to the handler that was installed last
(`gate_of_installs`). A gate that nobody has filled is not present.
-/

namespace Mcsos

namespace Trap

/-! ## Gates -/

/-- `struct idt_entry` and `x86_64_idt_entry_t` -/
structure IdtEntry where
  offsetLow : UInt16
  selector : UInt16
  ist : UInt8
  typeAttr : UInt8
  offsetMid : UInt16
  offsetHigh : UInt32
  zero : UInt32
  deriving DecidableEq

abbrev Idt := UInt8 → IdtEntry

/-- The table before it is filled. -/
def emptyIdt : Idt := fun _ ↦ ⟨0, 0, 0, 0, 0, 0, 0⟩

def idtSetGate (vector : UInt8) (handler : UInt64) (selector : UInt16) (typeAttr : UInt8)
    (idt : Idt) : Idt :=
  Function.update idt vector {
    offsetLow := (handler &&& 0xFFFF).toUInt16
    selector := selector
    ist := 0
    typeAttr := typeAttr
    offsetMid := (handler >>> 16 &&& 0xFFFF).toUInt16
    offsetHigh := (handler >>> 32 &&& 0xFFFFFFFF).toUInt32
    zero := 0 }

namespace IdtEntry

/-- The address that the processor reads from a gate. -/
def offset (e : IdtEntry) : UInt64 :=
  UInt64.ofNat (e.offsetLow.toNat + 2 ^ 16 * e.offsetMid.toNat + 2 ^ 32 * e.offsetHigh.toNat)

/-- The gate may be used. -/
def Present (e : IdtEntry) : Prop := e.typeAttr &&& 0x80 ≠ 0

/-- An interrupt gate clears the interrupt flag, a trap gate does not. -/
def clearsInterruptFlag (e : IdtEntry) : Bool := e.typeAttr &&& 0x0F = 0x0E

instance (e : IdtEntry) : Decidable e.Present := inferInstanceAs (Decidable (_ ≠ _))

end IdtEntry

/-- The gate that a call of `idt_set_gate` writes. -/
def gate (handler : UInt64) (selector : UInt16) (typeAttr : UInt8) : IdtEntry :=
  idtSetGate 0 handler selector typeAttr emptyIdt 0

theorem idtSetGate_eq (vector : UInt8) (handler : UInt64) (selector : UInt16) (typeAttr : UInt8)
    (idt : Idt) : idtSetGate vector handler selector typeAttr idt =
      Function.update idt vector (gate handler selector typeAttr) := rfl

theorem offset_gate (handler : UInt64) (selector : UInt16) (typeAttr : UInt8) :
    (gate handler selector typeAttr).offset = handler := by
  have hlt := handler.toNat_lt
  have hlow : (handler &&& 0xFFFF).toNat = handler.toNat % 2 ^ 16 := by
    rw [UInt64.toNat_and]
    exact Nat.and_two_pow_sub_one_eq_mod handler.toNat 16
  have hmid : (handler >>> 16 &&& 0xFFFF).toNat = handler.toNat / 2 ^ 16 % 2 ^ 16 := by
    rw [UInt64.toNat_and, UInt64.toNat_shiftRight, Nat.shiftRight_eq_div_pow]
    exact Nat.and_two_pow_sub_one_eq_mod _ 16
  have hhigh : (handler >>> 32 &&& 0xFFFFFFFF).toNat = handler.toNat / 2 ^ 32 % 2 ^ 32 := by
    rw [UInt64.toNat_and, UInt64.toNat_shiftRight, Nat.shiftRight_eq_div_pow]
    exact Nat.and_two_pow_sub_one_eq_mod _ 32
  change UInt64.ofNat ((handler &&& 0xFFFF).toUInt16.toNat +
    2 ^ 16 * (handler >>> 16 &&& 0xFFFF).toUInt16.toNat +
    2 ^ 32 * (handler >>> 32 &&& 0xFFFFFFFF).toUInt32.toNat) = handler
  rw [UInt64.toNat_toUInt16, UInt64.toNat_toUInt16, UInt64.toNat_toUInt32, hlow, hmid, hhigh,
    ← UInt64.toNat_inj, UInt64.toNat_ofNat']
  omega

theorem present_gate_iff {handler : UInt64} {selector : UInt16} {typeAttr : UInt8} :
    (gate handler selector typeAttr).Present ↔ typeAttr &&& 0x80 ≠ 0 := Iff.rfl

/-! ## Filling the table -/

/-- The addresses of the code that gates lead to. -/
structure Symbols where
  /-- `isr_stub_table` and `x86_64_exception_stubs` -/
  isrStub : ℕ → UInt64
  /-- `x86_64_syscall_int80_stub` -/
  int80Stub : UInt64
  isrStub_inj : ∀ i < 48, ∀ j < 48, isrStub i = isrStub j → i = j
  int80Stub_ne : ∀ i < 48, isrStub i ≠ int80Stub

theorem ofNat_sixteen_mul_inj : ∀ i < 48, ∀ j < 48,
    UInt64.ofNat (16 * i) = UInt64.ofNat (16 * j) → i = j := by
  intro i hi j hj h
  have hnat := congrArg UInt64.toNat h
  rw [UInt64.toNat_ofNat', UInt64.toNat_ofNat'] at hnat
  omega

theorem ofNat_sixteen_mul_ne : ∀ i < 48, UInt64.ofNat (16 * i) ≠ UInt64.ofNat (16 * 48) := by
  intro i hi h
  have hnat := congrArg UInt64.toNat h
  rw [UInt64.toNat_ofNat', UInt64.toNat_ofNat'] at hnat
  omega

/-- Stubs of 16 bytes each. -/
def packedStubs : Symbols where
  isrStub n := UInt64.ofNat (16 * n)
  int80Stub := UInt64.ofNat (16 * 48)
  isrStub_inj := ofNat_sixteen_mul_inj
  int80Stub_ne := ofNat_sixteen_mul_ne

/-- The gates of the vectors below `n`, each with its stub. -/
def setStubs (stub : ℕ → UInt64) (selector : UInt16) (typeAttr : ℕ → UInt8) (n : ℕ) (idt : Idt) :
    Idt :=
  (List.range n).foldl
    (fun idt i ↦ idtSetGate (UInt8.ofNat i) (stub i) selector (typeAttr i) idt) idt

/-- `idt_init`; `cs` is the selector that the processor uses for its code. -/
def idtInit (sym : Symbols) (cs : UInt16) (idt : Idt) : Idt :=
  setStubs sym.isrStub cs (fun _ ↦ 0x8E) 48 idt

/-- The arguments of a call of `idt_install_gate`. -/
structure Install where
  vector : UInt8
  handler : UInt64
  typeAttr : UInt8

def idtInstallGate (cs : UInt16) (idt : Idt) (i : Install) : Idt :=
  idtSetGate i.vector i.handler cs i.typeAttr idt

/-- The table of `src/` as `kmain` has set it up. -/
def kmainIdt (sym : Symbols) (cs : UInt16) : Idt :=
  idtInstallGate cs (idtInit sym cs emptyIdt) ⟨0x80, sym.int80Stub, 0x8E⟩

def kernelCodeSelector : UInt16 := 0x28

/-- The gate type of a vector in `x86_64_idt_init`. -/
def exceptionGateType (vector : ℕ) : UInt8 := if vector = 3 then 0x8F else 0x8E

/-- `x86_64_idt_init` -/
def x86_64IdtInit (sym : Symbols) (idt : Idt) : Idt :=
  setStubs sym.isrStub kernelCodeSelector exceptionGateType 32
    ((List.range 256).foldl (fun idt i ↦ idtSetGate (UInt8.ofNat i) 0 kernelCodeSelector 0 idt) idt)

theorem setStubs_apply (stub : ℕ → UInt64) (selector : UInt16) (typeAttr : ℕ → UInt8) {n : ℕ}
    (hn : n ≤ 256) (idt : Idt) (v : UInt8) : setStubs stub selector typeAttr n idt v =
      if v.toNat < n then gate (stub v.toNat) selector (typeAttr v.toNat) else idt v := by
  induction n with
  | zero => rfl
  | succ n ih =>
    have hstep : setStubs stub selector typeAttr (n + 1) idt =
        Function.update (setStubs stub selector typeAttr n idt) (UInt8.ofNat n)
          (gate (stub n) selector (typeAttr n)) := by
      rw [setStubs, List.range_succ, List.foldl_append]
      rfl
    have hnat : (UInt8.ofNat n).toNat = n := UInt8.toNat_ofNat_of_lt' (show n < 256 by omega)
    rw [hstep]
    by_cases hv : v = UInt8.ofNat n
    · rw [hv, Function.update_self, hnat, if_pos (Nat.lt_succ_self n)]
    · have hne : v.toNat ≠ n := fun h ↦ hv (UInt8.toNat_inj.mp (h.trans hnat.symm))
      rw [Function.update_of_ne hv, ih (by omega)]
      by_cases hlt : v.toNat < n
      · rw [if_pos hlt, if_pos (by omega)]
      · rw [if_neg hlt, if_neg (by omega)]

/-- The last installation for a vector. -/
def lastInstall (is : List Install) (v : UInt8) : Option Install :=
  (is.filter (·.vector = v)).getLast?

theorem foldl_idtInstallGate (cs : UInt16) (is : List Install) (idt : Idt) (v : UInt8) :
    is.foldl (idtInstallGate cs) idt v =
      (lastInstall is v).elim (idt v) fun i ↦ gate i.handler cs i.typeAttr := by
  induction is using List.reverseRecOn with
  | nil => rfl
  | append_singleton is i ih =>
    rw [List.foldl_append, List.foldl_cons, List.foldl_nil, idtInstallGate, idtSetGate_eq,
      lastInstall, List.filter_append]
    by_cases hv : i.vector = v
    · rw [hv, Function.update_self]
      simp [hv]
    · rw [Function.update_of_ne (Ne.symm hv), ih]
      simp [hv, lastInstall]

theorem idt_apply (sym : Symbols) (cs : UInt16) (is : List Install) (v : UInt8) :
    is.foldl (idtInstallGate cs) (idtInit sym cs emptyIdt) v =
      (lastInstall is v).elim
        (if v.toNat < 48 then gate (sym.isrStub v.toNat) cs 0x8E else emptyIdt v)
        fun i ↦ gate i.handler cs i.typeAttr := by
  rw [foldl_idtInstallGate, idtInit, setStubs_apply _ _ _ (by decide)]

theorem kmainIdt_stub (sym : Symbols) (cs : UInt16) {v : UInt8} (hv : v.toNat < 48) :
    kmainIdt sym cs v = gate (sym.isrStub v.toNat) cs 0x8E := by
  have hne : 0x80 ≠ v := by
    rintro rfl
    exact absurd hv (by decide)
  have hnone : lastInstall [⟨0x80, sym.int80Stub, 0x8E⟩] v = none := by simp [lastInstall, hne]
  have happly := idt_apply sym cs [⟨0x80, sym.int80Stub, 0x8E⟩] v
  rwa [hnone, Option.elim_none, if_pos hv] at happly

theorem x86_64IdtInit_apply (sym : Symbols) (idt : Idt) (v : UInt8) : x86_64IdtInit sym idt v =
    if v.toNat < 32 then gate (sym.isrStub v.toNat) kernelCodeSelector (exceptionGateType v.toNat)
    else gate 0 kernelCodeSelector 0 := by
  have hclear : ((List.range 256).foldl
      (fun idt i ↦ idtSetGate (UInt8.ofNat i) 0 kernelCodeSelector 0 idt) idt) v =
        if v.toNat < 256 then gate 0 kernelCodeSelector 0 else idt v :=
    setStubs_apply (fun _ ↦ 0) kernelCodeSelector (fun _ ↦ 0) le_rfl idt v
  rw [x86_64IdtInit, setStubs_apply _ _ _ (by decide), hclear, if_pos v.toNat_lt]

/-- **Each gate leads to the handler that was installed last.** After `idt_init` and any
installations the processor finds the last handler of a vector, or its stub, or no gate. The
kernel of `kernel/core` has a stub for every exception and no other gate, whatever the table held
before, and only the gate of the breakpoint leaves interrupts enabled. -/
theorem gate_of_installs (sym : Symbols) (cs : UInt16) (is : List Install) (v : UInt8) (idt : Idt) :
    (∀ i, lastInstall is v = some i →
      (is.foldl (idtInstallGate cs) (idtInit sym cs emptyIdt) v).offset = i.handler ∧
      ((is.foldl (idtInstallGate cs) (idtInit sym cs emptyIdt) v).Present ↔
        i.typeAttr &&& 0x80 ≠ 0)) ∧
    (lastInstall is v = none →
      ((is.foldl (idtInstallGate cs) (idtInit sym cs emptyIdt) v).Present ↔ v.toNat < 48) ∧
      (v.toNat < 48 → (is.foldl (idtInstallGate cs) (idtInit sym cs emptyIdt) v).offset =
        sym.isrStub v.toNat)) ∧
    ((x86_64IdtInit sym idt v).Present ↔ v.toNat < 32) ∧
    (v.toNat < 32 → (x86_64IdtInit sym idt v).offset = sym.isrStub v.toNat ∧
      ((x86_64IdtInit sym idt v).clearsInterruptFlag = true ↔ v.toNat ≠ 3)) := by
  rw [idt_apply, x86_64IdtInit_apply]
  refine ⟨fun i hi ↦ ?_, fun hnone ↦ ?_, ?_, fun hlt ↦ ?_⟩
  · rw [hi]
    exact ⟨offset_gate _ _ _, Iff.rfl⟩
  · rw [hnone, Option.elim_none]
    split_ifs with hlt
    · exact ⟨iff_of_true (present_gate_iff.mpr (by decide)) hlt, fun _ ↦ offset_gate _ _ _⟩
    · exact ⟨iff_of_false (not_not_intro (show (0 : UInt8) &&& 0x80 = 0 by decide)) hlt,
        fun h ↦ absurd h hlt⟩
  · split_ifs with hlt
    · refine iff_of_true (present_gate_iff.mpr ?_) hlt
      rw [exceptionGateType]
      split_ifs <;> decide
    · exact iff_of_false (by decide) hlt
  · rw [if_pos hlt]
    refine ⟨offset_gate _ _ _, ?_⟩
    change decide (exceptionGateType v.toNat &&& 0x0F = 0x0E) = true ↔ _
    rw [exceptionGateType]
    split_ifs with h3
    · exact iff_of_false (by decide) (not_not_intro h3)
    · exact iff_of_true (by decide) h3

end Trap

end Mcsos
