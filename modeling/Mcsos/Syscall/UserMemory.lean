import Mcsos.Elf.Format
import Mcsos.Syscall.Dispatch
import Mcsos.Vfs.Isolation

/-!
# The user memory that a system call touches

A range that `mcsos_user_check_range` accepts lies inside the user region. The handlers of `read`,
`write` and `write_serial` check the range that they then touch. The handler of `open` checks the
first 128 bytes of the path, and `mcs_strlen` reads the path up to its NUL: it stays inside the
region exactly if there is a NUL before the end of the region, or the path is not walked because it
does not start with `/` (`Overruns`, `openPath_in_region_iff`).

The ELF loader has a validator of its own, `m11_validate_user_range`, which accepts the same ranges.
-/

namespace Mcsos

namespace Syscall

open Reads

/-! ## Ranges -/

/-- The address belongs to the region. -/
def UserRegion.Contains (region : UserRegion) (a : UInt64) : Prop :=
  region.base ≤ a ∧ a < region.limit

/-- Every address touched belongs to the user region. -/
def Result.InRegion (r : Result) (region : UserRegion) : Prop :=
  ∀ a ∈ r.touched, region.Contains a

variable {region : UserRegion} {ptr len : UInt64}

theorem toNat_addr {i : ℕ} (h : ptr.toNat + i < 2 ^ 64) : (addr ptr i).toNat = ptr.toNat + i := by
  rw [addr, UInt64.toNat_add, UInt64.toNat_ofNat', Nat.add_mod_mod, Nat.mod_eq_of_lt h]

/-- A range that is not empty is accepted exactly if it lies inside the region, and the region does
not start at 0. A range that wraps around would end above the limit. -/
theorem mcsosUserCheckRange_iff (hlen : len ≠ 0) :
    mcsosUserCheckRange region ptr len = true ↔ region.base ≠ 0 ∧
      region.base.toNat ≤ ptr.toNat ∧ ptr.toNat + len.toNat ≤ region.limit.toNat := by
  have hptr : ptr.toNat < 2 ^ 64 := ptr.toNat_lt
  have hlt : len.toNat < 2 ^ 64 := len.toNat_lt
  have hlimit : region.limit.toNat < 2 ^ 64 := region.limit.toNat_lt
  have hpos : len.toNat ≠ 0 := fun h0 ↦ hlen (UInt64.toNat_inj.mp h0)
  have hlast : (ptr + len - 1).toNat = (2 ^ 64 - 1 + (ptr.toNat + len.toNat) % 2 ^ 64) %
      2 ^ 64 := by
    rw [UInt64.toNat_sub, UInt64.toNat_add]
    rfl
  rw [mcsosUserCheckRange, if_neg hlen]
  simp only [UInt64.lt_iff_toNat_lt, UInt64.le_iff_toNat_le, gt_iff_lt, ge_iff_le, hlast]
  split_ifs with hregion hbase hbound hwrap hend
  · simp only [false_iff]
    rintro ⟨hbase, hle, hend⟩
    rcases hregion with hzero | hempty
    · exact hbase hzero
    · -- an empty region has no room for a range
      omega
  all_goals
    rw [not_or] at hregion
    simp only [false_iff, true_iff, hregion.1, ne_eq, not_false_iff, true_and]
    omega

theorem bounds_of_mcsosUserCheckRange (h : mcsosUserCheckRange region ptr len = true)
    (hlen : len ≠ 0) :
    region.base.toNat ≤ ptr.toNat ∧ ptr.toNat + len.toNat ≤ region.limit.toNat :=
  ((mcsosUserCheckRange_iff hlen).mp h).2

theorem contains_addr (hbase : region.base.toNat ≤ ptr.toNat) {i : ℕ}
    (hi : ptr.toNat + i < region.limit.toNat) : region.Contains (addr ptr i) := by
  have hlimit : region.limit.toNat < 2 ^ 64 := region.limit.toNat_lt
  rw [UserRegion.Contains, UInt64.le_iff_toNat_le, UInt64.lt_iff_toNat_lt,
    toNat_addr (by omega)]
  omega

theorem contains_of_check (h : mcsosUserCheckRange region ptr len = true) {i : ℕ}
    (hi : i < len.toNat) : region.Contains (addr ptr i) := by
  have hlen : len ≠ 0 := by
    rintro rfl
    exact absurd hi (Nat.not_lt_zero i)
  obtain ⟨hbase, hlimit⟩ := bounds_of_mcsosUserCheckRange h hlen
  exact contains_addr hbase (by omega)

/-! ## Handlers -/

variable {k : Kernel} {w : World}

theorem inRegion_answer (k : Kernel) (w : World) (ret : ℤ) : (k.answer w ret).InRegion region :=
  fun _ ha ↦ absurd ha List.not_mem_nil

theorem inRegion_sysWriteSerial (ptr len : UInt64) :
    (sysWriteSerial k w ptr len).InRegion k.region := by
  rw [sysWriteSerial]
  split_ifs with hnull hlen hcheck
  · exact inRegion_answer k w _
  · exact inRegion_answer k w _
  · exact inRegion_answer k w _
  cases k.ops.writeSerial with
  | none => exact inRegion_answer k w 0
  | some serial =>
    intro a ha
    obtain ⟨i, hi, rfl⟩ := List.mem_map.mp ha
    exact contains_of_check (Bool.eq_true_of_not_eq_false hcheck) (serial.lt_of_mem _ _ i hi)

theorem contains_of_not_refused (h : ¬(len > 0 ∧ mcsosUserCheckRange region ptr len = false))
    {i : ℕ} (hi : i < len.toNat) : region.Contains (addr ptr i) := by
  refine contains_of_check ?_ hi
  by_contra hcheck
  refine h ⟨?_, Bool.eq_false_of_not_eq_true hcheck⟩
  rw [gt_iff_lt, UInt64.lt_iff_toNat_lt]
  exact Nat.zero_lt_of_lt hi

theorem length_readBytes (hs : k.vfs.Sound) (table : Option ℕ) (fd : ℤ) (buf : Bool) (n : ℕ) :
    (readBytes (Vfs.mcsVfsRead k.vfs table fd buf n)).length ≤ n := by
  have hends := Vfs.readEnds_mcsVfsRead hs table fd buf n
  generalize Vfs.mcsVfsRead k.vfs table fd buf n = o at hends ⊢
  cases hends with
  | failed e => exact Nat.zero_le n
  | atEnd => exact Nat.zero_le n
  | read _ _ _ _ _ hle =>
    simp only [readBytes, Vfs.Ramfs.copyOut, List.length_map, List.length_range]
    exact hle

theorem bytesCopied_le (hs : k.vfs.Sound) (table : Option ℕ) (fd : ℤ) (buf : Option Mem) (n : ℕ) :
    bytesCopied (Vfs.mcsVfsWrite k.vfs table fd buf n) ≤ n := by
  have hends := Vfs.writeEnds_mcsVfsWrite hs table fd buf n
  generalize Vfs.mcsVfsWrite k.vfs table fd buf n = o at hends ⊢
  cases hends with
  | failed e _ => exact Nat.zero_le n
  | wrote _ _ _ _ _ _ => exact le_rfl

/-- The file system is sound once it is initialised. -/
def Kernel.Good (k : Kernel) : Prop := k.vfsInitialized = true → k.vfs.Sound

theorem Kernel.Good.sound (h : k.Good) : (mcsVfsInitOnce k).vfs.Sound := by
  rw [mcsVfsInitOnce]
  split_ifs with hinit
  · exact k.vfs.sound_init
  · exact h (Bool.eq_true_of_not_eq_false hinit)

theorem inRegion_sysRead (h : k.Good) (fd bufPtr len : UInt64) :
    (sysRead k w fd bufPtr len).InRegion k.region := by
  rw [sysRead]
  split_ifs with hnull hcheck
  · exact inRegion_answer k w _
  · exact inRegion_answer k w _
  · intro a ha
    obtain ⟨i, hi, rfl⟩ := List.mem_map.mp ha
    exact contains_of_not_refused hcheck
      ((List.mem_range.mp hi).trans_le (length_readBytes h.sound _ _ _ _))

theorem inRegion_sysWrite (h : k.Good) (fd bufPtr len : UInt64) :
    (sysWrite k w fd bufPtr len).InRegion k.region := by
  rw [sysWrite]
  by_cases hnull : bufPtr = 0 ∧ len ≠ 0
  · rw [if_pos hnull]
    exact inRegion_answer k w _
  rw [if_neg hnull]
  by_cases hcheck : len > 0 ∧ mcsosUserCheckRange k.region bufPtr len = false
  · rw [if_pos hcheck]
    exact inRegion_answer k w _
  · rw [if_neg hcheck]
    intro a ha
    obtain ⟨i, hi, rfl⟩ := List.mem_map.mp ha
    exact contains_of_not_refused hcheck
      ((List.mem_range.mp hi).trans_le (bytesCopied_le h.sound _ _ _ _))

/-! ## Open -/

theorem addr_zero (ptr : UInt64) : addr ptr 0 = ptr := UInt64.add_zero ptr

theorem addr_sub {a : UInt64} (h : ptr ≤ a) : addr ptr (a.toNat - ptr.toNat) = a := by
  have ha : a.toNat < 2 ^ 64 := a.toNat_lt
  rw [UInt64.le_iff_toNat_le] at h
  refine UInt64.toNat_inj.mp ?_
  rw [toNat_addr (by omega)]
  omega

theorem mem_mcsVfsOpen {s : Vfs.State} {t p i : ℕ} {flags : UInt32} {path : Mem}
    (hslash : path 0 = '/'.toUInt8) (hi : i ∈ (Vfs.mcsStrlen path).2) :
    i ∈ (Vfs.mcsVfsOpen s t p flags path).2 :=
  mem_bind _ (mem_bind _ (Vfs.mem_mcsRamfsLookup hslash hi))

theorem reads_mcsVfsOpen {s : Vfs.State} (hs : s.Sound) {path : Mem} {P : ℕ → Prop}
    (hP : Vfs.Within path P) {t p i : ℕ} {flags : UInt32}
    (hi : i ∈ (Vfs.mcsVfsOpen s t p flags path).2) : P i :=
  (@Vfs.spec_mcsVfsOpen s (fun _ _ ↦ False) path P hP hs t p flags).reads i hi

/-- The path starts with `/` and has no NUL up to the end of the region. -/
def Unterminated (region : UserRegion) (memory : Memory) (pathPtr : UInt64) : Prop :=
  memory pathPtr = '/'.toUInt8 ∧ ∀ a, pathPtr ≤ a → a < region.limit → memory a ≠ 0

theorem openPath_in_region_iff (hs : k.vfs.Sound) {pathPtr : UInt64}
    (hcheck : mcsosUserCheckRange region pathPtr (UInt64.ofNat Vfs.maxPath) = true)
    (flags : UInt64) :
    (openPath k w pathPtr flags).InRegion region ↔ ¬Unterminated region w.memory pathPtr := by
  obtain ⟨hbase, hlimit⟩ := bounds_of_mcsosUserCheckRange hcheck (by decide)
  have hmax : (UInt64.ofNat Vfs.maxPath).toNat = 128 := by decide
  have hview : w.memory.view pathPtr 0 = w.memory pathPtr := by rw [Memory.view, addr_zero]
  have hend : region.limit.toNat < 2 ^ 64 := region.limit.toNat_lt
  constructor
  · -- the byte at the end of the region is read
    rintro hin ⟨hslash, hnul⟩
    have hread : region.limit.toNat - pathPtr.toNat ∈
        (Vfs.mcsStrlen (w.memory.view pathPtr)).2 := by
      refine Vfs.mem_strlenFrom (Nat.zero_le _) ?_ fun j _ hj ↦ hnul _ ?_ ?_
      · change _ < 0 + 2 ^ 64
        omega
      · rw [UInt64.le_iff_toNat_le, toNat_addr (by omega)]
        omega
      · rw [UInt64.lt_iff_toNat_lt, toNat_addr (by omega)]
        omega
    have htouched := hin _ (List.mem_map_of_mem (f := addr pathPtr)
      (mem_mcsVfsOpen (hview.trans hslash) hread))
    have hlt := htouched.2
    rw [UInt64.lt_iff_toNat_lt, toNat_addr (by omega)] at hlt
    omega
  · intro hterminated a ha
    obtain ⟨i, hi, rfl⟩ := List.mem_map.mp ha
    by_cases hslash : w.memory pathPtr = '/'.toUInt8
    · -- the path is read up to a NUL inside the region
      obtain ⟨a, hle, hlt, hnul⟩ : ∃ a, pathPtr ≤ a ∧ a < region.limit ∧ w.memory a = 0 := by
        by_contra hnone
        exact hterminated ⟨hslash, fun a hle hlt h0 ↦ hnone ⟨a, hle, hlt, h0⟩⟩
      have hpath : w.memory.view pathPtr (a.toNat - pathPtr.toNat) = 0 := by
        rw [Memory.view, addr_sub hle, hnul]
      have hi' := reads_mcsVfsOpen hs (Vfs.within_le hpath) hi
      rw [UInt64.le_iff_toNat_le] at hle
      rw [UInt64.lt_iff_toNat_lt] at hlt
      exact contains_addr hbase (by omega)
    · have hzero := Vfs.within_zero (fun h ↦ hslash (hview.symm.trans h))
      have hi' := reads_mcsVfsOpen hs hzero hi
      exact contains_addr hbase (by omega)

/-- The call opens a path that `mcs_strlen` follows out of the region. -/
def Overruns (k : Kernel) (w : World) (nr : UInt64) (a : Args) : Prop :=
  nr = 5 ∧ a.arg0 ≠ 0 ∧
    mcsosUserCheckRange k.region a.arg0 (UInt64.ofNat Vfs.maxPath) = true ∧
      Unterminated k.region w.memory a.arg0

theorem sysOpen_in_region_iff (h : k.Good) (pathPtr flags : UInt64) :
    (sysOpen k w pathPtr flags).InRegion k.region ↔
      ¬(pathPtr ≠ 0 ∧ mcsosUserCheckRange k.region pathPtr (UInt64.ofNat Vfs.maxPath) = true ∧
        Unterminated k.region w.memory pathPtr) := by
  rw [sysOpen]
  by_cases hnull : pathPtr = 0
  · rw [if_pos hnull]
    exact iff_of_true (inRegion_answer k w _) fun hbad ↦ hbad.1 hnull
  rw [if_neg hnull]
  by_cases hcheck : mcsosUserCheckRange k.region pathPtr (UInt64.ofNat Vfs.maxPath) = false
  · rw [if_pos hcheck]
    exact iff_of_true (inRegion_answer k w _) fun hbad ↦ by simp [hcheck] at hbad
  · have hcheck' := Bool.eq_true_of_not_eq_false hcheck
    rw [if_neg hcheck, openPath_in_region_iff h.sound hcheck']
    exact not_congr ⟨fun hbad ↦ ⟨hnull, hcheck', hbad⟩, fun hbad ↦ hbad.2.2⟩

/-! ## Every system call -/

theorem inRegion_sysExitThread (k : Kernel) (w : World) : (sysExitThread k w).InRegion region := by
  rw [sysExitThread]
  cases k.ops.exitCurrent with
  | none => exact inRegion_answer k w _
  | some returns => exact fun _ ha ↦ absurd ha List.not_mem_nil

theorem in_region_iff (h : k.Good) (w : World) (nr : UInt64) (a : Args) :
    (mcsosSyscallDispatch k w nr a).InRegion k.region ↔ ¬Overruns k w nr a := by
  by_cases hopen : nr = 5
  · subst hopen
    rw [Overruns]
    exact (sysOpen_in_region_iff h a.arg0 a.arg1).trans
      (not_congr ⟨fun hbad ↦ ⟨rfl, hbad⟩, And.right⟩)
  refine iff_of_true ?_ fun hbad ↦ hopen hbad.1
  rw [mcsosSyscallDispatch]
  split
  case h_1 => exact inRegion_answer k w _
  case h_2 =>
    rw [sysGetTicks]
    split_ifs <;> exact inRegion_answer k w _
  case h_3 => exact inRegion_sysWriteSerial _ _
  case h_4 =>
    rw [sysYield]
    split_ifs <;> exact inRegion_answer k w _
  case h_5 => exact inRegion_sysExitThread k w
  case h_6 hnr => exact absurd (UInt64.toNat_inj.mp hnr) hopen
  case h_7 => exact inRegion_sysRead h _ _ _
  case h_8 => exact inRegion_sysWrite h _ _ _
  case h_9 => exact inRegion_answer _ w _
  case h_10 => exact inRegion_answer _ w _
  case h_11 => exact inRegion_answer k w _

theorem Kernel.Good.setVfs {vfs : Vfs.State} (h : vfs.Sound) : Kernel.Good { k with vfs := vfs } :=
  fun _ ↦ h

theorem good_openPath (hs : k.vfs.Sound) (pathPtr flags : UInt64) :
    (openPath k w pathPtr flags).kernel.Good := by
  have hspec := @Vfs.spec_mcsVfsOpen k.vfs (fun _ _ ↦ False) (w.memory.view pathPtr) _
    Vfs.within_true hs 0 0 flags.toUInt32
  refine Kernel.Good.setVfs ?_
  cases hres : (Vfs.mcsVfsOpen k.vfs 0 0 flags.toUInt32 (w.memory.view pathPtr)).1 with
  | none => exact hs
  | some o => exact (hspec.result o hres).sound hs

theorem good_dispatch (h : k.Good) (w : World) (nr : UInt64) (a : Args) :
    (mcsosSyscallDispatch k w nr a).kernel.Good := by
  rw [mcsosSyscallDispatch]
  split
  case h_1 => exact h
  case h_2 =>
    rw [sysGetTicks]
    split_ifs <;> exact h
  case h_3 =>
    rw [sysWriteSerial]
    split_ifs with hnull hlen hcheck
    · exact h
    · exact h
    · exact h
    cases k.ops.writeSerial with
    | none => exact h
    | some serial => exact h
  case h_4 =>
    rw [sysYield]
    split_ifs <;> exact h
  case h_5 =>
    rw [sysExitThread]
    cases k.ops.exitCurrent with
    | none => exact h
    | some returns => exact h
  case h_6 =>
    rw [sysOpen]
    by_cases hnull : a.arg0 = 0
    · rw [if_pos hnull]
      exact h
    rw [if_neg hnull]
    by_cases hcheck : mcsosUserCheckRange k.region a.arg0 (UInt64.ofNat Vfs.maxPath) = false
    · rw [if_pos hcheck]
      exact h
    · rw [if_neg hcheck]
      exact good_openPath h.sound _ _
  case h_7 =>
    rw [sysRead]
    split_ifs with hnull hcheck
    · exact h
    · exact h
    · exact .setVfs (Vfs.sound_step h.sound (.vfsRead (some 0) _ _ _))
  case h_8 =>
    rw [sysWrite]
    by_cases hnull : a.arg1 = 0 ∧ a.arg2 ≠ 0
    · rw [if_pos hnull]
      exact h
    rw [if_neg hnull]
    by_cases hcheck : a.arg2 > 0 ∧ mcsosUserCheckRange k.region a.arg1 a.arg2 = false
    · rw [if_pos hcheck]
      exact h
    · rw [if_neg hcheck]
      exact .setVfs (Vfs.sound_step h.sound (.vfsWrite (some 0) _ _ _))
  case h_9 =>
    have hsound := Vfs.sound_step h.sound (.vfsClose (some 0) (Vfs.toInt a.arg0.toNat))
    exact fun _ ↦ hsound
  case h_10 =>
    have hsound := Vfs.sound_step h.sound (.vfsLseek (some 0) (Vfs.toInt a.arg0.toNat)
      (Vfs.toLong a.arg1.toNat) (Vfs.toInt a.arg2.toNat))
    exact fun _ ↦ hsound
  case h_11 => exact h

theorem good_step (h : k.Good) (c : Call) : (step c k).2.Good := by
  cases c with
  | init ops => exact h
  | setUserRegion region => exact h
  | dispatch w nr a => exact good_dispatch h w nr a

/-- **A system call stays inside the user region unless its path runs out of it.** In every state
that the calls of the interface reach, whatever the region, the memory, the number and the
arguments are: every address that a system call touches through a pointer of the caller belongs to
the region, exactly if the call does not open a path that starts with `/`, passes the check of its
first 128 bytes and has no NUL up to the end of the region. -/
theorem syscall_in_region_iff {vfs : Vfs.State} {es : List (Call × Option ℤ)} {k : Kernel}
    (hrun : Run step (fun _ _ ↦ True) (boot vfs) es k) (w : World) (nr : UInt64) (a : Args) :
    (mcsosSyscallDispatch k w nr a).InRegion k.region ↔ ¬Overruns k w nr a := by
  have hgood : k.Good := hrun.invariant (fun h ↦ nomatch h) fun _ c hu _ ↦ good_step hu c
  exact in_region_iff hgood w nr a

/-- A region of 128 bytes. -/
def smallRegion : UserRegion := ⟨0x400000, 0x400080⟩

/-- A region full of `/`, with zeros around it. -/
def slashes : World := ⟨fun a ↦ if smallRegion.base ≤ a ∧ a < smallRegion.limit then 47 else 0, 0⟩

/-- The path `/` at the start of the region, with zeros behind it. -/
def oneSlash : World := ⟨fun a ↦ if a = smallRegion.base then 47 else 0, 0⟩

/-- Open the path at the start of the region. -/
def openBase : Args := ⟨smallRegion.base, 0, 0, 0, 0, 0⟩

/-- The root is opened. -/
theorem syscall_in_region_iff_root : ∃ es k,
    Run step (fun _ _ ↦ True) (boot Vfs.blank) es k ∧ k.region = smallRegion ∧
      (mcsosSyscallDispatch k oneSlash 5 openBase).ret = some 0 ∧
      (mcsosSyscallDispatch k oneSlash 5 openBase).InRegion smallRegion := by
  have hrun : Run step (fun _ _ ↦ True) (boot Vfs.blank) _ _ :=
    Run.nil.snoc (Call.setUserRegion smallRegion) trivial
  refine ⟨_, _, hrun, rfl, by decide +kernel, (syscall_in_region_iff hrun _ _ _).mpr ?_⟩
  rintro ⟨-, -, -, -, hnul⟩
  exact hnul (smallRegion.base + 1) (by decide) (by decide) (by decide)

/-- A path of 128 bytes without a NUL fills the region: the byte behind the region is read. -/
theorem path_read_past_region :
    let k := (step (.setUserRegion smallRegion) (boot Vfs.blank)).2
    mcsosUserCheckRange smallRegion smallRegion.base 128 = true ∧
      smallRegion.limit ∈ (mcsosSyscallDispatch k slashes 5 openBase).touched ∧
      ¬(mcsosSyscallDispatch k slashes 5 openBase).InRegion k.region := by
  have htouched : smallRegion.limit ∈ (mcsosSyscallDispatch
      (step (.setUserRegion smallRegion) (boot Vfs.blank)).2 slashes 5 openBase).touched := by
    decide +kernel
  exact ⟨by decide, htouched, fun hin ↦ absurd (hin _ htouched).2 (by decide)⟩

/-! ## The validator of the ELF loader -/

/-- **The two validators of user ranges agree**, and accept exactly the ranges inside the region.
`mcsos_user_check_range` looks at the last byte of the range, `m11_validate_user_range` at the byte
behind it. -/
theorem validators_agree {base limit : UInt64} (hbase : 0 < base) (hlimit : base < limit)
    (hlen : 0 < len) :
    (mcsosUserCheckRange ⟨base, limit⟩ ptr len = true ↔
      Elf.m11ValidateUserRange ⟨base, limit⟩ ptr.toNat len.toNat = .ok ()) ∧
    (Elf.m11ValidateUserRange ⟨base, limit⟩ ptr.toNat len.toNat = .ok () ↔
      base.toNat ≤ ptr.toNat ∧ ptr.toNat + len.toNat ≤ limit.toNat) := by
  have hpos : 0 < len.toNat := UInt64.lt_iff_toNat_lt.mp hlen
  have hne : len ≠ 0 := by
    rintro rfl
    exact absurd hpos (lt_irrefl 0)
  have hbase0 : base ≠ 0 := by
    rintro rfl
    exact absurd (UInt64.lt_iff_toNat_lt.mp hbase) (lt_irrefl 0)
  have hloader : Elf.m11ValidateUserRange ⟨base, limit⟩ ptr.toNat len.toNat = .ok () ↔
      base.toNat ≤ ptr.toNat ∧ ptr.toNat + len.toNat ≤ limit.toNat :=
    (Elf.m11ValidateUserRange_ok_iff ptr.toNat_lt len.toNat_lt).trans (and_iff_right hpos)
  refine ⟨?_, hloader⟩
  rw [hloader]
  exact (mcsosUserCheckRange_iff hne).trans (and_iff_right hbase0)

/-- A range that ends at the limit. -/
theorem validators_agree_at_limit :
    mcsosUserCheckRange ⟨0x1000, 0x2000⟩ 0x1800 0x800 = true ∧
      Elf.m11ValidateUserRange ⟨0x1000, 0x2000⟩ 0x1800 0x800 = .ok () := by
  obtain ⟨hagree, hexact⟩ := @validators_agree 0x1800 0x800 0x1000 0x2000 (by decide) (by decide)
    (by decide)
  have hinside := hexact.mpr (by decide)
  exact ⟨hagree.mpr hinside, hinside⟩

end Syscall

end Mcsos
