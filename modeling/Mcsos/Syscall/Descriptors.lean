import Mcsos.Syscall.UserMemory

/-!
# Descriptors at the system call boundary

A system call gets a descriptor as a 64-bit number, and the handlers of `read`, `write`, `close` and
`lseek` cast it to `int` before `mcs_fd_get` compares it with the size of the table. A number whose
low 32 bits are not an open descriptor is refused, and nothing changes. A number from `2 ^ 32` on
whose low 32 bits are an open descriptor is taken for that descriptor (`Aliases`), which the
invariant of the VFS excludes: an operation with a descriptor outside of the table returns
`MCS_EBADF`.

The file system is initialised by the first call that needs it, also by one that is then refused.
`Kernel.files` is the file system and the table as a call finds them, after this initialisation.
-/

namespace Mcsos

namespace Syscall

open Vfs (toInt toLong mcsFdGet maxOpenFiles)

/-- The file system and the table, initialised if they have not been used yet. -/
def Kernel.files (k : Kernel) : Vfs.State := (mcsVfsInitOnce k).vfs

/-- The call returns a negative code and leaves the file system, the table and the memory as they
are. -/
structure Result.Refused (r : Result) (k : Kernel) (w : World) : Prop where
  negative : ∃ c, r.ret = some c ∧ c < 0
  files : r.kernel.files = k.files
  memory : r.memory = w.memory

/-- The numbers of the calls that take a descriptor: `read`, `write`, `close` and `lseek`. -/
def takesDescriptor : List UInt64 := [6, 7, 8, 9]

/-- The low 32 bits are an open descriptor. -/
def Aliases (k : Kernel) (fd : UInt64) : Prop :=
  fd.toUInt32.toNat < maxOpenFiles ∧ (k.files.tables 0 fd.toUInt32.toNat).used = true

variable {k : Kernel} {w : World} {s : Vfs.State} {table : Option ℕ} {fd : ℤ}

/-! ## Descriptors that are not open -/

theorem mcsVfsInitOnce_idem : mcsVfsInitOnce (mcsVfsInitOnce k) = mcsVfsInitOnce k := by
  have hinit : (mcsVfsInitOnce k).vfsInitialized = true := by
    rw [mcsVfsInitOnce]
    split_ifs with hinit
    · rfl
    · exact Bool.eq_true_of_not_eq_false hinit
  rw [mcsVfsInitOnce.eq_1 (mcsVfsInitOnce k), if_neg (by rw [hinit]; decide)]

theorem files_mcsVfsInitOnce : (mcsVfsInitOnce k).files = k.files :=
  congrArg Kernel.vfs mcsVfsInitOnce_idem

theorem code_neg (e : Vfs.Err) : code e < 0 := by cases e <;> decide

theorem refused_answer {ret : ℤ} (hret : ret < 0) : (k.answer w ret).Refused k w :=
  ⟨⟨ret, rfl, hret⟩, rfl, rfl⟩

theorem mcsVfsRead_of_get_none (h : mcsFdGet s table fd = none) (buf : Bool) (len : ℕ) :
    ∃ e, Vfs.mcsVfsRead s table fd buf len = .fail s e := by
  rw [Vfs.mcsVfsRead, h]
  split_ifs
  · exact ⟨_, rfl⟩
  · exact ⟨_, rfl⟩

theorem mcsVfsWrite_of_get_none (h : mcsFdGet s table fd = none) (buf : Option Mem) (len : ℕ) :
    ∃ e, Vfs.mcsVfsWrite s table fd buf len = .fail s e := by
  rw [Vfs.mcsVfsWrite, h]
  split_ifs
  · exact ⟨_, rfl⟩
  · exact ⟨_, rfl⟩

theorem mcsVfsClose_of_get_none (h : mcsFdGet s table fd = none) :
    Vfs.mcsVfsClose s table fd = .fail s .badf := by rw [Vfs.mcsVfsClose, h]

theorem mcsVfsLseek_of_get_none (h : mcsFdGet s table fd = none) (offset whence : ℤ) :
    Vfs.mcsVfsLseek s table fd offset whence = .fail s .badf := by rw [Vfs.mcsVfsLseek, h]

section Refused

variable {fd : UInt64} (h : mcsFdGet (mcsVfsInitOnce k).vfs (some 0) (toInt fd.toNat) = none)

include h

theorem refused_sysRead (bufPtr len : UInt64) : (sysRead k w fd bufPtr len).Refused k w := by
  rw [sysRead]
  split_ifs
  · exact refused_answer (by decide)
  · exact refused_answer (by decide)
  · obtain ⟨e, he⟩ := mcsVfsRead_of_get_none h (decide (bufPtr ≠ 0)) len.toNat
    dsimp only
    rw [he]
    exact ⟨⟨code e, rfl, code_neg e⟩, files_mcsVfsInitOnce, rfl⟩

theorem refused_sysWrite (bufPtr len : UInt64) : (sysWrite k w fd bufPtr len).Refused k w := by
  rw [sysWrite]
  split
  · exact refused_answer (by decide)
  split
  · exact refused_answer (by decide)
  · obtain ⟨e, he⟩ := mcsVfsWrite_of_get_none h
      (if bufPtr = 0 then none else some (w.memory.view bufPtr)) len.toNat
    dsimp only
    rw [he]
    exact ⟨⟨code e, rfl, code_neg e⟩, files_mcsVfsInitOnce, rfl⟩

theorem refused_sysClose : (sysClose k w fd).Refused k w := by
  rw [sysClose, mcsVfsClose_of_get_none h]
  exact ⟨⟨_, rfl, code_neg .badf⟩, files_mcsVfsInitOnce, rfl⟩

theorem refused_sysLseek (offset whence : UInt64) :
    (sysLseek k w fd offset whence).Refused k w := by
  rw [sysLseek, mcsVfsLseek_of_get_none h]
  exact ⟨⟨_, rfl, code_neg .badf⟩, files_mcsVfsInitOnce, rfl⟩

end Refused

/-! ## The narrowing -/

/-- The cast to `int` gives the low 32 bits, or a negative number. -/
theorem toInt_toNat (fd : UInt64) : toInt fd.toNat =
    if fd.toUInt32.toNat < 2 ^ 31 then (fd.toUInt32.toNat : ℤ)
    else (fd.toUInt32.toNat : ℤ) - 2 ^ 32 := by
  rw [toInt, UInt64.toNat_toUInt32, Int.bmod_def]
  push_cast
  split_ifs <;> omega

theorem mcsFdGet_of_aliases {fd : UInt64} (h : Aliases k fd) :
    mcsFdGet (mcsVfsInitOnce k).vfs (some 0) (toInt fd.toNat) = some (0, fd.toUInt32.toNat) := by
  obtain ⟨hlt, hused⟩ := h
  have hlt' : fd.toUInt32.toNat < 2 ^ 31 := hlt.trans (by decide)
  rw [mcsFdGet, toInt_toNat, if_pos hlt', Int.toNat_natCast]
  rw [if_neg (by omega), if_neg (by rw [Kernel.files] at hused; rw [hused]; decide)]

theorem mcsFdGet_of_not_aliases {fd : UInt64} (h : ¬Aliases k fd) :
    mcsFdGet (mcsVfsInitOnce k).vfs (some 0) (toInt fd.toNat) = none := by
  have hlt : fd.toUInt32.toNat < 2 ^ 32 := fd.toUInt32.toNat_lt
  rw [mcsFdGet, toInt_toNat]
  by_cases hpos : fd.toUInt32.toNat < 2 ^ 31
  · rw [if_pos hpos, Int.toNat_natCast]
    split_ifs with hrange hused
    · rfl
    · rfl
    · exact absurd ⟨by omega, Bool.eq_true_of_not_eq_false hused⟩ h
  · rw [if_neg hpos, if_pos (.inl (by omega))]

/-- **A descriptor is refused exactly if its low 32 bits are not an open descriptor.** In
particular a number outside of the table is refused by `read`, `write`, `close` and `lseek`,
whatever the other arguments and the memory are, unless its low 32 bits are in the table and
open. -/
theorem descriptor_refused_iff (k : Kernel) (fd : UInt64) :
    (∀ w nr a, nr ∈ takesDescriptor → a.arg0 = fd → (mcsosSyscallDispatch k w nr a).Refused k w) ↔
      ¬Aliases k fd := by
  constructor
  · intro hrefused halias
    -- `close` succeeds with every open descriptor
    have hclosed := hrefused ⟨fun _ ↦ 0, 0⟩ 8 ⟨fd, 0, 0, 0, 0, 0⟩ (by decide) rfl
    obtain ⟨c, hret, hneg⟩ := hclosed.negative
    change (sysClose k _ fd).ret = some c at hret
    rw [sysClose, Vfs.mcsVfsClose, mcsFdGet_of_aliases halias] at hret
    obtain rfl : 0 = c := Option.some.inj hret
    exact absurd hneg (by decide)
  · rintro hclosed w nr a hnr rfl
    have hget := mcsFdGet_of_not_aliases hclosed
    simp only [takesDescriptor, List.mem_cons, List.not_mem_nil, or_false] at hnr
    rcases hnr with rfl | rfl | rfl | rfl
    · exact refused_sysRead hget _ _
    · exact refused_sysWrite hget _ _
    · exact refused_sysClose hget
    · exact refused_sysLseek hget _ _

/-- The number `2 ^ 32` closes the descriptor 0, which is the root. -/
theorem descriptor_alias_closed : ∃ es k,
    Run step (fun _ _ ↦ True) (boot Vfs.blank) es k ∧ (k.files.tables 0 0).used = true ∧
      maxOpenFiles ≤ (0x100000000 : UInt64).toNat ∧
      (mcsosSyscallDispatch k oneSlash 8 ⟨0x100000000, 0, 0, 0, 0, 0⟩).ret = some 0 ∧
      ((mcsosSyscallDispatch k oneSlash 8
        ⟨0x100000000, 0, 0, 0, 0, 0⟩).kernel.files.tables 0 0).used = false := by
  have hrun : Run step (fun _ _ ↦ True) (boot Vfs.blank) _ _ :=
    (Run.nil.snoc (Call.setUserRegion smallRegion) trivial).snoc (Call.dispatch oneSlash 5 openBase)
      trivial
  exact ⟨_, _, hrun, by decide +kernel, by decide, by decide +kernel, by decide +kernel⟩

end Syscall

end Mcsos
