import Mcsos.Console.Text
import Mcsos.Vfs.Fd

/-!
# The system calls

`syscall.c`: the dispatcher, the check of user ranges and the ten handlers. A pointer of the caller
is a 64-bit number, and `memory` is what the caller finds behind each address; the address of the
`i`-th byte behind a pointer wraps at `2 ^ 64` (`addr`).

A handler gives, beside the value that it returns, the addresses that the kernel read or wrote
through a pointer of the caller. The callbacks of `mcsos_syscall_ops_t` are parameters. The kernel
has one file system and one table, both at address 0 of the model in `Vfs`.
-/

namespace Mcsos

namespace Syscall

open Vfs (Err toInt toLong)

/-! ## User memory -/

/-- `mcsos_user_region_t` -/
structure UserRegion where
  base : UInt64
  limit : UInt64
  deriving DecidableEq

/-- The memory behind all addresses. -/
abbrev Memory := UInt64 → UInt8

/-- The address of the byte `i` behind a pointer. -/
def addr (ptr : UInt64) (i : ℕ) : UInt64 := ptr + UInt64.ofNat i

/-- The bytes behind a pointer. -/
def Memory.view (memory : Memory) (ptr : UInt64) : Mem := fun i ↦ memory (addr ptr i)

/-- The memory after the bytes `bs` were copied to a pointer, from its byte `i` on. -/
def Memory.copyOut (memory : Memory) (ptr : UInt64) : ℕ → List UInt8 → Memory
  | _, [] => memory
  | i, b :: bs => Memory.copyOut (Function.update memory (addr ptr i) b) ptr (i + 1) bs

def mcsosUserCheckRange (region : UserRegion) (ptr len : UInt64) : Bool :=
  if len = 0 then true
  else if region.base = 0 ∨ region.limit ≤ region.base then false
  else if ptr < region.base then false
  else if ptr > region.limit then false
  else
    let last := ptr + len - 1
    if last < ptr then false
    else if last ≥ region.limit then false
    else true

/-! ## Kernel state -/

/-- A `write_serial` callback: from the bytes behind the pointer and the length, the value that it
returns, the indices that it reads and the bytes that it sends. It reads no byte beyond the
length. -/
structure SerialFn where
  run : Mem → ℕ → ℤ × List ℕ × List UInt8
  lt_of_mem : ∀ buf len i, i ∈ (run buf len).2.1 → i < len

def defaultWriteSerial : SerialFn where
  run _ len := (len, [], [])
  lt_of_mem _ _ _ hi := absurd hi List.not_mem_nil

def kWriteSerial : SerialFn where
  run buf len := (len, List.range len, Console.kWriteSerial buf len)
  lt_of_mem _ _ _ hi := List.mem_range.mp hi

/-- `mcsos_syscall_ops_t`; a callback is `none` or `false` for `NULL`. The callback `exit_current`
may not return. -/
structure Ops where
  getTicks : Bool
  yieldCurrent : Bool
  exitCurrent : Option Bool
  writeSerial : Option SerialFn

/-- The variables of `syscall.c`. -/
structure Kernel where
  region : UserRegion
  ops : Ops
  vfsInitialized : Bool
  vfs : Vfs.State

/-- What a call finds: the memory, and the ticks that `get_ticks` returns. -/
structure World where
  memory : Memory
  ticks : UInt64

/-- What a call does: the value returned, or `none` if it does not return, the addresses touched
through pointers of the caller, the bytes sent, the memory and the kernel after it. -/
structure Result where
  ret : Option ℤ
  touched : List UInt64
  sent : List UInt8
  memory : Memory
  kernel : Kernel

/-- The variables before any call, with the file system and the table not initialised. -/
def boot (vfs : Vfs.State) : Kernel :=
  ⟨⟨0, 0⟩, ⟨false, false, none, none⟩, false, vfs⟩

def mcsosSyscallInit (k : Kernel) (ops : Option Ops) : Kernel :=
  { k with ops := {
      getTicks := (ops.map Ops.getTicks).getD false
      yieldCurrent := (ops.map Ops.yieldCurrent).getD false
      exitCurrent := ops.bind Ops.exitCurrent
      writeSerial := some ((ops.bind Ops.writeSerial).getD defaultWriteSerial) } }

def mcsosSyscallSetUserRegion (k : Kernel) (region : UserRegion) : Kernel :=
  { k with region := region }

def mcsVfsInitOnce (k : Kernel) : Kernel :=
  if k.vfsInitialized = false then { k with vfsInitialized := true, vfs := k.vfs.init } else k

/-! ## Return values -/

def mcsosOk : ℤ := 0
def mcsosEfault : ℤ := -14
def mcsosEbusy : ℤ := -16
def mcsosEinval : ℤ := -22
def mcsosEnosys : ℤ := -38

/-- The values of `mcs_vfs_status_t`. -/
def code : Err → ℤ
  | .noent => -2
  | .badf => -9
  | .acces => -13
  | .notdir => -20
  | .isdir => -21
  | .inval => -22
  | .nfile => -23
  | .nospc => -28
  | .nametoolong => -36

/-- The value that a call of the VFS returns. -/
def retValue {α : Type} (value : α → ℤ) : Except Err α → ℤ
  | .ok a => value a
  | .error e => code e

/-- A call that touches nothing. -/
def Kernel.answer (k : Kernel) (w : World) (ret : ℤ) : Result := ⟨some ret, [], [], w.memory, k⟩

/-! ## Handlers -/

def sysPing (k : Kernel) (w : World) : Result := k.answer w 0x2605020A

def sysGetTicks (k : Kernel) (w : World) : Result :=
  if k.ops.getTicks = false then k.answer w mcsosEbusy
  else k.answer w (toLong w.ticks.toNat)

/-- `sys_write_serial`; a call through `NULL` does not return. -/
def sysWriteSerial (k : Kernel) (w : World) (ptr len : UInt64) : Result :=
  if ptr = 0 then k.answer w mcsosEinval
  else if len > 4096 then k.answer w mcsosEinval
  else if mcsosUserCheckRange k.region ptr len = false then k.answer w mcsosEfault
  else
    match k.ops.writeSerial with
    | none => ⟨none, [], [], w.memory, k⟩
    | some serial =>
      let r := serial.run (w.memory.view ptr) len.toNat
      ⟨some r.1, r.2.1.map (addr ptr), r.2.2, w.memory, k⟩

def sysYield (k : Kernel) (w : World) : Result :=
  if k.ops.yieldCurrent = false then k.answer w mcsosEbusy else k.answer w mcsosOk

def sysExitThread (k : Kernel) (w : World) : Result :=
  match k.ops.exitCurrent with
  | none => k.answer w mcsosEbusy
  | some returns => ⟨if returns = true then some mcsosOk else none, [], [], w.memory, k⟩

/-- `sys_open` after its checks. -/
def openPath (k : Kernel) (w : World) (pathPtr flags : UInt64) : Result :=
  let r := Vfs.mcsVfsOpen k.vfs 0 0 flags.toUInt32 (w.memory.view pathPtr)
  ⟨r.1.map fun o ↦ retValue (fun fd : ℕ ↦ (fd : ℤ)) o.ret, r.2.map (addr pathPtr), [], w.memory,
    { k with vfs := (r.1.map Vfs.Outcome.state).getD k.vfs }⟩

def sysOpen (k : Kernel) (w : World) (pathPtr flags : UInt64) : Result :=
  if pathPtr = 0 then k.answer w mcsosEinval
  else if mcsosUserCheckRange k.region pathPtr (UInt64.ofNat Vfs.maxPath) = false then
    k.answer w mcsosEfault
  else
    openPath (mcsVfsInitOnce k) w pathPtr
      (if flags = 0 then UInt64.ofNat Vfs.oRdonly.toNat else flags)

/-- The bytes that `mcs_vfs_read` copied. -/
def readBytes (o : Vfs.Outcome (List UInt8)) : List UInt8 :=
  match o.ret with
  | .ok bs => bs
  | .error _ => []

def sysRead (k : Kernel) (w : World) (fd bufPtr len : UInt64) : Result :=
  if bufPtr = 0 ∧ len ≠ 0 then k.answer w mcsosEinval
  else if len > 0 ∧ mcsosUserCheckRange k.region bufPtr len = false then k.answer w mcsosEfault
  else
    let k := mcsVfsInitOnce k
    let o := Vfs.mcsVfsRead k.vfs (some 0) (toInt fd.toNat) (decide (bufPtr ≠ 0)) len.toNat
    ⟨some (retValue (fun bs ↦ (bs.length : ℤ)) o.ret),
      (List.range (readBytes o).length).map (addr bufPtr), [],
      w.memory.copyOut bufPtr 0 (readBytes o), { k with vfs := o.state }⟩

/-- The number of bytes that `mcs_vfs_write` copied. -/
def bytesCopied (o : Vfs.Outcome ℕ) : ℕ :=
  match o.effect with
  | .wrote _ _ _ _ n => n
  | _ => 0

def sysWrite (k : Kernel) (w : World) (fd bufPtr len : UInt64) : Result :=
  if bufPtr = 0 ∧ len ≠ 0 then k.answer w mcsosEinval
  else if len > 0 ∧ mcsosUserCheckRange k.region bufPtr len = false then k.answer w mcsosEfault
  else
    let k := mcsVfsInitOnce k
    let buf := if bufPtr = 0 then none else some (w.memory.view bufPtr)
    let o := Vfs.mcsVfsWrite k.vfs (some 0) (toInt fd.toNat) buf len.toNat
    ⟨some (retValue (fun n : ℕ ↦ (n : ℤ)) o.ret),
      (List.range (bytesCopied o)).map (addr bufPtr), [], w.memory, { k with vfs := o.state }⟩

def sysClose (k : Kernel) (w : World) (fd : UInt64) : Result :=
  let k := mcsVfsInitOnce k
  let o := Vfs.mcsVfsClose k.vfs (some 0) (toInt fd.toNat)
  { k with vfs := o.state }.answer w (retValue (fun _ ↦ mcsosOk) o.ret)

def sysLseek (k : Kernel) (w : World) (fd offset whence : UInt64) : Result :=
  let k := mcsVfsInitOnce k
  let o := Vfs.mcsVfsLseek k.vfs (some 0) (toInt fd.toNat) (toLong offset.toNat)
    (toInt whence.toNat)
  { k with vfs := o.state }.answer w (retValue id o.ret)

/-! ## The dispatcher -/

structure Args where
  arg0 : UInt64
  arg1 : UInt64
  arg2 : UInt64
  arg3 : UInt64
  arg4 : UInt64
  arg5 : UInt64

/-- `mcsos_syscall_dispatch`, with `g_table`. -/
def mcsosSyscallDispatch (k : Kernel) (w : World) (nr : UInt64) (a : Args) : Result :=
  match nr.toNat with
  | 0 => sysPing k w
  | 1 => sysGetTicks k w
  | 2 => sysWriteSerial k w a.arg0 a.arg1
  | 3 => sysYield k w
  | 4 => sysExitThread k w
  | 5 => sysOpen k w a.arg0 a.arg1
  | 6 => sysRead k w a.arg0 a.arg1 a.arg2
  | 7 => sysWrite k w a.arg0 a.arg1 a.arg2
  | 8 => sysClose k w a.arg0
  | 9 => sysLseek k w a.arg0 a.arg1 a.arg2
  | _ => k.answer w mcsosEnosys

/-- The calls of the interface. Each system call finds its own memory. -/
inductive Call where
  | init (ops : Option Ops)
  | setUserRegion (region : UserRegion)
  | dispatch (w : World) (nr : UInt64) (a : Args)

def step : Call → Kernel → Option ℤ × Kernel
  | .init ops, k => (some 0, mcsosSyscallInit k ops)
  | .setUserRegion region, k => (some 0, mcsosSyscallSetUserRegion k region)
  | .dispatch w nr a, k =>
    ((mcsosSyscallDispatch k w nr a).ret, (mcsosSyscallDispatch k w nr a).kernel)

end Syscall

end Mcsos
