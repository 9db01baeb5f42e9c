import Mcsos.Base.Atomic
import Mcsos.Base.Bitmap
import Mcsos.Base.Bounded
import Mcsos.Base.Bytes
import Mcsos.Base.CString
import Mcsos.Base.Checked
import Mcsos.Base.Fairness
import Mcsos.Base.Fallible
import Mcsos.Base.FaultyDisk
import Mcsos.Base.LinkedQueue
import Mcsos.Base.Machine
import Mcsos.Base.Numeral
import Mcsos.Base.Reads
import Mcsos.Base.RedoLog
import Mcsos.Base.Search
import Mcsos.Base.Stack
import Mcsos.Base.TableTree
import Mcsos.Base.Tiling
import Mcsos.Base.WaitGraph
import Mcsos.Block.Array
import Mcsos.Block.Cache
import Mcsos.Block.Layer
import Mcsos.Block.Ramdisk
import Mcsos.Block.Registry
import Mcsos.Block.Transparency
import Mcsos.Console.Text
import Mcsos.Elf.Format
import Mcsos.Elf.InPlace
import Mcsos.Elf.Loader
import Mcsos.Kmem.Blocks
import Mcsos.Kmem.CheckedFree
import Mcsos.Kmem.Coalescing
import Mcsos.Kmem.Heap
import Mcsos.Kmem.Operations
import Mcsos.Kmem.Safety
import Mcsos.Kmem.Statistics
import Mcsos.Kmem.Words
import Mcsos.Lib.Memory
import Mcsos.Mcsfs1.Access
import Mcsos.Mcsfs1.Accounting
import Mcsos.Mcsfs1.Consistency
import Mcsos.Mcsfs1.Directory
import Mcsos.Mcsfs1.Duplicates
import Mcsos.Mcsfs1.FailedCalls
import Mcsos.Mcsfs1.Faults
import Mcsos.Mcsfs1.FileMap
import Mcsos.Mcsfs1.FileSystem
import Mcsos.Mcsfs1.Fsck
import Mcsos.Mcsfs1.Images
import Mcsos.Mcsfs1.Layout
import Mcsos.Mcsfs1.LongNames
import Mcsos.Mcsfs1.Names
import Mcsos.Mcsfs1.Operations
import Mcsos.Mcsfs1.Untrusted
import Mcsos.Mcsfs1.Volume
import Mcsos.Mcsfs1.Write
import Mcsos.Mcsfs1j.Consistency
import Mcsos.Mcsfs1j.CrashAtomicity
import Mcsos.Mcsfs1j.Damage
import Mcsos.Mcsfs1j.DamagedInode
import Mcsos.Mcsfs1j.Device
import Mcsos.Mcsfs1j.Durability
import Mcsos.Mcsfs1j.FailClosed
import Mcsos.Mcsfs1j.FileSystem
import Mcsos.Mcsfs1j.Format
import Mcsos.Mcsfs1j.Journal
import Mcsos.Mcsfs1j.Layout
import Mcsos.Mcsfs1j.Recovery
import Mcsos.Mcsfs1j.SmallDevice
import Mcsos.Mcsfs1j.SpaceLoss
import Mcsos.Pmm.Allocator
import Mcsos.Pmm.BootMap
import Mcsos.Pmm.FreeSet
import Mcsos.Pmm.Reserved
import Mcsos.Sync.Completion
import Mcsos.Sync.Counter
import Mcsos.Sync.Linearization
import Mcsos.Sync.LockOrder
import Mcsos.Sync.LockStack
import Mcsos.Sync.Lockdep
import Mcsos.Sync.Mutex
import Mcsos.Sync.Spinlock
import Mcsos.Syscall.Confinement
import Mcsos.Syscall.Descriptors
import Mcsos.Syscall.Dispatch
import Mcsos.Syscall.Entry
import Mcsos.Syscall.UserMemory
import Mcsos.Thread.Context
import Mcsos.Thread.Fifo
import Mcsos.Thread.Limits
import Mcsos.Thread.RoundRobin
import Mcsos.Thread.RunQueue
import Mcsos.Thread.Scheduler
import Mcsos.Thread.SelfCheck
import Mcsos.Thread.Stacks
import Mcsos.Thread.Start
import Mcsos.Trap.Controllers
import Mcsos.Trap.Devices
import Mcsos.Trap.Dispatch
import Mcsos.Trap.Entry
import Mcsos.Trap.Exceptions
import Mcsos.Trap.Gates
import Mcsos.Trap.Interrupt
import Mcsos.Trap.Runs
import Mcsos.Vfs.Answers
import Mcsos.Vfs.Append
import Mcsos.Vfs.Fd
import Mcsos.Vfs.Isolation
import Mcsos.Vfs.Locality
import Mcsos.Vfs.Paths
import Mcsos.Vfs.Ramfs
import Mcsos.Vfs.Resolution
import Mcsos.Vfs.Truncate
import Mcsos.Vfs.Twin
import Mcsos.Vmm.Frames
import Mcsos.Vmm.Kernel
import Mcsos.Vmm.PageMap
import Mcsos.Vmm.PageTable
import Mcsos.Vmm.Permissions
import Mcsos.Vmm.Refinement
import Mcsos.Vmm.RoundTrip
