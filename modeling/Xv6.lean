import Xv6.Lib.Transition
import Xv6.Lib.Shares
import Xv6.Lib.Refinement
import Xv6.Lib.Ring
import Xv6.Process.Table
import Xv6.Process.Priority
import Xv6.Process.Spinlock
import Xv6.Process.SetPriority
import Xv6.Process.PriorityEffect
import Xv6.Process.Scheduler
import Xv6.Process.Rules
import Xv6.Process.Changes
import Xv6.Process.Exclusion
import Xv6.Process.Dispatch
import Xv6.Process.Kill
import Xv6.Process.Range
import Xv6.Process.Interactivity
import Xv6.Process.Clock
import Xv6.Process.Selection
import Xv6.Process.TieBreak
import Xv6.Process.Locks
import Xv6.Process.Sleep
import Xv6.Process.SleepLock
import Xv6.Process.Wakeups
import Xv6.Process.Parents
import Xv6.Process.Wait
import Xv6.Process.Reports
import Xv6.Pipes.Model
import Xv6.Pipes.Fifo
import Xv6.Log.Model
import Xv6.Log.Invariant
import Xv6.Log.Preservation
import Xv6.Log.Commit
import Xv6.Log.Recovery
import Xv6.Log.Admission
import Xv6.Log.Cached
import Xv6.Memory.Kalloc
import Xv6.Memory.PageTable
import Xv6.Memory.Mapping
import Xv6.Memory.UserMemory
import Xv6.Memory.Footprint
import Xv6.Memory.Sharing
import Xv6.Memory.Pipe
import Xv6.Memory.Exec
import Xv6.Memory.ExecFile
import Xv6.Memory.Kernel
import Xv6.Memory.Outcomes
import Xv6.Memory.Ownership
import Xv6.Memory.Steps
import Xv6.Memory.Boot
import Xv6.Memory.ForkFailure
import Xv6.Memory.Exclusive
import Xv6.Memory.Eager
import Xv6.Memory.View
import Xv6.Memory.CopyOnWrite
import Xv6.Memory.Accounting
import Xv6.Memory.Isolation
import Xv6.Memory.FailedWait
import Xv6.Memory.Protection
import Xv6.Memory.Copies
import Xv6.Memory.Writes
import Xv6.Memory.Sbrk
import Xv6.Lib.CString
import Xv6.Memory.Strings
import Xv6.Memory.ExecArgs
import Xv6.Memory.Words
import Xv6.Memory.Sv39
import Xv6.Lib.Program
import Xv6.Lib.Buffer
import Xv6.Lib.Ownership
import Xv6.FileSystem.Disk
import Xv6.FileSystem.Dirent
import Xv6.FileSystem.Mkfs
import Xv6.FileSystem.Image
import Xv6.FileSystem.Volume
import Xv6.FileSystem.Inode
import Xv6.FileSystem.Bmap
import Xv6.FileSystem.Itrunc
import Xv6.FileSystem.Content
import Xv6.FileSystem.Files
import Xv6.FileSystem.UserWrite
import Xv6.Names.Model
import Xv6.Names.Inodes
import Xv6.Names.Directory
import Xv6.Names.NameMap
import Xv6.Names.Nodes
import Xv6.Names.Resolve
import Xv6.Names.Paths
import Xv6.Names.Namex
import Xv6.Names.Creation
import Xv6.Names.Linking
import Xv6.Names.Operations
import Xv6.Names.Lookups
import Xv6.Parlor.Model
import Xv6.Parlor.Machines
import Xv6.Parlor.Acceptance
import Xv6.Parlor.Exclusion
import Xv6.Lib.Circle
import Xv6.Umalloc.Model
import Xv6.Umalloc.Tiling
import Xv6.Umalloc.Free
import Xv6.Umalloc.Malloc
import Xv6.Umalloc.Runs
import Xv6.Console.Model
import Xv6.Console.Lines
import Xv6.Virtio.Model
import Xv6.Virtio.Descriptors
import Xv6.Virtio.Requests
import Xv6.Virtio.Protocol
import Xv6.Virtio.Runs
import Xv6.Cache.Model
import Xv6.Cache.List
import Xv6.Cache.Runs
import Xv6.Parlor.Capacity
import Xv6.Cafe.Model
import Xv6.Cafe.Threads
import Xv6.Cafe.Totals
import Xv6.Parlor.Checks
