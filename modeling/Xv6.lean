import Xv6.Lib.RunLaws
import Xv6.Lib.RingQueue
import Xv6.Param
import Xv6.Semaphore.Kernel
import Xv6.Semaphore.System
import Xv6.Semaphore.Accounts
import Xv6.Semaphore.Queue
import Xv6.Semaphore.Holders
import Xv6.Semaphore.Kill
import Xv6.Lib.WaitOrder
import Xv6.Semaphore.Philosophers
import Xv6.Lib.LockScripts
import Xv6.Spinlock
import Xv6.Lib.RunningBest
import Xv6.Scheduler.Select
import Xv6.Trace
import Xv6.Lib.DiskWrites
import Xv6.Log.Commit
import Xv6.Lib.Tally
import Xv6.Log.Kernel
import Xv6.Log.Group
import Xv6.Log.Admission
import Xv6.Log.Transactions
import Xv6.Pipe.Fifo
import Xv6.Pipe.Sleepers
import Xv6.Lib.LockOwner
import Xv6.SleepWakeup
import Xv6.Process.System
import Xv6.Process.Table
import Xv6.Process.Family
import Xv6.Process.Kill
import Xv6.Bio.Cache
import Xv6.Bio.Transparent
import Xv6.Fs.Disk
import Xv6.Fs.Inode
import Xv6.Fs.Owner
import Xv6.Fs.Content
import Xv6.Fs.Capacity
import Xv6.Fs.Files
import Xv6.Fs.Icache
import Xv6.Ide.Drivers
import Xv6.Ide.Agree
import Xv6.Shell.Parser
import Xv6.Shell.Accepts
import Xv6.Lib.PointerRing
import Xv6.Umalloc.Allocator
import Xv6.Umalloc.Blocks
import Xv6.Umalloc.Malloc
import Xv6.Console.Model
import Xv6.Console.Indices
import Xv6.Console.Editor
import Xv6.Vm.Model
import Xv6.Vm.Owned
import Xv6.Vm.Spaces
import Xv6.Vm.System
import Xv6.Scheduler.Lottery
import Xv6.Scheduler.Bypass
import Xv6.Fs.Directory
import Xv6.Fs.Calls
import Xv6.Fs.Neutral
import Xv6.Fs.Cache
import Xv6.Fs.Budget
import Xv6.Fs.Locked
import Xv6.Fs.Write
import Xv6.Fs.Names
import Xv6.Fs.Lookup
import Xv6.Fs.Trunc
import Xv6.Fs.Entries
import Xv6.Fs.Components
import Xv6.Fs.Tree
import Xv6.Fs.Paths
import Xv6.PrimeFactor
import Xv6.Scheduler.Aging
import Xv6.Scheduler.Ranks
import Xv6.Scheduler.Random
import Xv6.Vm.Grow
import Xv6.Vm.Private
import Xv6.Vm.Copyout
import Xv6.Scheduler.Residues
import Xv6.Fs.Supply
import Xv6.Fs.Resize
import Xv6.Grep.Lines
import Xv6.Console.Digits
import Xv6.Console.Reverse
import Xv6.Console.History
import Xv6.Shell.Terminated
import Xv6.Umalloc.Sbrk
import Xv6.Vm.Exec
import Xv6.Vm.Arguments
import Xv6.Fs.ChangeSize
import Xv6.KernelString
import Xv6.SleepLock
import Xv6.Vm.Dealloc
import Xv6.Fs.Transaction
import Xv6.Fs.Exits
import Xv6.Vm.Syscall
