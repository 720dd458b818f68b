import Xv6Labs.Lib.Ring
import Xv6Labs.Lib.Chain
import Xv6Labs.Lib.History
import Xv6Labs.Lib.Threads
import Xv6Labs.Lib.Terms
import Xv6Labs.Lib.Machine
import Xv6Labs.Param
import Xv6Labs.Bio.Cache
import Xv6Labs.Bio.Hashed
import Xv6Labs.Bio.HashedInv
import Xv6Labs.Bio.HashedRun
import Xv6Labs.Bio.HashedConsistent
import Xv6Labs.Bio.HashedLocks
import Xv6Labs.Bio.HashedFull
import Xv6Labs.Bio.Calls
import Xv6Labs.Bio.Variants
import Xv6Labs.Bio.Refine
import Xv6Labs.Kalloc.PerCpu
import Xv6Labs.Kalloc.PerCpuInv
import Xv6Labs.Kalloc.PerCpuRun
import Xv6Labs.Kalloc.PerCpuFail
import Xv6Labs.Log.Reserve
import Xv6Labs.Log.Code
import Xv6Labs.Log.Recover
import Xv6Labs.Log.References
import Xv6Labs.Log.Durable
import Xv6Labs.Log.Rules
import Xv6Labs.Log.Stage
import Xv6Labs.Log.Commit
import Xv6Labs.Log.Crash
import Xv6Labs.Log.Atomic
import Xv6Labs.Log.Counts
import Xv6Labs.Log.Pins
import Xv6Labs.Log.Capacity
import Xv6Labs.Fs.Bytes
import Xv6Labs.Log.Copies
import Xv6Labs.Fs.Layout
import Xv6Labs.Fs.State
import Xv6Labs.Fs.Code
import Xv6Labs.Fs.Calls
import Xv6Labs.Fs.Refs
import Xv6Labs.Fs.RefRules
import Xv6Labs.Fs.FileRules
import Xv6Labs.Fs.PipeRules
import Xv6Labs.Fs.ProcRules
import Xv6Labs.Fs.RefCode
import Xv6Labs.Fs.RefCalls
import Xv6Labs.Fs.Lifetimes
import Xv6Labs.Proc.State
import Xv6Labs.Proc.Code
import Xv6Labs.Proc.Inv
import Xv6Labs.Proc.Tree
import Xv6Labs.Proc.Rules
import Xv6Labs.Proc.Sleeping
import Xv6Labs.Proc.Calls
import Xv6Labs.Proc.Run
import Xv6Labs.Proc.Family
import Xv6Labs.Proc.Steps
import Xv6Labs.Proc.Reaping
import Xv6Labs.Proc.Order
import Xv6Labs.Lib.Layers
import Xv6Labs.Proc.Satp
import Xv6Labs.Proc.InUse
import Xv6Labs.Proc.Kill
import Xv6Labs.Proc.Trace
import Xv6Labs.Sh.Parse
import Xv6Labs.Sh.Grammar
import Xv6Labs.Sh.Lex
import Xv6Labs.Sh.Steps
import Xv6Labs.Sh.Correct
import Xv6Labs.Sh.Strings
import Xv6Labs.Lib.Circle
import Xv6Labs.Lib.Tiles
import Xv6Labs.Umalloc.Code
import Xv6Labs.Umalloc.Inv
import Xv6Labs.Umalloc.Free
import Xv6Labs.Umalloc.Malloc
import Xv6Labs.Umalloc.Runs
import Xv6Labs.Monitor.State
import Xv6Labs.Monitor.Rules
import Xv6Labs.Monitor.Locks
import Xv6Labs.Monitor.Sleep
import Xv6Labs.Monitor.Run
import Xv6Labs.Pipe.Code
import Xv6Labs.Pipe.Inv
import Xv6Labs.Pipe.Calls
import Xv6Labs.Pipe.Fifo
import Xv6Labs.Lib.Radix
import Xv6Labs.Lib.Faults
import Xv6Labs.Vm.Memory
import Xv6Labs.Vm.Code
import Xv6Labs.Vm.Table
import Xv6Labs.Vm.Walk
import Xv6Labs.Vm.Map
import Xv6Labs.Vm.Unmap
import Xv6Labs.Vm.Alloc
import Xv6Labs.Vm.Copy
import Xv6Labs.Vm.Share
import Xv6Labs.Vm.User
import Xv6Labs.Vm.CopyStr
import Xv6Labs.Vm.Grow
import Xv6Labs.Vm.Free
import Xv6Labs.Vm.Create
import Xv6Labs.Vm.Build
import Xv6Labs.Vm.Exec
import Xv6Labs.Vm.Loading
import Xv6Labs.Vm.Room
import Xv6Labs.Vm.Arguments
import Xv6Labs.Vm.Program
import Xv6Labs.Kalloc.Sysinfo
import Xv6Labs.Kalloc.SysinfoInv
import Xv6Labs.Kalloc.SysinfoCount
import Xv6Labs.Lib.Among
import Xv6Labs.Pipe.Faults
import Xv6Labs.Lib.Window
import Xv6Labs.Monitor.Robust
import Xv6Labs.Uart.Code
import Xv6Labs.Uart.Output
import Xv6Labs.Console.Editor
import Xv6Labs.Console.Code
import Xv6Labs.Console.Ring
import Xv6Labs.Console.Discipline
import Xv6Labs.Fs.Read
import Xv6Labs.Grep.Match
import Xv6Labs.User.Ulib
import Xv6Labs.Grep.Lines
import Xv6Labs.Xargs.Code
import Xv6Labs.Xargs.Bounds
import Xv6Labs.Xargs.Words
import Xv6Labs.Lib.Numerals
import Xv6Labs.Vm.Print
import Xv6Labs.Umalloc.Sizes
import Xv6Labs.Find.Tree
import Xv6Labs.Find.Code
import Xv6Labs.Find.Bounds
import Xv6Labs.Find.Report
import Xv6Labs.Lib.Recency
import Xv6Labs.Bio.HashedRecent
import Xv6Labs.Lib.Sieve
import Xv6Labs.Primes.Code
import Xv6Labs.Primes.Chain
import Xv6Labs.Primes.Correct
import Xv6Labs.User.Memmove
import Xv6Labs.User.Printf
import Xv6Labs.Intr.Code
import Xv6Labs.Intr.Inv
import Xv6Labs.Intr.Steps
import Xv6Labs.Intr.Nesting
import Xv6Labs.Proc.Sleeplock
import Xv6Labs.Virtio.Code
import Xv6Labs.Virtio.Inv
import Xv6Labs.Virtio.Lasting
import Xv6Labs.Virtio.Calls
import Xv6Labs.Virtio.Protocol
import Xv6Labs.Vm.Regions
import Xv6Labs.Vm.Kernel
import Xv6Labs.Vm.KernelTable
import Xv6Labs.Vm.Trades
import Xv6Labs.Vm.Slot
import Xv6Labs.Vm.SlotCalls
import Xv6Labs.Vm.Machine
import Xv6Labs.Vm.System
