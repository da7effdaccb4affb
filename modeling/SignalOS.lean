import SignalOS.Lib.Runs
import SignalOS.Lib.Rv64
import SignalOS.Lib.LittleEndian
import SignalOS.Lib.BitSet
import SignalOS.Signal.Sigreturn
import SignalOS.Signal.Scan
import SignalOS.Signal.Nesting
import SignalOS.Kernel.ReturnValue
import SignalOS.Kernel.Disposition
import SignalOS.Kernel.Kill
import SignalOS.Kernel.StopCont
import SignalOS.Kernel.RunQueue
import SignalOS.Kernel.Tree
import SignalOS.Kernel.Wait
import SignalOS.Kernel.Sleepers
import SignalOS.Kernel.Init
import SignalOS.Kernel.Announce
import SignalOS.Kernel.Inherit
import SignalOS.Signal.Arguments
import SignalOS.Kernel.WriteProtect
import SignalOS.Kernel.Fork
import SignalOS.Vm.Heap
import SignalOS.Vm.Create
import SignalOS.Vm.MapFailure
import SignalOS.Kernel.Collect
import SignalOS.Kernel.ExecArgs
import SignalOS.Proc.LoadElf
import SignalOS.Kernel.Queue
import SignalOS.Kernel.Lookup
import SignalOS.Kernel.SleepTime
import SignalOS.Kernel.ConsoleRead
import SignalOS.User.Printf
import SignalOS.Sync.PushOff
import SignalOS.Scripts.Sv39
import SignalOS.User.Shell
import SignalOS.Vm.PageWalk
import SignalOS.Kernel.Sbrk
import SignalOS.Kernel.NoMemory
import SignalOS.Lib.Links
import SignalOS.Vm.Kalloc
import SignalOS.Vm.Pools
import SignalOS.User.Blocks
import SignalOS.User.Carve
import SignalOS.User.HeapRuns
import SignalOS.Lib.LockTable
import SignalOS.Sync.NoLostWakeup
import SignalOS.Lib.RadixTree
import SignalOS.Machine.Mmu
import SignalOS.Vm.Boot
import SignalOS.Vm.Booted
import SignalOS.Vm.Guards
import SignalOS.Trap.Trampoline
import SignalOS.Trap.Spaces
