import Xv6.Pipe.Fifo
import Xv6.Pipe.LazyWakeup
import Xv6.Pipe.Kill
import Xv6.Pipe.FailedRead
import Xv6.Pipe.ShortWrite
import Xv6.Console.Line
import Xv6.Proc.RoundRobin
import Xv6.Proc.Machine
import Xv6.Proc.Safe
import Xv6.Proc.Views
import Xv6.Proc.Handover
import Xv6.Proc.LostWakeup
import Xv6.Proc.FreeSlots
import Xv6.Proc.ExitWait
import Xv6.Proc.Priority
import Xv6.Ftable.Lifetime
import Xv6.Ftable.SysPipe
import Xv6.Log.Buffers
import Xv6.Log.Atomic
import Xv6.Bio.Order
import Xv6.Virtio.Requests
import Xv6.Itable.LastRef
import Xv6.Names.DirMap
import Xv6.Names.Lookups
import Xv6.Intr.Nesting
import Xv6.Names.Failed
import Xv6.Mkfs.Lookup
import Xv6.Vm.Fault
import Xv6.Files.Reclaim
import Xv6.Names.Parse
import Xv6.Ram.Memmove
import Xv6.Ram.Kalloc
import Xv6.Console.Printint
import Xv6.Pipe.Chunks
import Xv6.Vm.Lookup
import Xv6.Vm.CopyInStr
import Xv6.Vm.Isolated
import Xv6.Vm.Kernel
import Xv6.Trap.Safe
import Xv6.Trap.Registers
import Xv6.Pipe.Settle
import Xv6.Uart.Settle
import Xv6.Sync.Sleeplock
import Xv6.Sync.Ticks
