import HorizonOS.Drivers.KeyboardRace
import HorizonOS.Drivers.Ac97
import HorizonOS.Mm.HeapRace
import HorizonOS.Mm.Region
import HorizonOS.Paging.Tlb
import HorizonOS.Proc.Table
import HorizonOS.Switch.CloneWalk
import HorizonOS.Paging.Contract
import HorizonOS.Sched.Fairness
import HorizonOS.Drivers.Shift
import HorizonOS.Uacpi.Clock
import HorizonOS.Acpi.Rsdp
import HorizonOS.I386.Identity
import HorizonOS.Drivers.Backspace
import HorizonOS.Kernel.FormatScan
import HorizonOS.I386.Hush
import HorizonOS.I386.MazeSolve
import HorizonOS.Drivers.Pci
import HorizonOS.Games.Pong
import HorizonOS.Kernel.Hex
import HorizonOS.Libc.UnionFind
import HorizonOS.Libc.Vector
import HorizonOS.Libc.CountingSort
import HorizonOS.Libc.MergeBubble
import HorizonOS.Libc.HeapQueue
import HorizonOS.Libc.RbInsert
import HorizonOS.I386.Rand
import HorizonOS.Libc.BinarySearch
import HorizonOS.Libc.Bst
import HorizonOS.Interrupt.Preempt
import HorizonOS.Interrupt.Routing
import HorizonOS.Kernel.Shell
import HorizonOS.Sched.Smp
