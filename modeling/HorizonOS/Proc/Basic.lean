import HorizonOS.Lib.Memory

/-!
# Processes: shared vocabulary

The data types of `kernel/scheduler/process.h` and `asm/mm.h` that the models
of the process, switching and scheduling code share.

* A pointer into the table `processes[NUM_PROCESSES]` is its index, a
  `ProcId`; a pointer that may be `NULL` is an `Option ProcId`.
* The list `addrspace.vm_list` is a `List VmRegion`, head first.
* The links `sched` of a process are not part of its record: they are kept with
  the queues they thread (see the scheduler).
* `context` is reduced to `sp`; the other fields of `struct context` and
  `addrspace.page_table_base` are read by no function.
-/

namespace HorizonOS.Proc

open HorizonOS.Lib

/-- `NUM_PROCESSES` (process.h:9). -/
abbrev numProcesses : ℕ := 10

/-- A pointer into the process table. -/
abbrev ProcId := Fin numProcesses

/-- `PAGE_SIZE` (x86_64/memory/paging.h:28). -/
abbrev pageSize : ℕ := 4096

/-- `KSTACK_PAGES` (process.h:26). -/
abbrev kstackPages : ℕ := 32

/-- `KSTACK_SIZE` (process.h:27): the stack and its guard page. -/
abbrev kstackSize : ℕ := (kstackPages + 1) * pageSize

/-- `enum process_state` (process.h:32–41). -/
inductive ProcessState
  | unused
  | ready
  | running
  | sleeping
  | zombie
deriving DecidableEq, Repr

/-- `enum vm_type` (asm/mm.h:8–11). -/
inductive VmType
  | stack
  | heap
deriving DecidableEq, Repr

/-- `struct vm_region` (asm/mm.h:29–36); `stop` is the field `end`. -/
structure VmRegion where
  flags : Word
  type : VmType
  start : Addr
  stop : Addr
deriving DecidableEq, Repr

/-- An entry point handed to `alloc_process`: the two functions the kernel
    passes, or any other. -/
inductive Entry
  | init
  | scheduler
  | proc (n : ℕ)
deriving DecidableEq, Repr

/-- `struct process` (process.h:76–92). A zeroed record is `default`. -/
structure Process where
  pid : BitVec 8 := 0
  name : List Byte := List.replicate 32 0
  parent : Option ProcId := none
  vmList : List VmRegion := []
  state : ProcessState := .unused
  pml4Addr : Word := 0
  sp : Addr := 0
  entry : Option Entry := none
deriving Inhabited

/-- `find_stack(p)` (process.c:397–407); `none` is its panic. -/
def findStack (p : Process) : Option VmRegion := p.vmList.find? fun r => r.type = .stack

end HorizonOS.Proc
