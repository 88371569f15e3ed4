import HorizonOS.Proc.Stack
import HorizonOS.Sched.Mlfq
import HorizonOS.Switch.Swtch

/-!
# The process table

`alloc_process`, `alloc_process_no_entry`, `fork` and `exit_process` of
`kernel/scheduler/process.c`, over the table, `__glbl_pid`, the queues, the heap and the interrupt
flag. Interrupts play no part here: each call is one step, made by any process of the table.

* `TableInv.step`: every call keeps the claimed slots a prefix of the table, numbered by their pids.
* `fork_of_full`: a fork on a full table changes nothing.
* `fork_of_free`: a fork on any other table returns the old `__glbl_pid`.
* `process_table`: the table and the pids that `fork` has returned, over whole runs.
-/

namespace HorizonOS.Proc

open HorizonOS.Lib HorizonOS.Lib.Radix HorizonOS.Libc HorizonOS.Mm HorizonOS.Paging HorizonOS.Sched
open HorizonOS.Switch

/-! ## Model -/

/-- What the calls read and write. `task` is `cpus[0].task`, `none` while it is not a process of
    the table. -/
structure Kernel where
  procs : ProcId → Process
  glblPid : BitVec 8
  mlfq : Mlfq
  mm : MmState
  irq : Bool
  task : Option ProcId

namespace Kernel

/-- `irq_save()` (irqflags.c:18–23). -/
def irqSave (k : Kernel) : Bool × Kernel := (k.irq, { k with irq := false })

/-- `irq_restore(flags)` (irqflags.c:25–29). -/
def irqRestore (k : Kernel) (flags : Bool) : Kernel := if flags then { k with irq := true } else k

def setProc (k : Kernel) (p : ProcId) (rec : Process) : Kernel :=
  { k with procs := Function.update k.procs p rec }

end Kernel

/-- The search for an `UNUSED` slot (process.c:317–322 and 359–365). -/
def findUnused (procs : ProcId → Process) : Option ProcId :=
  (List.finRange numProcesses).find? fun p => (procs p).state = .unused

/-- `memcpy(p->name, name, strlen(name) + 1)` (process.c:337 and 380) into a zeroed field, for a name
    of less than 32 bytes. -/
def copyName (name field : List Byte) : List Byte := name ++ 0 :: field.drop (name.length + 1)

/-- The record of a claimed slot (process.c:331–344 and 374–387). -/
def claimed (pid : BitVec 8) (name : List Byte) (pml4Addr : Word) (entry : Option Entry) : Process :=
  { (default : Process) with
    pid := pid
    state := .ready
    name := copyName name (default : Process).name
    pml4Addr := pml4Addr
    entry := entry }

/-- `alloc_process` and `alloc_process_no_entry` up to what they put on the new stack. `none` is the
    panic of `alloc_stack`. -/
def allocSlot (L : Layout) (k : Kernel) (name : List Byte) (entry : Option Entry)
    (seed : Mem → Process → VmRegion → Mem × Process) : Option (Option ProcId × Kernel) :=
  let (flags, k) := k.irqSave
  match findUnused k.procs with
  | none => some (none, k.irqRestore flags)
  | some p =>
    let proc := claimed k.glblPid name (pageGetAddr k.mm.cr3) entry
    match allocStack L k.mm with
    | (none, _) => none
    | (some r, mm) =>
      let (mem, proc) := seed mm.mem proc r
      let k := { k with
        glblPid := k.glblPid + 1
        mlfq := clearLinks k.mlfq p
        mm := { mm with mem := mem } }
      some (some p, (k.setProc p { proc with vmList := r :: proc.vmList }).irqRestore flags)

/-- `alloc_process(name, entry)` (process.c:311–352). -/
def allocProcess (L : Layout) (labels : Labels) (k : Kernel) (name : List Byte) (entry : Entry) :
    Option (Option ProcId × Kernel) :=
  allocSlot L k name (some entry) fun m p r => initStack m p r labels.forkret

/-- `alloc_process_no_entry(name)` (process.c:354–395). -/
def allocProcessNoEntry (L : Layout) (k : Kernel) (name : List Byte) :
    Option (Option ProcId × Kernel) :=
  allocSlot L k name none fun m p _ => (m, p)

/-- `sched_enqueue(p, level)` (scheduler.c:30–46); `none` is its panic. -/
def schedEnqueue (k : Kernel) (p : ProcId) (level : ℤ) : Option Kernel := do
  let i ← checkLevel level
  let (flags, k) := k.irqSave
  some ({ k with mlfq := enqueue k.mlfq p i }.irqRestore flags)

/-- `fork(name, level)` (process.c:465–498) as the parent sees it, with the stack pointer `frame` at
    its call of `clone_stack_rebased`. `none` when it does not return. -/
def fork (L : Layout) (fuel : ℕ) (k : Kernel) (name : List Byte) (level : ℤ) (frame : Addr) :
    Option (ℤ × Kernel) := do
  let (flags, k) := k.irqSave
  let parent ← k.task
  let (child, k) ← allocProcessNoEntry L k name
  match child with
  | none => some (-1, k.irqRestore flags)
  | some child =>
    let k := k.setProc child { k.procs child with parent := some parent }
    let (mem, rec) ← cloneStackRebased fuel k.mm.mem (k.procs parent) (k.procs child) frame
    let k := { k with mm := { k.mm with mem := mem } }.setProc child rec
    let k ← schedEnqueue k child level
    some ((k.procs child).pid.toNat, k.irqRestore flags)

/-- `exit_process()` (process.c:144–151) up to its switch to the scheduler. -/
def exitProcess (k : Kernel) : Option Kernel := do
  let p ← k.task
  some (k.setProc p { k.procs p with state := .zombie })

/-- `init_process()` (process.c:268–302), from the zeroed table. -/
def initProcess (L : Layout) (labels : Labels) (k : Kernel) (name : List Byte) : Option Kernel := do
  let (p, k) ← allocProcess L labels k name .init
  let p ← p
  let bootstrap := physToVirt L (pageGetAddr k.mm.cr3)
  let (pgtable, mm) := kmallocA k.mm 4096
  let k := { k with mm := { mm with mem := memcpy mm.mem pgtable bootstrap 4096 } }
  let k := k.setProc p { k.procs p with pml4Addr := virtToPhys L pgtable }
  let k ← schedEnqueue k p (numPriorityLevels - 1)
  some { k.setProc p { k.procs p with state := .running } with task := some p }

/-! ## Runs -/

/-- A call, with the arguments of `fork` and the stack pointer it is made with. -/
inductive Op
  | fork (name : List Byte) (level : ℤ) (frame : Addr)
  | allocProcess (name : List Byte) (entry : Entry)
  | exitProcess

/-- A call, the process that makes it and the interrupt flag it finds. -/
structure Call where
  caller : ProcId
  irq : Bool
  op : Op

/-- The result of `fork`, and the state after the call; `none` if the caller is not a process or the
    call does not return. -/
def step (L : Layout) (labels : Labels) (fuel : ℕ) (k : Kernel) (c : Call) :
    Option (Option ℤ × Kernel) :=
  if (k.procs c.caller).state = .unused then none
  else
    let k := { k with task := some c.caller, irq := c.irq }
    match c.op with
    | .fork name level frame => (fork L fuel k name level frame).map fun r => (some r.1, r.2)
    | .allocProcess name entry => (allocProcess L labels k name entry).map fun r => (none, r.2)
    | .exitProcess => (exitProcess k).map fun k => (none, k)

/-- The results of the forks of a run, oldest first, and its last state. -/
def run (L : Layout) (labels : Labels) (fuel : ℕ) : Kernel → List Call → Option (List ℤ × Kernel)
  | k, [] => some ([], k)
  | k, c :: cs => do
    let (r, k) ← step L labels fuel k c
    let (rs, k) ← run L labels fuel k cs
    some (r.toList ++ rs, k)

/-- The table as the boot finds it. -/
def Kernel.zeroed (mlfq : Mlfq) (mm : MmState) (irq : Bool) : Kernel where
  procs := fun _ => default
  glblPid := 0
  mlfq := initScheduler mlfq
  mm := mm
  irq := irq
  task := none

/-! ## The invariant -/

/-- The claimed slots are the first `__glbl_pid`, and each carries its index as pid. -/
structure TableInv (k : Kernel) : Prop where
  le : k.glblPid.toNat ≤ numProcesses
  claimed_iff : ∀ p, (k.procs p).state ≠ .unused ↔ p.val < k.glblPid.toNat
  pid_eq : ∀ p : ProcId, p.val < k.glblPid.toNat → (k.procs p).pid.toNat = p.val

section Inv

variable {L : Layout} {labels : Labels} {fuel : ℕ} {k k' : Kernel}

@[simp] theorem irqRestore_procs (k : Kernel) (flags : Bool) :
    (k.irqRestore flags).procs = k.procs := by
  unfold Kernel.irqRestore
  split_ifs <;> rfl

@[simp] theorem irqRestore_glblPid (k : Kernel) (flags : Bool) :
    (k.irqRestore flags).glblPid = k.glblPid := by
  unfold Kernel.irqRestore
  split_ifs <;> rfl

theorem irqRestore_irqSave (k : Kernel) : k.irqSave.2.irqRestore k.irqSave.1 = k := by
  obtain ⟨procs, glblPid, mlfq, mm, irq, task⟩ := k
  cases irq <;> rfl

/-- The invariant only reads the states, the pids and the counter. -/
theorem TableInv.congr (h : TableInv k) (hpid : k'.glblPid = k.glblPid)
    (hstate : ∀ p, (k'.procs p).state ≠ .unused ↔ (k.procs p).state ≠ .unused)
    (hpids : ∀ p, (k'.procs p).pid = (k.procs p).pid) : TableInv k' where
  le := by
    rw [hpid]
    exact h.le
  claimed_iff p := by
    rw [hstate, hpid]
    exact h.claimed_iff p
  pid_eq p hp := by
    rw [hpids]
    exact h.pid_eq p (hpid ▸ hp)

/-- The search stops at the first slot that was never claimed. -/
theorem TableInv.findUnused_eq (h : TableInv k) (hlt : k.glblPid.toNat < numProcesses) :
    findUnused k.procs = some ⟨k.glblPid.toNat, hlt⟩ := by
  unfold findUnused
  rw [List.find?_eq_some_iff_getElem]
  have hfree : (k.procs ⟨k.glblPid.toNat, hlt⟩).state = .unused := by
    by_contra hne
    exact lt_irrefl _ ((h.claimed_iff _).mp hne)
  refine ⟨decide_eq_true hfree, k.glblPid.toNat, by rwa [List.length_finRange], ?_, ?_⟩
  · rw [List.getElem_finRange]
    rfl
  · intro j hj
    have hused := (h.claimed_iff ⟨j, hj.trans hlt⟩).mpr hj
    rw [List.getElem_finRange]
    simpa using hused

theorem TableInv.findUnused_full (h : TableInv k) (hfull : k.glblPid.toNat = numProcesses) :
    findUnused k.procs = none := by
  unfold findUnused
  rw [List.find?_eq_none]
  intro p _
  have hused := (h.claimed_iff p).mpr (p.isLt.trans_eq hfull.symm)
  simpa using hused

/-- A fresh record in the first free slot. -/
theorem TableInv.claim (h : TableInv k) (hlt : k.glblPid.toNat < numProcesses)
    (hpid : k'.glblPid = k.glblPid + 1) {rec : Process}
    (hprocs : k'.procs = Function.update k.procs ⟨k.glblPid.toNat, hlt⟩ rec)
    (hstate : rec.state ≠ .unused) (hrec : rec.pid = k.glblPid) : TableInv k' := by
  have hnext : k'.glblPid.toNat = k.glblPid.toNat + 1 := by
    have hn : numProcesses = 10 := rfl
    rw [hpid, BitVec.toNat_add]
    show (k.glblPid.toNat + 1) % 256 = _
    omega
  refine ⟨by omega, fun p => ?_, fun p hp => ?_⟩
  · rw [hprocs, hnext]
    by_cases hp : p = ⟨k.glblPid.toNat, hlt⟩
    · subst hp
      rw [Function.update_self]
      exact iff_of_true hstate (Nat.lt_succ_self _)
    · rw [Function.update_of_ne hp, h.claimed_iff]
      have hne : p.val ≠ k.glblPid.toNat := fun he => hp (Fin.ext he)
      omega
  · rw [hprocs]
    by_cases hpe : p = ⟨k.glblPid.toNat, hlt⟩
    · subst hpe
      rw [Function.update_self, hrec]
    · rw [Function.update_of_ne hpe]
      have hne : p.val ≠ k.glblPid.toNat := fun he => hpe (Fin.ext he)
      exact h.pid_eq p (by omega)

/-- An allocator refuses and changes nothing, or fills the first free slot. -/
theorem allocSlot_cases {name : List Byte} {entry : Option Entry}
    {seed : Mem → Process → VmRegion → Mem × Process} {r : Option ProcId}
    (hseed : ∀ m p v, (seed m p v).2.state = p.state ∧ (seed m p v).2.pid = p.pid)
    (h : TableInv k) (halloc : allocSlot L k name entry seed = some (r, k')) :
    (k.glblPid.toNat = numProcesses ∧ r = none ∧ k' = k) ∨
    ∃ (hlt : k.glblPid.toNat < numProcesses) (rec : Process),
      r = some ⟨k.glblPid.toNat, hlt⟩ ∧ k'.glblPid = k.glblPid + 1 ∧
      k'.procs = Function.update k.procs ⟨k.glblPid.toNat, hlt⟩ rec ∧
      rec.state = .ready ∧ rec.pid = k.glblPid ∧ k'.task = k.task := by
  have hprocs : k.irqSave.2.procs = k.procs := rfl
  rcases Nat.lt_or_ge k.glblPid.toNat numProcesses with hlt | hge
  · right
    unfold allocSlot at halloc
    simp only [hprocs, h.findUnused_eq hlt] at halloc
    split at halloc
    · cases halloc
    · rename_i v mm _
      rw [Option.some_inj, Prod.mk.injEq] at halloc
      obtain ⟨rfl, rfl⟩ := halloc
      obtain ⟨hstate, hpid⟩ := hseed mm.mem
        (claimed k.glblPid name (pageGetAddr k.mm.cr3) entry) v
      let proc := (seed mm.mem (claimed k.glblPid name (pageGetAddr k.mm.cr3) entry) v).2
      refine ⟨hlt, { proc with vmList := v :: proc.vmList }, rfl, by rw [irqRestore_glblPid]; rfl,
        by rw [irqRestore_procs]; rfl, hstate, hpid, ?_⟩
      unfold Kernel.irqRestore
      split_ifs <;> rfl
  · left
    have hfull : k.glblPid.toNat = numProcesses := le_antisymm h.le hge
    unfold allocSlot at halloc
    simp only [hprocs, h.findUnused_full hfull, irqRestore_irqSave, Option.some_inj,
      Prod.mk.injEq] at halloc
    exact ⟨hfull, halloc.1.symm, halloc.2.symm⟩

theorem initStack_state (m : Mem) (p : Process) (r : VmRegion) (entry : Word) :
    (initStack m p r entry).2.state = p.state ∧ (initStack m p r entry).2.pid = p.pid := ⟨rfl, rfl⟩

theorem cloneStackRebased_child {m m' : Mem} {parent child child' : Process} {frame : Addr}
    (h : cloneStackRebased fuel m parent child frame = some (m', child')) :
    child'.state = child.state ∧ child'.pid = child.pid := by
  simp only [cloneStackRebased, Option.bind_eq_bind, Option.bind_eq_some_iff, Option.some_inj,
    Prod.mk.injEq] at h
  obtain ⟨_, -, _, -, _, -, -, rfl⟩ := h
  exact ⟨rfl, rfl⟩

theorem schedEnqueue_procs {p : ProcId} {level : ℤ} (h : schedEnqueue k p level = some k') :
    k'.procs = k.procs ∧ k'.glblPid = k.glblPid := by
  simp only [schedEnqueue, Option.bind_eq_bind, Option.bind_eq_some_iff, Option.some_inj] at h
  obtain ⟨_, -, rfl⟩ := h
  exact ⟨irqRestore_procs _ _, irqRestore_glblPid _ _⟩

theorem schedEnqueue_of_level {level : ℤ} {i : Level} (h : checkLevel level = some i) (k : Kernel)
    (p : ProcId) : schedEnqueue k p level = some { k with mlfq := enqueue k.mlfq p i } := by
  obtain ⟨procs, glblPid, mlfq, mm, irq, task⟩ := k
  simp only [schedEnqueue, h, Option.bind_eq_bind, Option.bind_some]
  cases irq <;> rfl

/-- **A fork on a full table** returns -1 and leaves everything as it was. -/
theorem fork_of_full (h : TableInv k) (hfull : k.glblPid.toNat = numProcesses) {parent : ProcId}
    (htask : k.task = some parent) (name : List Byte) (level : ℤ) (frame : Addr) :
    fork L fuel k name level frame = some (-1, k) := by
  have hnone : allocProcessNoEntry L k.irqSave.2 name = some (none, k.irqSave.2) := by
    have hprocs : k.irqSave.2.irqSave.2.procs = k.procs := rfl
    unfold allocProcessNoEntry allocSlot
    simp only [hprocs, h.findUnused_full hfull, irqRestore_irqSave]
  have htask' : k.irqSave.2.task = some parent := htask
  unfold fork
  simp only [htask', hnone, Option.bind_eq_bind, Option.bind_some, irqRestore_irqSave]

/-- The child's record at its call of `clone_stack_rebased`. -/
def forked (k : Kernel) (name : List Byte) (parent : ProcId) (r : VmRegion) : Process :=
  { claimed k.glblPid name (pageGetAddr k.mm.cr3) none with parent := some parent, vmList := [r] }

/-- The state after a fork into the slot `p` that left the memory `mem` and the record `child`. -/
def afterFork (k : Kernel) (p : ProcId) (level : Level) (mm : MmState) (mem : Mem) (child : Process) :
    Kernel :=
  { k with
    procs := Function.update k.procs p child
    glblPid := k.glblPid + 1
    mlfq := enqueue (clearLinks k.mlfq p) p level
    mm := { mm with mem := mem } }

/-- **A fork on a table with a free slot** returns the old `__glbl_pid`: with a stack from
    `alloc_stack`, and a chain of frame pointers that ends, it always returns. -/
theorem fork_of_free (h : TableInv k) (hlt : k.glblPid.toNat < numProcesses) {parent : ProcId}
    (htask : k.task = some parent) (hparent : (k.procs parent).state ≠ .unused) {name : List Byte}
    {level : ℤ} {i : Level} (hlevel : checkLevel level = some i) {r : VmRegion} {mm : MmState}
    (hstack : allocStack L k.mm = (some r, mm)) {frame : Addr} {mem : Mem} {child : Process}
    (hclone : cloneStackRebased fuel mm.mem (k.procs parent) (forked k name parent r) frame =
      some (mem, child)) :
    fork L fuel k name level frame =
      some ((k.glblPid.toNat : ℤ), afterFork k ⟨k.glblPid.toNat, hlt⟩ i mm mem child) := by
  have hfind : findUnused k.irqSave.2.irqSave.2.procs = some ⟨k.glblPid.toNat, hlt⟩ :=
    h.findUnused_eq hlt
  have hmm : allocStack L k.irqSave.2.irqSave.2.mm = (some r, mm) := hstack
  have hne : parent ≠ ⟨k.glblPid.toNat, hlt⟩ := by
    rintro rfl
    exact lt_irrefl _ ((h.claimed_iff _).mp hparent)
  have halloc : allocProcessNoEntry L k.irqSave.2 name = some (some ⟨k.glblPid.toNat, hlt⟩,
      { k with
        procs := Function.update k.procs ⟨k.glblPid.toNat, hlt⟩
          { forked k name parent r with parent := none }
        glblPid := k.glblPid + 1
        mlfq := clearLinks k.mlfq ⟨k.glblPid.toNat, hlt⟩
        mm := mm
        irq := false }) := by
    unfold allocProcessNoEntry allocSlot
    simp only [hfind, hmm]
    rfl
  have htask' : k.irqSave.2.task = some parent := htask
  have hpid : child.pid = k.glblPid := (cloneStackRebased_child hclone).2
  have hrecord : ({ ({ forked k name parent r with parent := none } : Process) with
      parent := some parent } : Process) = forked k name parent r := rfl
  simp only [fork, htask', Option.bind_eq_bind, Option.bind_some, halloc, Kernel.setProc,
    Function.update_idem, Function.update_self, Function.update_of_ne hne, hrecord, hclone,
    schedEnqueue_of_level hlevel, hpid]
  unfold Kernel.irqRestore Kernel.irqSave afterFork
  cases k.irq <;> rfl

/-- A fork returns -1 on a full table, and otherwise the pid it counted up. -/
theorem fork_cases (h : TableInv k) {name : List Byte} {level : ℤ} {frame : Addr} {r : ℤ}
    (hfork : fork L fuel k name level frame = some (r, k')) :
    (k.glblPid.toNat = numProcesses ∧ r = -1 ∧ k' = k) ∨
    (TableInv k' ∧ k'.glblPid.toNat = k.glblPid.toNat + 1 ∧ r = k.glblPid.toNat) := by
  have hfork' := hfork
  simp only [fork, Option.bind_eq_bind, Option.bind_eq_some_iff] at hfork
  obtain ⟨parent, htask, ⟨child, k₁⟩, halloc, hrest⟩ := hfork
  have hsave : TableInv k.irqSave.2 := h.congr rfl (fun _ => Iff.rfl) (fun _ => rfl)
  rcases allocSlot_cases (fun m p v => ⟨rfl, rfl⟩) hsave halloc with
    ⟨hfull, -, -⟩ | ⟨hlt, proc, rfl, hpid₁, hprocs₁, hstate, hpid, -⟩
  · left
    rw [fork_of_full h hfull htask, Option.some_inj, Prod.mk.injEq] at hfork'
    exact ⟨hfull, hfork'.1.symm, hfork'.2.symm⟩
  · right
    simp only [Option.bind_eq_some_iff, Option.some_inj, Prod.mk.injEq] at hrest
    obtain ⟨⟨mem, proc'⟩, hclone, k₂, henq, rfl, rfl⟩ := hrest
    have hlt' : k.glblPid.toNat < numProcesses := hlt
    obtain ⟨hstate', hpid'⟩ := cloneStackRebased_child hclone
    obtain ⟨hprocs₂, hglbl₂⟩ := schedEnqueue_procs henq
    -- the child's slot is written three times, the last value stays
    have hprocs : k₂.procs = Function.update k.procs ⟨k.glblPid.toNat, hlt'⟩ proc' := by
      rw [hprocs₂]
      show Function.update (Function.update k₁.procs _ _) _ proc' = _
      rw [hprocs₁, Function.update_idem, Function.update_idem]
      rfl
    have hchild : (k₁.procs ⟨k.glblPid.toNat, hlt'⟩).state = .ready ∧
        (k₁.procs ⟨k.glblPid.toNat, hlt'⟩).pid = k.glblPid := by
      rw [hprocs₁]
      exact ⟨(congrArg Process.state (Function.update_self _ _ _)).trans hstate,
        (congrArg Process.pid (Function.update_self _ _ _)).trans hpid⟩
    have hset (proc : Process) : (k₁.setProc ⟨k.glblPid.toNat, hlt'⟩ proc).procs
        ⟨k.glblPid.toNat, hlt'⟩ = proc := Function.update_self _ _ _
    have hslot : proc'.state = .ready ∧ proc'.pid = k.glblPid :=
      ⟨hstate'.trans ((congrArg Process.state (hset _)).trans hchild.1),
        hpid'.trans ((congrArg Process.pid (hset _)).trans hchild.2)⟩
    have hglbl : k₂.glblPid = k.glblPid + 1 := hglbl₂.trans hpid₁
    have hinv : TableInv k₂ :=
      h.claim hlt' hglbl hprocs (by rw [hslot.1]; exact ProcessState.noConfusion) hslot.2
    refine ⟨hinv.congr (irqRestore_glblPid _ _) (fun p => by rw [irqRestore_procs])
      (fun p => by rw [irqRestore_procs]), ?_, ?_⟩
    · rw [irqRestore_glblPid, hglbl, BitVec.toNat_add]
      have hn : numProcesses = 10 := rfl
      show (k.glblPid.toNat + 1) % 256 = _
      omega
    · rw [hprocs]
      exact congrArg (fun p : Process => (p.pid.toNat : ℤ)) (Function.update_self _ _ _) |>.trans
        (by rw [hslot.2])

theorem allocProcess_inv (h : TableInv k) {name : List Byte} {entry : Entry} {r : Option ProcId}
    (halloc : allocProcess L labels k name entry = some (r, k')) :
    TableInv k' ∧ k.glblPid.toNat ≤ k'.glblPid.toNat := by
  rcases allocSlot_cases (fun m p v => initStack_state m p v labels.forkret) h halloc with
    ⟨-, -, rfl⟩ | ⟨hlt, proc, -, hpid, hprocs, hstate, hproc, -⟩
  · exact ⟨h, le_rfl⟩
  · have hinv : TableInv k' :=
      h.claim hlt hpid hprocs (by rw [hstate]; exact ProcessState.noConfusion) hproc
    refine ⟨hinv, ?_⟩
    have hn : numProcesses = 10 := rfl
    rw [hpid, BitVec.toNat_add]
    show _ ≤ (k.glblPid.toNat + 1) % 256
    omega

/-- **One call.** The counter never falls, and a fork that succeeds returns its old value. -/
theorem TableInv.step (h : TableInv k) {c : Call} {r : Option ℤ}
    (hstep : step L labels fuel k c = some (r, k')) :
    TableInv k' ∧ k.glblPid.toNat ≤ k'.glblPid.toNat ∧
      ∀ n, r = some n → n = -1 ∨ (n = k.glblPid.toNat ∧ k.glblPid.toNat < k'.glblPid.toNat) := by
  unfold Proc.step at hstep
  split_ifs at hstep with hused
  have hcall : TableInv { k with task := some c.caller, irq := c.irq } :=
    h.congr rfl (fun _ => Iff.rfl) (fun _ => rfl)
  obtain ⟨caller, irq, op⟩ := c
  cases op with
  | fork name level frame =>
    simp only [Option.map_eq_some_iff, Prod.mk.injEq] at hstep
    obtain ⟨⟨n, k₁⟩, hfork, rfl, rfl⟩ := hstep
    rcases fork_cases hcall hfork with ⟨-, rfl, rfl⟩ | ⟨hinv, hpid, rfl⟩
    · refine ⟨hcall, le_rfl, ?_⟩
      rintro _ ⟨⟩
      exact .inl rfl
    · have hpid' : k₁.glblPid.toNat = k.glblPid.toNat + 1 := hpid
      have hlt : k.glblPid.toNat < k₁.glblPid.toNat := by omega
      refine ⟨hinv, hlt.le, ?_⟩
      rintro _ ⟨⟩
      exact .inr ⟨rfl, hlt⟩
  | allocProcess name entry =>
    simp only [Option.map_eq_some_iff, Prod.mk.injEq] at hstep
    obtain ⟨⟨p, k₁⟩, halloc, rfl, rfl⟩ := hstep
    obtain ⟨hinv, hle⟩ := allocProcess_inv hcall halloc
    refine ⟨hinv, hle, ?_⟩
    rintro _ ⟨⟩
  | exitProcess =>
    simp only [exitProcess, Option.bind_eq_bind, Option.bind_some, Option.map_some, Option.some_inj,
      Prod.mk.injEq] at hstep
    obtain ⟨rfl, rfl⟩ := hstep
    refine ⟨hcall.congr rfl (fun p => ?_) (fun p => ?_), le_rfl, ?_⟩
    · show (Function.update k.procs caller _ p).state ≠ _ ↔ (k.procs p).state ≠ _
      by_cases hp : p = caller
      · subst hp
        rw [Function.update_self]
        exact iff_of_true ProcessState.noConfusion hused
      · rw [Function.update_of_ne hp]
    · show (Function.update k.procs caller _ p).pid = (k.procs p).pid
      by_cases hp : p = caller
      · subst hp
        rw [Function.update_self]
      · rw [Function.update_of_ne hp]
    · rintro _ ⟨⟩

/-- **Whole runs.** Successful forks return increasing pids from the counter's first value on. -/
theorem TableInv.run (h : TableInv k) {cs : List Call} {rs : List ℤ}
    (hrun : run L labels fuel k cs = some (rs, k')) :
    TableInv k' ∧ k.glblPid.toNat ≤ k'.glblPid.toNat ∧
      (∀ r ∈ rs, r = -1 ∨ (k.glblPid.toNat : ℤ) ≤ r) ∧ (rs.filter (· ≠ -1)).Pairwise (· < ·) := by
  induction cs generalizing k rs with
  | nil =>
    simp only [Proc.run, Option.some_inj, Prod.mk.injEq] at hrun
    obtain ⟨rfl, rfl⟩ := hrun
    exact ⟨h, le_rfl, List.forall_mem_nil _, List.Pairwise.nil⟩
  | cons c cs ih =>
    simp only [Proc.run, Option.bind_eq_bind, Option.bind_eq_some_iff, Option.some_inj,
      Prod.mk.injEq] at hrun
    obtain ⟨⟨r, k₁⟩, hstep, ⟨rs₁, k₂⟩, hrest, rfl, rfl⟩ := hrun
    obtain ⟨hinv, hle, hres⟩ := h.step hstep
    obtain ⟨hinv', hle', hall, hsorted⟩ := ih hinv hrest
    cases r with
    | none =>
      refine ⟨hinv', hle.trans hle', fun r hr => ?_, hsorted⟩
      exact (hall r hr).imp_right (le_trans (by exact_mod_cast hle))
    | some n =>
      have hrest' : ∀ r ∈ rs₁, r = -1 ∨ (k.glblPid.toNat : ℤ) ≤ r := fun r hr =>
        (hall r hr).imp_right (le_trans (by exact_mod_cast hle))
      have hcons : (some n).toList ++ rs₁ = n :: rs₁ := rfl
      rw [hcons]
      rcases hres n rfl with rfl | ⟨rfl, hlt⟩
      · exact ⟨hinv', hle.trans hle', List.forall_mem_cons.mpr ⟨.inl rfl, hrest'⟩, by simpa using hsorted⟩
      · refine ⟨hinv', hle.trans hle', List.forall_mem_cons.mpr ⟨.inr le_rfl, hrest'⟩, ?_⟩
        rw [List.filter_cons_of_pos (by simp)]
        refine List.pairwise_cons.mpr ⟨fun r hr => ?_, hsorted⟩
        obtain ⟨hmem, hne⟩ := List.mem_filter.mp hr
        have hge := (hall r hmem).resolve_left (by simpa using hne)
        omega

theorem zeroed_inv (mlfq : Mlfq) (mm : MmState) (irq : Bool) :
    TableInv (Kernel.zeroed mlfq mm irq) where
  le := Nat.zero_le _
  claimed_iff _ := iff_of_false (fun h => h rfl) (Nat.not_lt_zero _)
  pid_eq _ hp := absurd hp (Nat.not_lt_zero _)

/-- `init` takes the first slot. -/
theorem initProcess_inv {mlfq : Mlfq} {mm : MmState} {irq : Bool} {name : List Byte}
    (h : initProcess L labels (Kernel.zeroed mlfq mm irq) name = some k) :
    TableInv k ∧ k.glblPid.toNat = 1 := by
  simp only [initProcess, Option.bind_eq_bind, Option.bind_eq_some_iff, Option.some_inj] at h
  obtain ⟨⟨r, k₁⟩, halloc, p, hr, k₂, henq, rfl⟩ := h
  have hzero := zeroed_inv mlfq mm irq
  rcases allocSlot_cases (fun m p v => initStack_state m p v labels.forkret) hzero halloc with
    ⟨hfull, -, -⟩ | ⟨hlt, proc, rfl, hpid, hprocs, hstate, hproc, -⟩
  · cases hfull
  obtain rfl : _ = p := Option.some_inj.mp hr
  have hinv : TableInv k₁ :=
    hzero.claim hlt hpid hprocs (by rw [hstate]; exact ProcessState.noConfusion) hproc
  obtain ⟨hprocs₂, hglbl₂⟩ := schedEnqueue_procs henq
  have hone : k₁.glblPid.toNat = 1 := by
    rw [hpid]
    rfl
  have hused : (k₁.procs ⟨(Kernel.zeroed mlfq mm irq).glblPid.toNat, hlt⟩).state ≠ .unused :=
    (hinv.claimed_iff _).mpr (by rw [hone]; exact Nat.zero_lt_one)
  refine ⟨hinv.congr hglbl₂ (fun q => ?_) (fun q => ?_), (congrArg BitVec.toNat hglbl₂).trans hone⟩
  -- `init`'s record is rewritten with another page table and state
  · by_cases hq : q = ⟨(Kernel.zeroed mlfq mm irq).glblPid.toNat, hlt⟩
    · subst hq
      refine iff_of_true ?_ hused
      show (Function.update k₂.procs _ _ _).state ≠ _
      rw [Function.update_self]
      exact ProcessState.noConfusion
    · show (Function.update k₂.procs _ _ q).state ≠ _ ↔ _
      rw [Function.update_of_ne hq, hprocs₂]
      show (Function.update k₁.procs _ _ q).state ≠ _ ↔ _
      rw [Function.update_of_ne hq]
  · by_cases hq : q = ⟨(Kernel.zeroed mlfq mm irq).glblPid.toNat, hlt⟩
    · subst hq
      show (Function.update k₂.procs _ _ _).pid = _
      rw [Function.update_self]
      show (k₂.procs _).pid = _
      rw [hprocs₂]
      show (Function.update k₁.procs _ _ _).pid = _
      rw [Function.update_self]
    · show (Function.update k₂.procs _ _ q).pid = _
      rw [Function.update_of_ne hq, hprocs₂]
      show (Function.update k₁.procs _ _ q).pid = _
      rw [Function.update_of_ne hq]

theorem TableInv.card (h : TableInv k) :
    (Finset.univ.filter fun p => (k.procs p).state ≠ .unused).card = k.glblPid.toNat := by
  have hfilter : (Finset.univ.filter fun p => (k.procs p).state ≠ .unused) =
      Finset.univ.filter fun p : ProcId => p.val < k.glblPid.toNat :=
    Finset.filter_congr fun p _ => h.claimed_iff p
  rw [hfilter, Fin.card_filter_val_lt]
  exact min_eq_right h.le

/-- **The process table and the pids.** From `init_process` on, after every sequence of calls the
    claimed slots are the first `__glbl_pid` ones and carry the pids 0, 1, …; the pids that `fork`
    has returned are positive and distinct; a fork on a full table returns -1 and leaves the whole
    state as it was; and a fork on any other returns the old `__glbl_pid`, if it gets a stack and
    the loop of `clone_stack_rebased` ends. -/
theorem process_table {mlfq : Mlfq} {mm : MmState} {irq : Bool} {name : List Byte} {k₀ : Kernel}
    (hinit : initProcess L labels (Kernel.zeroed mlfq mm irq) name = some k₀) {cs : List Call}
    {rs : List ℤ} (hrun : run L labels fuel k₀ cs = some (rs, k)) :
    (Finset.univ.filter fun p => (k.procs p).state ≠ .unused).card = k.glblPid.toNat ∧
    k.glblPid.toNat ≤ numProcesses ∧
    (∀ p, (k.procs p).state ≠ .unused ↔ p.val < k.glblPid.toNat) ∧
    (∀ p, (k.procs p).state ≠ .unused → (k.procs p).pid.toNat = p.val) ∧
    (∀ r ∈ rs, r = -1 ∨ 1 ≤ r) ∧ (rs.filter (· ≠ -1)).Nodup ∧
    (k.glblPid.toNat = numProcesses → ∀ caller irq name level frame,
      fork L fuel { k with task := some caller, irq := irq } name level frame =
        some (-1, { k with task := some caller, irq := irq })) ∧
    (k.glblPid.toNat < numProcesses → ∀ caller irq name level frame i r mm mem child,
      (k.procs caller).state ≠ .unused → checkLevel level = some i →
      allocStack L k.mm = (some r, mm) →
      cloneStackRebased fuel mm.mem (k.procs caller) (forked k name caller r) frame =
        some (mem, child) →
      ∃ k', fork L fuel { k with task := some caller, irq := irq } name level frame =
        some ((k.glblPid.toNat : ℤ), k')) := by
  obtain ⟨hinv₀, hone⟩ := initProcess_inv hinit
  obtain ⟨hinv, -, hpos, hsorted⟩ := hinv₀.run hrun
  refine ⟨hinv.card, hinv.le, hinv.claimed_iff, fun p hp => hinv.pid_eq p ((hinv.claimed_iff p).mp hp),
    fun r hr => ?_, hsorted.imp ne_of_lt, ?_, ?_⟩
  · have h := hpos r hr
    rw [hone] at h
    exact_mod_cast h
  · intro hfull caller irq name level frame
    have hcall : TableInv { k with task := some caller, irq := irq } :=
      hinv.congr rfl (fun _ => Iff.rfl) (fun _ => rfl)
    exact fork_of_full hcall hfull rfl name level frame
  · intro hlt caller irq name level frame i r mm mem child hused hlevel hstack hclone
    have hcall : TableInv { k with task := some caller, irq := irq } :=
      hinv.congr rfl (fun _ => Iff.rfl) (fun _ => rfl)
    exact ⟨_, fork_of_free hcall hlt rfl hused hlevel hstack hclone⟩

end Inv

/-! ## A run in a direct map of 4 KiB pages -/

section Pages

/-- Where page `n` of the direct map begins. -/
def pageAt (n : ℕ) : Addr := BitVec.ofNat 64 (0x40000000 + 4096 * n)

/-- The tables in the frames 0 to 3 map the direct map to the first 2 MiB. -/
def pagesMem : Mem :=
  fillTable (((Mem.store (fun _ => 0) (entryAddr gibLayout 0 0) 0x1003).store
    (entryAddr gibLayout 1 1) 0x2003).store (entryAddr gibLayout 2 0) 0x3003)
    (tableAddr gibLayout 3) (fun j => BitVec.ofNat 64 (4096 * j + 3)) 512

/-- The tables of `pagesMem`, with at least the pages from `next` on mapped. -/
structure Tables (next : ℕ) (m : Mem) : Prop where
  pml4 : m.load (entryAddr gibLayout 0 0) = 0x1003
  pdpt : m.load (entryAddr gibLayout 1 1) = 0x2003
  pd : m.load (entryAddr gibLayout 2 0) = 0x3003
  pt : ∀ j : BitVec 9, next ≤ j.toNat →
    m.load (entryAddr gibLayout 3 j) = BitVec.ofNat 64 (4096 * j.toNat + 3)

theorem toNat_pageAt {n : ℕ} (hn : n < 512) : (pageAt n).toNat = 0x40000000 + 4096 * n := by
  rw [pageAt, BitVec.toNat_ofNat]
  omega

/-- An entry of the four tables lies below the heap. -/
theorem entry_lt {f : Paging.Frame} (hf : f.toNat < 4) (i : BitVec 9) {k : ℕ} (hk : k < 8) :
    (entryAddr gibLayout f i + BitVec.ofNat 64 k).toNat < 0x40004000 := by
  have hentry := toNat_entryAddr (L := gibLayout) f i
  have htable : (tableAddr gibLayout f).toNat = 0x40000000 + 4096 * f.toNat := by
    rw [tableAddr, physToVirt, BitVec.toNat_add, toNat_frameAddr]
    show (f.toNat * 4096 + 0x40000000) % 2 ^ 64 = _
    omega
  have hi := i.isLt
  rw [toNat_add_ofNat (by omega)]
  omega

/-- Nothing is written below the heap. -/
theorem Tables.congr {next : ℕ} {m m' : Mem} (h : Tables next m)
    (hmem : ∀ b : Addr, b.toNat < 0x40004000 → m' b = m b) : Tables next m' := by
  have hload : ∀ f : Paging.Frame, f.toNat < 4 → ∀ i, m'.load (entryAddr gibLayout f i) =
      m.load (entryAddr gibLayout f i) := fun f hf i =>
    Mem.load_congr fun k hk => hmem _ (entry_lt hf i hk)
  refine ⟨?_, ?_, ?_, fun j hj => ?_⟩
  · rw [hload _ (by decide), h.pml4]
  · rw [hload _ (by decide), h.pdpt]
  · rw [hload _ (by decide), h.pd]
  · rw [hload _ (by decide), h.pt j hj]

/-- The addresses and the entries of the pages. -/
theorem pageAt_bits : ∀ n : Fin 512, upperPath (pageAt n) = [0, 1, 0] ∧
    (pageAt n).extractLsb' 12 9 = BitVec.ofNat 9 n ∧ pageAt n &&& ~~~0xFFF#64 = pageAt n ∧
    BitVec.ofNat 64 (4096 * n + 3) &&& pagePresent ≠ 0 ∧
    (n.val ≠ 0 → pageGetAddr (BitVec.ofNat 64 (4096 * n + 3)) ≠ 0) := by
  decide +kernel

/-- Where the entry of page `n` lies. -/
theorem Tables.descend_eq {next : ℕ} {m : Mem} (h : Tables next m) {n : ℕ} (hn : n < 512) :
    ∃ g, descend (treeOf gibLayout m) 4 (rootOf 0) (upperPath (pageAt n)) = some (3, g) := by
  have h3 : treeOf gibLayout m 3 (rootOf 0) 0 = .table 1 (restrict 0x1003) := by
    show decode 3 (m.load (entryAddr gibLayout 0 0)) = _
    rw [h.pml4]
    rfl
  have h2 : treeOf gibLayout m 2 1 1 = .table 2 (restrict 0x2003) := by
    show decode 2 (m.load _) = _
    rw [h.pdpt]
    rfl
  have h1 : treeOf gibLayout m 1 2 0 = .table 3 (restrict 0x3003) := by
    show decode 1 (m.load _) = _
    rw [h.pd]
    rfl
  rw [(pageAt_bits ⟨n, hn⟩).1, descend_cons_of_table h3, descend_cons_of_table h2,
    descend_cons_of_table h1, descend_nil]
  exact ⟨_, rfl⟩

/-- The page is unmapped, and no other. -/
theorem Tables.unmapPage {n : ℕ} {s : MmState} (h : Tables n s.mem) (hpos : n ≠ 0) (hn : n < 512) :
    ∃ frame s', unmapPage gibLayout s (pageAt n) 0 = (frame, s') ∧ frame ≠ 0 ∧
      s'.mem = s.mem.store (entryAddr gibLayout 3 (BitVec.ofNat 9 n)) 0 ∧
      s'.placementAddress = s.placementAddress ∧ s'.cr3 = s.cr3 := by
  obtain ⟨-, hindex, halign, hpresent, hframe⟩ := pageAt_bits ⟨n, hn⟩
  obtain ⟨g, hd⟩ := h.descend_eq hn
  have hload := h.pt (BitVec.ofNat 9 n) (by rw [BitVec.toNat_ofNat]; omega)
  rw [BitVec.toNat_ofNat, Nat.mod_eq_of_lt hn] at hload
  unfold Paging.unmapPage
  simp only [halign, getPageEntry_of_descend false hd, hindex, hload]
  rw [if_neg hpresent]
  refine ⟨_, _, rfl, hframe hpos, ?_⟩
  split_ifs <;> exact ⟨rfl, rfl, rfl⟩

/-- The tables, and a heap that goes on from page `next` on. -/
structure PagesFrom (next : ℕ) (s : MmState) : Prop where
  cr3_eq : s.cr3 = 0
  heap : alignUp s.placementAddress = pageAt next
  tables : Tables next s.mem

/-- The next stack takes 33 pages, and its `vm_region` the beginning of another. -/
theorem PagesFrom.allocStack {next : ℕ} {s : MmState} (h : PagesFrom next s) (hlo : 16 ≤ next)
    (hhi : next + 34 < 512) :
    ∃ s', allocStack gibLayout s = (some ⟨stackFlags, .stack, pageAt next, pageAt (next + 33)⟩, s') ∧
      PagesFrom (next + 34) s' ∧
      ∀ b : Addr, 0x40004000 ≤ b.toNat → b.toNat < 0x40000000 + 4096 * next → s'.mem b = s.mem b := by
  have hnat : ∀ n, n < 512 → (pageAt n).toNat = 0x40000000 + 4096 * n := fun n hn => toNat_pageAt hn
  have hstop : pageAt next + BitVec.ofNat 64 kstackSize = pageAt (next + 33) := by
    have h1 := hnat next (by omega)
    have h2 := hnat (next + 33) (by omega)
    have hsize : BitVec.ofNat 64 kstackSize = BitVec.ofNat 64 135168 := rfl
    apply BitVec.eq_of_toNat_eq
    rw [hsize, toNat_add_ofNat (by omega)]
    omega
  have hne : ∀ n, n < 512 → pageAt n ≠ 0 := by
    intro n hn h0
    have := hnat n hn
    rw [h0] at this
    change 0 = _ at this
    omega
  have h1 : kmallocA s (BitVec.ofNat 32 kstackSize) =
      (pageAt next, (kmallocA s (BitVec.ofNat 32 kstackSize)).2) := by rw [← h.heap]; rfl
  have h2 : kmalloc (kmallocA s (BitVec.ofNat 32 kstackSize)).2 48 =
      (pageAt (next + 33), (kmalloc (kmallocA s (BitVec.ofNat 32 kstackSize)).2 48).2) := by
    rw [← hstop, ← h.heap]
    rfl
  have hmem : ∀ b, ¬ Within (pageAt (next + 33)) 48 b → (stackAllocated s).mem b = s.mem b := by
    intro b hb
    rw [stackAllocated_of h1 h2, fillVmRegion_mem _ _ _ hb]
    rfl
  have hplace : (stackAllocated s).placementAddress = pageAt (next + 33) + 48#64 := by
    rw [← hstop, ← h.heap]
    rfl
  have hout : ∀ b : Addr, b.toNat < 0x40000000 + 4096 * (next + 33) →
      (stackAllocated s).mem b = s.mem b := by
    intro b hb
    apply hmem
    have := hnat (next + 33) (by omega)
    rw [within_iff (by omega)]
    omega
  have hlow : 0x40004000 ≤ 0x40000000 + 4096 * (next + 33) := by omega
  have htables : Tables next (stackAllocated s).mem :=
    h.tables.congr fun b hb => hout b (hb.trans_le hlow)
  obtain ⟨frame, s', hunmap, hframe, hmem', hplace', hcr3⟩ :=
    htables.unmapPage (by omega) (by omega)
  have halloc := allocStack_eq gibLayout s
  rw [h.heap, hstop, h.cr3_eq, hunmap, if_neg (not_or.mpr ⟨hne _ (by omega), hne _ (by omega)⟩),
    guardResult, if_neg hframe, hstop] at halloc
  refine ⟨s', halloc, ⟨?_, ?_, ?_⟩, ?_⟩
  · rw [hcr3, stackAllocated_of h1 h2, fillVmRegion_cr3, kmalloc_cr3, kmallocA_cr3, h.cr3_eq]
  · apply BitVec.eq_of_toNat_eq
    have h33 := hnat (next + 33) (by omega)
    have h34 := hnat (next + 34) (by omega)
    have hp : (pageAt (next + 33) + 48#64).toNat = (pageAt (next + 33)).toNat + 48 :=
      toNat_add_ofNat (by omega)
    rw [hplace', hplace, alignUp_spec (by omega)]
    omega
  · rw [hmem']
    refine ⟨?_, ?_, ?_, fun j hj => ?_⟩
    · rw [load_entry_store (.inl (by decide)), htables.pml4]
    · rw [load_entry_store (.inl (by decide)), htables.pdpt]
    · rw [load_entry_store (.inl (by decide)), htables.pd]
    · rw [load_entry_store (.inr ?_), htables.pt j (by omega)]
      rintro rfl
      rw [BitVec.toNat_ofNat] at hj
      omega
  · intro b hb hb'
    rw [hmem', Mem.store_apply_of_not_within, hout b (by omega)]
    intro hw
    obtain ⟨k, hk, rfl⟩ := exists_of_within hw
    have := entry_lt (f := 3) (by decide) (BitVec.ofNat 9 next) hk
    omega

/-- A fork by a process that has only its first frame on its stack: the saved frame pointer is
    0, so that nothing is rebased. -/
theorem cloneStackRebased_first (fuel : ℕ) {m : Mem} {parent child : Process} {r r' : VmRegion}
    (hparent : parent.vmList = [r]) (hchild : child.vmList = [r']) (hr : r.type = .stack)
    (hr' : r'.type = .stack) (hle : 64 < r.stop.toNat) (hlt : r.stop.toNat + 64 ≤ r'.stop.toNat)
    (hzero : m.load (r.stop - 64#64 + 40#64) = 0) :
    ∃ m' child', cloneStackRebased (fuel + 1) m parent child (r.stop - 64#64) = some (m', child') ∧
      ∀ b, ¬ Within (r'.stop - 64#64) 64 b → m' b = m b := by
  have hframe : (r.stop - 64#64).toNat = r.stop.toNat - 64 := BitVec.toNat_sub_of_le (by bv_omega)
  have hframe' : (r'.stop - 64#64).toNat = r'.stop.toNat - 64 := BitVec.toNat_sub_of_le (by bv_omega)
  have hmax := r'.stop.isLt
  have hsep : ∀ i < 64, ¬ Within (r'.stop - 64#64) 64 (r.stop - 64#64 + BitVec.ofNat 64 i) := by
    intro i hi
    rw [within_iff (by omega), toNat_add_ofNat (by omega)]
    omega
  have hcopy := memcpy_apply m (r'.stop - 64#64) (r.stop - 64#64) (by norm_num) hsep
  have hload : (memcpy m (r'.stop - 64#64) (r.stop - 64#64) 64).load (r'.stop - 64#64 + 40#64) = 0 := by
    rw [← hzero]
    refine Mem.load_congr fun i hi => ?_
    rw [hcopy, if_pos]
    · congr 1
      abel
    · have h40 : r'.stop - 64#64 + 40#64 + BitVec.ofNat 64 i =
          r'.stop - 64#64 + BitVec.ofNat 64 (40 + i) := by rw [BitVec.ofNat_add]; abel
      rw [h40, within_iff (by omega), toNat_add_ofNat (by omega)]
      omega
  have hdelta : r.stop - 64#64 + (r'.stop - r.stop) = r'.stop - 64#64 := by abel
  have hsize : (r.stop - (r.stop - 64#64)).toNat = 64 := by rw [sub_sub_cancel]; rfl
  have hstop : ¬ (r.stop - 64#64 ≤ (0 : Word) ∧ (0 : Word) < r.stop) := by
    rw [BitVec.le_def, hframe]
    show ¬ (_ ≤ 0 ∧ _)
    omega
  refine ⟨_, { child with sp := r'.stop - 64#64 }, ?_, fun b hb => (hcopy b).trans (if_neg hb)⟩
  simp only [cloneStackRebased, findStack, hparent, hchild, List.find?_cons, hr, hr', decide_true,
    Option.bind_eq_bind, Option.bind_some, hdelta, hsize, forkFrameFpSlot, rebase]
  have hslot : BitVec.ofNat 64 (8 * 5) = 40#64 := rfl
  rw [hslot, hload, if_neg hstop]
  rfl

/-- After `n` processes have been started: init runs with its first frame on its stack. -/
structure Forkable (n : ℕ) (k : Kernel) : Prop where
  inv : TableInv k
  pid_eq : k.glblPid.toNat = n
  used : (k.procs 0).state ≠ .unused
  stack : (k.procs 0).vmList = [⟨stackFlags, .stack, pageAt 16, pageAt 49⟩]
  saved : k.mm.mem.load (pageAt 49 - 64#64 + 40#64) = 0
  pages : PagesFrom (17 + 34 * n) k.mm

theorem Forkable.fork {n : ℕ} {k : Kernel} (h : Forkable n k) (hn : n < numProcesses)
    (htask : k.task = some 0) (fuel : ℕ) :
    ∃ k', Proc.fork gibLayout (fuel + 1) k [] 0 (pageAt 49 - 64#64) = some ((n : ℤ), k') ∧
      Forkable (n + 1) k' := by
  obtain ⟨hinv, rfl, hused, hvm, hsaved, hpages⟩ := h
  have hpos : 0 < k.glblPid.toNat := (hinv.claimed_iff 0).mp hused
  have hten : k.glblPid.toNat < 10 := hn
  obtain ⟨mm, hstack, hpages', hmem⟩ := hpages.allocStack (by omega) (by omega)
  generalize hnext : 17 + 34 * k.glblPid.toNat = next at hstack hpages' hmem
  have htop := toNat_pageAt (n := 49) (by norm_num)
  have htop' := toNat_pageAt (n := next + 33) (by omega)
  have hfp : (pageAt 49 - 64#64 + 40#64).toNat = 0x40031000 - 24 := by decide
  -- the saved frame pointer lies below the new stack
  have hsaved' : mm.mem.load (pageAt 49 - 64#64 + 40#64) = 0 := by
    rw [← hsaved]
    refine Mem.load_congr fun i hi => hmem _ ?_ ?_ <;> rw [toNat_add_ofNat (by omega)] <;> omega
  have hvm' : (forked k [] 0 ⟨stackFlags, .stack, pageAt next, pageAt (next + 33)⟩).vmList =
      [⟨stackFlags, .stack, pageAt next, pageAt (next + 33)⟩] := rfl
  have hlevel : checkLevel 0 = some (0 : Level) := by decide
  obtain ⟨mem, child, hclone, hmem'⟩ := cloneStackRebased_first fuel hvm hvm' rfl rfl
    (by rw [htop]; omega) (by rw [htop, htop']; omega) hsaved'
  have hkeep : ∀ b : Addr, b.toNat < 0x40000000 + 4096 * next → mem b = mm.mem b := by
    intro b hb
    refine hmem' b ?_
    have h64 : (pageAt (next + 33) - 64#64).toNat = (pageAt (next + 33)).toNat - 64 :=
      BitVec.toNat_sub_of_le (by bv_omega)
    show ¬ Within (pageAt (next + 33) - 64#64) 64 b
    rw [within_iff (by omega)]
    omega
  have hfork := fork_of_free hinv hn htask hused hlevel hstack hclone
  obtain ⟨hinv', hpid, -⟩ := (fork_cases hinv hfork).resolve_left fun hfull => hn.ne hfull.1
  have hother : (afterFork k ⟨k.glblPid.toNat, hn⟩ 0 mm mem child).procs 0 = k.procs 0 :=
    Function.update_of_ne (fun h => hpos.ne (congrArg Fin.val h)) _ _
  have hnext' : next + 34 = 17 + 34 * (k.glblPid.toNat + 1) := by omega
  rw [hnext'] at hpages'
  have hlow : 0x40004000 ≤ 0x40000000 + 4096 * next := by omega
  refine ⟨_, hfork, hinv', hpid, ?_, (congrArg Process.vmList hother).trans hvm, ?_, hpages'.cr3_eq,
    hpages'.heap, hpages'.tables.congr fun b hb => hkeep b (hb.trans_le hlow)⟩
  · rw [hother]
    exact hused
  rw [← hsaved']
  refine Mem.load_congr fun i hi => hkeep _ ?_
  rw [toNat_add_ofNat (by omega)]
  omega

def forkCall : Call := ⟨0, true, .fork [] 0 (pageAt 49 - 64#64)⟩

/-- Forks succeed until the table is full. -/
theorem Forkable.run {n : ℕ} {k : Kernel} (h : Forkable n k) {c : ℕ} (hn : n + c ≤ numProcesses)
    (labels : Labels) (fuel : ℕ) :
    ∃ k', Forkable (n + c) k' ∧ ∀ cs,
      Proc.run gibLayout labels (fuel + 1) k (List.replicate c forkCall ++ cs) =
        (Proc.run gibLayout labels (fuel + 1) k' cs).map fun r =>
          ((List.range' n c).map (↑) ++ r.1, r.2) := by
  induction c generalizing n k with
  | zero => exact ⟨k, h, fun cs => by simp⟩
  | succ c ih =>
    have hcall : Forkable n { k with task := some 0, irq := true } :=
      ⟨h.inv.congr rfl (fun _ => Iff.rfl) fun _ => rfl, h.pid_eq, h.used, h.stack, h.saved, h.pages⟩
    obtain ⟨k₁, hfork, h₁⟩ := hcall.fork (by omega) rfl fuel
    obtain ⟨k', h', hrun⟩ := ih h₁ (by omega)
    refine ⟨k', by rwa [Nat.add_right_comm] at h', fun cs => ?_⟩
    have hstep : step gibLayout labels (fuel + 1) k forkCall = some (some (n : ℤ), k₁) := by
      simp only [step, forkCall, if_neg h.used, hfork, Option.map_some]
    rw [List.replicate_succ, List.cons_append, Proc.run, hstep]
    simp only [Option.bind_eq_bind, Option.bind_some, hrun cs]
    cases Proc.run gibLayout labels (fuel + 1) k' cs with
    | none => rfl
    | some r => rfl

/-- `alloc_process` claims the next slot when the stack can be allocated. -/
theorem allocProcess_of_allocStack {L : Layout} {k : Kernel} {mm : MmState} {r : VmRegion}
    (h : TableInv k) {p : ProcId} (hp : k.glblPid.toNat = p.val)
    (hstack : allocStack L k.mm = (some r, mm)) (labels : Labels) (name : List Byte) (entry : Entry) :
    ∃ k', allocProcess L labels k name entry = some (some p, k') ∧ (k'.procs p).vmList = [r] ∧
      k'.mm = { mm with mem := (initStack mm.mem default r labels.forkret).1 } := by
  have hfind : findUnused k.irqSave.2.procs = some p :=
    (h.findUnused_eq (hp.trans_lt p.isLt)).trans (congrArg some (Fin.ext hp))
  have hmm : allocStack L k.irqSave.2.mm = (some r, mm) := hstack
  unfold allocProcess allocSlot
  simp only [hfind, hmm]
  refine ⟨_, rfl, ?_, ?_⟩
  · simp only [irqRestore_procs, Kernel.setProc, Function.update_self]
    rfl
  · unfold Kernel.irqRestore
    split_ifs <;> rfl

/-- `init_process` succeeds when the first stack can be allocated; it then has the memory with
    its own top-level table. -/
theorem initProcess_of_allocStack {L : Layout} {mm mm' : MmState} {r : VmRegion}
    (h : allocStack L mm = (some r, mm')) (labels : Labels) (mlfq : Mlfq) (irq : Bool)
    (name : List Byte) :
    ∃ k, initProcess L labels (Kernel.zeroed mlfq mm irq) name = some k ∧
      (k.procs 0).state = .running ∧ (k.procs 0).vmList = [r] ∧
      k.mm = { (kmallocA mm' 4096).2 with
        mem := memcpy (initStack mm'.mem default r labels.forkret).1 (alignUp mm'.placementAddress)
          (physToVirt L (pageGetAddr mm'.cr3)) 4096 } := by
  obtain ⟨k, halloc, hvm, hmm⟩ :=
    allocProcess_of_allocStack (p := 0) (zeroed_inv mlfq mm irq) rfl h labels name .init
  have hlevel : checkLevel (numPriorityLevels - 1) = some 2 := by decide
  simp only [initProcess, halloc, Option.bind_eq_bind, Option.bind_some, schedEnqueue_of_level hlevel]
  refine ⟨_, rfl, ?_, ?_, ?_⟩
  · simp only [Kernel.setProc, Function.update_self]
  · simp only [Kernel.setProc, Function.update_self, hvm]
  · simp only [Kernel.setProc, hmm]
    rfl

def pagesState : MmState := ⟨pagesMem, 0x40010000, 0, 0, [], []⟩

theorem pagesState_pages : PagesFrom 16 pagesState := by
  have hfill : ∀ f i, f ≠ 3 → pagesMem.load (entryAddr gibLayout f i) = (((Mem.store (fun _ => 0)
      (entryAddr gibLayout 0 0) 0x1003).store (entryAddr gibLayout 1 1) 0x2003).store
      (entryAddr gibLayout 2 0) 0x3003).load (entryAddr gibLayout f i) := fun f i hf =>
    load_entry_congr (tableAddr_aligned 3) (fun b hb => fillTable_apply hb le_rfl)
      (fun h => hf (tableAddr_inj h)) i
  refine ⟨rfl, by decide, ?_, ?_, ?_, fun j _ => ?_⟩
  · rw [show pagesState.mem = pagesMem from rfl, hfill _ _ (by decide),
      load_entry_store (.inl (by decide)), load_entry_store (.inl (by decide)), Mem.load_store_self]
  · rw [show pagesState.mem = pagesMem from rfl, hfill _ _ (by decide),
      load_entry_store (.inl (by decide)), Mem.load_store_self]
  · rw [show pagesState.mem = pagesMem from rfl, hfill _ _ (by decide), Mem.load_store_self]
  · exact fillTable_load _ _ j j.isLt le_rfl

/-- `init` starts and is ready to fork. -/
theorem initProcess_forkable (labels : Labels) (mlfq : Mlfq) (irq : Bool) (name : List Byte) :
    ∃ k, initProcess gibLayout labels (Kernel.zeroed mlfq pagesState irq) name = some k ∧
      Forkable 1 k := by
  obtain ⟨mm, hstack, hpages, -⟩ := pagesState_pages.allocStack le_rfl (by norm_num)
  simp only [Nat.reduceAdd] at hstack hpages
  obtain ⟨k, hinit, hstate, hvm, hmm⟩ :=
    initProcess_of_allocStack hstack labels mlfq irq name
  obtain ⟨hinv, hone⟩ := initProcess_inv hinit
  -- the copied table takes the page behind the stack's region
  have hsource : physToVirt gibLayout (pageGetAddr mm.cr3) = pageAt 0 := by
    rw [hpages.cr3_eq]
    decide
  rw [hpages.heap, hsource] at hmm
  have hmem : ∀ b : Addr, ¬ Within (pageAt 50) 4096 b → k.mm.mem b =
      (initStack mm.mem default ⟨stackFlags, .stack, pageAt 16, pageAt 49⟩ labels.forkret).1 b := by
    intro b hb
    rw [hmm]
    refine (memcpy_apply _ _ _ (by norm_num) (fun i hi => ?_) b).trans (if_neg hb)
    have h50 := toNat_pageAt (n := 50) (by norm_num)
    have h0 := toNat_pageAt (n := 0) (by norm_num)
    rw [within_iff (by omega), toNat_add_ofNat (by omega)]
    omega
  have h50 : (pageAt 50).toNat = 0x40032000 := by decide
  have h49 : (pageAt 49 - 64#64).toNat = 0x40031000 - 64 := by decide
  have hfp : (pageAt 49 - 64#64 + 40#64).toNat = 0x40031000 - 24 := by decide
  refine ⟨k, hinit, hinv, hone, by rw [hstate]; exact ProcessState.noConfusion, hvm, ?_, ?_, ?_, ?_⟩
  · refine (Mem.load_congr fun i hi => hmem _ ?_).trans (initStack_frame _ _ _ _).rbp
    rw [within_iff (by omega), toNat_add_ofNat (by omega)]
    omega
  · rw [hmm]
    exact (kmallocA_cr3 mm 4096).trans hpages.cr3_eq
  · rw [hmm]
    show alignUp (alignUp mm.placementAddress + _) = _
    rw [hpages.heap]
    decide
  · obtain ⟨hpml4, hpdpt, hpd, hpt⟩ := hpages.tables
    have htables : Tables 51 mm.mem := ⟨hpml4, hpdpt, hpd, fun j hj => hpt j (by omega)⟩
    refine htables.congr fun b hb => ?_
    rw [hmem b (by rw [within_iff (by omega)]; omega)]
    refine initStack_apply ?_
    show ¬ Within (pageAt 49 - 64#64) 64 b
    rw [within_iff (by omega)]
    omega

/-- Nine forks fill the table, the tenth is refused. -/
theorem process_table_ten_forks : ∃ k₀ k,
    initProcess gibLayout ⟨0, 0, 0⟩ (Kernel.zeroed ⟨fun _ => .null, fun _ => .null⟩ pagesState true) [] =
      some k₀ ∧
    run gibLayout ⟨0, 0, 0⟩ 1 k₀ (List.replicate 10 forkCall) =
      some ([1, 2, 3, 4, 5, 6, 7, 8, 9, -1], k) ∧
    (Finset.univ.filter fun p => (k.procs p).state ≠ .unused).card = k.glblPid.toNat := by
  obtain ⟨k₀, hinit, hfork⟩ := initProcess_forkable ⟨0, 0, 0⟩ ⟨fun _ => .null, fun _ => .null⟩ true []
  obtain ⟨k, hk, hrun⟩ := hfork.run (c := 9) (by norm_num) ⟨0, 0, 0⟩ 0
  have hfull : step gibLayout ⟨0, 0, 0⟩ 1 k forkCall =
      some (some (-1), { k with task := some 0, irq := true }) := by
    have hinv : TableInv { k with task := some 0, irq := true } :=
      hk.inv.congr rfl (fun _ => Iff.rfl) fun _ => rfl
    simp only [step, forkCall, if_neg hk.used, fork_of_full hinv hk.pid_eq rfl, Option.map_some]
  have hten := hrun [forkCall]
  simp only [run, hfull, Option.bind_eq_bind, Option.bind_some, Option.map_some] at hten
  exact ⟨k₀, _, hinit, hten, (process_table hinit hten).1⟩

end Pages

end HorizonOS.Proc
