import HorizonOS.Sched.Mlfq

/-!
# The scheduler, one command at a time

`kernel/scheduler/scheduler.c`, the scheduling half of `kernel/scheduler/process.c`,
`arch/x86_64/switch.c`, `arch/x86_64/irqflags.c` and the timer handler of `kernel/time.c` as a
machine on one CPU. Each function is a list of commands, a continuation is a stack of frames, and
`swtch` stores one continuation and takes up another. The timer can strike between any two
commands while the interrupt flag is set.

What the functions do to the rest of a process record, to stacks and to memory is in the model of
the process table; here a process has a state, its queue links and a continuation. Processes run
arbitrary code: at a `user` command they may fork, yield, exit, turn interrupts off for a while or
return. The fields `entryIF`, `cur` and `log` are read by no command; they are what the results
speak about.

* `code`: the functions.
* `Machine.step`: one command or one timer interrupt.
* `boot`: `init` at its call of `ctx_switch(sched_p)`.
-/

namespace HorizonOS.Sched

open HorizonOS.Lib.LinkedList HorizonOS.Proc

/-! ## Code -/

inductive Fn
  | ctxSwitch
  | myproc
  | yield
  | exitProcess
  | schedEnqueue
  | scheduler
  | fork
  | allocProcessNoEntry
  | forkret
  | timerInterruptHandlerSched
  | user
  | critical
deriving DecidableEq, Repr

/-- The two pointers of a frame. -/
inductive Var
  | arg
  | p
deriving DecidableEq, Repr

inductive Cmd
  /-- `flags = read_rflags() & FL_IF`, the first half of `irq_save`. -/
  | readFlags
  | cli
  | sti
  /-- `irq_restore(flags)`. -/
  | irqRestore
  | spinlock
  | release
  /-- `p = cpus[0].task`. -/
  | getTask
  /-- `cpus[0].task = new`. -/
  | setTask
  /-- `mycpu()->scheduler_proc`. -/
  | getScheduler
  | setState (state : ProcessState)
  /-- `p = NULL; level = 0`. -/
  | resetLocals
  /-- The loop over the levels of the mlfq. -/
  | scan
  | listAddTail
  /-- The argument `demote(level)`. -/
  | demoteLevel
  /-- The search for an `UNUSED` slot and its initialisation. -/
  | claimSlot
  /-- `clone_parent_base_frame(child)`. -/
  | cloneStack
  | ifNull (target : ℕ)
  | ifZombie (target : ℕ)
  | jump (target : ℕ)
  | swtch
  | call (fn : Fn) (v : Var)
  /-- `p->entry()`. -/
  | callEntry
  | ret
  /-- `return p`. -/
  | retProc
  | iret
  /-- A point of a process's own code. -/
  | user
  /-- `panic`, up to its `cli`. -/
  | panic
  /-- `while (1) hlt`. -/
  | halt
deriving DecidableEq, Repr

/-- Where a forked child comes back out of `clone_parent_base_frame`. -/
abbrev childReturn : ℕ := 7

/-- The functions. `ctx_switch` is switch.c:12–24; `myproc` process.c:153–167; `yield`
    scheduler.c:116–127; `exit_process` process.c:144–151; `sched_enqueue` scheduler.c:30–46 after
    its test of the level; `scheduler` scheduler.c:58–112; `fork` process.c:465–498;
    `alloc_process_no_entry` process.c:354–395; `forkret` process.c:126–138; the timer handler
    time.c:32–39. `critical` is a stretch of a process's code between `irq_save` and
    `irq_restore`. -/
def code : Fn → List Cmd
  | .ctxSwitch =>
    [.readFlags, .cli, .call .myproc .arg, .setTask, .swtch, .irqRestore, .ret]
  | .myproc => [.readFlags, .cli, .getTask, .irqRestore, .retProc]
  | .yield =>
    [.call .myproc .arg, .getScheduler, .setState .ready, .call .ctxSwitch .arg, .ret]
  | .exitProcess =>
    [.call .myproc .arg, .setState .zombie, .getScheduler, .call .ctxSwitch .arg, .panic, .halt]
  | .schedEnqueue => [.readFlags, .cli, .spinlock, .listAddTail, .release, .irqRestore, .ret]
  | .scheduler =>
    [.sti, .resetLocals, .readFlags, .cli, .spinlock, .scan, .release, .irqRestore, .ifNull 0,
      .setState .running, .call .ctxSwitch .p, .ifZombie 0, .demoteLevel,
      .call .schedEnqueue .p, .jump 0]
  | .fork =>
    [.readFlags, .cli, .call .myproc .arg, .call .allocProcessNoEntry .arg, .ifNull childReturn,
      .cloneStack, .call .schedEnqueue .p, .irqRestore, .ret]
  | .allocProcessNoEntry => [.readFlags, .cli, .claimSlot, .irqRestore, .retProc]
  | .forkret => [.call .myproc .arg, .sti, .callEntry, .call .exitProcess .arg, .halt]
  | .timerInterruptHandlerSched => [.getScheduler, .call .ctxSwitch .arg, .iret]
  | .user => [.user, .ret]
  | .critical => [.readFlags, .cli, .user, .irqRestore, .ret]

/-! ## States -/

/-- An activation of a function. `arg` is its pointer parameter or a pointer it passes on, `p` its
    other pointer; `entryIF` is the interrupt flag with which it was entered. -/
structure Frame where
  fn : Fn
  pc : ℕ := 0
  entryIF : Bool
  flags : Bool := false
  arg : Option ProcId := none
  p : Option ProcId := none
  level : Level := 0
deriving DecidableEq, Repr

namespace Frame

def cmd (f : Frame) : Option Cmd := (code f.fn)[f.pc]?

def next (f : Frame) : Frame := { f with pc := f.pc + 1 }

def goto (f : Frame) (target : ℕ) : Frame := { f with pc := target }

def var (f : Frame) : Var → Option ProcId
  | .arg => f.arg
  | .p => f.p

/-- The caller after a return: past the call, except that a process's own code decides itself
    where it goes on. -/
def resume (f : Frame) : Frame :=
  match f.cmd with
  | some (.call _ _) | some .callEntry => f.next
  | _ => f

theorem resume_call {f : Frame} {fn : Fn} {v : Var} (hc : f.cmd = some (.call fn v)) :
    f.resume = f.next := by
  unfold resume
  rw [hc]

theorem resume_callEntry {f : Frame} (hc : f.cmd = some .callEntry) : f.resume = f.next := by
  unfold resume
  rw [hc]

theorem resume_user {f : Frame} (hc : f.cmd = some .user) : f.resume = f := by
  unfold resume
  rw [hc]

@[simp] theorem resume_entryIF (f : Frame) : f.resume.entryIF = f.entryIF := by
  unfold resume
  split <;> rfl

end Frame

/-- What has happened to the queues. -/
inductive Event
  | enqueue (p : ProcId) (level : Level)
  | pick (p : ProcId) (level : Level)
deriving DecidableEq, Repr

/-- `live` is the stack of frames that executes, innermost first, and `saved p` the continuation in
    the context of `p`. `cur` is the process whose continuation was last taken up. -/
structure Machine where
  states : ProcId → ProcessState
  mlfq : Mlfq
  lock : Bool
  irq : Bool
  task : ProcId
  schedulerProc : ProcId
  live : List Frame
  saved : ProcId → List Frame
  cur : ProcId
  log : List Event

/-! ## Steps -/

/-- The slot that the allocator takes (process.c:359–365). -/
def firstUnused (states : ProcId → ProcessState) : Option ProcId :=
  (List.finRange numProcesses).find? fun p => states p = .unused

namespace Machine

/-- The machine with `f` on top of `rest`. -/
def on (m : Machine) (f : Frame) (rest : List Frame) : Machine := { m with live := f :: rest }

/-- A call of `fn` from `f`, which waits at its own command. -/
def enter (m : Machine) (f : Frame) (rest : List Frame) (fn : Fn) (arg : Option ProcId)
    (level : Level) : Machine :=
  { m with live := { fn := fn, entryIF := m.irq, arg := arg, level := level } :: f :: rest }

/-- The command `c` of the frame `f` on top of `rest`; `none` if it does not complete. -/
def exec (m : Machine) (f : Frame) (rest : List Frame) : Cmd → Option Machine
  | .readFlags => some (m.on { f.next with flags := m.irq } rest)
  | .cli => some ({ m with irq := false }.on f.next rest)
  | .sti => some ({ m with irq := true }.on f.next rest)
  | .irqRestore => some ({ m with irq := m.irq || f.flags }.on f.next rest)
  | .spinlock => if m.lock then some m else some ({ m with lock := true }.on f.next rest)
  | .release => some ({ m with lock := false }.on f.next rest)
  | .getTask => some (m.on { f.next with p := some m.task } rest)
  | .setTask => f.arg.map fun new => { m with task := new }.on f.next rest
  | .getScheduler => some (m.on { f.next with arg := some m.schedulerProc } rest)
  | .setState state => f.p.map fun p =>
      { m with states := Function.update m.states p state }.on f.next rest
  | .resetLocals => some (m.on { f.next with p := none, level := 0 } rest)
  | .scan =>
    match Sched.scan m.mlfq with
    | (none, l) => some ({ m with mlfq := l }.on f.next rest)
    | (some (p, i), l) =>
      some ({ m with mlfq := l, log := m.log ++ [Event.pick p i] }.on
        { f.next with p := some p, level := i } rest)
  | .listAddTail => f.arg.map fun p =>
      { m with
        mlfq := enqueue m.mlfq p f.level
        log := m.log ++ [Event.enqueue p f.level] }.on f.next rest
  | .demoteLevel => some (m.on { f.next with level := demote f.level } rest)
  | .claimSlot =>
    match firstUnused m.states with
    | none => some (m.on { f.next with p := none } rest)
    | some c =>
      some ({ m with
        states := Function.update m.states c .ready
        mlfq := clearLinks m.mlfq c
        saved := Function.update m.saved c [] }.on { f.next with p := some c } rest)
  | .cloneStack => f.p.map fun c =>
      { m with saved := Function.update m.saved c (f.goto childReturn :: rest) }.on f.next rest
  | .ifNull target => some (m.on (if f.p = none then f.goto target else f.next) rest)
  | .ifZombie target => f.p.map fun p =>
      m.on (if m.states p = .zombie then f.goto target else f.next) rest
  | .jump target => some (m.on (f.goto target) rest)
  | .swtch => f.p.bind fun old => f.arg.map fun new =>
      { m with
        saved := Function.update m.saved old (f.next :: rest)
        live := m.saved new
        cur := new }
  | .call fn v => some (m.enter f rest fn (f.var v) f.level)
  | .callEntry =>
    some (m.enter f rest (if f.p = some m.schedulerProc then .scheduler else .user) none 0)
  | .ret =>
    match rest with
    | [] => none
    | caller :: rest => some (m.on caller.resume rest)
  | .retProc =>
    match rest with
    | [] => none
    | caller :: rest => some (m.on { caller.resume with p := f.p } rest)
  | .iret => some { m with irq := true, live := rest }
  | .panic => some ({ m with irq := false }.on f.next rest)
  | .user | .halt => none

end Machine

/-- What happens next: the current command, what a process does at a `user` command, or the
    timer. -/
inductive Act
  | go
  | fork (level : Level)
  | yield
  | exitProcess
  | irqSave
  | leave
  | timer
deriving DecidableEq, Repr

namespace Machine

/-- The choice of a process whose code `f` is. -/
def choose (m : Machine) (f : Frame) (rest : List Frame) : Act → Option Machine
  | .fork level => some (m.enter f rest .fork none level)
  | .yield => some (m.enter f rest .yield none 0)
  | .exitProcess => some (m.enter f rest .exitProcess none 0)
  | .irqSave => some (m.enter f rest .critical none 0)
  | .leave => some (m.on f.next rest)
  | .go | .timer => none

/-- The timer interrupt: the gate and the stub clear the flag (descriptor_tables.c:59,
    interrupt.S:80), and `iretq` will set it again. -/
def interrupt (m : Machine) : Machine :=
  { m with
    irq := false
    live := { fn := .timerInterruptHandlerSched, entryIF := true } :: m.live }

def step (m : Machine) (a : Act) : Option Machine :=
  if a = .timer then
    if m.irq then some m.interrupt else none
  else
    match m.live with
    | [] => none
    | f :: rest =>
      match f.cmd with
      | none => none
      | some .user => m.choose f rest a
      | some c => if a = .go then m.exec f rest c else none

/-- A step is an interrupt, a choice of a process in its own code, or a command. -/
theorem step_cases {m m' : Machine} {a : Act} (h : m.step a = some m') :
    (a = .timer ∧ m.irq = true ∧ m' = m.interrupt) ∨
    (∃ f rest, m.live = f :: rest ∧ f.cmd = some .user ∧ m.choose f rest a = some m') ∨
    ∃ f rest c, m.live = f :: rest ∧ f.cmd = some c ∧ m.exec f rest c = some m' ∧ a = .go := by
  unfold step at h
  split at h
  · next ha =>
    split_ifs at h with hirq
    exact .inl ⟨ha, hirq, (Option.some.inj h).symm⟩
  · split at h
    · cases h
    · next f rest hlive =>
      split at h
      · cases h
      · next hc => exact .inr (.inl ⟨f, rest, hlive, hc, h⟩)
      · next c _ hc =>
        split_ifs at h with hgo
        exact .inr (.inr ⟨f, rest, c, hlive, hc, h, hgo⟩)

def run (m : Machine) : List Act → Option Machine
  | [] => some m
  | a :: as => (m.step a).bind fun m => m.run as

/-- Some run leads from `m` to `m'`, each of whose steps is allowed. -/
def Steps (allowed : Machine → Act → Prop) (m m' : Machine) : Prop :=
  Relation.ReflTransGen (fun m m' => ∃ a, allowed m a ∧ m.step a = some m') m m'

theorem Steps.of_run {allowed : Machine → Act → Prop} {m m' : Machine} {as : List Act}
    (hrun : m.run as = some m') (has : ∀ a ∈ as, ∀ m, allowed m a) : Steps allowed m m' := by
  induction as generalizing m with
  | nil =>
    obtain rfl := Option.some.inj hrun
    exact .refl
  | cons a as ih =>
    obtain ⟨m₁, hstep, hrest⟩ := Option.bind_eq_some_iff.mp hrun
    have hfirst := has a List.mem_cons_self m
    exact .head ⟨a, hfirst, hstep⟩ (ih hrest fun b hb => has b (List.mem_cons_of_mem a hb))

/-- The command that comes next, with its frame. -/
def At (m : Machine) (f : Frame) (c : Cmd) : Prop := ∃ rest, m.live = f :: rest ∧ f.cmd = some c

/-- The processes on a level, in order, as far as the links lead. -/
def listed (m : Machine) (i : Level) : List ProcId := queue m.mlfq i

end Machine

/-! ## The start -/

/-- The stack of a process before it first runs: the return into `forkret` that `init_stack` puts
    there. -/
def freshStack : List Frame := [{ fn := .forkret, entryIF := true }]

/-- The rest of the stack while `init`, or a child that has it by `fork`, runs its own code. -/
def initCode : List Frame :=
  [{ fn := .user, entryIF := true }, { fn := .forkret, pc := 2, entryIF := true, p := some 0 }]

/-- A forked child that has not run yet. -/
def bornStack (child : ProcId) (level : Level) : List Frame :=
  { fn := .fork, pc := childReturn, entryIF := true, flags := true, p := some child,
    level := level } :: initCode

/-- `init` calls `ctx_switch(sched_p)` (process.c:248): it is in slot 0, runs with interrupts on and
    has been on the bottom level since `init_process`; its children A and B, in slots 1 and 2, are
    on the levels 0 and 1; the scheduler process is in slot 3. -/
def boot : Machine where
  states p := if p = 0 then .running else if p.val ≤ 3 then .ready else .unused
  mlfq := enqueue (enqueue (enqueue (initScheduler ⟨fun _ => .null, fun _ => .null⟩) 0 2) 1 0) 2 1
  lock := false
  irq := true
  task := 0
  schedulerProc := 3
  live := { fn := .ctxSwitch, entryIF := true, arg := some 3 } :: initCode
  saved p :=
    if p = 0 ∨ p = 3 then freshStack
    else if p = 1 then bornStack 1 0
    else if p = 2 then bornStack 2 1
    else []
  cur := 0
  log := [.enqueue 0 2, .enqueue 1 0, .enqueue 2 1]

end HorizonOS.Sched
