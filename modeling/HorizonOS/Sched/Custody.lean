import HorizonOS.Sched.Stacks

/-!
# No process is lost

Every process that can run is on exactly one level of the mlfq, or the scheduler has taken it off
and will put it back, or `fork` has claimed it and will put it there. Which of these it is can be
read off the frames of the stacks, in every state of a run in which the timer never strikes while
the scheduler process is the current task.

* `due`, `forking`: what a stack has in hand.
* `Inv`: the invariant.
* `Inv.move`, `Inv.enter`, `Inv.leave`: steps within a stack keep it.
* `Inv.pick`, `Inv.put`, `Inv.claim`, `Inv.switched`: so do the steps that pass a process on.
-/

namespace HorizonOS.Sched

open HorizonOS.Proc

/-! ## What a stack has in hand -/

/-- The process that the scheduler has taken off the queues, and the level it goes back to. -/
def taken (f : Frame) : Option (ProcId × Level) :=
  match f.fn with
  | .scheduler =>
    if 6 ≤ f.pc ∧ f.pc ≤ 13 then
      f.p.map fun p => (p, if f.pc ≤ 12 then demote f.level else f.level)
    else none
  | .schedEnqueue => if f.pc ≤ 3 then f.arg.map fun p => (p, f.level) else none
  | _ => none

/-- The same for the stack of the scheduler process, which may be in `ctx_switch`. -/
def due : List Frame → Option (ProcId × Level)
  | [] => none
  | f :: rest => if f.fn = .ctxSwitch ∨ f.fn = .myproc then due rest else taken f

/-- The child that `fork` has in hand on a process's stack. -/
def forking : List Frame → Option ProcId
  | [] => none
  | f :: _ => carries f

/-- The frame is where the scheduler process is after a process has handed the CPU back, before
    it has looked at the state. -/
def returned (f : Frame) : Bool :=
  match f.fn with
  | .ctxSwitch => 5 ≤ f.pc
  | .scheduler => f.pc = 11
  | _ => false

def handedBack : List Frame → Bool
  | [] => false
  | f :: _ => returned f

/-- The stack runs into a `swtch` and does nothing else before. -/
def leaving : List Frame → Prop
  | [] => False
  | f :: rest =>
    match f.fn with
    | .ctxSwitch => f.pc ≤ 4
    | .myproc => leaving rest
    | .timerInterruptHandlerSched => f.pc ≤ 1 ∧ leaving rest
    | _ => False

/-- A stack whose process has the CPU no more: it is past its `swtch`, or it has never run. -/
def Resting (l : List Frame) : Prop :=
  forking l = none ∧ ∀ f ∈ l.head?, f.cmd ≠ some .swtch

namespace Machine

def Alive (m : Machine) (p : ProcId) : Prop := m.states p ≠ .unused ∧ m.states p ≠ .zombie

/-- What the scheduler process has in hand. -/
def owed (m : Machine) : Option (ProcId × Level) :=
  due (if m.cur = m.schedulerProc then m.live else m.saved m.schedulerProc)

/-- What the running process has in hand. -/
def forked (m : Machine) : Option ProcId :=
  if m.cur = m.schedulerProc then none else forking m.live

/-- The process that `cpus[0].task` points to: the one that runs, and at the `swtch` already the
    one that it switches to. -/
def onCpu (m : Machine) : ProcId :=
  match m.live with
  | [] => m.cur
  | f :: _ => if f.cmd = some .swtch then f.arg.getD m.cur else m.cur

theorem onCpu_eq {m : Machine} (h : ∀ f ∈ m.live.head?, f.cmd ≠ some .swtch) : m.onCpu = m.cur := by
  unfold onCpu
  split
  · rfl
  · next f rest hlive =>
    rw [if_neg (h f (by rw [hlive]; rfl))]

theorem onCpu_eq_of_live {m : Machine} {f : Frame} {rest : List Frame} (hlive : m.live = f :: rest)
    (h : f.cmd ≠ some .swtch) : m.onCpu = m.cur := by
  refine onCpu_eq fun g hg => ?_
  rw [hlive] at hg
  exact Option.some.inj hg ▸ h

end Machine

/-- Every stack belongs to its process. -/
structure Control (m : Machine) : Prop where
  irq : IrqInv m
  live : StackFor m.schedulerProc m.cur m.live
  saved : ∀ p, p ≠ m.cur → StackFor m.schedulerProc p (m.saved p) ∧ Resting (m.saved p)
  task : m.task = m.onCpu

/-- The invariant, with the contents `q` of the levels. -/
structure Inv (m : Machine) (q : Level → List ProcId) : Prop extends Control m where
  sched : m.Alive m.schedulerProc
  cur : m.states m.cur ≠ .unused
  /-- While a process runs the scheduler waits for it, except until the first switch. -/
  parked : m.cur ≠ m.schedulerProc →
    (∃ i, m.owed = some (m.cur, i)) ∧ handedBack (m.saved m.schedulerProc) = true ∨
    m.owed = none ∧ leaving m.live
  /-- A process in the scheduler's hand is alive, unless it has just handed the CPU back. -/
  settled : m.cur = m.schedulerProc → ∀ p i, m.owed = some (p, i) → handedBack m.live = false →
    m.states p ≠ .zombie
  holds : Holds m.mlfq q
  listed : ∀ p i, p ∈ q i → p ≠ m.schedulerProc ∧ m.Alive p
  owed : ∀ p i, m.owed = some (p, i) →
    p ≠ m.schedulerProc ∧ m.states p ≠ .unused ∧ ∀ j, p ∉ q j
  forked : ∀ c, m.forked = some c →
    c ≠ m.schedulerProc ∧ m.Alive c ∧ (∀ j, c ∉ q j) ∧ ∀ i, m.owed ≠ some (c, i)
  found : ∀ p, p ≠ m.schedulerProc → m.Alive p →
    (∃ j, p ∈ q j) ∨ (∃ i, m.owed = some (p, i)) ∨ m.forked = some p
  /-- Only claimed processes have ever been queued, and not the child that `fork` has in hand. -/
  fresh : ∀ p i, .enqueue p i ∈ m.log → m.states p ≠ .unused ∧ m.forked ≠ some p

/-- What a step does to the levels and to the scheduler's hand. -/
inductive Passes (m : Machine) (q : Level → List ProcId) (m' : Machine) :
    (Level → List ProcId) → Prop
  | keep (howed : m'.owed = m.owed) (hlog : m'.log = m.log) : Passes m q m' q
  | pick {p : ProcId} {i : Level} {xs : List ProcId} (hfirst : ∀ j < i, q j = [])
      (hi : q i = p :: xs) (howed : m.owed = none) (howed' : m'.owed = some (p, demote i))
      (hlog : m'.log = m.log ++ [Event.pick p i]) : Passes m q m' (Function.update q i xs)
  | put {p : ProcId} {i : Level} (howed : m.owed = some (p, i)) (howed' : m'.owed = none)
      (hlog : m'.log = m.log ++ [Event.enqueue p i]) : Passes m q m' (Function.update q i (q i ++ [p]))
  | spawn {c : ProcId} {i : Level} (hforked : m.forked = some c) (howed : m'.owed = m.owed)
      (hlog : m'.log = m.log ++ [Event.enqueue c i]) : Passes m q m' (Function.update q i (q i ++ [c]))
  | drop {p : ProcId} {i : Level} (howed : m.owed = some (p, i)) (howed' : m'.owed = none)
      (hstate : m.states p = .zombie) (hstates : m'.states = m.states) (hlog : m'.log = m.log) :
      Passes m q m' q

/-! ## Moves within a function -/

/-- The frame `g` is `f` further on, with the same in hand. -/
structure Moves (s o : ProcId) (f g : Frame) : Prop where
  fn : g.fn = f.fn
  args : f.fn = .ctxSwitch ∨ f.fn = .schedEnqueue → g.arg = f.arg ∧ g.level = f.level
  frame : FrameFor s o f → FrameFor s o g
  taken : taken g = taken f
  carries : carries g = carries f
  returned : returned g = returned f
  ctxSwitch : f.fn = .ctxSwitch → f.pc ≤ 4 → g.pc ≤ 4
  timer : f.fn = .timerInterruptHandlerSched → f.pc ≤ 1 → g.pc ≤ 1

section Moves

variable {s o : ProcId} {f g : Frame} {rest : List Frame}

theorem Moves.due (h : Moves s o f g) : due (g :: rest) = due (f :: rest) := by
  unfold Sched.due
  rw [h.fn, h.taken]

theorem Moves.leaving (h : Moves s o f g) (hl : leaving (f :: rest)) : leaving (g :: rest) := by
  unfold Sched.leaving at hl ⊢
  rw [h.fn]
  cases hfn : f.fn <;> simp only [hfn] at hl ⊢
  · exact h.ctxSwitch hfn hl
  · exact hl
  · exact ⟨h.timer hfn hl.1, hl.2⟩

/-- The commands that only go on to the next one, as far as the frames are concerned. -/
def plain : List Cmd :=
  [.readFlags, .cli, .sti, .irqRestore, .spinlock, .release, .setTask, .setState .running,
    .setState .ready, .setState .zombie, .cloneStack, .panic]

theorem moves_next {c : Cmd} (hc : f.cmd = some c) (hplain : c ∈ plain) (flags : Bool) :
    Moves s o f { f.next with flags := flags } := by
  refine of_sites (P := fun f => Moves s o f { f.next with flags := flags }) hc fun x hx => ?_
  have hmem : x ∈ plain.flatMap sites := List.mem_flatMap.mpr ⟨c, hplain, hx⟩
  clear hx hplain hc
  simp only [plain, sites, List.flatMap_cons, List.flatMap_nil, List.append_nil,
    List.cons_append, List.nil_append] at hmem
  fin_cases hmem <;> refine ⟨rfl, fun _ => ⟨rfl, rfl⟩, ?_, rfl, rfl, rfl, ?_, ?_⟩ <;>
    simp [FrameFor, Frame.next]

theorem moves_getTask (hc : f.cmd = some .getTask) :
    Moves s o f { f.next with p := some o } := by
  refine of_sites (P := fun f => Moves s o f { f.next with p := some o }) hc fun x hx => ?_
  obtain rfl := List.mem_singleton.mp hx
  constructor <;> simp [FrameFor, Frame.next, Sched.taken, Sched.carries, Sched.returned]

theorem moves_getScheduler (hc : f.cmd = some .getScheduler) :
    Moves s o f { f.next with arg := some s } := by
  refine of_sites (P := fun f => Moves s o f { f.next with arg := some s }) hc fun x hx => ?_
  simp only [sites] at hx
  fin_cases hx <;> refine ⟨rfl, ?_, ?_, rfl, rfl, rfl, ?_, ?_⟩ <;> simp [FrameFor, Frame.next]

theorem moves_resetLocals (hc : f.cmd = some .resetLocals) :
    Moves s o f { f.next with p := none, level := 0 } := by
  refine of_sites (P := fun f => Moves s o f { f.next with p := none, level := 0 }) hc fun x hx => ?_
  obtain rfl := List.mem_singleton.mp hx
  constructor <;> simp [FrameFor, Frame.next, Sched.taken, Sched.carries, Sched.returned]

theorem moves_demoteLevel (hc : f.cmd = some .demoteLevel) :
    Moves s o f { f.next with level := demote f.level } := by
  refine of_sites (P := fun f => Moves s o f { f.next with level := demote f.level }) hc
    fun x hx => ?_
  obtain rfl := List.mem_singleton.mp hx
  constructor <;> simp [FrameFor, Frame.next, Sched.taken, Sched.carries, Sched.returned]

theorem moves_ifNull {target : ℕ} (hc : f.cmd = some (.ifNull target)) :
    Moves s o f (if f.p = none then f.goto target else f.next) := by
  refine of_sites (P := fun f => Moves s o f (if f.p = none then f.goto target else f.next)) hc
    fun x hx => ?_
  simp only [sites] at hx
  split_ifs at hx with h0 h7
  · obtain rfl := List.mem_singleton.mp hx
    cases f.p <;> constructor <;>
      simp [FrameFor, Frame.goto, Frame.next, Sched.taken, Sched.carries, Sched.returned, h0]
  · obtain rfl := List.mem_singleton.mp hx
    cases f.p <;> constructor <;>
      simp [FrameFor, Frame.goto, Frame.next, Sched.taken, Sched.carries, Sched.returned, h7]
  · exact absurd hx List.not_mem_nil

theorem moves_jump {target : ℕ} (hc : f.cmd = some (.jump target)) : Moves s o f (f.goto target) := by
  refine of_sites (P := fun f => Moves s o f (f.goto target)) hc fun x hx => ?_
  simp only [sites] at hx
  split_ifs at hx with h0
  · obtain rfl := List.mem_singleton.mp hx
    constructor <;> simp [FrameFor, Frame.goto, Sched.taken, Sched.carries, Sched.returned, h0]
  · exact absurd hx List.not_mem_nil

/-- A process comes out of its own code. -/
theorem moves_leave (hc : f.cmd = some .user) : Moves s o f f.next := by
  refine of_sites (P := fun f => Moves s o f f.next) hc fun x hx => ?_
  simp only [sites] at hx
  fin_cases hx <;> constructor <;> simp [FrameFor, Frame.next, Sched.taken, Sched.carries,
    Sched.returned]

end Moves

/-! ## Calls and returns -/

/-- The frame `f` calls `g`, which then has the same in hand. -/
structure Calls (s o : ProcId) (f g : Frame) : Prop where
  waits : Waits f g
  frame : FrameFor s o g
  due : o = s → ∀ rest, due (g :: f :: rest) = due (f :: rest)
  carries : o ≠ s → carries g = carries f
  returned : returned g = returned f
  leaving : ∀ rest, leaving (f :: rest) → leaving (g :: f :: rest)

/-- The frame `g` returns, and `f`, which waited for it, goes on as `f'`. -/
structure Returns (s o : ProcId) (g f f' : Frame) : Prop where
  fn : f'.fn = f.fn
  swtch : f'.cmd ≠ some .swtch
  args : f.fn = .ctxSwitch ∨ f.fn = .schedEnqueue → f'.arg = f.arg ∧ f'.level = f.level
  frame : FrameFor s o f'
  due : o = s → ∀ rest, due (f' :: rest) = due (g :: f :: rest)
  carries : o ≠ s → carries f' = carries g
  returned : o = s → returned f' = returned g
  leaving : ∀ rest, leaving (g :: f :: rest) → leaving (f' :: rest)

section Calls

variable {s o : ProcId} {f g : Frame} {fn : Fn} {v : Var} {irq lock : Bool}

/-- `fork` calls with interrupts off. -/
theorem FrameOk.masked (h : FrameOk f irq lock) (hfn : f.fn = .fork) (hpc : f.pc = 3 ∨ f.pc = 6) :
    irq = false := by
  obtain ⟨-, ph, hph, hholds⟩ := h
  rw [hfn] at hph
  rcases hpc with hpc | hpc <;> rw [hpc] at hph <;> obtain rfl := Option.some.inj hph <;>
    exact hholds.1

theorem calls_call (hc : f.cmd = some (.call fn v)) (hf : FrameFor s o f)
    (hok : FrameOk f irq lock) :
    Calls s o f { fn := fn, entryIF := irq, arg := f.var v, level := f.level } := by
  have hwait : Waits f { fn := fn, entryIF := irq, arg := f.var v, level := f.level } :=
    .inr (.inl ⟨v, hc, fun _ => ⟨rfl, rfl⟩⟩)
  have hmask := hok.masked
  have hsite := cmd_sites hc
  clear hc hok
  obtain ⟨fn', pc, entryIF, flags, arg, p, level⟩ := f
  cases fn <;> cases v <;> simp only [sites] at hsite <;> fin_cases hsite <;>
    refine ⟨hwait, ?_, ?_, ?_, ?_, ?_⟩ <;>
    simp_all [FrameFor, Sched.due, taken, Sched.carries, Sched.returned, Sched.leaving, Frame.var]

theorem calls_callEntry (hc : f.cmd = some .callEntry) (hf : FrameFor s o f) :
    Calls s o f { fn := if f.p = some s then .scheduler else .user, entryIF := irq } := by
  have hsite := cmd_sites hc
  obtain ⟨fn', pc, entryIF, flags, arg, p, level⟩ := f
  obtain ⟨rfl, rfl⟩ := Prod.mk.inj (List.mem_singleton.mp hsite)
  have hiff : p = some s ↔ o = s := hf.2 (Nat.le_succ 1)
  by_cases hp : p = some s
  · refine ⟨.inr (.inr (.inl ⟨rfl, .inr (if_pos hp)⟩)), ?_, ?_, ?_, ?_, ?_⟩ <;>
      simp [FrameFor, Sched.due, taken, Sched.carries, Sched.returned, Sched.leaving, hp, hiff.mp hp]
  · have ho : o ≠ s := fun h => hp (hiff.mpr h)
    refine ⟨.inr (.inr (.inl ⟨rfl, .inl (if_neg hp)⟩)), ?_, ?_, ?_, ?_, ?_⟩ <;>
      simp [FrameFor, Sched.due, taken, Sched.carries, Sched.returned, Sched.leaving, hp, ho]

theorem calls_user (hc : f.cmd = some .user) (hf : FrameFor s o f)
    (hfn : fn ∈ [Fn.fork, .yield, .exitProcess, .critical]) (level : Level) :
    Calls s o f { fn := fn, entryIF := irq, level := level } := by
  have hmem : fn ∈ [Fn.fork, .yield, .exitProcess, .critical] ++ [Fn.ctxSwitch] :=
    List.mem_append_left _ hfn
  have hwait : Waits f { fn := fn, entryIF := irq, level := level } :=
    .inr (.inr (.inr ⟨hc, hmem⟩))
  have hsite := cmd_sites hc
  obtain ⟨fn', pc, entryIF, flags, arg, p, level⟩ := f
  simp only [sites] at hsite
  fin_cases hsite <;> fin_cases hfn <;> refine ⟨hwait, ?_, ?_, ?_, ?_, ?_⟩ <;>
    simp_all [FrameFor, Sched.due, Sched.carries, Sched.returned, Sched.leaving]

theorem returns_ret {c : Cmd} {r : Option ProcId} (hc : g.cmd = some c)
    (hret : c = .ret ∧ r = f.resume.p ∨ c = .retProc ∧ r = g.p) (hg : FrameFor s o g)
    (hf : FrameFor s o f) (hwait : Waits f g) : Returns s o g f { f.resume with p := r } := by
  have hgs := cmd_sites hc
  clear hc
  rcases hret with ⟨rfl, rfl⟩ | ⟨rfl, rfl⟩
  all_goals
    obtain ⟨gfn, gpc, gentryIF, gflags, garg, gp, glevel⟩ := g
    simp only [sites] at hgs
    rcases hwait with ⟨htimer, -⟩ | ⟨v, hcall, -⟩ | ⟨hentry, hfn⟩ | ⟨huser, hfn⟩
    · fin_cases hgs <;> cases htimer
    · have hfs := cmd_sites hcall
      rw [Frame.resume_call hcall]
      clear hcall
      obtain ⟨fn, pc, entryIF, flags, arg, p, level⟩ := f
      fin_cases hgs <;> cases v <;> simp only [sites] at hfs <;> fin_cases hfs <;>
        constructor <;> simp_all [FrameFor, Frame.next, Frame.cmd, code, Sched.due, taken,
          Sched.carries, Sched.returned, Sched.leaving]
    · have hfs := cmd_sites hentry
      rw [Frame.resume_callEntry hentry]
      clear hentry
      obtain ⟨fn, pc, entryIF, flags, arg, p, level⟩ := f
      simp only [sites] at hfs
      fin_cases hgs <;> fin_cases hfs <;> constructor <;>
        simp_all [FrameFor, Frame.next, Frame.cmd, code, Sched.due, Sched.carries, Sched.returned,
          Sched.leaving]
    · have hfs := cmd_sites huser
      rw [Frame.resume_user huser]
      clear huser
      obtain ⟨fn, pc, entryIF, flags, arg, p, level⟩ := f
      simp only [sites] at hfs
      fin_cases hgs <;> fin_cases hfs <;> constructor <;>
        simp_all [FrameFor, Frame.cmd, code, Sched.due, Sched.carries, Sched.returned, Sched.leaving]

end Calls

/-! ## Steps that leave everything where it is -/

section Quiet

variable {m m' : Machine} {q : Level → List ProcId} {f g : Frame} {rest : List Frame}

/-- The current task is the process that runs, but for the last moment before a switch. -/
theorem Control.task_eq (h : Control m) (hlive : m.live = f :: rest) {c : Cmd}
    (hc : f.cmd = some c) (hsw : c ≠ .swtch) : m.task = m.cur := by
  refine h.task.trans (Machine.onCpu_eq_of_live hlive ?_)
  rw [hc]
  exact fun he => hsw (Option.some.inj he)

/-- Only `cpus[0].task = new` leads to a `swtch`. -/
theorem Frame.next_cmd_ne {c : Cmd} (hc : f.cmd = some c) (hset : c ≠ .setTask) :
    f.next.cmd ≠ some .swtch := by
  intro hsw
  obtain ⟨hfn, hpc⟩ := cmd_site hsw rfl
  have hfn : f.fn = .ctxSwitch := hfn
  have hpc : f.pc = 3 := Nat.succ.inj hpc
  rw [Frame.cmd, hfn, hpc] at hc
  exact hset (Option.some.inj hc).symm

/-- No jump leads to one. -/
theorem Frame.goto_cmd_ne {target : ℕ}
    (hc : f.cmd = some (.ifNull target) ∨ f.cmd = some (.jump target)) :
    (f.goto target).cmd ≠ some .swtch := by
  intro hsw
  obtain ⟨hfn, -⟩ := cmd_site hsw rfl
  have hfn : f.fn = .ctxSwitch := hfn
  rcases hc with hc | hc
  all_goals
    have hsite := cmd_sites hc
    rw [hfn] at hsite
    simp only [sites] at hsite
    split_ifs at hsite <;> simp at hsite

/-- The current task, when the top frame changes and does not come to a `swtch`. -/
theorem Control.task_of (h : Control m) (hlive : m.live = f :: rest) {c : Cmd}
    (hc : f.cmd = some c) (hsw : c ≠ .swtch) {rest' : List Frame} (hlive' : m'.live = g :: rest')
    (hg : g.cmd ≠ some .swtch) (htask : m'.task = m.task) (hcur : m'.cur = m.cur) :
    m'.task = m'.onCpu := by
  rw [Machine.onCpu_eq_of_live hlive' hg, htask, hcur]
  exact h.task_eq hlive hc hsw

theorem Machine.owed_eq (hsaved : m'.saved m.schedulerProc = m.saved m.schedulerProc)
    (hcur : m'.cur = m.cur) (hsched : m'.schedulerProc = m.schedulerProc)
    (hdue : m.cur = m.schedulerProc → due m'.live = due m.live) : m'.owed = m.owed := by
  unfold Machine.owed
  rw [hcur, hsched, hsaved]
  split_ifs with hs
  · exact hdue hs
  · rfl

/-- Only the running stack changes, and what it has in hand stays. -/
theorem Inv.quiet (h : Inv m q) {live : List Frame} {irq lock : Bool} {task : ProcId}
    (hm : m' = { m with live := live, irq := irq, lock := lock, task := task }) (hirq : IrqInv m')
    (htask : m'.task = m'.onCpu) (hlive : StackFor m.schedulerProc m.cur live)
    (hdue : m.cur = m.schedulerProc → due live = due m.live)
    (hback : m.cur = m.schedulerProc → handedBack live = handedBack m.live)
    (hfork : m.cur ≠ m.schedulerProc → forking live = forking m.live)
    (hleave : m.cur ≠ m.schedulerProc → leaving m.live → leaving live) :
    Inv m' q ∧ Passes m q m' q := by
  subst hm
  have howed : Machine.owed { m with live := live, irq := irq, lock := lock, task := task } = m.owed :=
    Machine.owed_eq rfl rfl rfl hdue
  have hforked : Machine.forked { m with live := live, irq := irq, lock := lock, task := task } =
      m.forked := by
    unfold Machine.forked
    split_ifs with hs
    · rfl
    · exact hfork hs
  refine ⟨?_, .keep howed rfl⟩
  exact {
    irq := hirq
    live := hlive
    saved := h.saved
    task := htask
    sched := h.sched
    cur := h.cur
    parked := by
      rw [howed]
      exact fun hne => (h.parked hne).imp_right (And.imp_right (hleave hne))
    settled := by
      rw [howed]
      exact fun hs p i hp hnot => h.settled hs p i hp ((hback hs).symm.trans hnot)
    holds := h.holds
    listed := h.listed
    owed := howed ▸ h.owed
    forked := by
      rw [howed, hforked]
      exact h.forked
    found := by
      rw [howed, hforked]
      exact h.found
    fresh := hforked ▸ h.fresh }

/-- The top frame moves on. -/
theorem Inv.move (h : Inv m q) (hlive : m.live = f :: rest)
    (hmove : Moves m.schedulerProc m.cur f g) {irq lock : Bool} {task : ProcId}
    (hm : m' = { m with live := g :: rest, irq := irq, lock := lock, task := task })
    (hirq : IrqInv m') (htask : m'.task = m'.onCpu) : Inv m' q ∧ Passes m q m' q := by
  have hstack := hlive ▸ h.live
  refine h.quiet hm hirq htask (hstack.advance hmove.fn hmove.args (hmove.frame hstack.top))
    (fun _ => ?_) (fun _ => ?_) (fun _ => ?_) (fun _ => ?_) <;> rw [hlive]
  · exact hmove.due
  · exact hmove.returned
  · exact hmove.carries
  · exact hmove.leaving

/-- The top frame makes a call. -/
theorem Inv.enter (h : Inv m q) (hlive : m.live = f :: rest) {c : Cmd} (hc : f.cmd = some c)
    (hsw : c ≠ .swtch) {fn : Fn} {arg : Option ProcId} {level : Level}
    (hcalls : Calls m.schedulerProc m.cur f
      { fn := fn, entryIF := m.irq, arg := arg, level := level })
    (hirq : IrqInv (m.enter f rest fn arg level)) :
    Inv (m.enter f rest fn arg level) q ∧ Passes m q (m.enter f rest fn arg level) q := by
  have hstack := hlive ▸ h.live
  have hfirst : ∀ fn, (code fn)[0]? ≠ some .swtch := by
    intro fn
    cases fn <;> decide
  refine h.quiet rfl hirq (h.task_of hlive hc hsw rfl (hfirst fn) rfl rfl)
    (hstack.enter hcalls.waits hcalls.frame) (fun hs => ?_) (fun hs => ?_) (fun hs => ?_)
    (fun hs => ?_) <;> rw [hlive]
  · exact hcalls.due hs rest
  · exact hcalls.returned
  · exact hcalls.carries hs
  · exact hcalls.leaving rest

/-- The top frame returns to the one that waits for it. -/
theorem Inv.leave (h : Inv m q) (hlive : m.live = g :: f :: rest) {c : Cmd} (hc : g.cmd = some c)
    (hsw : c ≠ .swtch) {f' : Frame} (hret : Returns m.schedulerProc m.cur g f f')
    (hirq : IrqInv (m.on f' rest)) :
    Inv (m.on f' rest) q ∧ Passes m q (m.on f' rest) q := by
  have hstack := hlive ▸ h.live
  refine h.quiet rfl hirq (h.task_of hlive hc hsw rfl hret.swtch rfl rfl)
    (hstack.below.advance hret.fn hret.args hret.frame) (fun hs => ?_) (fun hs => ?_) (fun hs => ?_)
    (fun hs => ?_) <;> rw [hlive]
  · exact hret.due hs rest
  · exact hret.returned hs
  · exact hret.carries hs
  · exact hret.leaving rest

end Quiet

/-! ## Steps that pass processes on -/

section Pass

variable {m m' : Machine} {q : Level → List ProcId} {f g : Frame} {rest : List Frame}

theorem Machine.owed_sched (hs : m.cur = m.schedulerProc) : m.owed = due m.live := by
  rw [owed, if_pos hs]

theorem Machine.owed_proc (hs : m.cur ≠ m.schedulerProc) : m.owed = due (m.saved m.schedulerProc) := by
  rw [owed, if_neg hs]

theorem Machine.forked_sched (hs : m.cur = m.schedulerProc) : m.forked = none := by
  rw [forked, if_pos hs]

theorem Machine.forked_proc (hs : m.cur ≠ m.schedulerProc) : m.forked = forking m.live := by
  rw [forked, if_neg hs]

/-- The process in the scheduler's hand gets a new state. -/
theorem Inv.restate (h : Inv m q) {p : ProcId} {i : Level} (howed : m.owed = some (p, i))
    (state : ProcessState) (hstate : state ≠ .unused)
    (hzombie : m.cur = m.schedulerProc → handedBack m.live = false → state ≠ .zombie) :
    Inv { m with states := Function.update m.states p state } q := by
  obtain ⟨hps, hused, hout⟩ := h.owed p i howed
  have halive : ∀ r, r ≠ p →
      (Machine.Alive { m with states := Function.update m.states p state } r ↔ m.Alive r) := by
    intro r hr
    unfold Machine.Alive
    simp only [Function.update_of_ne hr]
  have hclaimed : ∀ r, m.states r ≠ .unused → Function.update m.states p state r ≠ .unused := by
    intro r hr
    rw [Function.update_apply]
    split_ifs
    · exact hstate
    · exact hr
  exact {
    irq := ⟨h.irq.live, h.irq.saved, h.irq.lock_off⟩
    live := h.live
    saved := h.saved
    task := h.task
    sched := (halive _ hps.symm).mpr h.sched
    cur := hclaimed _ h.cur
    parked := h.parked
    settled := by
      intro hs r j hr hback
      have hrp : some (p, i) = some (r, j) := howed.symm.trans hr
      obtain ⟨rfl, -⟩ := Prod.mk.inj (Option.some.inj hrp)
      show Function.update m.states p state p ≠ .zombie
      rw [Function.update_self]
      exact hzombie hs hback
    holds := h.holds
    listed := by
      intro r j hr
      have hne : r ≠ p := fun he => hout j (he ▸ hr)
      exact ⟨(h.listed r j hr).1, (halive r hne).mpr (h.listed r j hr).2⟩
    owed := by
      intro r j hr
      obtain ⟨hrs, hru, hrq⟩ := h.owed r j hr
      exact ⟨hrs, hclaimed r hru, hrq⟩
    forked := by
      intro c hc
      obtain ⟨hcs, hca, hcq, hco⟩ := h.forked c hc
      have hne : c ≠ p := fun he => hco i (he ▸ howed)
      exact ⟨hcs, (halive c hne).mpr hca, hcq, hco⟩
    found := by
      intro r hr hal
      by_cases hrp : r = p
      · exact .inr (.inl ⟨i, hrp ▸ howed⟩)
      · exact h.found r hr ((halive r hrp).mp hal)
    fresh := by
      intro r j hr
      obtain ⟨hru, hrf⟩ := h.fresh r j hr
      exact ⟨hclaimed r hru, hrf⟩ }

/-- The process that runs is the one the scheduler has in hand, once it is past the first
    switch. -/
theorem Inv.owed_cur (h : Inv m q) (hne : m.cur ≠ m.schedulerProc) (hleave : ¬leaving m.live) :
    ∃ i, m.owed = some (m.cur, i) := by
  rcases h.parked hne with ⟨howed, -⟩ | ⟨-, hl⟩
  · exact howed
  · exact absurd hl hleave

/-- The control part when the top frame goes on in its function. -/
theorem Control.advance (h : Control m) (hlive : m.live = f :: rest) {c : Cmd}
    (hc : f.cmd = some c) (hsw : c ≠ .swtch) (hirq : IrqInv m') (hlive' : m'.live = g :: rest)
    (hcur : m'.cur = m.cur) (hsched : m'.schedulerProc = m.schedulerProc) (htask : m'.task = m.task)
    (hsaved : ∀ p, p ≠ m.cur → StackFor m.schedulerProc p (m'.saved p) ∧ Resting (m'.saved p))
    (hfn : g.fn = f.fn) (hnot : g.cmd ≠ some .swtch)
    (hargs : f.fn = .ctxSwitch ∨ f.fn = .schedEnqueue → g.arg = f.arg ∧ g.level = f.level)
    (hg : FrameFor m.schedulerProc m.cur g) : Control m' where
  irq := hirq
  live := by
    have hstack := hlive ▸ h.live
    rw [hlive', hcur, hsched]
    exact hstack.advance hfn hargs hg
  saved := by
    rw [hcur, hsched]
    exact hsaved
  task := h.task_of hlive hc hsw hlive' hnot htask hcur

/-- A process leaves its level for the scheduler's hand. -/
theorem Inv.pick (h : Inv m q) (hs : m.cur = m.schedulerProc) {p : ProcId} {i : Level}
    {xs : List ProcId} {live : List Frame} {l : Mlfq}
    (hm : m' = { m with live := live, mlfq := l, log := m.log ++ [Event.pick p i] })
    (hctl : Control m') (hfirst : ∀ j < i, q j = []) (hi : q i = p :: xs)
    (hholds : Holds l (Function.update q i xs)) (howed : m.owed = none)
    (howed' : m'.owed = some (p, demote i)) :
    Inv m' (Function.update q i xs) ∧ Passes m q m' (Function.update q i xs) := by
  have hforked : m'.forked = none := Machine.forked_sched (hm ▸ hs)
  subst hm
  have hpi : p ∈ q i := hi ▸ List.mem_cons_self
  have hsub : ∀ r j, r ∈ Function.update q i xs j → r ∈ q j := by
    intro r j hr
    by_cases hj : j = i
    · subst hj
      rw [Function.update_self] at hr
      rw [hi]
      exact List.mem_cons_of_mem p hr
    · rwa [Function.update_of_ne hj] at hr
  have hout : ∀ j, p ∉ Function.update q i xs j := by
    intro j hj
    have hnodup := h.holds.nodup i
    rw [hi, List.nodup_cons] at hnodup
    obtain rfl := h.holds.eq_of_mem hpi (hsub p j hj)
    rw [Function.update_self] at hj
    exact hnodup.1 hj
  have honly : ∀ {r j}, some (p, demote i) = some (r, j) → r = p := fun hr =>
    (Prod.mk.inj (Option.some.inj hr)).1.symm
  refine ⟨?_, .pick hfirst hi howed howed' rfl⟩
  exact {
    toControl := hctl
    sched := h.sched
    cur := h.cur
    parked := fun hne => absurd hs hne
    settled := by
      rw [howed']
      intro _ r j hr _
      rw [honly hr]
      exact (h.listed p i hpi).2.2
    holds := hholds
    listed := fun r j hr => h.listed r j (hsub r j hr)
    owed := by
      rw [howed']
      intro r j hr
      rw [honly hr]
      exact ⟨(h.listed p i hpi).1, (h.listed p i hpi).2.1, hout⟩
    forked := by
      intro c hc
      rw [hforked] at hc
      cases hc
    found := by
      intro r hr hal
      by_cases hrp : r = p
      · exact .inr (.inl ⟨demote i, hrp ▸ howed'⟩)
      · rcases h.found r hr hal with ⟨j, hj⟩ | ⟨j, hj⟩ | hc
        · refine .inl ⟨j, ?_⟩
          by_cases hji : j = i
          · subst hji
            rw [hi] at hj
            rw [Function.update_self]
            exact (List.mem_cons.mp hj).resolve_left hrp
          · rwa [Function.update_of_ne hji]
        · rw [howed] at hj
          cases hj
        · rw [Machine.forked_sched hs] at hc
          cases hc
    fresh := by
      intro r j hr
      rw [hforked]
      have hr : .enqueue r j ∈ m.log := by simpa using hr
      exact ⟨(h.fresh r j hr).1, by simp⟩ }

/-- A process in hand is alive and on no level. -/
theorem Inv.inHand (h : Inv m q) {p : ProcId} {i : Level}
    (hhand : (m.cur = m.schedulerProc ∧ m.owed = some (p, i) ∧ handedBack m.live = false) ∨
      m.forked = some p) : p ≠ m.schedulerProc ∧ m.Alive p ∧ ∀ j, p ∉ q j := by
  rcases hhand with ⟨hs, howed, hback⟩ | hforked
  · obtain ⟨hps, hused, hout⟩ := h.owed p i howed
    exact ⟨hps, ⟨hused, h.settled hs p i howed hback⟩, hout⟩
  · obtain ⟨hps, hal, hout, -⟩ := h.forked p hforked
    exact ⟨hps, hal, hout⟩

/-- A process in hand goes to the tail of a level. -/
theorem Inv.put (h : Inv m q) {p : ProcId} {i : Level} {live : List Frame}
    (hm : m' = { m with
      live := live, mlfq := enqueue m.mlfq p i, log := m.log ++ [Event.enqueue p i] })
    (hctl : Control m')
    (hhand : (m.cur = m.schedulerProc ∧ m.owed = some (p, i) ∧ handedBack m.live = false) ∨
      m.forked = some p)
    (howed : m'.owed = if m.cur = m.schedulerProc then none else m.owed) (hforked : m'.forked = none)
    (hleave : ¬leaving m.live) :
    Inv m' (Function.update q i (q i ++ [p])) ∧ Passes m q m' (Function.update q i (q i ++ [p])) := by
  subst hm
  obtain ⟨hps, hpa, hout⟩ := h.inHand hhand
  have hmem : ∀ r j, r ∈ Function.update q i (q i ++ [p]) j ↔ r ∈ q j ∨ j = i ∧ r = p := by
    intro r j
    by_cases hj : j = i
    · subst hj
      rw [Function.update_self, List.mem_append, List.mem_singleton]
      simp
    · rw [Function.update_of_ne hj]
      simp [hj]
  -- while a process runs, the child it queues is not the one the scheduler has in hand
  have hother : ∀ r j, (if m.cur = m.schedulerProc then none else m.owed) = some (r, j) →
      m.owed = some (r, j) ∧ r ≠ p := by
    intro r j hr
    split_ifs at hr with hs
    have hfork := hhand.resolve_left fun hh => hs hh.1
    exact ⟨hr, fun hrp => (h.forked p hfork).2.2.2 j (hrp ▸ hr)⟩
  refine ⟨?_, ?_⟩
  · exact {
      toControl := hctl
      sched := h.sched
      cur := h.cur
      parked := by
        intro hne
        have hne : m.cur ≠ m.schedulerProc := hne
        rw [howed, if_neg hne]
        exact .inl ((h.parked hne).resolve_right fun hl => hleave hl.2)
      settled := by
        intro hs r j hr
        have hs : m.cur = m.schedulerProc := hs
        rw [howed, if_pos hs] at hr
        cases hr
      holds := h.holds.enqueue hout i
      listed := by
        intro r j hr
        rcases (hmem r j).mp hr with hr | ⟨-, rfl⟩
        · exact h.listed r j hr
        · exact ⟨hps, hpa⟩
      owed := by
        intro r j hr
        obtain ⟨hr, hrp⟩ := hother r j (howed ▸ hr)
        obtain ⟨hrs, hru, hrq⟩ := h.owed r j hr
        refine ⟨hrs, hru, fun k hk => ?_⟩
        rcases (hmem r k).mp hk with hk | ⟨-, hk⟩
        · exact hrq k hk
        · exact hrp hk
      forked := by
        intro c hc
        rw [hforked] at hc
        cases hc
      found := by
        intro r hr hal
        have hput : r = p → (∃ j, r ∈ Function.update q i (q i ++ [p]) j) := fun hrp =>
          ⟨i, (hmem r i).mpr (.inr ⟨rfl, hrp⟩)⟩
        rcases h.found r hr hal with ⟨j, hj⟩ | ⟨j, hj⟩ | hc
        · exact .inl ⟨j, (hmem r j).mpr (.inl hj)⟩
        · by_cases hs : m.cur = m.schedulerProc
          · rcases hhand with ⟨-, hp, -⟩ | hp
            · rw [hp, Option.some_inj, Prod.mk.injEq] at hj
              exact .inl (hput hj.1.symm)
            · rw [Machine.forked_sched hs] at hp
              cases hp
          · rw [howed, if_neg hs]
            exact .inr (.inl ⟨j, hj⟩)
        · rcases hhand with ⟨hs, -, -⟩ | hp
          · rw [Machine.forked_sched hs] at hc
            cases hc
          · rw [hp, Option.some_inj] at hc
            exact .inl (hput hc.symm)
      fresh := by
        intro r j hr
        rw [hforked]
        refine ⟨?_, by simp⟩
        rcases List.mem_append.mp hr with hr | hr
        · exact (h.fresh r j hr).1
        · obtain ⟨rfl, -⟩ := Event.enqueue.inj (List.mem_singleton.mp hr)
          exact hpa.1 }
  · rcases hhand with ⟨hs, hp, -⟩ | hp
    · exact .put hp (howed.trans (if_pos hs)) rfl
    · have hs : m.cur ≠ m.schedulerProc := fun hs => by
        rw [Machine.forked_sched hs] at hp
        cases hp
      exact .spawn hp (howed.trans (if_neg hs)) rfl

/-- An unused slot is claimed and in the hand of `fork`. -/
theorem Inv.claim (h : Inv m q) {c : ProcId} (hunused : m.states c = .unused) {live : List Frame}
    (hm : m' = { m with
      live := live
      states := Function.update m.states c .ready
      mlfq := clearLinks m.mlfq c
      saved := Function.update m.saved c [] })
    (hctl : Control m') (hs : m.cur ≠ m.schedulerProc) (hforked : m.forked = none)
    (hforked' : m'.forked = some c) (hleave : ¬leaving m.live) : Inv m' q ∧ Passes m q m' q := by
  have hcs : c ≠ m.schedulerProc := fun he => h.sched.1 (he ▸ hunused)
  have hcq : ∀ j, c ∉ q j := fun j hj => (h.listed c j hj).2.1 hunused
  have hparked : m'.saved m.schedulerProc = m.saved m.schedulerProc := by
    rw [hm]
    exact Function.update_of_ne hcs.symm _ _
  have howed : m'.owed = m.owed :=
    Machine.owed_eq hparked (hm ▸ rfl) (hm ▸ rfl) fun he => absurd he hs
  have hother : ∀ r, r ≠ c → m'.states r = m.states r := by
    intro r hr
    rw [hm]
    exact Function.update_of_ne hr _ _
  have hclaimed : ∀ r, m.states r ≠ .unused → m'.states r = m.states r := fun r hr =>
    hother r fun hrc => hr (hrc ▸ hunused)
  have halive : ∀ {r}, m.Alive r → m'.Alive r := by
    intro r hr
    unfold Machine.Alive
    rw [hclaimed r hr.1]
    exact hr
  subst hm
  refine ⟨?_, .keep howed rfl⟩
  exact {
    toControl := hctl
    sched := halive h.sched
    cur := by
      rw [hclaimed _ h.cur]
      exact h.cur
    parked := by
      rw [hparked, howed]
      exact fun _ => .inl ((h.parked hs).resolve_right fun hl => hleave hl.2)
    settled := fun hs' => absurd hs' hs
    holds := h.holds.clearLinks hcq
    listed := fun r j hr => ⟨(h.listed r j hr).1, halive (h.listed r j hr).2⟩
    owed := by
      intro r j hr
      rw [howed] at hr
      obtain ⟨hrs, hru, hrq⟩ := h.owed r j hr
      rw [hclaimed r hru]
      exact ⟨hrs, hru, hrq⟩
    forked := by
      intro c' hc'
      rw [hforked', Option.some_inj] at hc'
      subst hc'
      refine ⟨hcs, ?_, hcq, fun j hj => ?_⟩
      · unfold Machine.Alive
        simp only [Function.update_self]
        exact ⟨ProcessState.noConfusion, ProcessState.noConfusion⟩
      · rw [howed] at hj
        exact (h.owed c j hj).2.1 hunused
    found := by
      intro r hr hal
      rw [howed, hforked']
      by_cases hrc : r = c
      · exact .inr (.inr (congrArg some hrc.symm))
      · have hal' : m.Alive r := by
          unfold Machine.Alive at hal
          rwa [hother r hrc] at hal
        rcases h.found r hr hal' with hj | hj | hf
        · exact .inl hj
        · exact .inr (.inl hj)
        · rw [hforked] at hf
          cases hf
    fresh := by
      intro r j hr
      have hru := (h.fresh r j hr).1
      rw [hclaimed r hru, hforked']
      exact ⟨hru, fun he => hru (Option.some.inj he ▸ hunused)⟩ }

/-- The CPU changes stacks. -/
theorem Inv.switched (h : Inv m q) {live : List Frame} {saved : ProcId → List Frame} {cur : ProcId}
    (hm : m' = { m with live := live, saved := saved, cur := cur }) (hctl : Control m')
    (howed : m'.owed = m.owed) (hforked : m'.forked = m.forked) (hcur : m.states cur ≠ .unused)
    (hparked : cur ≠ m.schedulerProc →
      (∃ i, m.owed = some (cur, i)) ∧ handedBack (saved m.schedulerProc) = true ∨
      m.owed = none ∧ leaving live)
    (hsettled : cur = m.schedulerProc → ∀ p i, m.owed = some (p, i) →
      handedBack live = false → m.states p ≠ .zombie) : Inv m' q ∧ Passes m q m' q := by
  subst hm
  refine ⟨?_, .keep howed rfl⟩
  exact {
    toControl := hctl
    sched := h.sched
    cur := hcur
    parked := by
      rw [howed]
      exact hparked
    settled := by
      rw [howed]
      exact hsettled
    holds := h.holds
    listed := h.listed
    owed := howed ▸ h.owed
    forked := by
      rw [howed, hforked]
      exact h.forked
    found := by
      rw [howed, hforked]
      exact h.found
    fresh := hforked ▸ h.fresh }

/-- The scheduler process calls `ctx_switch` in one place. -/
theorem StackFor.switcher {s : ProcId} (h : StackFor s s (f :: rest)) (hfn : f.fn = .ctxSwitch) :
    ∃ e rest', rest = e :: rest' ∧ e.fn = .scheduler ∧ e.pc = 10 ∧ f.arg = e.p := by
  cases rest with
  | nil =>
    have hbottom := h.2
    rw [hfn] at hbottom
    exact absurd hbottom (by decide)
  | cons e rest =>
    have he := h.below.top
    rcases h.2.1 with ⟨htimer, -⟩ | ⟨v, hcall, hpass⟩ | ⟨-, hentry⟩ | ⟨huser, -⟩
    · rw [hfn] at htimer
      cases htimer
    · obtain ⟨harg, -⟩ := hpass (.inl hfn)
      have hsite := cmd_sites hcall
      rw [hfn] at hsite
      cases v with
      | arg =>
        simp only [sites, List.mem_cons, Prod.mk.injEq, List.not_mem_nil, or_false] at hsite
        rcases hsite with hsite | hsite | hsite <;> simp [FrameFor, hsite.1] at he
      | p =>
        obtain ⟨hefn, hepc⟩ := Prod.mk.inj (List.mem_singleton.mp hsite)
        exact ⟨e, rest, rfl, hefn, hepc, harg⟩
    · rw [hfn] at hentry
      exact absurd hentry (by decide)
    · have hsite := cmd_sites huser
      simp only [sites, List.mem_cons, Prod.mk.injEq, List.not_mem_nil, or_false] at hsite
      rcases hsite with hsite | hsite <;> simp [FrameFor, hsite.1] at he

/-- It switches to the process it has in hand. -/
theorem Inv.switchesTo (h : Inv m q) (hlive : m.live = f :: rest) (hfn : f.fn = .ctxSwitch)
    (hs : m.cur = m.schedulerProc) : ∃ i, m.owed = f.arg.map fun p => (p, i) := by
  have hstack := h.live
  rw [hlive, hs] at hstack
  obtain ⟨e, rest', rfl, hefn, hepc, harg⟩ := hstack.switcher hfn
  refine ⟨demote e.level, ?_⟩
  rw [Machine.owed_sched hs, hlive, harg]
  simp [due, taken, hfn, hefn, hepc]

end Pass

end HorizonOS.Sched
