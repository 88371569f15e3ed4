import HorizonOS.Interrupt.Isr
import HorizonOS.Lib.Basic
import HorizonOS.Switch.Coroutine

/-!
# Preemption

The timer interrupt takes the processor away from a process
(`timer_interrupt_handler_sched`, kernel/time.c:32–39): `isr_common_stub` pushes the
interrupt context on the stack of the process, the handler switches to the scheduler
with `ctx_switch`, other processes run, and when one of them switches back the
handler returns and `isr_common_stub` pops the context.

The compiled code of the handler is not modelled instruction by instruction. It is a
sequence of steps that leave the stack of the process above the handler's own frames
as it is, and that take off the stack what they have put on it.

Results:
* `Step.other_stack`: no step changes the stack of a suspended process.
* `preemption_transparent`: the process goes on with every general register, the
  flags, `rip`, `rsp` and its stack as it was interrupted, whatever runs in between.
-/

namespace HorizonOS.Interrupt

open HorizonOS.Lib HorizonOS.Switch HorizonOS.Proc

variable {ι : Type}

/-! ## Model -/

/-- The system `s` once its processor has gone through the interrupt entry to `e`. -/
def interrupted (s : Sys ι) (e : Processor) : Sys ι := { s with cpu := e.cpu }

section Model

variable [DecidableEq ι]

/-- A step of code that `p` runs below the address `top` of its stack. -/
structure OwnStep (L : Labels) (p : ι) (top : Addr) (s s' : Sys ι) : Prop where
  step : Step L s s'
  task : s.task = p
  task' : s'.task = p
  keeps : ∀ b, OnStack (s.procs p) b → top ≤ b → s'.cpu.mem b = s.cpu.mem b

/-- A step while `p` is switched out. -/
structure AwayStep (L : Labels) (p : ι) (s s' : Sys ι) : Prop where
  step : Step L s s'
  task : s.task ≠ p
  task' : s'.task ≠ p

/-- A run in which the process of `s`, whose processor is `c`, is interrupted and its
    handler switches to `sched`, up to the return `d` of `isr_handler`. -/
structure Preemption (L : Labels) (I : IsrLabels) (s : Sys ι) (c d : Processor) where
  num : ℕ
  err : Option Word
  offset : Word
  selector : BitVec 16
  cpu : c.cpu = s.cpu
  stub : Matches num err
  stack : VmRegion
  room : s.Room stack 208
  /-- The handler calls `ctx_switch` in this state. -/
  called : Sys ι
  enter : Relation.ReflTransGen (OwnStep L s.task (contextAddr c))
    (interrupted s (interruptEntry I c offset selector num err)) called
  calledRoom : called.Room stack 56
  below : called.cpu.rsp ≤ contextAddr c
  sched : ι
  sched_ne : sched ≠ s.task
  sched_used : called.Used sched
  ret : Word
  /-- A process switches back to the interrupted one in this state. -/
  leaving : Sys ι
  away : Relation.ReflTransGen (AwayStep L s.task) (called.ctxSwitch sched ret) leaving
  leavingStack : VmRegion
  leavingRoom : leaving.Room leavingStack 56
  leavingRet : Word
  /-- `isr_handler` has returned. -/
  returned : Sys ι
  leave : Relation.ReflTransGen (OwnStep L s.task (contextAddr c))
    (leaving.ctxSwitch s.task leavingRet) returned
  /-- After the switch the handler takes off the stack what it had put on it before. -/
  balanced : returned.cpu.rsp - (leaving.ctxSwitch s.task leavingRet).cpu.rsp =
    contextAddr c - called.cpu.rsp
  cpu' : d.cpu = returned.cpu

end Model

/-! ## Steps and the stack of a suspended process -/

section Steps

variable {L : Labels} {s s' : Sys ι} {p : ι} {b : Addr}

/-- What a run keeps of the process `p`: it stays in use with the same stack, whose
    bytes from `top` on do not change. -/
structure Kept (L : Labels) (p : ι) (top : Addr) (s s' : Sys ι) : Prop where
  inv : Inv L s'
  used : s'.Used p
  stack : findStack (s'.procs p) = findStack (s.procs p)
  bytes : ∀ b, OnStack (s.procs p) b → top ≤ b → s'.cpu.mem b = s.cpu.mem b

namespace Kept

variable {top : Addr} {s'' : Sys ι}

theorem refl (h : Inv L s) (hp : s.Used p) : Kept L p top s s :=
  ⟨h, hp, rfl, fun _ _ _ => rfl⟩

theorem trans (h : Kept L p top s s') (h' : Kept L p top s' s'') : Kept L p top s s'' := by
  refine ⟨h'.inv, h'.used, h'.stack.trans h.stack, fun b hb htop => ?_⟩
  have hb' : OnStack (s'.procs p) b := by rwa [OnStack, h.stack]
  exact (h'.bytes b hb' htop).trans (h.bytes b hb htop)

end Kept

variable [DecidableEq ι]

/-- No step changes the stack of a suspended process. -/
theorem Step.other_stack (h : Inv L s) (hstep : Step L s s') (hp : s.Used p) (hne : p ≠ s.task)
    (hb : OnStack (s.procs p) b) : s'.cpu.mem b = s.cpu.mem b := by
  have hout : ∀ {q : ι} {rec : Process} {r : VmRegion}, s.NewProc q rec r →
      ¬ (r.start ≤ b ∧ b < r.stop) := by
    intro q rec r hnew
    obtain ⟨r', hr', h1, h2⟩ := hb
    exact (hnew.apart p r' hp hr').symm.not_mem h1 h2
  have hown : ¬ OnStack (s.procs s.task) b := h.not_onStack hne hp h.used_task hb
  cases hstep with
  | run c procs hmem hprocs => exact hmem p hne hp b hb
  | @alloc q rec r hnew =>
    refine initStack_apply (p := rec) fun hw => hout hnew ?_
    obtain ⟨k, hk, rfl⟩ := exists_of_within hw
    exact hnew.kstack.top_words hk
  | fork hnew hfork hf hs =>
    obtain ⟨m, hrun, -, hmem⟩ := h.cloneParentBaseFrame_eq hnew hfork
    rw [hrun _ hf] at hs
    obtain rfl := Option.some.inj hs
    exact hmem b (hout hnew) hown
  | @switch new r ret hnew hused hroom =>
    obtain ⟨regs, rip, hframe⟩ := (h.suspended_switch hroom hnew ret).frame hused
      fun hrun => hnew (h.only new hrun)
    rw [Sys.ctxSwitch_eq hframe]
    exact Sys.switchMem_apply fun hw => hown (hroom.onStack hw)

/-- A step keeps a process in use, and its stack region. -/
theorem Step.used (h : Inv L s) (hstep : Step L s s') (hp : s.Used p) :
    s'.Used p ∧ findStack (s'.procs p) = findStack (s.procs p) := by
  cases hstep with
  | run c procs hmem hprocs => exact ⟨hp, (hprocs p).2⟩
  | alloc hnew =>
    have hne := hnew.ne hp
    rw [Sys.allocProcess_eq]
    simp only [Sys.Used, Function.update_of_ne hne]
    exact ⟨hp, trivial⟩
  | fork hnew hfork hf hs =>
    obtain ⟨m, hrun, -, -⟩ := h.cloneParentBaseFrame_eq hnew hfork
    rw [hrun _ hf] at hs
    obtain rfl := Option.some.inj hs
    have hne := hnew.ne hp
    simp only [Sys.Used, Function.update_of_ne hne]
    exact ⟨hp, trivial⟩
  | @switch new r ret hnew hused hroom =>
    obtain ⟨regs, rip, hframe⟩ := (h.suspended_switch hroom hnew ret).frame hused
      fun hrun => hnew (h.only new hrun)
    rw [Sys.ctxSwitch_eq hframe]
    constructor
    · by_cases hpn : p = new
      · simp [Sys.Used, hpn]
      · by_cases hpt : p = s.task
        · subst hpt
          simp [Sys.Used, hpn]
        · simpa [Sys.Used, hpn, hpt] using hp
    · by_cases hpt : p = s.task
      · subst hpt
        simp only [Function.update_self]
        rfl
      · simp only [Function.update_of_ne hpt]

namespace Kept

variable {top : Addr}

theorem of_step (h : Inv L s) (hp : s.Used p) (hstep : Step L s s')
    (hown : s.task = p → ∀ b, OnStack (s.procs p) b → top ≤ b → s'.cpu.mem b = s.cpu.mem b) :
    Kept L p top s s' := by
  obtain ⟨hused, hstack⟩ := Step.used h hstep hp
  refine ⟨hstep.inv h, hused, hstack, fun b hb htop => ?_⟩
  by_cases htask : s.task = p
  · exact hown htask b hb htop
  · exact Step.other_stack h hstep hp (Ne.symm htask) hb

/-- Code of `p` below `top`, for any number of steps. -/
theorem of_own (h : Inv L s) (hp : s.Used p)
    (hrun : Relation.ReflTransGen (OwnStep L p top) s s') : Kept L p top s s' := by
  induction hrun with
  | refl => exact refl h hp
  | tail _ hstep ih =>
    exact ih.trans (of_step ih.inv ih.used hstep.step fun _ => hstep.keeps)

/-- While `p` is switched out its status does not change either. -/
theorem of_away (top : Addr) (h : Inv L s) (hp : s.Used p)
    (hrun : Relation.ReflTransGen (AwayStep L p) s s') :
    Kept L p top s s' ∧ s'.status p = s.status p := by
  induction hrun with
  | refl => exact ⟨refl h hp, rfl⟩
  | tail _ hstep ih =>
    obtain ⟨hk, hst⟩ := ih
    refine ⟨hk.trans (of_step hk.inv hk.used hstep.step fun e => absurd e hstep.task), ?_⟩
    exact (hk.inv.status_step hstep.step hk.used hstep.task.symm hstep.task'.symm).trans hst

end Kept

theorem OwnStep.task_of_run {top : Addr} (hs : s.task = p)
    (hrun : Relation.ReflTransGen (OwnStep L p top) s s') : s'.task = p := by
  cases hrun with
  | refl => exact hs
  | tail _ hstep => exact hstep.task'

end Steps

/-! ## Preemption -/

section Preempt

variable {L : Labels} {I : IsrLabels} {s : Sys ι} {c d : Processor}

/-- Where the interrupt context lies, as numbers. -/
theorem toNat_contextAddr {r : VmRegion} (hcpu : c.cpu = s.cpu) (hroom : s.Room r 208) :
    (contextAddr c).toNat = 16 * (s.cpu.rsp.toNat / 16) - 184 := by
  have hrsp : c.rsp = s.cpu.rsp := congrArg Cpu.rsp hcpu
  have hlow := hroom.low
  have hal := toNat_and_mask (show ~~~15#64 = BitVec.allOnes 64 <<< 4 by decide) s.cpu.rsp
  have hlt := s.cpu.rsp.isLt
  rw [contextAddr, hrsp, BitVec.toNat_sub, hal]
  simp only [BitVec.toNat_ofNat]
  omega

/-- The bytes that the entry writes and the interrupt context itself lie in the stack
    of the interrupted process. -/
theorem onStack_context {r : VmRegion} (hcpu : c.cpu = s.cpu) (hroom : s.Room r 208) {b : Addr}
    (hb : Within (contextAddr c - 8#64) 192 b) : OnStack (s.procs s.task) b := by
  have haddr := toNat_contextAddr hcpu hroom
  have hlow := hroom.low
  have hlt := s.cpu.rsp.isLt
  have h8 : (contextAddr c - 8#64).toNat = (contextAddr c).toNat - 8 := by bv_omega
  have h208 : (s.cpu.rsp - BitVec.ofNat 64 208).toNat = s.cpu.rsp.toNat - 208 := by bv_omega
  apply hroom.onStack
  rw [within_iff (by omega)] at hb ⊢
  omega

variable [DecidableEq ι]

/-- The entry writes to the stack of the interrupted process only, so it is a step of
    the system. -/
theorem interrupted_step {r : VmRegion} {num : ℕ} {err : Option Word} (offset : Word)
    (selector : BitVec 16) (h : Inv L s) (hcpu : c.cpu = s.cpu) (hroom : s.Room r 208)
    (hstub : Matches num err) :
    Step L s (interrupted s (interruptEntry I c offset selector num err)) := by
  refine Step.run _ s.procs (fun p hne hp b hb => ?_) fun p => ⟨rfl, rfl⟩
  obtain ⟨-, -, -, -, -, -, -, hout⟩ := interruptEntry_spec I c offset selector hstub
  have hmem : c.mem b = s.cpu.mem b := congrArg (fun x => Cpu.mem x b) hcpu
  rw [← hmem]
  refine hout b fun hw => ?_
  exact h.not_onStack hne hp h.used_task hb (onStack_context hcpu hroom hw)

namespace Preemption

/-- The state in which `isr_handler` is entered. -/
def entered (run : Preemption L I s c d) : Sys ι :=
  interrupted s (interruptEntry I c run.offset run.selector run.num run.err)

variable (run : Preemption L I s c d)

theorem called_task : run.called.task = s.task := OwnStep.task_of_run (s := run.entered) rfl run.enter

theorem leaving_task : run.leaving.task ≠ s.task := by
  obtain heq | ⟨_, _, hstep⟩ := run.away.cases_tail
  · rw [heq]
    exact run.sched_ne
  · exact hstep.task'

theorem kept_called (h : Inv L s) : Kept L s.task (contextAddr c) run.entered run.called :=
  Kept.of_own ((interrupted_step run.offset run.selector h run.cpu run.room run.stub).inv h)
    h.used_task run.enter

/-- The handler's call of `ctx_switch` pushes below the interrupt context. -/
theorem kept_switch (h : Inv L run.called) (hp : run.called.Used s.task) :
    Kept L s.task (contextAddr c) run.called (run.called.ctxSwitch run.sched run.ret) := by
  have hne : run.sched ≠ run.called.task := by
    rw [run.called_task]
    exact run.sched_ne
  refine Kept.of_step h hp (.switch hne run.sched_used run.calledRoom) fun _ b _ htop => ?_
  obtain ⟨regs, rip, hframe⟩ := (h.suspended_switch run.calledRoom hne run.ret).frame
    run.sched_used fun hrun => hne (h.only _ hrun)
  rw [Sys.ctxSwitch_eq hframe]
  have hbelow := run.below
  have hlow := run.calledRoom.low
  refine Sys.switchMem_apply fun hw => ?_
  rw [BitVec.le_def] at htop hbelow
  have h56 : (run.called.cpu.rsp - 56#64).toNat = run.called.cpu.rsp.toNat - 56 := by bv_omega
  rw [within_iff (by omega)] at hw
  omega

/-- The switch back gives the handler the stack pointer with which it had called
    `ctx_switch`. -/
theorem kept_back (h : Inv L run.leaving) (hp : run.leaving.Used s.task)
    (hst : run.leaving.status s.task =
      .switchedOut run.called.cpu.saved run.called.cpu.rsp run.ret) :
    Kept L s.task (contextAddr c) run.leaving (run.leaving.ctxSwitch s.task run.leavingRet) ∧
      (run.leaving.ctxSwitch s.task run.leavingRet).cpu.rsp = run.called.cpu.rsp := by
  have hne : s.task ≠ run.leaving.task := run.leaving_task.symm
  constructor
  · refine Kept.of_step h hp (.switch hne hp run.leavingRoom) fun htask => ?_
    exact absurd htask run.leaving_task
  · have hres : Resumed L (run.leaving.ctxSwitch s.task run.leavingRet).cpu _ _ :=
      h.resumed hne hp run.leavingRoom
    rw [hst] at hres
    exact hres.2.1

theorem kept_returned (h : Inv L s) :
    Kept L s.task (contextAddr c) run.entered run.returned ∧
      run.returned.cpu.rsp = contextAddr c := by
  have hcalled := run.kept_called h
  have hswitch := run.kept_switch hcalled.inv hcalled.used
  have hstatus : (run.called.ctxSwitch run.sched run.ret).status s.task =
      .switchedOut run.called.cpu.saved run.called.cpu.rsp run.ret := by
    simp only [Sys.ctxSwitch, run.called_task, Function.update_of_ne run.sched_ne.symm,
      Function.update_self]
  obtain ⟨haway, hst⟩ := Kept.of_away (contextAddr c) hswitch.inv hswitch.used run.away
  obtain ⟨hback, hrsp⟩ := run.kept_back haway.inv haway.used (hst.trans hstatus)
  have hleave := Kept.of_own hback.inv hback.used run.leave
  refine ⟨hcalled.trans (hswitch.trans (haway.trans (hback.trans hleave))), ?_⟩
  have hbal := run.balanced
  rw [hrsp] at hbal
  exact sub_left_injective hbal

end Preemption

/-- **Preemption is transparent.** However long the processor is away, and whatever
    the other processes do, the interrupted process goes on with its general
    registers, flags, `rip`, `rsp`, `cs`, `ss` and `ds` as they were, and with its
    stack from the aligned stack pointer on unchanged. `es`, `fs` and `gs` come back
    with the value of `ds`. -/
theorem preemption_transparent (h : Reachable L s) (run : Preemption L I s c d) :
    isrCommonExit d = { c with es := c.ds, fs := c.ds, gs := c.ds, cr3 := d.cr3, mem := d.mem } ∧
      ∀ b, OnStack (s.procs s.task) b → c.rsp &&& ~~~15#64 ≤ b → d.mem b = c.mem b := by
  obtain ⟨hkept, hrsp⟩ := run.kept_returned h.inv
  obtain ⟨hwords, -, -, -, -, -, -, hout⟩ := interruptEntry_spec I c run.offset
    run.selector run.stub
  have hmem : d.mem = run.returned.cpu.mem := congrArg Cpu.mem run.cpu'
  have hdrsp : d.rsp = contextAddr c := (congrArg Cpu.rsp run.cpu').trans hrsp
  have haddr := toNat_contextAddr run.cpu run.room
  have hlow := run.room.low
  have hlt := s.cpu.rsp.isLt
  constructor
  · suffices hctx : Mem.WordsAt d.mem d.rsp (interruptContext c run.num run.err) from
      isrCommonExit_eq hctx
    rw [hdrsp, hmem]
    refine hwords.congr fun k hk => hkept.bytes _ ?_ ?_
    · apply onStack_context run.cpu run.room
      rw [length_interruptContext] at hk
      unfold Within
      bv_omega
    · rw [length_interruptContext] at hk
      rw [BitVec.le_def, toNat_add_ofNat (by omega)]
      omega
  · intro b hb hle
    have hrsp' : c.rsp = s.cpu.rsp := congrArg Cpu.rsp run.cpu
    have hal := toNat_and_mask (show ~~~15#64 = BitVec.allOnes 64 <<< 4 by decide) s.cpu.rsp
    rw [hrsp', BitVec.le_def, hal] at hle
    rw [hmem, hkept.bytes b hb (by rw [BitVec.le_def]; omega)]
    refine hout b fun hw => ?_
    have h8 : (contextAddr c - 8#64).toNat = (contextAddr c).toNat - 8 := by bv_omega
    rw [within_iff (by omega)] at hw
    omega

end Preempt

/-! ## The timer interrupts one of two processes -/

section Pair

def pairIsr : IsrLabels := ⟨0xffffffff80006000, 0xffffffff80006100⟩

/-- The first process of the pair has just allocated the second. -/
def pairRunning : Sys Bool :=
  pairStart.allocProcess pairLabels true { vmList := [pairStack true], pml4Addr := 0x2000 }
    (pairStack true)

/-- `c` with the part that `swtch.S` works on taken from `k`. -/
def Processor.withCpu (c : Processor) (k : Cpu) : Processor :=
  { c with
    regs
      | .rbp => k.saved.rbp
      | .rbx => k.saved.rbx
      | .r12 => k.saved.r12
      | .r13 => k.saved.r13
      | .r14 => k.saved.r14
      | .r15 => k.saved.r15
      | .rax => k.rax
      | r => c.regs r
    rsp := k.rsp
    rip := k.rip
    cr3 := k.cr3
    mem := k.mem }

theorem Processor.withCpu_cpu (c : Processor) (k : Cpu) : (c.withCpu k).cpu = k := rfl

def pairProcessor : Processor :=
  Processor.withCpu ⟨fun _ => 0, 0, 0, 0x202, 0, 0x28, 0x30, 0x30, 0x30, 0x30, 0x30, fun _ => 0⟩
    pairRunning.cpu

/-- At the call of `isr_handler`, which here switches at once. -/
def pairCalled : Sys Bool :=
  interrupted pairRunning (interruptEntry pairIsr pairProcessor 0xffffffff80007000 0x28 32 none)

def pairAway : Sys Bool := pairCalled.ctxSwitch true 0xffffffff80008000

/-- `isr_handler` has returned to `isr_common_stub`. -/
def pairReturned : Sys Bool :=
  let back := pairAway.ctxSwitch false 0xffffffff80008000
  { back with cpu := { back.cpu with rsp := back.cpu.rsp + 8#64 } }

theorem pairRunning_reachable : Reachable pairLabels pairRunning :=
  .step pairStart_reachable (.alloc (pairStart_newProc rfl))

theorem pairRunning_room : pairRunning.Room (pairStack false) 208 := ⟨rfl, by decide, by decide⟩

theorem pairCalled_rsp : pairCalled.cpu.rsp = 0x11ff40 := by
  have hstub : Matches 32 none := rfl
  exact (interruptEntry_spec pairIsr pairProcessor 0xffffffff80007000 0x28 hstub).2.2.1

theorem pairCalled_reachable : Reachable pairLabels pairCalled :=
  .step pairRunning_reachable
    (interrupted_step _ _ pairRunning_reachable.inv rfl pairRunning_room rfl)

theorem pairCalled_room : pairCalled.Room (pairStack false) 56 := by
  refine ⟨rfl, ?_, ?_⟩
  · rw [pairCalled_rsp]; decide
  · rw [pairCalled_rsp]; decide

theorem pairAway_reachable : Reachable pairLabels pairAway :=
  .step pairCalled_reachable (.switch (by decide) Status.noConfusion pairCalled_room)

theorem pairAway_room : pairAway.Room (pairStack true) 56 := by
  have hres : Resumed pairLabels pairAway.cpu (pairCalled.procs true) (pairCalled.status true) :=
    pairCalled_reachable.inv.resumed (by decide) Status.noConfusion pairCalled_room
  obtain ⟨-, -, -, r, hr, hrsp⟩ := hres
  obtain rfl : pairStack true = r := Option.some.inj hr
  refine ⟨rfl, ?_, ?_⟩
  · rw [hrsp]; decide
  · rw [hrsp]; decide

theorem pairBack_rsp : (pairAway.ctxSwitch false 0xffffffff80008000).cpu.rsp = 0x11ff40 := by
  have hres : Resumed pairLabels (pairAway.ctxSwitch false 0xffffffff80008000).cpu
      (pairAway.procs false) (pairAway.status false) :=
    pairAway_reachable.inv.resumed (by decide) Status.noConfusion pairAway_room
  exact hres.2.1.trans pairCalled_rsp

def pairPreemption : Preemption pairLabels pairIsr pairRunning pairProcessor
    (pairProcessor.withCpu pairReturned.cpu) where
  num := 32
  err := none
  offset := 0xffffffff80007000
  selector := 0x28
  cpu := rfl
  stub := rfl
  stack := pairStack false
  room := pairRunning_room
  called := pairCalled
  enter := .refl
  calledRoom := pairCalled_room
  below := by rw [pairCalled_rsp]; decide
  sched := true
  sched_ne := by decide
  sched_used := Status.noConfusion
  ret := 0xffffffff80008000
  leaving := pairAway
  away := .refl
  leavingStack := pairStack true
  leavingRoom := pairAway_room
  leavingRet := 0xffffffff80008000
  returned := pairReturned
  leave := .single ⟨.run _ _ (fun _ _ _ _ _ => rfl) (fun _ => ⟨rfl, rfl⟩), rfl, rfl, fun _ _ _ => rfl⟩
  balanced := by
    show (pairAway.ctxSwitch false 0xffffffff80008000).cpu.rsp + 8#64 -
      (pairAway.ctxSwitch false 0xffffffff80008000).cpu.rsp = contextAddr pairProcessor - _
    rw [pairBack_rsp, pairCalled_rsp]
    rfl
  cpu' := Processor.withCpu_cpu _ _

theorem preemption_transparent_pair :
    Reachable pairLabels pairRunning ∧
      let d := isrCommonExit (pairProcessor.withCpu pairReturned.cpu)
      d.regs = pairProcessor.regs ∧ d.rflags = 0x202 ∧ d.rsp = 0x120000 := by
  obtain ⟨hexit, -⟩ := preemption_transparent pairRunning_reachable pairPreemption
  rw [hexit]
  exact ⟨pairRunning_reachable, rfl, rfl, rfl⟩

end Pair

end HorizonOS.Interrupt
