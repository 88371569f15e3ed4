import HorizonOS.Sched.Machine

/-!
# The interrupt flag and the queue lock

Every function that turns interrupts off restores the flag it found, although the CPU changes
stacks in between, a forked child returns with the flags its parent saved, and a continuation of
the scheduler process can be taken up more than once. Each point of the code has a phase that says
what the flag, the saved flag and the lock are there relative to the flag at the function's entry;
that the commands fit the phases is a finite check, and a stack is sound if each frame is in its
phase once the frames above it have returned.

* `typed`: the phases fit the code.
* `IrqInv.step`: every step, the timer's included, keeps all stacks sound.
* `irq_discipline`: the lock is free whenever it is taken, held only with interrupts off, and
  `ctx_switch` and `fork` return with the flag they were entered with.
-/

namespace HorizonOS.Sched

open HorizonOS.Proc

/-! ## Phases -/

inductive Phase
  /-- The flag is as at entry. -/
  | outside
  /-- The flag is as at entry and has been read into `flags`. -/
  | read
  /-- Interrupts are off, `flags` is the flag at entry. -/
  | masked
  /-- The same with the lock held. -/
  | held
  /-- Interrupts are off. -/
  | off
deriving DecidableEq, Repr

/-- What a phase says, for the flag at entry, the saved flag, the flag and the lock. -/
def Phase.Holds (entryIF flags irq lock : Bool) : Phase → Prop
  | .outside => irq = entryIF ∧ lock = false
  | .read => irq = entryIF ∧ flags = entryIF ∧ lock = false
  | .masked => irq = false ∧ flags = entryIF ∧ lock = false
  | .held => irq = false ∧ flags = entryIF ∧ lock = true
  | .off => irq = false ∧ lock = false

/-- The phase at each command. -/
def phases : Fn → List Phase
  | .ctxSwitch => [.outside, .read, .masked, .masked, .masked, .masked, .outside]
  | .myproc => [.outside, .read, .masked, .masked, .outside]
  | .yield => [.outside, .outside, .outside, .outside, .outside]
  | .exitProcess => [.outside, .outside, .outside, .outside, .outside, .off]
  | .schedEnqueue => [.outside, .read, .masked, .held, .held, .masked, .outside]
  | .scheduler =>
    [.outside, .outside, .outside, .read, .masked, .held, .held, .masked, .outside, .outside,
      .outside, .outside, .outside, .outside, .outside]
  | .fork =>
    [.outside, .read, .masked, .masked, .masked, .masked, .masked, .masked, .outside]
  | .allocProcessNoEntry => [.outside, .read, .masked, .masked, .outside]
  | .forkret => [.off, .off, .outside, .outside, .outside]
  | .timerInterruptHandlerSched => [.off, .off, .off]
  | .user => [.outside, .outside]
  | .critical => [.outside, .read, .masked, .masked, .outside]

def phaseAt (fn : Fn) (pc : ℕ) : Option Phase := (phases fn)[pc]?

/-- The functions that are entered with interrupts on, whatever the flag is when their first
    command runs. -/
def Fn.rooted : Fn → Bool
  | .scheduler | .forkret | .timerInterruptHandlerSched => true
  | _ => false

/-- The command at `pc` may stand in phase `ph` and leads to the phases of its successors. -/
def Typed (fn : Fn) (pc : ℕ) (ph : Phase) : Cmd → Prop
  | .readFlags => ph = .outside ∧ phaseAt fn (pc + 1) = some .read
  | .cli => ph = .read ∧ phaseAt fn (pc + 1) = some .masked
  | .sti => ph ∈ [.outside, .off] ∧ fn.rooted ∧ phaseAt fn (pc + 1) = some .outside
  | .irqRestore => ph = .masked ∧ phaseAt fn (pc + 1) = some .outside
  | .spinlock => ph = .masked ∧ phaseAt fn (pc + 1) = some .held
  | .release => ph = .held ∧ phaseAt fn (pc + 1) = some .masked
  | .swtch => ph = .masked ∧ phaseAt fn (pc + 1) = some .masked
  | .cloneStack => ph = .masked ∧ phaseAt fn (pc + 1) = some .masked ∧
      phaseAt fn childReturn = some .masked
  | .call g _ => ph ≠ .held ∧ phaseAt fn (pc + 1) = some ph ∧ phaseAt g 0 = some .outside ∧
      g.rooted = false
  | .callEntry => ph = .outside ∧ fn.rooted ∧ phaseAt fn (pc + 1) = some ph
  | .user => ph ≠ .held ∧ phaseAt fn (pc + 1) = some ph
  | .ret | .retProc => ph = .outside
  | .iret => ph = .off ∧ fn.rooted
  | .panic => ph = .outside ∧ phaseAt fn (pc + 1) = some .off
  | .ifNull target | .ifZombie target => phaseAt fn (pc + 1) = some ph ∧ phaseAt fn target = some ph
  | .jump target => phaseAt fn target = some ph
  | .halt => True
  | _ => phaseAt fn (pc + 1) = some ph

instance (fn : Fn) (pc : ℕ) (ph : Phase) (c : Cmd) : Decidable (Typed fn pc ph c) := by
  unfold Typed
  split <;> infer_instance

theorem typed {fn : Fn} {pc : ℕ} {c : Cmd} {ph : Phase} (hc : (code fn)[pc]? = some c)
    (hph : phaseAt fn pc = some ph) : Typed fn pc ph c := by
  have hall : ∀ pc < 15, ∀ c ∈ (code fn)[pc]?, ∀ ph ∈ phaseAt fn pc, Typed fn pc ph c := by
    cases fn <;> decide
  refine hall pc ?_ c hc ph hph
  have hlen : (code fn).length ≤ 15 := by cases fn <;> decide
  obtain ⟨hlt, -⟩ := List.getElem?_eq_some_iff.mp hc
  omega

/-! ## Sound stacks -/

/-- The frame is in its phase when the flag is `irq` and the lock `lock`. -/
def FrameOk (f : Frame) (irq lock : Bool) : Prop :=
  (f.fn.rooted = true → f.entryIF = true) ∧
  ∃ ph, phaseAt f.fn f.pc = some ph ∧ ph.Holds f.entryIF f.flags irq lock

/-- Each frame is in its phase when the frames above it have returned. -/
def StackOk (irq lock : Bool) : List Frame → Prop
  | [] => True
  | f :: rest => FrameOk f irq lock ∧ StackOk f.entryIF false rest

structure IrqInv (m : Machine) : Prop where
  live : StackOk m.irq m.lock m.live
  saved : ∀ p, StackOk false false (m.saved p)
  lock_off : m.lock = true → m.irq = false

section Step

variable {m m' : Machine} {f caller : Frame} {rest : List Frame} {c : Cmd} {irq lock : Bool}

theorem FrameOk.typed (h : FrameOk f irq lock) (hc : f.cmd = some c) :
    ∃ ph, Typed f.fn f.pc ph c ∧ ph.Holds f.entryIF f.flags irq lock := by
  obtain ⟨-, ph, hph, hholds⟩ := h
  exact ⟨ph, Sched.typed hc hph, hholds⟩

/-- A return leaves the caller in its phase. -/
theorem FrameOk.resume (h : FrameOk f irq lock) : FrameOk f.resume irq lock := by
  have hnext : ∀ {c}, f.cmd = some c → (∀ ph, Typed f.fn f.pc ph c →
      phaseAt f.fn (f.pc + 1) = some ph) → FrameOk f.next irq lock := by
    intro c hc hsame
    obtain ⟨ph, htyped, hholds⟩ := h.typed hc
    exact ⟨h.1, ph, hsame ph htyped, hholds⟩
  unfold Frame.resume
  split
  · next g v hc => exact hnext hc fun ph (ht : Typed f.fn f.pc ph (.call g v)) => ht.2.1
  · next hc => exact hnext hc fun ph (ht : Typed f.fn f.pc ph .callEntry) => ht.2.2
  · exact h

/-- The top frame has moved within its function. -/
theorem IrqInv.advance (h : IrqInv m) (hlive : m.live = f :: rest) {f' : Frame}
    (hlive' : m'.live = f' :: rest) (hfn : f'.fn = f.fn) (hentry : f'.entryIF = f.entryIF)
    (hsaved : ∀ p, StackOk false false (m'.saved p)) {ph : Phase}
    (hph : phaseAt f.fn f'.pc = some ph) (hholds : ph.Holds f.entryIF f'.flags m'.irq m'.lock) :
    IrqInv m' := by
  have hstack := hlive ▸ h.live
  obtain ⟨⟨hroot, -⟩, hrest⟩ := hstack
  refine ⟨?_, hsaved, ?_⟩
  · rw [hlive']
    refine ⟨⟨?_, ph, by rw [hfn]; exact hph, by rw [hentry]; exact hholds⟩, by rw [hentry]; exact hrest⟩
    rw [hfn, hentry]
    exact hroot
  · intro hlock
    cases ph <;> simp only [Phase.Holds, hlock] at hholds <;> grind

/-- A function is entered with the lock free and the flag as it is. -/
theorem IrqInv.enter (h : IrqInv m) (hlive : m.live = f :: rest) (hlock : m.lock = false) {fn : Fn}
    (hfn : phaseAt fn 0 = some .outside) (hroot : fn.rooted = true → m.irq = true)
    (arg : Option ProcId) (level : Level) : IrqInv (m.enter f rest fn arg level) := by
  have hstack := h.live
  rw [hlive, hlock] at hstack
  refine ⟨⟨⟨hroot, .outside, hfn, rfl, hlock⟩, hstack⟩, h.saved, h.lock_off⟩

theorem IrqInv.saved_update (h : IrqInv m) {p : ProcId} {stack : List Frame}
    (hstack : StackOk false false stack) :
    ∀ q, StackOk false false (Function.update m.saved p stack q) := by
  intro q
  rw [Function.update_apply]
  split_ifs
  · exact hstack
  · exact h.saved q

theorem Phase.Holds.lock_free {ph : Phase} {entryIF flags : Bool}
    (h : ph.Holds entryIF flags irq lock) (hph : ph ≠ .held) : lock = false := by
  cases ph with
  | held => exact absurd rfl hph
  | outside | off => exact h.2
  | read | masked => exact h.2.2

/-- A function that is left with the flag of its entry. -/
theorem IrqInv.leave (h : IrqInv m) (hlive : m.live = f :: caller :: rest)
    (hholds : Phase.Holds f.entryIF f.flags m.irq m.lock .outside) (p : Option ProcId) :
    IrqInv (m.on { caller.resume with p := p } rest) := by
  have hstack := hlive ▸ h.live
  refine ⟨?_, h.saved, h.lock_off⟩
  show StackOk m.irq m.lock _
  rw [hholds.1, hholds.2]
  refine ⟨hstack.2.1.resume, ?_⟩
  show StackOk caller.resume.entryIF false rest
  rw [Frame.resume_entryIF]
  exact hstack.2.2

theorem IrqInv.exec (h : IrqInv m) (hlive : m.live = f :: rest) (hc : f.cmd = some c)
    (he : m.exec f rest c = some m') : IrqInv m' := by
  have hstack := hlive ▸ h.live
  obtain ⟨hframe, hrest⟩ := hstack
  obtain ⟨ph, htyped, hholds⟩ := hframe.typed hc
  have hroot := hframe.1
  cases c with
  | readFlags =>
    obtain ⟨rfl, hnext⟩ := htyped
    obtain rfl := Option.some.inj he
    exact h.advance hlive rfl rfl rfl h.saved hnext ⟨hholds.1, hholds.1, hholds.2⟩
  | cli | panic =>
    obtain ⟨rfl, hnext⟩ := htyped
    obtain rfl := Option.some.inj he
    exact h.advance hlive rfl rfl rfl h.saved hnext ⟨rfl, hholds.2⟩
  | sti =>
    obtain ⟨hph, hfn, hnext⟩ := htyped
    obtain rfl := Option.some.inj he
    have hlock : m.lock = false := by
      rcases List.mem_pair.mp hph with rfl | rfl
      · exact hholds.2
      · exact hholds.2
    exact h.advance hlive rfl rfl rfl h.saved hnext ⟨(hroot hfn).symm, hlock⟩
  | irqRestore =>
    obtain ⟨rfl, hnext⟩ := htyped
    obtain ⟨hirq, hflags, hlock⟩ := hholds
    obtain rfl := Option.some.inj he
    refine h.advance hlive rfl rfl rfl h.saved hnext ⟨?_, hlock⟩
    show (m.irq || f.flags) = f.entryIF
    rw [hirq, Bool.false_or, hflags]
  | spinlock =>
    obtain ⟨rfl, hnext⟩ := htyped
    obtain ⟨hirq, hflags, hlock⟩ := hholds
    simp only [Machine.exec, hlock, Bool.false_eq_true, if_false] at he
    obtain rfl := Option.some.inj he
    exact h.advance hlive rfl rfl rfl h.saved hnext ⟨hirq, hflags, rfl⟩
  | release =>
    obtain ⟨rfl, hnext⟩ := htyped
    obtain rfl := Option.some.inj he
    exact h.advance hlive rfl rfl rfl h.saved hnext ⟨hholds.1, hholds.2.1, rfl⟩
  | getTask | getScheduler | resetLocals | demoteLevel | jump target =>
    obtain rfl := Option.some.inj he
    exact h.advance hlive rfl rfl rfl h.saved htyped hholds
  | setTask | setState | listAddTail =>
    obtain ⟨_, -, rfl⟩ := Option.map_eq_some_iff.mp he
    exact h.advance hlive rfl rfl rfl h.saved htyped hholds
  | scan =>
    simp only [Machine.exec] at he
    split at he <;> obtain rfl := Option.some.inj he <;>
      exact h.advance hlive rfl rfl rfl h.saved htyped hholds
  | claimSlot =>
    simp only [Machine.exec] at he
    split at he <;> obtain rfl := Option.some.inj he
    · exact h.advance hlive rfl rfl rfl h.saved htyped hholds
    · exact h.advance hlive rfl rfl rfl (h.saved_update trivial) htyped hholds
  | cloneStack =>
    obtain ⟨rfl, hnext, hchild⟩ := htyped
    obtain ⟨_, -, rfl⟩ := Option.map_eq_some_iff.mp he
    refine h.advance hlive rfl rfl rfl (h.saved_update ?_) hnext hholds
    exact ⟨⟨hroot, .masked, hchild, rfl, hholds.2.1, rfl⟩, hrest⟩
  | ifNull target =>
    obtain rfl := Option.some.inj he
    split_ifs
    · exact h.advance hlive rfl rfl rfl h.saved htyped.2 hholds
    · exact h.advance hlive rfl rfl rfl h.saved htyped.1 hholds
  | ifZombie target =>
    obtain ⟨_, -, rfl⟩ := Option.map_eq_some_iff.mp he
    split_ifs
    · exact h.advance hlive rfl rfl rfl h.saved htyped.2 hholds
    · exact h.advance hlive rfl rfl rfl h.saved htyped.1 hholds
  | swtch =>
    obtain ⟨rfl, hnext⟩ := htyped
    obtain ⟨hirq, hflags, hlock⟩ := hholds
    obtain ⟨_, -, hmap⟩ := Option.bind_eq_some_iff.mp he
    obtain ⟨new, -, rfl⟩ := Option.map_eq_some_iff.mp hmap
    refine ⟨?_, h.saved_update ⟨⟨hroot, .masked, hnext, rfl, hflags, rfl⟩, hrest⟩, h.lock_off⟩
    show StackOk m.irq m.lock (m.saved new)
    rw [hirq, hlock]
    exact h.saved new
  | call g v =>
    obtain ⟨hph, -, hg, hgroot⟩ := htyped
    obtain rfl := Option.some.inj he
    refine h.enter hlive (hholds.lock_free hph) hg (fun hr => ?_) _ _
    rw [hgroot] at hr
    exact absurd hr (by decide)
  | callEntry =>
    obtain ⟨rfl, hfn, -⟩ := htyped
    obtain rfl := Option.some.inj he
    refine h.enter hlive hholds.2 ?_ (fun _ => hholds.1.trans (hroot hfn)) _ _
    split_ifs <;> rfl
  | ret | retProc =>
    obtain rfl := htyped
    cases rest with
    | nil => cases he
    | cons caller rest =>
      obtain rfl := Option.some.inj he
      exact h.leave hlive hholds _
  | iret =>
    obtain ⟨rfl, hfn⟩ := htyped
    obtain rfl := Option.some.inj he
    have hlock := hholds.2
    refine ⟨?_, h.saved, fun hl => ?_⟩
    · show StackOk true m.lock rest
      rw [hlock, ← hroot hfn]
      exact hrest
    · have hl' : m.lock = true := hl
      rw [hlock] at hl'
      exact absurd hl' (by decide)
  | user | halt => cases he

theorem IrqInv.choose (h : IrqInv m) (hlive : m.live = f :: rest) (hc : f.cmd = some .user)
    {a : Act} (he : m.choose f rest a = some m') : IrqInv m' := by
  have hstack := hlive ▸ h.live
  obtain ⟨ph, ⟨hph, hnext⟩, hholds⟩ := hstack.1.typed hc
  have hlock := hholds.lock_free hph
  cases a with
  | fork level | yield | exitProcess | irqSave =>
    obtain rfl := Option.some.inj he
    exact h.enter hlive hlock rfl (fun hr => absurd hr (by decide)) _ _
  | leave =>
    obtain rfl := Option.some.inj he
    exact h.advance hlive rfl rfl rfl h.saved hnext hholds
  | go | timer => cases he

theorem IrqInv.interrupt (h : IrqInv m) (hirq : m.irq = true) : IrqInv m.interrupt := by
  have hlock : m.lock = false := by
    cases hl : m.lock with
    | false => rfl
    | true =>
      rw [h.lock_off hl] at hirq
      exact absurd hirq (by decide)
  have hstack := h.live
  rw [hirq, hlock] at hstack
  exact ⟨⟨⟨fun _ => rfl, .off, rfl, rfl, hlock⟩, hstack⟩, h.saved, fun _ => rfl⟩

theorem IrqInv.step (h : IrqInv m) {a : Act} (hs : m.step a = some m') : IrqInv m' := by
  rcases Machine.step_cases hs with ⟨-, hirq, rfl⟩ | ⟨f, rest, hlive, hc, he⟩ |
    ⟨f, rest, c, hlive, hc, he, -⟩
  · exact h.interrupt hirq
  · exact h.choose hlive hc he
  · exact h.exec hlive hc he

end Step

/-! ## Runs -/

theorem boot_irqInv : IrqInv boot where
  live := by
    refine ⟨⟨by decide, .outside, rfl, rfl, rfl⟩, ⟨by decide, .outside, rfl, rfl, rfl⟩,
      ⟨by decide, .outside, rfl, rfl, rfl⟩, trivial⟩
  saved p := by
    have hfresh : StackOk false false freshStack := ⟨⟨by decide, .off, rfl, rfl, rfl⟩, trivial⟩
    have hborn : ∀ child level, StackOk false false (bornStack child level) := fun child level =>
      ⟨⟨fun _ => rfl, .masked, rfl, rfl, rfl, rfl⟩, ⟨fun _ => rfl, .outside, rfl, rfl, rfl⟩,
        ⟨fun _ => rfl, .outside, rfl, rfl, rfl⟩, trivial⟩
    show StackOk false false (if p = 0 ∨ p = 3 then freshStack else _)
    split_ifs
    · exact hfresh
    · exact hborn 1 0
    · exact hborn 2 1
    · trivial
  lock_off := by decide

theorem irqInv_of_steps {allowed : Machine → Act → Prop} {m : Machine}
    (h : Machine.Steps allowed boot m) : IrqInv m := by
  induction h with
  | refl => exact boot_irqInv
  | tail _ hstep ih =>
    obtain ⟨a, -, hs⟩ := hstep
    exact ih.step hs

/-- Interrupt flag and lock, whatever forks, yields, exits and timer interrupts the run has: the
    lock is free at every `spinlock`; the flag is clear while it is held and at every `swtch`;
    `ctx_switch` returns with the flag it was called with, a fresh process comes to its entry point
    with the flag set, and parent and child leave `fork` with the flag of its entry. -/
theorem irq_discipline {m : Machine} (h : Machine.Steps (fun _ _ => True) boot m) :
    (∀ f, m.At f .spinlock → m.lock = false) ∧
    (m.lock = true → m.irq = false) ∧
    (∀ f, m.At f .swtch → m.irq = false) ∧
    (∀ f, m.At f .ret → f.fn = .ctxSwitch → m.irq = f.entryIF) ∧
    (∀ f, m.At f .callEntry → m.irq = true) ∧
    ∀ f, m.At f .ret → f.fn = .fork → m.irq = f.entryIF := by
  have hinv := irqInv_of_steps h
  have htop : ∀ {f c}, m.At f c → ∃ ph, Typed f.fn f.pc ph c ∧
      ph.Holds f.entryIF f.flags m.irq m.lock ∧ (f.fn.rooted = true → f.entryIF = true) := by
    intro f c hat
    obtain ⟨rest, hlive, hc⟩ := hat
    have hstack := hlive ▸ hinv.live
    obtain ⟨ph, htyped, hholds⟩ := hstack.1.typed hc
    exact ⟨ph, htyped, hholds, hstack.1.1⟩
  have hret : ∀ {f}, m.At f .ret → m.irq = f.entryIF := by
    intro f hat
    obtain ⟨_, rfl, hholds, -⟩ := htop hat
    exact hholds.1
  refine ⟨fun f hat => ?_, hinv.lock_off, fun f hat => ?_, fun f hat _ => hret hat, fun f hat => ?_,
    fun f hat _ => hret hat⟩
  · obtain ⟨_, ⟨rfl, -⟩, hholds, -⟩ := htop hat
    exact hholds.2.2
  · obtain ⟨_, ⟨rfl, -⟩, hholds, -⟩ := htop hat
    exact hholds.1
  · obtain ⟨_, ⟨rfl, hfn, -⟩, hholds, hroot⟩ := htop hat
    exact hholds.1.trans (hroot hfn)

/-- The scheduler takes the lock for the first time. -/
theorem irq_discipline_first_lock : ∃ m f, boot.run (List.replicate 22 .go) = some m ∧
    m.At f .spinlock ∧ m.lock = false := by
  refine ⟨_, _, rfl, ⟨_, rfl, rfl⟩, ?_⟩
  have hrun : boot.run (List.replicate 22 .go) = some _ := rfl
  exact (irq_discipline (Machine.Steps.of_run hrun fun _ _ _ => trivial)).1 _ ⟨_, rfl, rfl⟩

end HorizonOS.Sched
