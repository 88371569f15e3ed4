import HorizonOS.Sched.Irq

/-!
# Whose stack it is

What the frames of a stack hold, for the process that owns it: `myproc` answers its owner, a
process only ever switches to the scheduler process, a call waits at its call command. This
stands for every stack as long as the timer does not strike while the scheduler process runs,
since then no continuation is taken up twice.

* `cmd_sites`: where each command stands.
* `FrameFor`, `Waits`, `StackFor`: frames and stacks of an owner.
* `StackFor.child`: what `fork` copies is a stack of the child.
-/

namespace HorizonOS.Sched

open HorizonOS.Proc

/-! ## Places -/

/-- The places of a command in the code. -/
def sites : Cmd → List (Fn × ℕ)
  | .readFlags =>
    [(.ctxSwitch, 0), (.myproc, 0), (.schedEnqueue, 0), (.scheduler, 2), (.fork, 0),
      (.allocProcessNoEntry, 0), (.critical, 0)]
  | .cli =>
    [(.ctxSwitch, 1), (.myproc, 1), (.schedEnqueue, 1), (.scheduler, 3), (.fork, 1),
      (.allocProcessNoEntry, 1), (.critical, 1)]
  | .sti => [(.scheduler, 0), (.forkret, 1)]
  | .irqRestore =>
    [(.ctxSwitch, 5), (.myproc, 3), (.schedEnqueue, 5), (.scheduler, 7), (.fork, 7),
      (.allocProcessNoEntry, 3), (.critical, 3)]
  | .spinlock => [(.schedEnqueue, 2), (.scheduler, 4)]
  | .release => [(.schedEnqueue, 4), (.scheduler, 6)]
  | .getTask => [(.myproc, 2)]
  | .setTask => [(.ctxSwitch, 3)]
  | .getScheduler => [(.yield, 1), (.exitProcess, 2), (.timerInterruptHandlerSched, 0)]
  | .setState .ready => [(.yield, 2)]
  | .setState .zombie => [(.exitProcess, 1)]
  | .setState .running => [(.scheduler, 9)]
  | .setState _ => []
  | .resetLocals => [(.scheduler, 1)]
  | .scan => [(.scheduler, 5)]
  | .listAddTail => [(.schedEnqueue, 3)]
  | .demoteLevel => [(.scheduler, 12)]
  | .claimSlot => [(.allocProcessNoEntry, 2)]
  | .cloneStack => [(.fork, 5)]
  | .ifNull target =>
    if target = 0 then [(.scheduler, 8)] else if target = childReturn then [(.fork, 4)] else []
  | .ifZombie target => if target = 0 then [(.scheduler, 11)] else []
  | .jump target => if target = 0 then [(.scheduler, 14)] else []
  | .swtch => [(.ctxSwitch, 4)]
  | .call .myproc _ =>
    [(.ctxSwitch, 2), (.yield, 0), (.exitProcess, 0), (.fork, 2), (.forkret, 0)]
  | .call .ctxSwitch .arg => [(.yield, 3), (.exitProcess, 3), (.timerInterruptHandlerSched, 1)]
  | .call .ctxSwitch .p => [(.scheduler, 10)]
  | .call .schedEnqueue .p => [(.scheduler, 13), (.fork, 6)]
  | .call .allocProcessNoEntry _ => [(.fork, 3)]
  | .call .exitProcess _ => [(.forkret, 3)]
  | .call _ _ => []
  | .callEntry => [(.forkret, 2)]
  | .ret =>
    [(.ctxSwitch, 6), (.yield, 4), (.schedEnqueue, 6), (.fork, 8), (.user, 1), (.critical, 4)]
  | .retProc => [(.myproc, 4), (.allocProcessNoEntry, 4)]
  | .iret => [(.timerInterruptHandlerSched, 2)]
  | .user => [(.user, 0), (.critical, 2)]
  | .panic => [(.exitProcess, 4)]
  | .halt => [(.exitProcess, 5), (.forkret, 4)]

theorem cmd_sites {f : Frame} {c : Cmd} (hc : f.cmd = some c) : (f.fn, f.pc) ∈ sites c := by
  have hall : ∀ pc < 15, ∀ c ∈ (code f.fn)[pc]?, (f.fn, pc) ∈ sites c := by
    cases f.fn <;> decide
  refine hall f.pc ?_ c hc
  have hlen : (code f.fn).length ≤ 15 := by cases f.fn <;> decide
  obtain ⟨hlt, -⟩ := List.getElem?_eq_some_iff.mp hc
  omega

/-- The place of a command that stands at one only. -/
theorem cmd_site {f : Frame} {c : Cmd} {fn : Fn} {pc : ℕ} (hc : f.cmd = some c)
    (hsites : sites c = [(fn, pc)]) : f.fn = fn ∧ f.pc = pc :=
  Prod.mk.inj (List.mem_singleton.mp (hsites ▸ cmd_sites hc))

/-- To show something of a frame at a command, show it at the places of the command. -/
theorem of_sites {P : Frame → Prop} {f : Frame} {c : Cmd} (hc : f.cmd = some c)
    (h : ∀ x ∈ sites c, P { f with fn := x.1, pc := x.2 }) : P f := h _ (cmd_sites hc)

/-! ## Frames of an owner -/

/-- A frame on the stack of `o`, where `s` is the scheduler process. -/
def FrameFor (s o : ProcId) (f : Frame) : Prop :=
  match f.fn with
  | .ctxSwitch => (o ≠ s → f.arg = some s) ∧ (f.pc = 3 ∨ f.pc = 4 → f.p = some o)
  | .myproc => f.pc = 3 ∨ f.pc = 4 → f.p = some o
  | .yield => o ≠ s ∧ (1 ≤ f.pc → f.p = some o) ∧ (2 ≤ f.pc → f.arg = some s)
  | .exitProcess => o ≠ s ∧ (1 ≤ f.pc → f.p = some o) ∧ (3 ≤ f.pc → f.arg = some s)
  | .schedEnqueue => o ≠ s → f.entryIF = false
  | .scheduler => o = s ∧ (2 ≤ f.pc → f.pc ≤ 5 → f.p = none)
  | .allocProcessNoEntry => o ≠ s ∧ f.entryIF = false
  | .forkret => (o = s → f.pc ≤ 2) ∧ (1 ≤ f.pc → (f.p = some s ↔ o = s))
  | .timerInterruptHandlerSched => o ≠ s ∧ (1 ≤ f.pc → f.arg = some s)
  | .fork | .user | .critical => o ≠ s

/-- The child that a frame of `fork` or of its callees has claimed and not yet queued. -/
def carries (f : Frame) : Option ProcId :=
  match f.fn with
  | .fork => if 4 ≤ f.pc ∧ f.pc ≤ 6 then f.p else none
  | .allocProcessNoEntry => if 3 ≤ f.pc then f.p else none
  | .schedEnqueue => if f.pc ≤ 3 then f.arg else none
  | _ => none

/-- The frame `f` waits for `g`, which it has called or which has interrupted it. -/
def Waits (f g : Frame) : Prop :=
  (g.fn = .timerInterruptHandlerSched ∧ carries f = none) ∨
  (∃ v, f.cmd = some (.call g.fn v) ∧
    (g.fn = .ctxSwitch ∨ g.fn = .schedEnqueue → g.arg = f.var v ∧ g.level = f.level)) ∨
  (f.cmd = some .callEntry ∧ (g.fn = .user ∨ g.fn = .scheduler)) ∨
  (f.cmd = some .user ∧ g.fn ∈ [.fork, .yield, .exitProcess, .critical, .ctxSwitch])

/-- A stack of `o`. An empty one is a context that has been zeroed and not yet filled. -/
def StackFor (s o : ProcId) : List Frame → Prop
  | [] => True
  | [f] => FrameFor s o f ∧ f.fn ∈ [.forkret, .timerInterruptHandlerSched]
  | g :: f :: rest => FrameFor s o g ∧ Waits f g ∧ StackFor s o (f :: rest)

section Stacks

variable {s o : ProcId} {f g : Frame} {rest : List Frame}

theorem StackFor.top (h : StackFor s o (f :: rest)) : FrameFor s o f := by
  cases rest with
  | nil => exact h.1
  | cons _ _ => exact h.1

/-- The top frame moves on in its function. -/
theorem StackFor.advance (h : StackFor s o (f :: rest)) (hfn : g.fn = f.fn)
    (hargs : f.fn = .ctxSwitch ∨ f.fn = .schedEnqueue → g.arg = f.arg ∧ g.level = f.level)
    (hg : FrameFor s o g) : StackFor s o (g :: rest) := by
  cases rest with
  | nil => exact ⟨hg, hfn ▸ h.2⟩
  | cons e rest =>
    obtain ⟨-, hwait, hrest⟩ := h
    refine ⟨hg, ?_, hrest⟩
    unfold Waits at hwait ⊢
    rw [hfn]
    refine hwait.imp_right (Or.imp_left ?_)
    intro hcall
    obtain ⟨v, hv, hpass⟩ := hcall
    refine ⟨v, hv, fun hsw => ?_⟩
    obtain ⟨harg, hlevel⟩ := hargs hsw
    obtain ⟨harg', hlevel'⟩ := hpass hsw
    exact ⟨harg.trans harg', hlevel.trans hlevel'⟩

theorem StackFor.enter (h : StackFor s o (f :: rest)) (hwait : Waits f g) (hg : FrameFor s o g) :
    StackFor s o (g :: f :: rest) := ⟨hg, hwait, h⟩

theorem StackFor.below (h : StackFor s o (g :: f :: rest)) : StackFor s o (f :: rest) := h.2.2

/-- Below a process's own code, and below `fork`, there is only its own code. -/
theorem StackFor.own (h : StackFor s o (g :: rest))
    (hg : g.fn ∈ [.fork, .user, .critical, .forkret]) :
    ∀ e ∈ rest, e.fn ∈ [Fn.user, .critical, .forkret] := by
  induction rest generalizing g with
  | nil => exact List.forall_mem_nil _
  | cons f rest ih =>
    obtain ⟨-, hwait, hrest⟩ := h
    have hf : f.fn ∈ [Fn.user, .critical, .forkret] := by
      rcases hwait with ⟨htimer, -⟩ | ⟨v, hcall, -⟩ | ⟨hentry, -⟩ | ⟨huser, -⟩
      · rw [htimer] at hg
        exact absurd hg (by decide)
      · have hsite := cmd_sites hcall
        revert hsite hg
        cases g.fn <;> simp [sites]
      · have hsite := cmd_sites hentry
        simp only [sites, List.mem_singleton, Prod.mk.injEq] at hsite
        rw [hsite.1]
        decide
      · have hsite := cmd_sites huser
        simp only [sites, List.mem_cons, Prod.mk.injEq, List.not_mem_nil, or_false] at hsite
        rcases hsite with ⟨hfn, -⟩ | ⟨hfn, -⟩ <;> rw [hfn] <;> decide
    refine List.forall_mem_cons.mpr ⟨hf, ih hrest ?_⟩
    revert hf
    cases f.fn <;> decide

theorem FrameFor.child {c : ProcId} (h : FrameFor s o f) (ho : o ≠ s) (hc : c ≠ s)
    (hf : f.fn ∈ [Fn.user, .critical, .forkret]) : FrameFor s c f := by
  unfold FrameFor at h ⊢
  revert h hf
  cases f.fn with
  | user | critical => exact fun _ _ => hc
  | forkret =>
    intro h _
    refine ⟨fun he => absurd he hc, fun hpc => ?_⟩
    rw [h.2 hpc]
    exact iff_of_false ho hc
  | _ => exact fun _ hf => absurd hf (by decide)

theorem StackFor.child_own {c : ProcId} (h : StackFor s o rest) (ho : o ≠ s) (hc : c ≠ s)
    (hown : ∀ e ∈ rest, e.fn ∈ [Fn.user, .critical, .forkret]) : StackFor s c rest := by
  induction rest with
  | nil => trivial
  | cons f rest ih =>
    obtain ⟨hf, hown⟩ := List.forall_mem_cons.mp hown
    cases rest with
    | nil => exact ⟨h.1.child ho hc hf, h.2⟩
    | cons e rest => exact ⟨h.1.child ho hc hf, h.2.1, ih h.2.2 hown⟩

/-- The copy that `fork` makes is a stack of the child. -/
theorem StackFor.child {c : ProcId} (h : StackFor s o (f :: rest)) (ho : o ≠ s) (hc : c ≠ s)
    (hfn : f.fn = .fork) (hg : g.fn = .fork) : StackFor s c (g :: rest) := by
  have hown := h.own (by rw [hfn]; decide)
  have hgc : FrameFor s c g := by
    unfold FrameFor
    rw [hg]
    exact hc
  cases rest with
  | nil =>
    have hbottom := h.2
    rw [hfn] at hbottom
    exact absurd hbottom (by decide)
  | cons e rest =>
    have hadv : StackFor s o (g :: e :: rest) := by
      refine h.advance (hg.trans hfn.symm) (fun hcall => ?_) ?_
      · rw [hfn] at hcall
        exact absurd hcall (by decide)
      · unfold FrameFor
        rw [hg]
        exact ho
    exact ⟨hgc, hadv.2.1, h.2.2.child_own ho hc hown⟩

end Stacks

end HorizonOS.Sched
