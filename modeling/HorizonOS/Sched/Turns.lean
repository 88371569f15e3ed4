import HorizonOS.Sched.Complete

/-!
# Who is RUNNING

The scheduler marks the process it picks `RUNNING`, and `yield` and `exit_process` take the mark
away again before they switch to the scheduler process. The timer handler and `init`'s first
`ctx_switch` switch there too and leave the mark, so that it tells who executes only as long as no
other process was last taken off the CPU by one of these. This is put in terms of the history of a
run: who has begun to hand the CPU over, in which way, and who has left it.

* `Runs`: the runs and their histories.
* `pending`: the switches that a stack still has before it.
* `Turns`: the states and the stacks in terms of the history.
* `running_unique`: when the process that executes is the only one marked.
* `running_twice`: process A executes while `init` is still marked and queued.
-/

namespace HorizonOS.Sched

open HorizonOS.Proc

/-! ## Histories -/

/-- What takes a process off the CPU. `ctxSwitch` is `init`'s own `ctx_switch(sched_p)`. -/
inductive HandOver
  | yield
  | exitProcess
  | timer
  | ctxSwitch
deriving DecidableEq, Repr

inductive Moment
  /-- `p` calls `yield` or `exit_process`, or the timer strikes it. -/
  | begins (p : ProcId) (how : HandOver)
  /-- The CPU goes from `p` to another process. -/
  | leaves (p : ProcId)
deriving DecidableEq, Repr

/-- What the act begins. A process whose entry function returns goes on to `exit_process`
    (process.c:136). -/
def begun (m : Machine) : Act → Option HandOver
  | .yield => some .yield
  | .exitProcess => some .exitProcess
  | .timer => some .timer
  | .leave => if (m.live.head?.map Frame.fn) = some .user then some .exitProcess else none
  | .go | .fork _ | .irqSave => none

/-- What a step adds to the history. -/
def moments (m : Machine) (a : Act) (m' : Machine) : List Moment :=
  (if m'.cur = m.cur then [] else [.leaves m.cur]) ++ ((begun m a).map (.begins m.cur)).toList

/-- The runs from the start in which the timer spares the scheduler process, with their
    histories, newest moment first. -/
inductive Runs : List Moment → Machine → Prop
  | boot : Runs [.begins 0 .ctxSwitch] boot
  | step {h : List Moment} {m m' : Machine} (a : Act) : Runs h m → SparesScheduler m a →
      m.step a = some m' → Runs (moments m a m' ++ h) m'

/-- How often `p` has begun to hand the CPU over. -/
def beginnings (p : ProcId) (h : List Moment) : ℕ :=
  h.countP fun | .begins r _ => r = p | .leaves _ => false

/-- How often `p` has left the CPU. -/
def departures (p : ProcId) (h : List Moment) : ℕ := h.count (.leaves p)

/-- Whenever `p` has begun to hand the CPU over, it has left it. -/
def Settled (h : List Moment) (p : ProcId) : Prop := beginnings p h = departures p h

def lastHandOver (p : ProcId) : List Moment → Option HandOver
  | [] => none
  | .begins r how :: h => if r = p then some how else lastHandOver p h
  | .leaves _ :: h => lastHandOver p h

/-- The last way in which `p` began to hand the CPU over is one that does not write its state. -/
def CutShort (h : List Moment) (p : ProcId) : Prop :=
  lastHandOver p h = some .timer ∨ lastHandOver p h = some .ctxSwitch

/-- The timer has never struck `p` on its way through `yield` or `exit_process`. -/
def Unnested (p : ProcId) : List Moment → Prop
  | [] => True
  | .begins r how :: h => (r = p → how = .timer → Settled h p) ∧ Unnested p h
  | .leaves _ :: h => Unnested p h

instance (h : List Moment) (p : ProcId) : Decidable (Settled h p) :=
  inferInstanceAs (Decidable (_ = _))

instance (h : List Moment) (p : ProcId) : Decidable (CutShort h p) :=
  inferInstanceAs (Decidable (_ ∨ _))

section History

variable {h : List Moment} {p r : ProcId} {how : HandOver}

@[simp] theorem beginnings_begins :
    beginnings p (.begins r how :: h) = beginnings p h + if r = p then 1 else 0 := by
  simp [beginnings, List.countP_cons]

@[simp] theorem beginnings_leaves : beginnings p (.leaves r :: h) = beginnings p h := by
  simp [beginnings]

@[simp] theorem departures_begins : departures p (.begins r how :: h) = departures p h := by
  simp [departures]

@[simp] theorem departures_leaves :
    departures p (.leaves r :: h) = departures p h + if r = p then 1 else 0 := by
  simp [departures, List.count_cons]

@[simp] theorem cutShort_leaves : CutShort (.leaves r :: h) p ↔ CutShort h p := Iff.rfl

@[simp] theorem unnested_leaves : Unnested p (.leaves r :: h) ↔ Unnested p h := Iff.rfl

theorem cutShort_begins_of_ne (hr : r ≠ p) : CutShort (.begins r how :: h) p ↔ CutShort h p := by
  simp [CutShort, lastHandOver, hr]

theorem unnested_begins_of_ne (hr : r ≠ p) : Unnested p (.begins r how :: h) ↔ Unnested p h := by
  simp [Unnested, hr]

theorem cutShort_begins_self :
    CutShort (.begins p how :: h) p ↔ how = .timer ∨ how = .ctxSwitch := by
  simp [CutShort, lastHandOver]

end History

/-! ## What a stack is about to do -/

/-- A switch to the scheduler process that lies before a process: it has asked for it in `yield`
    or `exit_process`, its state has been written there too, or neither. -/
inductive Pending
  | asked
  | written
  | cut
deriving DecidableEq, Repr

/-- The switch that belongs to a frame, and how the frame below is reached: not at all, or through
    a `ctx_switch` (before its `swtch` or behind it) or otherwise. -/
def pendingAt (via : Option Bool) : Fn × ℕ → List Pending × Option (Option Bool)
  | (.ctxSwitch, pc) => ([], some (some (5 ≤ pc)))
  | (.myproc, _) => ([], some none)
  | (.timerInterruptHandlerSched, pc) =>
    (if via = some true ∨ 2 ≤ pc then [] else [.cut], some none)
  | (.yield, pc) =>
    (if via = some true ∨ 4 ≤ pc then [] else if pc ≤ 2 then [.asked] else [.written], none)
  | (.exitProcess, pc) =>
    (if via = some true ∨ 4 ≤ pc then [] else if pc ≤ 1 then [.asked] else [.written], none)
  | (.user, pc) => (if via = some false then [.cut] else if pc = 1 then [.asked] else [], none)
  | (.critical, _) => (if via = some false then [.cut] else [], none)
  | (.forkret, pc) => (if 3 ≤ pc then [.asked] else [], none)
  | _ => ([], none)

/-- The switches that lie before a stack, the next one first. -/
def pending (via : Option Bool) : List Frame → List Pending
  | [] => []
  | f :: rest =>
    (pendingAt via (f.fn, f.pc)).1 ++
      (pendingAt via (f.fn, f.pc)).2.elim [] fun via => pending via rest

/-- The process that the scheduler has marked and is switching to. -/
def sending : List Frame → Option ProcId
  | [] => none
  | f :: rest =>
    match f.fn with
    | .ctxSwitch => if f.pc ≤ 4 then sending rest else none
    | .myproc => sending rest
    | .scheduler => if f.pc = 10 then f.p else none
    | _ => none

/-- The running stack goes on with the same before it. -/
structure Keeps (l l' : List Frame) : Prop where
  pending : pending none l' = pending none l
  sending : sending l' = sending l

section Keeps

variable {s o : ProcId} {f g : Frame} {rest : List Frame} {fn : Fn} {v : Var} {irq : Bool}

/-- How a frame says who is sent: by itself, as its caller does, or nobody. -/
inductive Answer
  | own
  | caller
  | no
deriving DecidableEq

def Answer.read (own caller : Option ProcId) : Answer → Option ProcId
  | .own => own
  | .caller => caller
  | .no => none

def sendingAt (x : Fn × ℕ) : Answer :=
  match x.1 with
  | .ctxSwitch => if x.2 ≤ 4 then .caller else .no
  | .myproc => .caller
  | .scheduler => if x.2 = 10 then .own else .no
  | _ => .no

theorem sending_cons : sending (f :: rest) = (sendingAt (f.fn, f.pc)).read f.p (sending rest) := by
  rw [Sched.sending, sendingAt]
  cases f.fn <;> dsimp only <;> (try split_ifs) <;> rfl

/-- A frame that goes on to a place that says the same. -/
theorem keeps_of_places (hpending : pendingAt none (g.fn, g.pc) = pendingAt none (f.fn, f.pc))
    (hsending : sendingAt (g.fn, g.pc) = sendingAt (f.fn, f.pc))
    (hp : sendingAt (f.fn, f.pc) = .own → g.p = f.p) : Keeps (f :: rest) (g :: rest) where
  pending := by rw [Sched.pending, Sched.pending, hpending]
  sending := by
    rw [sending_cons, sending_cons, hsending]
    cases h : sendingAt (f.fn, f.pc) with
    | own => exact hp h
    | caller => rfl
    | no => rfl

/-- The place `y` of a new frame says what the caller's place `x` said. -/
def Pushes (x y : Fn × ℕ) : Prop :=
  ((∃ via ∈ [none, some false, some true],
      pendingAt none y = ([], some via) ∧ pendingAt via x = pendingAt none x) ∨
    pendingAt none y = pendingAt none x ∧ (pendingAt none x).2 = none) ∧
  (sendingAt y = .caller ∨ sendingAt x = .no ∧ sendingAt y = .no)

instance (x y : Fn × ℕ) : Decidable (Pushes x y) := by
  unfold Pushes
  infer_instance

theorem keeps_push (h : Pushes (f.fn, f.pc) (g.fn, g.pc)) :
    Keeps (f :: rest) (g :: f :: rest) where
  pending := by
    rw [Sched.pending]
    rcases h.1 with ⟨via, -, hg, hf⟩ | ⟨hg, hf⟩
    · rw [hg, List.nil_append, Option.elim_some, Sched.pending, Sched.pending, hf]
    · rw [hg, hf, Sched.pending, hf]
      rfl
  sending := by
    rw [sending_cons]
    rcases h.2 with hg | ⟨hf, hg⟩
    · rw [hg]
      rfl
    · rw [hg, sending_cons, hf]
      rfl

/-- Returning from `y` to the place `z` of a caller that waited at `x` says the same. -/
def Pops (x y z : Fn × ℕ) : Prop :=
  ((∃ via ∈ [none, some false, some true],
      pendingAt none y = ([], some via) ∧ pendingAt via x = pendingAt none z) ∨
    pendingAt none z = pendingAt none y ∧ (pendingAt none y).2 = none) ∧
  (sendingAt y = .caller ∧ sendingAt z = sendingAt x ∧ sendingAt x ≠ .own ∨
    sendingAt y = .no ∧ sendingAt z = .no)

instance (x y z : Fn × ℕ) : Decidable (Pops x y z) := by
  unfold Pops
  infer_instance

theorem keeps_pop {f' : Frame} (h : Pops (f.fn, f.pc) (g.fn, g.pc) (f'.fn, f'.pc)) :
    Keeps (g :: f :: rest) (f' :: rest) where
  pending := by
    rw [Sched.pending, Sched.pending]
    rcases h.1 with ⟨via, -, hg, hf⟩ | ⟨hf', hg⟩
    · rw [hg, List.nil_append, Option.elim_some, Sched.pending, hf]
    · rw [hf', hg]
      rfl
  sending := by
    rw [sending_cons, sending_cons (f := g)]
    rcases h.2 with ⟨hg, hf', hf⟩ | ⟨hg, hf'⟩
    · rw [hg, hf', Answer.read, sending_cons]
      cases hx : sendingAt (f.fn, f.pc) with
      | own => exact absurd hx hf
      | caller => rfl
      | no => rfl
    · rw [hg, hf']
      rfl

/-- The commands that go on to the next one, as far as the switches are concerned. -/
def stateless : List Cmd :=
  [.readFlags, .cli, .sti, .irqRestore, .spinlock, .release, .getTask, .setTask, .getScheduler,
    .resetLocals, .scan, .listAddTail, .demoteLevel, .claimSlot, .cloneStack, .panic]

theorem keeps_next {c : Cmd} (hc : f.cmd = some c) (hplain : c ∈ stateless) (flags : Bool)
    (arg p : Option ProcId) (level : Level) :
    Keeps (f :: rest) ({ f.next with flags := flags, arg := arg, p := p, level := level } :: rest) := by
  have hsites : ∀ c ∈ stateless, ∀ x ∈ sites c,
      pendingAt none (x.1, x.2 + 1) = pendingAt none x ∧ sendingAt (x.1, x.2 + 1) = sendingAt x ∧
        sendingAt x ≠ .own := by
    decide
  obtain ⟨hpending, hsending, hown⟩ := hsites c hplain _ (cmd_sites hc)
  exact keeps_of_places hpending hsending fun h => absurd h hown

/-- The jumps of the scheduler and of `fork`. -/
theorem keeps_goto {c : Cmd} {target : ℕ} (hc : f.cmd = some c)
    (hjump : c ∈ [.ifNull target, .ifZombie target, .jump target]) (P : Prop) [Decidable P] :
    Keeps (f :: rest) ((if P then f.goto target else f.next) :: rest) := by
  have hsites : ∀ c ∈ [Cmd.ifNull target, .ifZombie target, .jump target], ∀ x ∈ sites c,
      ∀ pc ∈ [target, x.2 + 1], pendingAt none (x.1, pc) = pendingAt none x ∧
        sendingAt (x.1, pc) = sendingAt x ∧ sendingAt x ≠ .own := by
    by_cases h0 : target = 0
    · subst h0
      decide
    · by_cases h7 : target = childReturn
      · subst h7
        decide
      · simp [sites, h0, h7]
  have hx := hsites c hjump _ (cmd_sites hc)
  split_ifs
  · obtain ⟨hpending, hsending, hown⟩ := hx target (by simp)
    exact keeps_of_places hpending hsending fun h => absurd h hown
  · obtain ⟨hpending, hsending, hown⟩ := hx (f.pc + 1) (by simp)
    exact keeps_of_places hpending hsending fun h => absurd h hown

theorem keeps_call (hc : f.cmd = some (.call fn v)) (arg : Option ProcId) (level : Level) :
    Keeps (f :: rest) ({ fn := fn, entryIF := irq, arg := arg, level := level } :: f :: rest) := by
  have hsites : ∀ x ∈ sites (.call fn v), Pushes x (fn, 0) := by
    cases fn <;> cases v <;> decide
  exact keeps_push (hsites _ (cmd_sites hc))

/-- The entry function is entered, or a process that goes on as it was does something else. -/
theorem keeps_enter (fn : Fn) {c : Cmd} (hc : f.cmd = some c)
    (henter : c = .callEntry ∧ fn ∈ [Fn.scheduler, .user] ∨ c = .user ∧ fn ∈ [Fn.fork, .critical])
    (level : Level) :
    Keeps (f :: rest) ({ fn := fn, entryIF := irq, level := level } :: f :: rest) := by
  have hsites : ∀ x ∈ sites c, Pushes x (fn, 0) := by
    rcases henter with ⟨rfl, hfn⟩ | ⟨rfl, hfn⟩ <;> revert fn <;> decide
  exact keeps_push (hsites _ (cmd_sites hc))

theorem keeps_ret {c : Cmd} (hc : g.cmd = some c) (hret : c = .ret ∨ c = .retProc)
    (hwait : Waits f g) (p : Option ProcId) :
    Keeps (g :: f :: rest) ({ f.resume with p := p } :: rest) := by
  have hgs : (g.fn, g.pc) ∈ sites .ret ++ sites .retProc := by
    rcases hret with rfl | rfl
    · exact List.mem_append_left _ (cmd_sites hc)
    · exact List.mem_append_right _ (cmd_sites hc)
  rcases hwait with ⟨htimer, -⟩ | ⟨v, hcall, -⟩ | ⟨hentry, hfn⟩ | ⟨huser, hfn⟩
  · -- the handler leaves by `iret`
    have htimers : ∀ y ∈ sites .ret ++ sites .retProc, y.1 ≠ .timerInterruptHandlerSched := by decide
    exact absurd htimer (htimers _ hgs)
  · have hpops : ∀ v, ∀ y ∈ sites .ret ++ sites .retProc, ∀ x ∈ sites (.call y.1 v),
        Pops x y (x.1, x.2 + 1) := by
      intro v
      cases v <;> decide
    rw [Frame.resume_call hcall]
    exact keeps_pop (hpops v _ hgs _ (cmd_sites hcall))
  · have hpops : ∀ y ∈ sites .ret ++ sites .retProc, y.1 = .user ∨ y.1 = .scheduler →
        ∀ x ∈ sites .callEntry, Pops x y (x.1, x.2 + 1) := by
      decide
    rw [Frame.resume_callEntry hentry]
    exact keeps_pop (hpops _ hgs hfn _ (cmd_sites hentry))
  · have hpops : ∀ y ∈ sites .ret ++ sites .retProc,
        y.1 ∈ [.fork, .yield, .exitProcess, .critical, .ctxSwitch] → ∀ x ∈ sites .user,
        Pops x y x := by
      decide
    rw [Frame.resume_user huser]
    exact keeps_pop (hpops _ hgs hfn _ (cmd_sites huser))

/-- Before its `swtch` a process has the switch of that `ctx_switch` before it, and behind it the
    ones below. -/
theorem StackFor.pending_ctxSwitch (h : StackFor s o (f :: rest)) (ho : o ≠ s)
    (hfn : f.fn = .ctxSwitch) (hpc : f.pc ≤ 4) :
    pending none (f :: rest) = .cut :: pending (some true) rest ∨
    pending none (f :: rest) = [.written] ∧ pending (some true) rest = [] := by
  have hvia : pending none (f :: rest) = pending (some false) rest := by
    simp [pending, pendingAt, hfn, Nat.not_le.mpr (Nat.lt_succ_of_le hpc)]
  rw [hvia]
  cases rest with
  | nil =>
    have hbottom := h.2
    rw [hfn] at hbottom
    exact absurd hbottom (by decide)
  | cons e rest =>
    have he := h.below.top
    rcases h.2.1 with ⟨htimer, -⟩ | ⟨v, hcall, -⟩ | ⟨-, hentry⟩ | ⟨huser, -⟩
    · rw [hfn] at htimer
      cases htimer
    · have hsite := cmd_sites hcall
      rw [hfn] at hsite
      cases v with
      | arg =>
        simp only [sites, List.mem_cons, Prod.mk.injEq, List.not_mem_nil, or_false] at hsite
        rcases hsite with ⟨hfn, hpc⟩ | ⟨hfn, hpc⟩ | ⟨hfn, hpc⟩ <;> simp [pending, pendingAt, hfn, hpc]
      | p =>
        obtain ⟨hfn, -⟩ := Prod.mk.inj (List.mem_singleton.mp hsite)
        simp only [FrameFor, hfn] at he
        exact absurd he.1 ho
    · rw [hfn] at hentry
      exact absurd hentry (by decide)
    · have hsite := cmd_sites huser
      simp only [sites, List.mem_cons, Prod.mk.injEq, List.not_mem_nil, or_false] at hsite
      rcases hsite with ⟨hfn, hpc⟩ | ⟨hfn, hpc⟩ <;> simp [pending, pendingAt, hfn, hpc]

theorem StackFor.pending_leaving {l : List Frame} (h : StackFor s o l) (ho : o ≠ s)
    (hl : leaving l) : pending none l ≠ [] := by
  induction l with
  | nil => exact hl.elim
  | cons f rest ih =>
    unfold leaving at hl
    split at hl
    · next hfn => rcases h.pending_ctxSwitch ho hfn hl with h | ⟨h, -⟩ <;> simp [h]
    · next hfn =>
      cases rest with
      | nil => exact hl.elim
      | cons e rest => simpa [pending, pendingAt, hfn] using ih h.below hl
    · next hfn => simp [pending, pendingAt, hfn, Nat.not_le.mpr (Nat.lt_succ_of_le hl.1)]
    · exact hl.elim

end Keeps

/-! ## The states in terms of the history -/

/-- What is before the process on the CPU, where `unnested`, `cut` and `marked` say of it what
    `Unnested`, `CutShort` and the state `RUNNING` do. -/
def OnCpu (unnested cut marked : Prop) : List Pending → Prop
  | [] => marked
  | .asked :: _ => marked ∧ (unnested → ¬cut)
  | .written :: _ => (¬cut → ¬marked) ∧ (unnested → ¬cut)
  | .cut :: before => cut ∧ (unnested → marked ∧ before = [])

/-- The part of a machine that the history tells of. -/
structure View where
  cur : ProcId
  schedulerProc : ProcId
  live : List Frame
  saved : ProcId → List Frame
  states : ProcId → ProcessState

abbrev Machine.view (m : Machine) : View := ⟨m.cur, m.schedulerProc, m.live, m.saved, m.states⟩

/-- The states and the stacks after a run with the history `h`. -/
structure Turns (h : List Moment) (m : View) : Prop where
  count : ∀ r, r ≠ m.schedulerProc →
    departures r h + (pending none (if r = m.cur then m.live else m.saved r)).length ≤ beginnings r h
  cur : m.cur ≠ m.schedulerProc →
    OnCpu (Unnested m.cur h) (CutShort h m.cur) (m.states m.cur = .running) (pending none m.live)
  rest : ∀ r, r ≠ m.cur → r ≠ m.schedulerProc → ¬CutShort h r ∨ Unnested r h →
    pending none (m.saved r) = []
  off : ∀ r, r ≠ m.cur → r ≠ m.schedulerProc → (m.cur = m.schedulerProc → sending m.live ≠ some r) →
    (¬CutShort h r → m.states r ≠ .running) ∧
    (Unnested r h → CutShort h r → m.states r = .running)
  sent : m.cur = m.schedulerProc → ∀ r, sending m.live = some r → m.states r = .running
  sched : m.states m.schedulerProc ≠ .running ∧ ¬CutShort h m.schedulerProc
  awake : ∀ r, m.states r ≠ .sleeping

section Views

variable {h : List Moment} {m : View} {l : List Frame}

theorem Turns.count_cur (ht : Turns h m) (hs : m.cur ≠ m.schedulerProc) :
    departures m.cur h + (pending none m.live).length ≤ beginnings m.cur h := by
  have hle := ht.count m.cur hs
  rwa [if_pos rfl] at hle

/-- The running stack changes and the states do not. -/
theorem Turns.keep (ht : Turns h m) (hpending : pending none l = pending none m.live)
    (hsending : m.cur = m.schedulerProc → sending l = sending m.live) :
    Turns h { m with live := l } where
  count r hr := by
    have hle := ht.count r hr
    show _ + (pending none (if r = m.cur then l else m.saved r)).length ≤ _
    split_ifs at hle ⊢
    · rwa [hpending]
    · exact hle
  cur hs := by
    show OnCpu _ _ _ (pending none l)
    rw [hpending]
    exact ht.cur hs
  rest := ht.rest
  off r hr hs hsend := ht.off r hr hs fun he => hsending he ▸ hsend he
  sent he r hr := ht.sent he r ((hsending he).symm.trans hr)
  sched := ht.sched
  awake := ht.awake

/-- A stack without switches is put in place of a saved one. -/
theorem Turns.fresh (ht : Turns h m) (c : ProcId) (hl : pending none l = []) :
    Turns h { m with saved := Function.update m.saved c l } where
  count r hr := by
    have hle := ht.count r hr
    show _ + (pending none (if r = m.cur then m.live else Function.update m.saved c l r)).length ≤ _
    split_ifs at hle ⊢
    · exact hle
    · rw [Function.update_apply]
      split_ifs
      · rw [hl, List.length_nil]
        omega
      · exact hle
  cur := ht.cur
  rest r hr hs hcut := by
    show pending none (Function.update m.saved c l r) = []
    rw [Function.update_apply]
    split_ifs
    · exact hl
    · exact ht.rest r hr hs hcut
  off := ht.off
  sent := ht.sent
  sched := ht.sched
  awake := ht.awake

theorem Turns.awake_update (ht : Turns h m) (c : ProcId) {state : ProcessState}
    (hstate : state ≠ .sleeping) (r : ProcId) : Function.update m.states c state r ≠ .sleeping := by
  rw [Function.update_apply]
  split_ifs
  · exact hstate
  · exact ht.awake r

/-- The state of a process that is not marked changes, and it is still not marked. -/
theorem Turns.restate (ht : Turns h m) {c : ProcId} {state : ProcessState}
    (hc : m.states c ≠ .running) (hstate : state ≠ .running ∧ state ≠ .sleeping) :
    Turns h { m with states := Function.update m.states c state } := by
  have hother : ∀ r, Function.update m.states c state r = .running ↔ m.states r = .running := by
    intro r
    rw [Function.update_apply]
    split_ifs with hrc
    · simp [hrc, hc, hstate.1]
    · rfl
  refine ⟨ht.count, fun hs => ?_, ht.rest, fun r hr hs hsend => ?_,
    fun he r hr => (hother r).mpr (ht.sent he r hr), ⟨(hother _).not.mpr ht.sched.1, ht.sched.2⟩,
    ht.awake_update c hstate.2⟩
  · show OnCpu _ _ (Function.update m.states c state m.cur = .running) _
    rw [hother]
    exact ht.cur hs
  · obtain ⟨hunmarked, hmarked⟩ := ht.off r hr hs hsend
    exact ⟨fun hcut => (hother r).not.mpr (hunmarked hcut),
      fun hun hcut => (hother r).mpr (hmarked hun hcut)⟩

/-- A process goes on by itself, and may begin to hand the CPU over. -/
theorem Turns.proceed {k : List Moment} {state : ProcessState} (ht : Turns h m)
    (hs : m.cur ≠ m.schedulerProc) (hawake : state ≠ .sleeping)
    (hh : k = h ∨ ∃ how, k = .begins m.cur how :: h)
    (hcount : departures m.cur k + (pending none l).length ≤ beginnings m.cur k)
    (hon : OnCpu (Unnested m.cur k) (CutShort k m.cur) (state = .running) (pending none l)) :
    Turns k { m with live := l, states := Function.update m.states m.cur state } := by
  have hother : ∀ r, r ≠ m.cur → departures r k = departures r h ∧
      beginnings r k = beginnings r h ∧ (CutShort k r ↔ CutShort h r) ∧
      (Unnested r k ↔ Unnested r h) := by
    intro r hr
    rcases hh with rfl | ⟨how, rfl⟩
    · exact ⟨rfl, rfl, Iff.rfl, Iff.rfl⟩
    · exact ⟨by simp, by simp [hr.symm], cutShort_begins_of_ne hr.symm,
        unnested_begins_of_ne hr.symm⟩
  refine ⟨fun r hr => ?_, fun _ => ?_, fun r hr hrs => ?_, fun r hr hrs _ => ?_,
    fun he => absurd he hs, ?_, ht.awake_update m.cur hawake⟩
  · have hle := ht.count r hr
    show _ + (pending none (if r = m.cur then l else m.saved r)).length ≤ _
    split_ifs at hle ⊢ with he
    · rw [he]
      exact hcount
    · rwa [(hother r he).1, (hother r he).2.1]
  · show OnCpu _ _ (Function.update m.states m.cur state m.cur = .running) _
    rw [Function.update_self]
    exact hon
  · rw [(hother r hr).2.2.1, (hother r hr).2.2.2]
    exact ht.rest r hr hrs
  · have hupdate : Function.update m.states m.cur state r = m.states r := Function.update_of_ne hr _ _
    rw [(hother r hr).2.2.1, (hother r hr).2.2.2]
    show (_ → Function.update _ _ _ r ≠ _) ∧ (_ → _ → Function.update _ _ _ r = _)
    rw [hupdate]
    exact ht.off r hr hrs fun he => absurd he hs
  · rw [(hother _ hs.symm).2.2.1]
    show Function.update m.states m.cur state m.schedulerProc ≠ _ ∧ _
    rw [Function.update_of_ne hs.symm]
    exact ht.sched

/-- `yield` and `exit_process` write the state of the process that has asked them. -/
theorem Turns.write (ht : Turns h m) (hs : m.cur ≠ m.schedulerProc) {state : ProcessState}
    (hstate : state ≠ .running ∧ state ≠ .sleeping) (hasked : pending none m.live = [.asked])
    (hwritten : pending none l = [.written]) :
    Turns h { m with live := l, states := Function.update m.states m.cur state } := by
  have hon := ht.cur hs
  have hle := ht.count_cur hs
  rw [hasked] at hon hle
  refine ht.proceed hs hstate.2 (.inl rfl) ?_ ?_ <;> rw [hwritten]
  · exact hle
  · exact ⟨fun _ => hstate.1, hon.2⟩

/-- A process with nothing before it asks for a switch. -/
theorem Turns.ask (ht : Turns h m) (hs : m.cur ≠ m.schedulerProc) {how : HandOver}
    (hhow : how = .yield ∨ how = .exitProcess) (hnil : pending none m.live = [])
    (hl : pending none l = [.asked]) : Turns (.begins m.cur how :: h) { m with live := l } := by
  have hon := ht.cur hs
  have hle := ht.count_cur hs
  rw [hnil] at hon hle
  have hturns := ht.proceed (k := .begins m.cur how :: h) (l := l) hs (ht.awake m.cur)
    (.inr ⟨how, rfl⟩)
  rw [hl, cutShort_begins_self, Function.update_eq_self] at hturns
  exact hturns (by simpa using hle) ⟨hon, fun _ => by rcases hhow with rfl | rfl <;> simp⟩

/-- The timer strikes a process. -/
theorem Turns.strike (ht : Turns h m) (hs : m.cur ≠ m.schedulerProc)
    (hl : pending none l = .cut :: pending none m.live) :
    Turns (.begins m.cur .timer :: h) { m with live := l } := by
  have hon := ht.cur hs
  have hle := ht.count_cur hs
  have hturns := ht.proceed (k := .begins m.cur .timer :: h) (l := l) hs (ht.awake m.cur)
    (.inr ⟨.timer, rfl⟩)
  rw [hl, cutShort_begins_self, Function.update_eq_self, departures_begins, beginnings_begins,
    if_pos rfl, List.length_cons] at hturns
  refine hturns (by omega) ⟨.inl rfl, fun hun => ?_⟩
  -- a settled process has nothing before it
  have hsettled : Settled h m.cur := hun.1 rfl rfl
  unfold Settled at hsettled
  have hnil : pending none m.live = [] := List.length_eq_zero_iff.mp (by omega)
  rw [hnil] at hon
  exact ⟨hon, hnil⟩

/-- The scheduler marks the process it has picked. -/
theorem Turns.mark (ht : Turns h m) (hs : m.cur = m.schedulerProc) {p : ProcId}
    (hp : p ≠ m.schedulerProc) (hnone : sending m.live = none) (hsending : sending l = some p) :
    Turns h { m with live := l, states := Function.update m.states p .running } where
  count r hr := by
    have hle := ht.count r hr
    have hne : r ≠ m.cur := hs ▸ hr
    rw [if_neg hne] at hle
    show _ + (pending none (if r = m.cur then l else m.saved r)).length ≤ _
    rwa [if_neg hne]
  cur hne := absurd hs hne
  rest := ht.rest
  off r hr hrs hsend := by
    have hrp : r ≠ p := by
      rintro rfl
      exact hsend hs hsending
    show (_ → Function.update m.states p .running r ≠ _) ∧ (_ → _ → Function.update m.states p _ r = _)
    rw [Function.update_of_ne hrp]
    exact ht.off r hr hrs fun _ => by simp [hnone]
  sent _ r hr := by
    obtain rfl : p = r := Option.some.inj (hsending.symm.trans hr)
    exact Function.update_self _ _ _
  sched := by
    show Function.update m.states p .running m.schedulerProc ≠ _ ∧ _
    rw [Function.update_of_ne hp.symm]
    exact ht.sched
  awake := ht.awake_update p (by decide)

/-- A process switches to the scheduler process. -/
theorem Turns.leave (ht : Turns h m) (hs : m.cur ≠ m.schedulerProc)
    (hnone : sending (m.saved m.schedulerProc) = none)
    (hpending : pending none m.live = .cut :: pending none l ∨
      pending none m.live = [.written] ∧ pending none l = []) :
    Turns (.leaves m.cur :: h) { m with
      cur := m.schedulerProc
      live := m.saved m.schedulerProc
      saved := Function.update m.saved m.cur l } := by
  have hon := ht.cur hs
  -- what the process on the CPU has in hand decides what is left of it
  have hleft : (¬CutShort h m.cur ∨ Unnested m.cur h → pending none l = []) ∧
      (¬CutShort h m.cur → m.states m.cur ≠ .running) ∧
      (Unnested m.cur h → CutShort h m.cur → m.states m.cur = .running) ∧
      (pending none l).length + 1 ≤ (pending none m.live).length := by
    rcases hpending with hcut | ⟨hwritten, hnil⟩
    · rw [hcut] at hon ⊢
      refine ⟨?_, fun hnot => absurd hon.1 hnot, fun hun _ => (hon.2 hun).1, by simp⟩
      rintro (hnot | hun)
      · exact absurd hon.1 hnot
      · exact (hon.2 hun).2
    · rw [hwritten] at hon ⊢
      exact ⟨fun _ => hnil, hon.1, fun hun hcut => absurd hcut (hon.2 hun), by simp [hnil]⟩
  obtain ⟨hrest, hunmarked, hmarked, hlength⟩ := hleft
  refine ⟨fun r hr => ?_, fun hne => absurd rfl hne, fun r _ hr => ?_, fun r _ hr _ => ?_,
    fun _ r hr => absurd (hnone.symm.trans hr) (by simp), ht.sched, ht.awake⟩
  · show _ + (pending none (if r = m.schedulerProc then _ else
      Function.update m.saved m.cur l r)).length ≤ _
    rw [departures_leaves, beginnings_leaves, if_neg hr]
    by_cases he : r = m.cur
    · subst he
      have hle := ht.count_cur hr
      rw [if_pos rfl, Function.update_self]
      omega
    · have hle := ht.count r hr
      rw [if_neg he] at hle
      rwa [if_neg (Ne.symm he), Function.update_of_ne he]
  · show _ → pending none (Function.update m.saved m.cur l r) = []
    rw [cutShort_leaves, unnested_leaves]
    by_cases he : r = m.cur
    · subst he
      rwa [Function.update_self]
    · rw [Function.update_of_ne he]
      exact ht.rest r he hr
  · rw [cutShort_leaves, unnested_leaves]
    by_cases he : r = m.cur
    · subst he
      exact ⟨hunmarked, hmarked⟩
    · exact ht.off r he hr fun h => absurd h hs

/-- The scheduler process switches to the process it has marked. -/
theorem Turns.dispatch (ht : Turns h m) (hs : m.cur = m.schedulerProc) {x : ProcId}
    (hx : x ≠ m.schedulerProc) (hsend : sending m.live = some x) :
    Turns (.leaves m.cur :: h)
      { m with cur := x, live := m.saved x, saved := Function.update m.saved m.cur l } := by
  have hne : ∀ {r}, r ≠ m.schedulerProc → r ≠ m.cur := fun hr => hs ▸ hr
  refine ⟨fun r hr => ?_, fun _ => ?_, fun r _ hr => ?_, fun r hrx hr _ => ?_,
    fun he => absurd he hx, ht.sched, ht.awake⟩
  · have hle := ht.count r hr
    rw [if_neg (hne hr)] at hle
    show _ + (pending none (if r = x then m.saved x else Function.update m.saved m.cur l r)).length ≤ _
    rw [departures_leaves, beginnings_leaves, if_neg (hne hr).symm, Function.update_of_ne (hne hr)]
    split_ifs with he
    · rwa [← he]
    · exact hle
  · have hrest := ht.rest x (hne hx) hx
    have hmarked := ht.sent hs x hsend
    show OnCpu _ _ (m.states x = .running) (pending none (m.saved x))
    rw [cutShort_leaves, unnested_leaves]
    generalize pending none (m.saved x) = before at hrest
    cases before with
    | nil => exact hmarked
    | cons k before =>
      -- a switch that was cut short is all that can be before it
      have hnot : CutShort h x ∧ ¬Unnested x h := by
        constructor
        · by_contra hcut
          cases hrest (.inl hcut)
        · intro hun
          cases hrest (.inr hun)
      cases k with
      | asked => exact ⟨hmarked, fun hun => absurd hun hnot.2⟩
      | written => exact ⟨fun hcut => absurd hnot.1 hcut, fun hun => absurd hun hnot.2⟩
      | cut => exact ⟨hnot.1, fun hun => absurd hun hnot.2⟩
  · show _ → pending none (Function.update m.saved m.cur l r) = []
    rw [cutShort_leaves, unnested_leaves, Function.update_of_ne (hne hr)]
    exact ht.rest r (hne hr) hr
  · rw [cutShort_leaves, unnested_leaves]
    refine ht.off r (hne hr) hr fun _ => ?_
    rw [hsend]
    exact fun he => hrx (Option.some.inj he).symm

end Views

section Steps

variable {h : List Moment} {m m' : Machine} {q : Level → List ProcId} {f g : Frame}
  {rest : List Frame}

theorem due_of_sending {l : List Frame} {r : ProcId} (h : sending l = some r) :
    ∃ i, due l = some (r, i) := by
  induction l with
  | nil => cases h
  | cons f rest ih =>
    unfold sending at h
    split at h
    · next hfn =>
      split_ifs at h
      simpa [due, hfn] using ih h
    · next hfn => simpa [due, hfn] using ih h
    · next hfn =>
      split_ifs at h with hpc
      exact ⟨_, by simp [due, taken, hfn, hpc, h]; rfl⟩
    · cases h

/-- While a process runs, the scheduler process is sending nobody. -/
theorem Inv.sending_parked (h : Inv m q) (hs : m.cur ≠ m.schedulerProc) :
    sending (m.saved m.schedulerProc) = none := by
  rcases h.parked hs with ⟨-, hback⟩ | ⟨hnone, -⟩
  · cases hl : m.saved m.schedulerProc with
    | nil => rfl
    | cons f rest =>
      rw [hl] at hback
      have hback : returned f = true := hback
      unfold returned at hback
      split at hback
      · next hfn =>
        have hpc : ¬f.pc ≤ 4 := Nat.not_le.mpr (of_decide_eq_true hback)
        simp [sending, hfn, hpc]
      · next hfn =>
        have hpc : f.pc = 11 := by simpa using hback
        simp [sending, hfn, hpc]
      · cases hback
  · rw [Machine.owed_proc hs] at hnone
    refine Option.eq_none_iff_forall_ne_some.mpr fun r hr => ?_
    obtain ⟨i, hi⟩ := due_of_sending hr
    rw [hnone] at hi
    cases hi

/-- Where a state is written: by a process for itself after it has asked for it, or by the scheduler
    for the process it has picked. -/
theorem Inv.setState_cases {state : ProcessState} {p : ProcId} (hinv : Inv m q)
    (hlive : m.live = f :: rest) (hc : f.cmd = some (.setState state)) (hp : f.p = some p) :
    (m.cur ≠ m.schedulerProc ∧ p = m.cur ∧ (state ≠ .running ∧ state ≠ .sleeping) ∧
      pending none m.live = [.asked] ∧ pending none (f.next :: rest) = [.written]) ∨
    (m.cur = m.schedulerProc ∧ state = .running ∧ m.owed = some (p, demote f.level) ∧
      handedBack m.live = false ∧ sending m.live = none ∧ sending (f.next :: rest) = some p) := by
  have hf := hinv.frame hlive
  have hsite := cmd_sites hc
  rw [hlive]
  cases state <;> simp only [sites, List.mem_singleton, Prod.mk.injEq, List.not_mem_nil] at hsite
  case running =>
    simp only [FrameFor, hsite.1] at hf
    refine .inr ⟨hf.1, rfl, ?_, by simp [handedBack, returned, hsite], by simp [sending, hsite],
      by simp [sending, Frame.next, hsite, hp]⟩
    rw [Machine.owed_sched hf.1, hlive]
    simp [due, taken, hsite, hp]
  all_goals
    simp only [FrameFor, hsite.1, hsite.2] at hf
    obtain ⟨hs, hcur, -⟩ := hf
    rw [hcur (by decide), Option.some_inj] at hp
    exact .inl ⟨hs, hp.symm, by decide, by simp [pending, pendingAt, hsite],
      by simp [pending, pendingAt, Frame.next, hsite]⟩

theorem Turns.setState {state : ProcessState} (ht : Turns h m.view) (hinv : Inv m q)
    (hlive : m.live = f :: rest) (hc : f.cmd = some (.setState state))
    (he : m.exec f rest (.setState state) = some m') : m'.cur = m.cur ∧ Turns h m'.view := by
  obtain ⟨p, hp, rfl⟩ := Option.map_eq_some_iff.mp he
  refine ⟨rfl, ?_⟩
  rcases hinv.setState_cases hlive hc hp with ⟨hs, rfl, hstate, hasked, hwritten⟩ |
    ⟨hs, rfl, howed, -, hnone, hsending⟩
  · exact ht.write hs hstate hasked hwritten
  · exact ht.mark hs (hinv.owed p _ howed).1 hnone hsending

theorem Turns.swtch (ht : Turns h m.view) (hinv : Inv m q) (hlive : m.live = f :: rest)
    (hc : f.cmd = some .swtch) (he : m.exec f rest .swtch = some m') :
    m'.cur ≠ m.cur ∧ Turns (.leaves m.cur :: h) m'.view := by
  obtain ⟨hfn, hpc⟩ := cmd_site hc rfl
  have hf := hinv.frame hlive
  simp only [FrameFor, hfn] at hf
  have hp := hf.2 (.inr hpc)
  obtain ⟨x, harg⟩ : ∃ x, f.arg = some x := by
    simp only [Machine.exec, hp, Option.bind_some, Option.map_eq_some_iff] at he
    obtain ⟨x, hx, -⟩ := he
    exact ⟨x, hx⟩
  obtain rfl := Machine.exec_swtch hp harg he
  have hstack := hlive ▸ hinv.live
  by_cases hs : m.cur = m.schedulerProc
  · obtain ⟨i, hi⟩ := hinv.switchesTo hlive hfn hs
    rw [harg] at hi
    have hx := (hinv.owed x i hi).1
    rw [hs] at hstack
    obtain ⟨e, rest', rfl, hefn, hepc, hep⟩ := hstack.switcher hfn
    have hsend : sending m.live = some x := by
      rw [hlive, ← harg, hep]
      simp [sending, hfn, hpc, hefn, hepc]
    exact ⟨hs ▸ hx, ht.dispatch hs hx hsend⟩
  · obtain rfl : x = m.schedulerProc := Option.some.inj (harg.symm.trans (hf.1 hs))
    have hnext : pending none (f.next :: rest) = pending (some true) rest := by
      simp [pending, pendingAt, Frame.next, hfn, hpc]
    refine ⟨Ne.symm hs, ht.leave hs (hinv.sending_parked hs) ?_⟩
    show pending none m.live = _ ∨ pending none m.live = _ ∧ _
    rw [hlive, hnext]
    exact hstack.pending_ctxSwitch hs hfn hpc.le

theorem Turns.exec {c : Cmd} (ht : Turns h m.view) (hinv : Inv m q) (hlive : m.live = f :: rest)
    (hc : f.cmd = some c) (he : m.exec f rest c = some m') :
    Turns (moments m .go m' ++ h) m'.view := by
  have hstack := hlive ▸ hinv.live
  have hsame : m'.cur = m.cur → moments m .go m' ++ h = h := by
    intro hcur
    simp [moments, begun, hcur]
  have hkeep : ∀ {l}, m'.view = { m.view with live := l } → Keeps (f :: rest) l →
      Turns (moments m .go m' ++ h) m'.view := by
    intro l hview hkeeps
    rw [hsame (congrArg View.cur hview), hview]
    rw [← hlive] at hkeeps
    exact ht.keep hkeeps.pending fun _ => hkeeps.sending
  cases c with
  | setState state =>
    obtain ⟨hcur, hturns⟩ := ht.setState hinv hlive hc he
    rwa [hsame hcur]
  | swtch =>
    obtain ⟨hcur, hturns⟩ := ht.swtch hinv hlive hc he
    have hleaves : moments m .go m' ++ h = .leaves m.cur :: h := by simp [moments, begun, hcur]
    rwa [hleaves]
  | claimSlot =>
    have hkeeps := fun p : Option ProcId =>
      (keeps_next hc (by decide) f.flags f.arg p f.level : Keeps (f :: rest) _)
    simp only [Machine.exec] at he
    split at he
    · obtain rfl := Option.some.inj he
      exact hkeep rfl (hkeeps none)
    · next c hfree =>
      obtain rfl := Option.some.inj he
      have hunused : m.states c ≠ .running := by
        rw [firstUnused_eq_some hfree]
        decide
      rw [hsame rfl]
      rw [← hlive] at hkeeps
      exact ((ht.restate hunused (by decide)).fresh (l := []) c rfl).keep (hkeeps (some c)).pending
        fun _ => (hkeeps (some c)).sending
  | cloneStack =>
    obtain ⟨hfn, -⟩ := cmd_site hc rfl
    obtain ⟨c, -, rfl⟩ := Option.map_eq_some_iff.mp he
    have hkeeps : Keeps (f :: rest) (f.next :: rest) :=
      keeps_next hc (by decide) f.flags f.arg f.p f.level
    have hchild : pending none (f.goto childReturn :: rest) = [] := by
      simp [pending, pendingAt, Frame.goto, hfn]
    rw [hsame rfl]
    rw [← hlive] at hkeeps
    exact (ht.fresh c hchild).keep hkeeps.pending fun _ => hkeeps.sending
  | readFlags | cli | sti | irqRestore | release | panic | getTask | getScheduler | resetLocals |
    demoteLevel =>
    obtain rfl := Option.some.inj he
    exact hkeep rfl (keeps_next hc (by decide) _ _ _ _)
  | setTask | listAddTail =>
    obtain ⟨_, -, rfl⟩ := Option.map_eq_some_iff.mp he
    exact hkeep rfl (keeps_next hc (by decide) _ _ _ _)
  | spinlock =>
    simp only [Machine.exec] at he
    split_ifs at he <;> obtain rfl := Option.some.inj he
    · rwa [hsame rfl]
    · exact hkeep rfl (keeps_next hc (by decide) _ _ _ _)
  | scan =>
    simp only [Machine.exec] at he
    split at he <;> obtain rfl := Option.some.inj he <;>
      exact hkeep rfl (keeps_next hc (by decide) _ _ _ _)
  | ifNull target =>
    obtain rfl := Option.some.inj he
    exact hkeep rfl (keeps_goto hc (by simp) _)
  | ifZombie target =>
    obtain ⟨p, -, rfl⟩ := Option.map_eq_some_iff.mp he
    exact hkeep rfl (keeps_goto hc (by simp) _)
  | jump target =>
    obtain rfl := Option.some.inj he
    exact hkeep rfl (keeps_goto hc (by simp) True)
  | call fn v =>
    obtain rfl := Option.some.inj he
    exact hkeep rfl (keeps_call hc _ _)
  | callEntry =>
    obtain rfl := Option.some.inj he
    refine hkeep rfl (keeps_enter _ hc (.inl ⟨rfl, ?_⟩) 0)
    split_ifs <;> decide
  | ret | retProc =>
    cases rest with
    | nil => cases he
    | cons caller rest =>
      obtain rfl := Option.some.inj he
      exact hkeep rfl (keeps_ret hc (by simp) hstack.2.1 _)
  | iret =>
    obtain ⟨hfn, hpc⟩ := cmd_site hc rfl
    obtain rfl := Option.some.inj he
    have hf := hinv.frame hlive
    simp only [FrameFor, hfn] at hf
    rw [hsame rfl]
    refine ht.keep ?_ fun hs => absurd hs hf.1
    show _ = pending none m.live
    rw [hlive]
    simp [pending, pendingAt, hfn, hpc]
  | user | halt => cases he

theorem Turns.choose {a : Act} (ht : Turns h m.view) (hinv : Inv m q) (hlive : m.live = f :: rest)
    (hc : f.cmd = some .user) (he : m.choose f rest a = some m') :
    Turns (moments m a m' ++ h) m'.view := by
  have hmoments : m'.cur = m.cur →
      moments m a m' ++ h = ((begun m a).map (Moment.begins m.cur)).toList ++ h := by
    intro hcur
    rw [moments, if_pos hcur, List.nil_append]
  have hkeep : ∀ {l : List Frame}, Keeps (f :: rest) l → Turns h { m.view with live := l } := by
    intro l hkeeps
    rw [← hlive] at hkeeps
    exact ht.keep hkeeps.pending fun _ => hkeeps.sending
  have hsite := cmd_sites hc
  simp only [sites, List.mem_cons, Prod.mk.injEq, List.not_mem_nil, or_false] at hsite
  have hask : ∀ {how : HandOver} {l : List Frame}, how = .yield ∨ how = .exitProcess →
      pending none l = [.asked] → Turns (.begins m.cur how :: h) { m.view with live := l } := by
    intro how l hhow hl
    have hf := hinv.frame hlive
    refine ht.ask ?_ hhow ?_ hl
    · rcases hsite with ⟨hfn, -⟩ | ⟨hfn, -⟩ <;> simpa only [FrameFor, hfn] using hf
    · show pending none m.live = []
      rw [hlive]
      rcases hsite with ⟨hfn, hpc⟩ | ⟨hfn, hpc⟩ <;> simp [pending, pendingAt, hfn, hpc]
  cases a with
  | fork | irqSave =>
    obtain rfl := Option.some.inj he
    rw [hmoments rfl]
    exact hkeep (keeps_enter _ hc (.inr ⟨rfl, by decide⟩) _)
  | yield | exitProcess =>
    obtain rfl := Option.some.inj he
    rw [hmoments rfl]
    exact hask (by simp) rfl
  | leave =>
    obtain rfl := Option.some.inj he
    rw [hmoments rfl]
    rcases hsite with ⟨hfn, hpc⟩ | ⟨hfn, hpc⟩
    · -- the entry function of the process returns
      simp only [begun, hlive, List.head?_cons, Option.map_some, hfn, if_true]
      refine hask (.inr rfl) ?_
      show pending none (f.next :: rest) = _
      simp [pending, pendingAt, Frame.next, hfn, hpc]
    · simp only [begun, hlive, List.head?_cons, Option.map_some, hfn]
      refine hkeep (keeps_of_places ?_ ?_ ?_) <;>
        simp [pendingAt, sendingAt, Frame.next, hfn]
  | go | timer => cases he

theorem Turns.step {a : Act} (ht : Turns h m.view) (hinv : Inv m q) (ha : SparesScheduler m a)
    (hstep : m.step a = some m') : Turns (moments m a m' ++ h) m'.view := by
  rcases Machine.step_cases hstep with ⟨rfl, hirq, rfl⟩ | ⟨f, rest, hlive, hc, he⟩ |
    ⟨f, rest, c, hlive, hc, he, rfl⟩
  · have hmoments : moments m .timer m.interrupt = [.begins m.cur .timer] := by
      simp [moments, begun, Machine.interrupt]
    rw [hmoments]
    exact ht.strike (hinv.spared hirq ha) rfl
  · exact ht.choose hinv hlive hc he
  · exact ht.exec hinv hlive hc he

end Steps

/-! ## Runs -/

theorem boot_turns : Turns [.begins 0 .ctxSwitch] boot.view where
  count := by decide
  cur _ := ⟨by decide, fun _ => ⟨rfl, rfl⟩⟩
  rest r _ _ _ := by
    have hnil : ∀ r, pending none (boot.saved r) = [] := by decide
    exact hnil r
  off r hr _ _ := by
    have hothers : ∀ r, r ≠ boot.cur →
        boot.states r ≠ .running ∧ ¬CutShort [.begins 0 .ctxSwitch] r := by decide
    exact ⟨fun _ => (hothers r hr).1, fun _ hcut => absurd hcut (hothers r hr).2⟩
  sent he := absurd he (by decide)
  sched := by decide
  awake := by decide

theorem Runs.turns {h : List Moment} {m : Machine} (hrun : Runs h m) : ∃ q, Inv m q ∧ Turns h m.view := by
  induction hrun with
  | boot => exact ⟨bootQueues, boot_inv, boot_turns⟩
  | step a _ ha hs ih =>
    obtain ⟨q, hinv, hturns⟩ := ih
    obtain ⟨q', hinv', -⟩ := hinv.step ha hs
    exact ⟨q', hinv', hturns.step hinv ha hs⟩

/-- **Who is RUNNING.** At every moment at which a process has the CPU: it is the only one marked
    `RUNNING`, it is the current task and every process on the mlfq is `READY`, if every hand-over
    that it has begun is over and no other process has last been cut short. Conversely, where it is
    the only one marked, no other process has, unless the timer struck that one on its way through
    `yield` or `exit_process`. -/
theorem running_unique {h : List Moment} {m : Machine} (hrun : Runs h m)
    (hs : m.cur ≠ m.schedulerProc) :
    (Settled h m.cur → (∀ r, r ≠ m.cur → ¬CutShort h r) →
      (∀ r, m.states r = .running ↔ r = m.cur) ∧ m.task = m.cur ∧
        ∀ i, ∀ r ∈ m.listed i, m.states r = .ready) ∧
    ((∀ r, m.states r = .running ↔ r = m.cur) →
      ∀ r, r ≠ m.cur → Unnested r h → ¬CutShort h r) := by
  obtain ⟨q, hinv, ht⟩ := hrun.turns
  constructor
  · intro hsettled hothers
    have hle : departures m.cur h + (pending none m.live).length ≤ beginnings m.cur h :=
      ht.count_cur hs
    unfold Settled at hsettled
    have hnil : pending none m.live = [] := List.length_eq_zero_iff.mp (by omega)
    have hmarked : m.states m.cur = .running := by
      have hon := ht.cur hs
      rwa [hnil] at hon
    have honly : ∀ r, m.states r = .running ↔ r = m.cur := by
      intro r
      refine ⟨fun hr => ?_, fun hr => hr ▸ hmarked⟩
      by_contra hne
      by_cases hrs : r = m.schedulerProc
      · subst hrs
        exact ht.sched.1 hr
      · exact (ht.off r hne hrs fun he => absurd he hs).1 (hothers r hne) hr
    refine ⟨honly, ?_, fun i r hr => ?_⟩
    · refine hinv.task.trans (Machine.onCpu_eq fun f hf hc => ?_)
      obtain ⟨hfn, hpc⟩ := cmd_site hc rfl
      obtain ⟨rest, hlive⟩ := List.head?_eq_some_iff.mp hf
      refine hinv.live.pending_leaving hs ?_ hnil
      simp [hlive, leaving, hfn, hpc]
    · have hri : r ∈ q i := hinv.holds.queue_eq i ▸ hr
      obtain ⟨j, howed⟩ := hinv.owed_cur hs fun hl => hinv.live.pending_leaving hs hl hnil
      have hne : r ≠ m.cur := fun he => (hinv.owed _ j howed).2.2 i (he ▸ hri)
      have hnot : m.states r ≠ .running := fun he => hne ((honly r).mp he)
      have hawake := ht.awake r
      obtain ⟨hused, hzombie⟩ := (hinv.listed r i hri).2
      cases hstate : m.states r <;> simp_all
  · intro honly r hne hun hcut
    by_cases hrs : r = m.schedulerProc
    · subst hrs
      exact ht.sched.2 hcut
    · exact hne ((honly r).mp ((ht.off r hne hrs fun he => absurd he hs).2 hun hcut))

/-- The history and the machine after the acts. -/
def Machine.track (h : List Moment) (m : Machine) : List Act → Option (List Moment × Machine)
  | [] => some (h, m)
  | a :: as => (m.step a).bind fun m' => m'.track (moments m a m' ++ h) as

theorem Runs.track {h h' : List Moment} {m m' : Machine} {as : List Act} (hrun : Runs h m)
    (htrack : m.track h as = some (h', m')) (htimer : .timer ∉ as) : Runs h' m' := by
  induction as generalizing h m with
  | nil =>
    obtain ⟨rfl, rfl⟩ := Prod.mk.inj (Option.some.inj htrack)
    exact hrun
  | cons a as ih =>
    obtain ⟨m₁, hstep, hrest⟩ := Option.bind_eq_some_iff.mp htrack
    obtain ⟨hne, has⟩ := not_or.mp (List.mem_cons.not.mp htimer)
    exact ih (hrun.step a (fun ha => absurd ha.symm hne) hstep) hrest has

/-- A and B have their turns and exit, and `init` executes. -/
theorem running_unique_init : ∃ h m, Runs h m ∧ m.cur = 0 ∧ m.cur ≠ m.schedulerProc ∧
    Settled h m.cur ∧ (∀ r, r ≠ m.cur → ¬CutShort h r) ∧ ∀ r, m.states r = .running ↔ r = m.cur := by
  have hend : (boot.track [.begins 0 .ctxSwitch] (List.replicate 41 Act.go ++ Act.exitProcess ::
      List.replicate 45 Act.go ++ Act.exitProcess :: List.replicate 45 Act.go)).map
        (fun x => (x.1, x.2.cur, x.2.schedulerProc)) =
      some ([.leaves 3, .leaves 2, .begins 2 .exitProcess, .leaves 3, .leaves 1,
        .begins 1 .exitProcess, .leaves 3, .leaves 0, .begins 0 .ctxSwitch], 0, 3) := by
    decide +kernel
  obtain ⟨⟨h, m⟩, htrack, hm⟩ := Option.map_eq_some_iff.mp hend
  simp only [Prod.mk.injEq] at hm
  obtain ⟨hhistory, hcur, hsched⟩ := hm
  have hrun := Runs.boot.track htrack (by decide)
  have hs : m.cur ≠ m.schedulerProc := by
    rw [hcur, hsched]
    decide
  have hsettled : Settled h m.cur := by
    rw [hhistory, hcur]
    decide
  have hothers : ∀ r, r ≠ m.cur → ¬CutShort h r := by
    rw [hhistory, hcur]
    decide
  exact ⟨h, m, hrun, hcur, hs, hsettled, hothers, ((running_unique hrun hs).1 hsettled hothers).1⟩

/-- The first pick: A executes its own code while `init`, which went to the scheduler process by a
    plain `ctx_switch`, is still marked and on the bottom level. -/
theorem running_twice : ∃ h m, Runs h m ∧ m.cur = 1 ∧ m.schedulerProc = 3 ∧ m.live = initCode ∧
    m.states 0 = .running ∧ m.states 1 = .running ∧ 0 ∈ m.listed 2 := by
  have hend : (boot.track [.begins 0 .ctxSwitch] (List.replicate 41 .go)).map
      (fun x => ((x.2.cur, x.2.schedulerProc, x.2.live), x.2.states 0, x.2.states 1)) =
      some ((1, 3, initCode), .running, .running) := by
    decide +kernel
  have hlisted : (boot.track [.begins 0 .ctxSwitch] (List.replicate 41 .go)).map
      (fun x => x.2.listed 2) = some [0] := by
    decide +kernel
  obtain ⟨⟨h, m⟩, htrack, hm⟩ := Option.map_eq_some_iff.mp hend
  simp only [Prod.mk.injEq] at hm
  obtain ⟨⟨hcur, hsched, hlive⟩, hinit, hA⟩ := hm
  rw [htrack, Option.map_some, Option.some_inj] at hlisted
  refine ⟨h, m, Runs.boot.track htrack (by decide), hcur, hsched, hlive, hinit, hA, ?_⟩
  rw [hlisted]
  exact List.mem_singleton_self 0

end HorizonOS.Sched
