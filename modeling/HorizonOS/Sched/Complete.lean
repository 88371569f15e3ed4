import HorizonOS.Sched.Custody

/-!
# What the scheduler finds when it scans

Each command keeps the invariant of custody, and so does the timer unless it strikes while the
scheduler process is the current task. When the scheduler holds the lock and starts to scan,
nothing is in anyone's hand, so the three levels hold exactly the processes that can run.

* `Inv.step`: every step keeps the invariant.
* `mlfq_complete`: in every such run the scan finds every process that can run, and each once.
* `timer_in_scheduler_loses_process`: a run with one timer interrupt in the scheduler process that
  loses process A.
-/

namespace HorizonOS.Sched

open HorizonOS.Proc

/-! ## Commands -/

section Commands

variable {m m' : Machine} {q : Level → List ProcId} {f g : Frame} {rest : List Frame}

theorem Inv.frame (h : Inv m q) (hlive : m.live = f :: rest) :
    FrameFor m.schedulerProc m.cur f := by
  have hstack := hlive ▸ h.live
  exact hstack.top

theorem Inv.scan (h : Inv m q) (hlive : m.live = f :: rest) (hc : f.cmd = some .scan)
    (he : m.exec f rest .scan = some m') (hirq : IrqInv m') :
    ∃ q', Inv m' q' ∧ Passes m q m' q' := by
  obtain ⟨hfn, hpc⟩ := cmd_site hc rfl
  have hf := h.frame hlive
  simp only [FrameFor, hfn, hpc] at hf
  obtain ⟨hs, hnull⟩ := hf
  have hp : f.p = none := hnull (by decide) le_rfl
  rcases scan_spec h.holds with ⟨hscan, -⟩ | ⟨i, p, xs, hfirst, hi, hscan, hholds⟩
  · -- nothing is queued
    simp only [Machine.exec, hscan] at he
    obtain rfl := Option.some.inj he
    refine ⟨q, h.move hlive ?_ rfl hirq (h.task_of hlive hc (by decide) rfl
      (Frame.next_cmd_ne hc (by decide)) rfl rfl)⟩
    constructor <;> simp [FrameFor, Frame.next, hfn, hpc, hp, taken, carries, returned]
  · simp only [Machine.exec, hscan] at he
    obtain rfl := Option.some.inj he
    refine ⟨_, h.pick hs rfl ?_ hfirst hi hholds ?_ ?_⟩
    · refine h.toControl.advance hlive hc (by decide) hirq rfl rfl rfl rfl h.saved rfl
        (Frame.next_cmd_ne hc (by decide)) ?_ ?_
      · simp [hfn]
      · simp [FrameFor, Frame.next, hfn, hpc, hs]
    · rw [Machine.owed_sched hs, hlive]
      simp [due, taken, hfn, hpc]
    · refine (Machine.owed_sched (by exact hs)).trans ?_
      simp [Machine.on, due, taken, Frame.next, hfn, hpc]

theorem Inv.listAddTail (h : Inv m q) (hlive : m.live = f :: rest) (hc : f.cmd = some .listAddTail)
    (he : m.exec f rest .listAddTail = some m') (hirq : IrqInv m') :
    ∃ q', Inv m' q' ∧ Passes m q m' q' := by
  obtain ⟨hfn, hpc⟩ := cmd_site hc rfl
  have hf := h.frame hlive
  obtain ⟨p, harg, rfl⟩ := Option.map_eq_some_iff.mp he
  refine ⟨_, h.put rfl ?_ ?_ ?_ ?_ ?_⟩
  · refine h.toControl.advance hlive hc (by decide) hirq rfl rfl rfl rfl h.saved rfl
      (Frame.next_cmd_ne hc (by decide)) (fun _ => ⟨rfl, rfl⟩) ?_
    simpa [FrameFor, Frame.next, hfn] using hf
  · by_cases hs : m.cur = m.schedulerProc
    · left
      refine ⟨hs, ?_, ?_⟩
      · rw [Machine.owed_sched hs, hlive]
        simp [due, taken, hfn, hpc, harg]
      · rw [hlive]
        simp [handedBack, returned, hfn]
    · right
      rw [Machine.forked_proc hs, hlive]
      simp [forking, carries, hfn, hpc, harg]
  · unfold Machine.owed Machine.on
    split_ifs
    · simp [due, taken, Frame.next, hfn, hpc]
    · rfl
  · simp [Machine.forked, Machine.on, forking, carries, Frame.next, hfn, hpc]
  · rw [hlive]
    simp [leaving, hfn]

theorem firstUnused_eq_some {states : ProcId → ProcessState} {c : ProcId}
    (h : firstUnused states = some c) : states c = .unused := by
  have hc := List.find?_some h
  simpa using hc

theorem Inv.claimSlot (h : Inv m q) (hlive : m.live = f :: rest) (hc : f.cmd = some .claimSlot)
    (he : m.exec f rest .claimSlot = some m') (hirq : IrqInv m') :
    Inv m' q ∧ Passes m q m' q := by
  obtain ⟨hfn, hpc⟩ := cmd_site hc rfl
  have hf := h.frame hlive
  simp only [FrameFor, hfn] at hf
  obtain ⟨hs, hentry⟩ := hf
  simp only [Machine.exec] at he
  split at he
  · -- the table is full
    obtain rfl := Option.some.inj he
    refine h.move hlive ?_ rfl hirq (h.task_of hlive hc (by decide) rfl
      (Frame.next_cmd_ne hc (by decide)) rfl rfl)
    constructor <;> simp [FrameFor, Frame.next, hfn, hpc, taken, carries, returned]
  · next c hfree =>
    have hunused := firstUnused_eq_some hfree
    obtain rfl := Option.some.inj he
    refine h.claim hunused rfl ?_ hs ?_ ?_ ?_
    · refine h.toControl.advance hlive hc (by decide) hirq rfl rfl rfl rfl (fun p hp => ?_) rfl
        (Frame.next_cmd_ne hc (by decide)) ?_ ?_
      · simp only [Machine.on, Function.update_apply]
        split_ifs
        · exact ⟨trivial, rfl, by simp⟩
        · exact h.saved p hp
      · simp [hfn]
      · simpa [FrameFor, Frame.next, hfn] using ⟨hs, hentry⟩
    · rw [Machine.forked_proc hs, hlive]
      simp [forking, carries, hfn, hpc]
    · refine (Machine.forked_proc (by exact hs)).trans ?_
      simp [Machine.on, forking, carries, Frame.next, hfn, hpc]
    · rw [hlive]
      simp [leaving, hfn]

/-- The scheduler looks at the process that has handed the CPU back: a zombie is dropped. -/
theorem Inv.ifZombie {target : ℕ} (h : Inv m q) (hlive : m.live = f :: rest)
    (hc : f.cmd = some (.ifZombie target)) (he : m.exec f rest (.ifZombie target) = some m')
    (hirq : IrqInv m') :
    Inv m' q ∧ Passes m q m' q := by
  obtain ⟨htarget, hfn, hpc⟩ : target = 0 ∧ f.fn = .scheduler ∧ f.pc = 11 := by
    have hsite := cmd_sites hc
    simp only [sites] at hsite
    split_ifs at hsite with h0
    · exact ⟨h0, Prod.mk.inj (List.mem_singleton.mp hsite)⟩
    · exact absurd hsite List.not_mem_nil
  have hf := h.frame hlive
  simp only [FrameFor, hfn] at hf
  have hs := hf.1
  obtain ⟨p, hp, hm⟩ := Option.map_eq_some_iff.mp he
  have howed : m.owed = some (p, demote f.level) := by
    rw [Machine.owed_sched hs, hlive]
    simp [due, taken, hfn, hpc, hp]
  have hs' : m'.cur = m'.schedulerProc := hm ▸ hs
  have hlive' : m'.live = (if m.states p = .zombie then f.goto target else f.next) :: rest := hm ▸ rfl
  have howed' : m'.owed = if m.states p = .zombie then none else some (p, demote f.level) := by
    rw [Machine.owed_sched hs', hlive']
    split_ifs <;> simp [due, taken, Frame.goto, Frame.next, hfn, hpc, hp, htarget]
  have hforked' := Machine.forked_sched hs'
  subst hm
  have hkept : ∀ r j, (if m.states p = .zombie then none else some (p, demote f.level)) = some (r, j) →
      m.owed = some (r, j) ∧ m.states r ≠ .zombie := by
    intro r j hr
    split_ifs at hr with hz
    rw [howed]
    obtain ⟨rfl, -⟩ := Prod.mk.inj (Option.some.inj hr)
    exact ⟨hr, hz⟩
  refine ⟨?_, ?_⟩
  · exact {
      toControl := by
        refine h.toControl.advance hlive hc (by simp) hirq rfl rfl rfl rfl h.saved ?_ ?_ ?_ ?_
        · split_ifs <;> rfl
        · split_ifs
          · simp [Frame.cmd, Frame.goto, hfn, htarget, code]
          · exact Frame.next_cmd_ne hc (by simp)
        · simp [hfn]
        · split_ifs <;> simp [FrameFor, Frame.goto, Frame.next, hfn, hpc, hs, htarget]
      sched := h.sched
      cur := h.cur
      parked := fun hne => absurd hs hne
      settled := by
        rw [howed']
        exact fun _ r j hr _ => (hkept r j hr).2
      holds := h.holds
      listed := h.listed
      owed := by
        rw [howed']
        exact fun r j hr => h.owed r j (hkept r j hr).1
      forked := by
        intro c hc
        rw [hforked'] at hc
        cases hc
      found := by
        intro r hr hal
        rcases h.found r hr hal with hj | ⟨j, hj⟩ | hf
        · exact .inl hj
        · refine .inr (.inl ⟨j, ?_⟩)
          have hrp := hj
          rw [howed, Option.some_inj, Prod.mk.injEq] at hrp
          rw [howed', if_neg (by rw [hrp.1]; exact hal.2), ← howed]
          exact hj
        · rw [Machine.forked_sched hs] at hf
          cases hf
      fresh := by
        rw [hforked']
        exact fun r j hr => ⟨(h.fresh r j hr).1, by simp⟩ }
  · by_cases hz : m.states p = .zombie
    · exact .drop howed (howed'.trans (if_pos hz)) hz rfl rfl
    · exact .keep (howed'.trans ((if_neg hz).trans howed.symm)) rfl

/-- `fork` fills the child's context with a copy of its own stack. -/
theorem Inv.cloneStack (h : Inv m q) (hlive : m.live = f :: rest) (hc : f.cmd = some .cloneStack)
    (he : m.exec f rest .cloneStack = some m') (hirq : IrqInv m') :
    Inv m' q ∧ Passes m q m' q := by
  obtain ⟨hfn, hpc⟩ := cmd_site hc rfl
  have hs := h.frame hlive
  simp only [FrameFor, hfn] at hs
  obtain ⟨c, hp, hm⟩ := Option.map_eq_some_iff.mp he
  have hforked : m.forked = some c := by
    rw [Machine.forked_proc hs, hlive]
    simp [forking, carries, hfn, hpc, hp]
  obtain ⟨hcs, -⟩ := h.forked c hforked
  have hstack := hlive ▸ h.live
  -- first the context, then the frame
  have hsaved : Inv { m with saved := Function.update m.saved c (f.goto childReturn :: rest) } q := by
    have hsound := hirq.saved
    rw [← hm] at hsound
    have hkept : Function.update m.saved c (f.goto childReturn :: rest) m.schedulerProc =
        m.saved m.schedulerProc := Function.update_of_ne hcs.symm _ _
    have howed : Machine.owed { m with
        saved := Function.update m.saved c (f.goto childReturn :: rest) } = m.owed := by
      unfold Machine.owed
      simp only [hkept]
    exact {
      irq := ⟨h.irq.live, hsound, h.irq.lock_off⟩
      live := h.live
      saved := by
        intro p hpc'
        show StackFor m.schedulerProc p (Function.update m.saved c _ p) ∧
          Resting (Function.update m.saved c _ p)
        rw [Function.update_apply]
        split_ifs with hpe
        · subst hpe
          refine ⟨hstack.child hs hcs hfn hfn, ?_⟩
          simp [Resting, forking, carries, Frame.goto, Frame.cmd, hfn, code]
        · exact h.saved p hpc'
      task := h.task
      sched := h.sched
      cur := h.cur
      parked := by
        rw [howed]
        simp only [hkept]
        exact h.parked
      settled := howed ▸ h.settled
      holds := h.holds
      listed := h.listed
      owed := howed ▸ h.owed
      forked := howed ▸ h.forked
      found := howed ▸ h.found
      fresh := h.fresh }
  subst hm
  obtain ⟨hinv, -⟩ := hsaved.move hlive (moves_next hc (by decide) f.flags) rfl hirq
    (h.task_of hlive hc (by decide) rfl (Frame.next_cmd_ne hc (by decide)) rfl rfl)
  refine ⟨hinv, .keep (Machine.owed_eq ?_ rfl rfl fun he => absurd he hs) rfl⟩
  exact Function.update_of_ne hcs.symm _ _

/-- `yield`, `exit_process` and the scheduler write the state of the process that has the turn. -/
theorem Inv.setState {state : ProcessState} (h : Inv m q) (hlive : m.live = f :: rest)
    (hc : f.cmd = some (.setState state)) (he : m.exec f rest (.setState state) = some m')
    (hirq : IrqInv m') :
    Inv m' q ∧ Passes m q m' q := by
  obtain ⟨p, hp, rfl⟩ := Option.map_eq_some_iff.mp he
  have hf := h.frame hlive
  have hsite := cmd_sites hc
  have hplain : Cmd.setState state ∈ plain := by
    cases state <;> simp [sites, plain] at hsite ⊢
  have howed : ∃ i, m.owed = some (p, i) := by
    cases state <;> simp only [sites, List.mem_singleton, Prod.mk.injEq, List.not_mem_nil] at hsite
    case running =>
      simp only [FrameFor, hsite.1] at hf
      rw [Machine.owed_sched hf.1, hlive]
      simp [due, taken, hsite.1, hsite.2, hp]
    -- `yield` and `exit_process`
    all_goals
      simp only [FrameFor, hsite.1, hsite.2] at hf
      obtain ⟨hs, hcur, -⟩ := hf
      rw [hcur (by decide), Option.some_inj] at hp
      subst hp
      exact h.owed_cur hs (by rw [hlive]; simp [leaving, hsite.1])
  obtain ⟨i, howed⟩ := howed
  have hnew := h.restate howed state
    (by rintro rfl; simp [sites] at hsite)
    (fun hs _ => by
      rintro rfl
      simp only [sites, List.mem_singleton, Prod.mk.injEq] at hsite
      simp only [FrameFor, hsite.1] at hf
      exact hf.1 hs)
  have hmoves : Moves m.schedulerProc m.cur f { f.next with flags := f.flags } :=
    moves_next hc hplain f.flags
  obtain ⟨hinv, -⟩ := hnew.move hlive hmoves rfl hirq
    (h.task_of hlive hc (by simp) rfl (Frame.next_cmd_ne hc (by simp)) rfl rfl)
  refine ⟨hinv, .keep (Machine.owed_eq rfl rfl rfl fun _ => ?_) rfl⟩
  rw [hlive]
  exact hmoves.due

theorem Inv.setTask (h : Inv m q) (hlive : m.live = f :: rest) (hc : f.cmd = some .setTask)
    (he : m.exec f rest .setTask = some m') (hirq : IrqInv m') :
    Inv m' q ∧ Passes m q m' q := by
  obtain ⟨hfn, hpc⟩ := cmd_site hc rfl
  obtain ⟨new, harg, rfl⟩ := Option.map_eq_some_iff.mp he
  refine h.move hlive (moves_next hc (by decide) f.flags) rfl hirq ?_
  simp [Machine.onCpu, Machine.on, Frame.cmd, Frame.next, hfn, hpc, code, harg]

/-- `swtch` changes nothing but the stacks. -/
theorem Machine.exec_swtch {old new : ProcId} (hp : f.p = some old) (harg : f.arg = some new)
    (he : m.exec f rest .swtch = some m') :
    { m with
      saved := Function.update m.saved old (f.next :: rest)
      live := m.saved new
      cur := new } = m' := by
  simpa [Machine.exec, hp, harg] using he

/-- At its `swtch` a stack has nothing of `fork` in hand, and then it rests. -/
theorem Control.swtch (h : Control m) (hlive : m.live = f :: rest) (hc : f.cmd = some .swtch)
    (he : m.exec f rest .swtch = some m') (hirq : IrqInv m') {new : ProcId}
    (harg : f.arg = some new) (hne : new ≠ m.cur) : Control m' := by
  obtain ⟨hfn, hpc⟩ := cmd_site hc rfl
  have hstack := hlive ▸ h.live
  have hp : f.p = some m.cur := by
    have hf := hstack.top
    simp only [FrameFor, hfn] at hf
    exact hf.2 (.inr hpc)
  obtain rfl := Machine.exec_swtch hp harg he
  exact {
    irq := hirq
    live := (h.saved new hne).1
    saved := by
      intro p hpn
      simp only [Function.update_apply]
      split_ifs with hpe
      · subst hpe
        refine ⟨hstack.advance rfl (fun _ => ⟨rfl, rfl⟩) ?_, ?_, ?_⟩
        · have hf := hstack.top
          simp only [FrameFor, hfn] at hf
          simpa [FrameFor, Frame.next, hfn, hpc] using hf.1
        · simp [forking, carries, Frame.next, hfn]
        · simpa using Frame.next_cmd_ne hc (by decide)
      · exact h.saved p hpe
    task := by
      refine Eq.trans ?_ (Machine.onCpu_eq (by exact (h.saved new hne).2.2)).symm
      exact h.task.trans (by simp [Machine.onCpu, hlive, hc, harg]) }

/-- A process switches to the scheduler process. -/
theorem Inv.swtch_in (h : Inv m q) (hlive : m.live = f :: rest) (hc : f.cmd = some .swtch)
    (hs : m.cur ≠ m.schedulerProc) (he : m.exec f rest .swtch = some m') (hirq : IrqInv m') :
    Inv m' q ∧ Passes m q m' q := by
  obtain ⟨hfn, hpc⟩ := cmd_site hc rfl
  have hf := h.frame hlive
  simp only [FrameFor, hfn] at hf
  have harg := hf.1 hs
  have hctl := h.toControl.swtch hlive hc he hirq harg hs.symm
  have hm := Machine.exec_swtch (hf.2 (.inr hpc)) harg he
  have hs' : m'.cur = m'.schedulerProc := hm ▸ rfl
  have howed : m'.owed = m.owed := by
    rw [Machine.owed_sched hs', Machine.owed_proc hs, ← hm]
  have hforked : m'.forked = m.forked := by
    rw [Machine.forked_sched hs', Machine.forked_proc hs, hlive]
    simp [forking, carries, hfn]
  refine h.switched hm.symm hctl howed hforked h.sched.1 (fun hne => absurd rfl hne)
    fun _ p i hp hback => ?_
  rcases h.parked hs with ⟨-, hb⟩ | ⟨hnone, -⟩
  · rw [hb] at hback
    cases hback
  · rw [hnone] at hp
    cases hp

/-- The scheduler process switches to the process it has in hand. -/
theorem Inv.swtch_out (h : Inv m q) (hlive : m.live = f :: rest) (hc : f.cmd = some .swtch)
    (hs : m.cur = m.schedulerProc) (he : m.exec f rest .swtch = some m') (hirq : IrqInv m') :
    Inv m' q ∧ Passes m q m' q := by
  obtain ⟨hfn, hpc⟩ := cmd_site hc rfl
  have hf := h.frame hlive
  simp only [FrameFor, hfn] at hf
  obtain ⟨i, howed⟩ := h.switchesTo hlive hfn hs
  have hp := hf.2 (.inr hpc)
  obtain ⟨x, harg⟩ : ∃ x, f.arg = some x := by
    simp only [Machine.exec, hp, Option.bind_some, Option.map_eq_some_iff] at he
    obtain ⟨x, hx, -⟩ := he
    exact ⟨x, hx⟩
  rw [harg, Option.map_some] at howed
  obtain ⟨hxs, hused, -⟩ := h.owed x i howed
  have hne : x ≠ m.cur := hs ▸ hxs
  have hctl := h.toControl.swtch hlive hc he hirq harg hne
  have hm := Machine.exec_swtch hp harg he
  have hs' : m'.cur ≠ m'.schedulerProc := hm ▸ hxs
  have hback : Function.update m.saved m.cur (f.next :: rest) m.schedulerProc = f.next :: rest := by
    rw [← hs, Function.update_self]
  have howed' : m'.owed = m.owed := by
    rw [Machine.owed_sched hs, Machine.owed_proc hs', ← hm, hlive]
    show due (Function.update m.saved m.cur (f.next :: rest) m.schedulerProc) = due (f :: rest)
    rw [hback]
    simp [due, Frame.next, hfn]
  have hforked : m'.forked = m.forked := by
    rw [Machine.forked_sched hs, Machine.forked_proc hs', ← hm]
    exact (h.saved x hne).2.1
  refine h.switched hm.symm hctl howed' hforked hused (fun _ => .inl ⟨⟨i, howed⟩, ?_⟩)
    fun he => absurd he hxs
  rw [hback]
  simp [handedBack, returned, Frame.next, hfn, hpc]

theorem Inv.swtch (h : Inv m q) (hlive : m.live = f :: rest) (hc : f.cmd = some .swtch)
    (he : m.exec f rest .swtch = some m') (hirq : IrqInv m') :
    Inv m' q ∧ Passes m q m' q := by
  by_cases hs : m.cur = m.schedulerProc
  · exact h.swtch_out hlive hc hs he hirq
  · exact h.swtch_in hlive hc hs he hirq

theorem Phase.Holds.unmasked {ph : Phase} {entryIF flags lock : Bool}
    (h : ph.Holds entryIF flags true lock) : ph ≠ .masked ∧ entryIF = true := by
  cases ph <;> simp_all [Phase.Holds]

/-- No `swtch` comes next where interrupts are on. -/
theorem IrqInv.not_swtch (h : IrqInv m) (hirq : m.irq = true) :
    ∀ f ∈ m.live.head?, f.cmd ≠ some .swtch := by
  intro f hf hc
  obtain ⟨rest, hlive⟩ := List.head?_eq_some_iff.mp hf
  have hsound := h.live
  rw [hlive, hirq] at hsound
  obtain ⟨ph, htyped, hholds⟩ := hsound.1.typed hc
  exact hholds.unmasked.1 htyped.1

/-- Nor is a child in the hand of `fork`. -/
theorem FrameOk.carries_eq {lock : Bool} {s o : ProcId} (h : FrameOk f true lock)
    (hf : FrameFor s o f) (ho : o ≠ s) : carries f = none := by
  obtain ⟨-, ph, hph, hholds⟩ := h
  obtain ⟨hmasked, hentry⟩ := hholds.unmasked
  unfold carries
  split
  · next hfn =>
    refine if_neg fun hpc => ?_
    obtain ⟨hlo, hhi⟩ := hpc
    rw [hfn] at hph
    interval_cases f.pc <;> exact hmasked (Option.some.inj hph).symm
  · next hfn =>
    simp only [FrameFor, hfn, hentry] at hf
    exact absurd hf.2 (by decide)
  · next hfn =>
    simp only [FrameFor, hfn, hentry] at hf
    exact absurd (hf ho) (by decide)
  · rfl

/-- The timer strikes while a process runs. -/
theorem Inv.interrupt (h : Inv m q) (hirq : m.irq = true) (hs : m.cur ≠ m.schedulerProc) :
    Inv m.interrupt q ∧ Passes m q m.interrupt q := by
  have htimer : FrameFor m.schedulerProc m.cur
      { fn := .timerInterruptHandlerSched, entryIF := true } := ⟨hs, by simp⟩
  have hfree : ∀ {f rest}, m.live = f :: rest → carries f = none := by
    intro f rest hlive
    have hsound := h.irq.live
    rw [hlive, hirq] at hsound
    exact hsound.1.carries_eq (h.frame hlive) hs
  refine h.quiet rfl (h.irq.interrupt hirq) ?_ ?_ (fun he => absurd he hs)
    (fun he => absurd he hs) (fun _ => ?_) fun _ hl => ⟨Nat.zero_le 1, hl⟩
  · rw [Machine.onCpu_eq_of_live (m := m.interrupt) rfl (by simp [Frame.cmd, code])]
    exact h.task.trans (Machine.onCpu_eq (h.irq.not_swtch hirq))
  · show StackFor _ _ (_ :: m.live)
    have hstack := h.live
    cases hl : m.live with
    | nil => exact ⟨htimer, by simp⟩
    | cons f rest =>
      rw [hl] at hstack
      exact hstack.enter (.inl ⟨rfl, hfree hl⟩) htimer
  · cases hl : m.live with
    | nil => rfl
    | cons f rest => exact (hfree hl).symm

/-- The timer handler returns to the process it has interrupted. -/
theorem Inv.iret (h : Inv m q) (hlive : m.live = f :: rest) (hc : f.cmd = some .iret)
    (he : m.exec f rest .iret = some m') (hirq : IrqInv m') :
    Inv m' q ∧ Passes m q m' q := by
  obtain ⟨hfn, hpc⟩ := cmd_site hc rfl
  have hs := h.frame hlive
  simp only [FrameFor, hfn] at hs
  have hstack := hlive ▸ h.live
  obtain rfl := Option.some.inj he
  have hbelow : StackFor m.schedulerProc m.cur rest ∧ forking rest = none := by
    cases rest with
    | nil => exact ⟨trivial, rfl⟩
    | cons g rest =>
      have hsound : StackOk true m.lock (g :: rest) := hirq.live
      exact ⟨hstack.below, hsound.1.carries_eq hstack.below.top hs.1⟩
  refine h.quiet rfl hirq ?_ hbelow.1 (fun he => absurd he hs.1)
    (fun he => absurd he hs.1) (fun _ => ?_) fun _ hleave => ?_
  · rw [Machine.onCpu_eq (hirq.not_swtch rfl)]
    exact h.task_eq hlive hc (by decide)
  · rw [hlive]
    simpa [forking, carries, hfn] using hbelow.2
  · rw [hlive] at hleave
    simp [leaving, hfn, hpc] at hleave

/-- Every command keeps the invariant. -/
theorem Inv.exec {c : Cmd} (h : Inv m q) (hlive : m.live = f :: rest) (hc : f.cmd = some c)
    (he : m.exec f rest c = some m') :
    ∃ q', Inv m' q' ∧ Passes m q m' q' := by
  have hirq := h.irq.exec hlive hc he
  have hf := h.frame hlive
  have hstack := hlive ▸ h.live
  have hsound := h.irq.live
  rw [hlive] at hsound
  -- a command that only moves the top frame on
  have hmove : ∀ {g : Frame} {irq lock : Bool}, Moves m.schedulerProc m.cur f g → c ≠ .swtch →
      g.cmd ≠ some .swtch → m' = { m with live := g :: rest, irq := irq, lock := lock } →
      ∃ q', Inv m' q' ∧ Passes m q m' q' := by
    intro g irq lock hmoves hsw hg hm
    subst hm
    exact ⟨q, h.move hlive hmoves rfl hirq (h.task_of hlive hc hsw rfl hg rfl rfl)⟩
  cases c with
  | scan => exact h.scan hlive hc he hirq
  | listAddTail => exact h.listAddTail hlive hc he hirq
  | claimSlot => exact ⟨q, h.claimSlot hlive hc he hirq⟩
  | ifZombie target => exact ⟨q, h.ifZombie hlive hc he hirq⟩
  | cloneStack => exact ⟨q, h.cloneStack hlive hc he hirq⟩
  | setState state => exact ⟨q, h.setState hlive hc he hirq⟩
  | setTask => exact ⟨q, h.setTask hlive hc he hirq⟩
  | swtch => exact ⟨q, h.swtch hlive hc he hirq⟩
  | iret => exact ⟨q, h.iret hlive hc he hirq⟩
  | readFlags | cli | sti | irqRestore | release | panic =>
    refine hmove (moves_next hc (by decide) _) (by decide) ?_ (Option.some.inj he).symm
    exact Frame.next_cmd_ne hc (by decide)
  | spinlock =>
    simp only [Machine.exec] at he
    split_ifs at he
    · obtain rfl := Option.some.inj he
      exact ⟨q, h, .keep rfl rfl⟩
    · exact hmove (moves_next hc (by decide) f.flags) (by decide)
        (Frame.next_cmd_ne hc (by decide)) (Option.some.inj he).symm
  | getTask =>
    have hm : m' = m.on { f.next with p := some m.cur } rest := by
      rw [← h.task_eq hlive hc (by decide)]
      exact (Option.some.inj he).symm
    exact hmove (moves_getTask hc) (by decide) (Frame.next_cmd_ne hc (by decide)) hm
  | getScheduler =>
    exact hmove (moves_getScheduler hc) (by decide) (Frame.next_cmd_ne hc (by decide))
      (Option.some.inj he).symm
  | resetLocals =>
    exact hmove (moves_resetLocals hc) (by decide) (Frame.next_cmd_ne hc (by decide))
      (Option.some.inj he).symm
  | demoteLevel =>
    exact hmove (moves_demoteLevel hc) (by decide) (Frame.next_cmd_ne hc (by decide))
      (Option.some.inj he).symm
  | ifNull target =>
    refine hmove (moves_ifNull hc) (by simp) ?_ (Option.some.inj he).symm
    split_ifs
    · exact Frame.goto_cmd_ne (.inl hc)
    · exact Frame.next_cmd_ne hc (by simp)
  | jump target =>
    exact hmove (moves_jump hc) (by simp) (Frame.goto_cmd_ne (.inr hc)) (Option.some.inj he).symm
  | call fn v =>
    obtain rfl := Option.some.inj he
    exact ⟨q, h.enter hlive hc (by simp) (calls_call hc hf hsound.1) hirq⟩
  | callEntry =>
    obtain rfl := Option.some.inj he
    exact ⟨q, h.enter hlive hc (by simp) (calls_callEntry hc hf) hirq⟩
  | ret | retProc =>
    cases rest with
    | nil => cases he
    | cons caller rest =>
      obtain rfl := Option.some.inj he
      refine ⟨q, h.leave hlive hc (by simp) ?_ hirq⟩
      exact returns_ret hc (by simp [Frame.resume]) hf hstack.below.top hstack.2.1
  | user | halt => cases he

/-- So does every choice of a process. -/
theorem Inv.choose {a : Act} (h : Inv m q) (hlive : m.live = f :: rest) (hc : f.cmd = some .user)
    (he : m.choose f rest a = some m') : Inv m' q ∧ Passes m q m' q := by
  have hirq := h.irq.choose hlive hc he
  have hf := h.frame hlive
  cases a with
  | fork level | yield | exitProcess | irqSave =>
    obtain rfl := Option.some.inj he
    exact h.enter hlive hc (by decide) (calls_user hc hf (by decide) _) hirq
  | leave =>
    obtain rfl := Option.some.inj he
    exact h.move hlive (moves_leave hc) rfl hirq
      (h.task_of hlive hc (by decide) rfl (Frame.next_cmd_ne hc (by decide)) rfl rfl)
  | go | timer => cases he

end Commands

/-! ## Runs -/

/-- The timer does not strike while the scheduler process is the current task. -/
def SparesScheduler (m : Machine) (a : Act) : Prop := a = .timer → m.task ≠ m.schedulerProc

theorem Machine.Steps.of_untimed {m m' : Machine} {as : List Act} (hrun : m.run as = some m')
    (htimer : .timer ∉ as) : Machine.Steps SparesScheduler m m' :=
  .of_run hrun fun _ ha _ ht => absurd (ht ▸ ha) htimer

/-- Then it strikes only while another process runs. -/
theorem Inv.spared {m : Machine} {q : Level → List ProcId} (h : Inv m q) (hirq : m.irq = true)
    (ha : SparesScheduler m .timer) : m.cur ≠ m.schedulerProc := by
  intro hs
  refine ha rfl ?_
  rw [h.task, ← hs]
  exact Machine.onCpu_eq (h.irq.not_swtch hirq)

theorem Inv.step {m m' : Machine} {q : Level → List ProcId} {a : Act} (h : Inv m q)
    (ha : SparesScheduler m a) (hstep : m.step a = some m') :
    ∃ q', Inv m' q' ∧ Passes m q m' q' := by
  rcases Machine.step_cases hstep with ⟨rfl, hirq, rfl⟩ | ⟨f, rest, hlive, hc, he⟩ |
    ⟨f, rest, c, hlive, hc, he, -⟩
  · exact ⟨q, h.interrupt hirq (h.spared hirq ha)⟩
  · exact ⟨q, h.choose hlive hc he⟩
  · exact h.exec hlive hc he

/-- The queues at the start. -/
def bootQueues : Level → List ProcId := ![[1], [2], [0]]

theorem holds_boot : Holds boot.mlfq bootQueues := by
  have h0 := (holds_initScheduler ⟨fun _ => .null, fun _ => .null⟩).enqueue
    (fun j (hj : (0 : ProcId) ∈ []) => List.not_mem_nil hj) 2
  have h1 := h0.enqueue (p := 1) (by decide) 0
  have h2 := h1.enqueue (p := 2) (by decide) 1
  have hq : Function.update (Function.update (Function.update (fun _ => []) 2 [0]) 0 [1]) 1 [2] =
      bootQueues := by decide
  exact hq ▸ h2

theorem boot_alive {p : ProcId} (hp : p.val ≤ 3) : boot.Alive p := by
  unfold Machine.Alive boot
  by_cases h0 : p = 0 <;> simp [h0, hp]

theorem boot_control : Control boot where
  irq := boot_irqInv
  live := by
    refine ⟨?_, .inr (.inr (.inr ⟨rfl, by decide⟩)), ?_, .inr (.inr (.inl ⟨rfl, .inl rfl⟩)), ?_⟩ <;>
      simp [FrameFor, StackFor, boot]
  saved p hp := by
    have hfresh : ∀ o, StackFor 3 o freshStack ∧ Resting freshStack := fun o =>
      ⟨⟨by simp [FrameFor], by simp⟩, by simp [Resting, freshStack, forking, carries, Frame.cmd, code]⟩
    have hborn : ∀ o level, o ≠ 3 → StackFor 3 o (bornStack o level) ∧ Resting (bornStack o level) := by
      intro o level ho
      refine ⟨⟨ho, .inr (.inr (.inr ⟨rfl, by simp⟩)), ho, .inr (.inr (.inl ⟨rfl, .inl rfl⟩)), ?_⟩, ?_⟩
      · simp [FrameFor, StackFor, ho]
      · simp [Resting, bornStack, forking, carries, Frame.cmd, code]
    show StackFor 3 p (if p = 0 ∨ p = 3 then freshStack else _) ∧
      Resting (if p = 0 ∨ p = 3 then freshStack else _)
    split_ifs with h h1 h2
    · exact hfresh p
    · subst h1
      exact hborn 1 0 (by decide)
    · subst h2
      exact hborn 2 1 (by decide)
    · exact ⟨trivial, rfl, by simp⟩
  task := rfl

theorem boot_inv : Inv boot bootQueues where
  toControl := boot_control
  sched := boot_alive le_rfl
  cur := (boot_alive (Nat.zero_le 3)).1
  parked _ := .inr ⟨rfl, Nat.zero_le 4⟩
  settled he := absurd he (by decide)
  holds := holds_boot
  listed p i hp := by
    have hall : ∀ i, ∀ p ∈ bootQueues i, p ≠ 3 ∧ p.val ≤ 3 := by decide
    exact ⟨(hall i p hp).1, boot_alive (hall i p hp).2⟩
  owed p i hp := by cases hp
  forked c hc := by cases hc
  fresh p i hp := by
    have hall : ∀ e ∈ boot.log, ∀ p i, e = .enqueue p i → p.val ≤ 3 := by
      intro e he p i hpi
      subst hpi
      simp only [boot, List.mem_cons, List.not_mem_nil, or_false, Event.enqueue.injEq] at he
      rcases he with ⟨rfl, -⟩ | ⟨rfl, -⟩ | ⟨rfl, -⟩ <;> decide
    refine ⟨(boot_alive (hall _ hp p i rfl)).1, ?_⟩
    show none ≠ some p
    simp
  found p hp hal := by
    left
    have hle : p.val ≤ 3 := by
      by_contra hgt
      have h0 : p ≠ 0 := fun he => hgt (by rw [he]; decide)
      exact hal.1 (by simp [boot, h0, hgt])
    have hne : p.val ≠ 3 := fun he => hp (Fin.ext he)
    have hcases : p = 0 ∨ p = 1 ∨ p = 2 := by
      simp only [Fin.ext_iff]
      show p.val = 0 ∨ p.val = 1 ∨ p.val = 2
      omega
    rcases hcases with rfl | rfl | rfl
    · exact ⟨2, by decide⟩
    · exact ⟨0, by decide⟩
    · exact ⟨1, by decide⟩

/-- The invariant stands in every run that spares the scheduler process. -/
theorem inv_of_steps {m : Machine} (h : Machine.Steps SparesScheduler boot m) : ∃ q, Inv m q := by
  induction h with
  | refl => exact ⟨bootQueues, boot_inv⟩
  | tail _ hstep ih =>
    obtain ⟨a, ha, hs⟩ := hstep
    obtain ⟨q, hq⟩ := ih
    obtain ⟨q', hq', -⟩ := hq.step ha hs
    exact ⟨q', hq'⟩

/-- The number of places of a process on the mlfq. -/
def Machine.places (m : Machine) (p : ProcId) : ℕ :=
  ((List.finRange numPriorityLevels).flatMap m.listed).count p

theorem Holds.places_eq {m : Machine} {q : Level → List ProcId} (h : Holds m.mlfq q) {p : ProcId} :
    m.places p = if ∃ i, p ∈ q i then 1 else 0 := by
  have hlisted : m.listed = q := funext h.queue_eq
  unfold Machine.places
  rw [hlisted]
  split_ifs with hp
  · obtain ⟨i, hi⟩ := hp
    refine List.count_eq_one_of_mem (List.nodup_flatMap.mpr ⟨fun j _ => h.nodup j, ?_⟩)
      (List.mem_flatMap.mpr ⟨i, List.mem_finRange i, hi⟩)
    refine (List.nodup_finRange _).imp fun {j k} hjk => ?_
    intro r hrj hrk
    exact hjk (h.eq_of_mem hrj hrk)
  · refine List.count_eq_zero_of_not_mem fun hmem => hp ?_
    obtain ⟨i, -, hi⟩ := List.mem_flatMap.mp hmem
    exact ⟨i, hi⟩

/-- At a scan the scheduler process runs and has nothing in hand. -/
theorem Inv.owed_scan {m : Machine} {q : Level → List ProcId} {f : Frame} (hinv : Inv m q)
    (hat : m.At f .scan) : m.cur = m.schedulerProc ∧ m.owed = none := by
  obtain ⟨rest, hlive, hc⟩ := hat
  obtain ⟨hfn, hpc⟩ := cmd_site hc rfl
  have hs := hinv.frame hlive
  simp only [FrameFor, hfn] at hs
  refine ⟨hs.1, ?_⟩
  rw [Machine.owed_sched hs.1, hlive]
  simp [due, taken, hfn, hpc]

/-- Whenever the scheduler starts to scan the mlfq, every claimed process but the scheduler process
    occurs on it exactly once if it can run and nowhere if it is a zombie, in every run in which the
    timer strikes only while the scheduler process is not the current task. -/
theorem mlfq_complete {m : Machine} (h : Machine.Steps SparesScheduler boot m) {f : Frame}
    (hat : m.At f .scan) {p : ProcId} (hp : p ≠ m.schedulerProc) (hclaimed : m.states p ≠ .unused) :
    m.places p = if m.states p = .zombie then 0 else 1 := by
  obtain ⟨q, hq⟩ := inv_of_steps h
  -- the scheduler has put back what it had in hand, and no process runs
  obtain ⟨hs, howed⟩ := hq.owed_scan hat
  rw [hq.holds.places_eq]
  split_ifs with hmem hz hz
  · obtain ⟨i, hi⟩ := hmem
    exact absurd hz (hq.listed p i hi).2.2
  · rfl
  · rfl
  · rcases hq.found p hp ⟨hclaimed, hz⟩ with hj | ⟨i, hi⟩ | hf
    · exact absurd hj hmem
    · rw [howed] at hi
      cases hi
    · rw [Machine.forked_sched hs] at hf
      cases hf

/-- At the first scan `init` is on the bottom level. -/
theorem mlfq_complete_first_scan : ∃ m f, Machine.Steps SparesScheduler boot m ∧ m.At f .scan ∧
    (0 : ProcId) ≠ m.schedulerProc ∧ m.states 0 ≠ .unused ∧ m.places 0 = 1 := by
  obtain ⟨m, hrun⟩ : ∃ m, boot.run (List.replicate 23 .go) = some m := ⟨_, rfl⟩
  have hsteps : Machine.Steps SparesScheduler boot m := .of_untimed hrun (by decide)
  have hm := Option.some.inj hrun
  obtain ⟨f, hat⟩ : ∃ f, m.At f .scan := hm ▸ ⟨_, _, rfl, rfl⟩
  have hstate : m.states 0 = .running := hm ▸ rfl
  have hsched : m.schedulerProc = 3 := hm ▸ rfl
  have hne : (0 : ProcId) ≠ m.schedulerProc := by
    rw [hsched]
    decide
  have hclaimed : m.states 0 ≠ .unused := by
    rw [hstate]
    decide
  refine ⟨m, f, hsteps, hat, hne, hclaimed, ?_⟩
  have hplaces := mlfq_complete hsteps hat hne hclaimed
  rwa [hstate, if_neg (by decide)] at hplaces

/-- The timer strikes right after the scheduler has picked process A. The handler's
    `ctx_switch(scheduler_proc)` stores that point and takes up the continuation stored before,
    which is the entry of the scheduler process: the loop starts anew and A is lost. -/
theorem timer_in_scheduler_loses_process : ∃ m f,
    Machine.Steps (fun _ _ => True) boot m ∧ m.At f .scan ∧ (1 : ProcId) ≠ m.schedulerProc ∧
    m.states 1 = .ready ∧ m.places 1 = 0 := by
  obtain ⟨m, hrun⟩ : ∃ m, boot.run
      (List.replicate 26 Act.go ++ [Act.timer] ++ List.replicate 25 Act.go) = some m := ⟨_, rfl⟩
  have hm := Option.some.inj hrun
  obtain ⟨f, hat⟩ : ∃ f, m.At f .scan := hm ▸ ⟨_, _, rfl, rfl⟩
  have hsched : m.schedulerProc = 3 := hm ▸ rfl
  refine ⟨m, f, Machine.Steps.of_run hrun fun _ _ _ => trivial, hat, ?_, hm ▸ rfl, hm ▸ rfl⟩
  rw [hsched]
  decide

end HorizonOS.Sched
