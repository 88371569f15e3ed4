import HorizonOS.Lib.MultilevelQueue
import HorizonOS.Sched.Turns

/-!
# No process starves

The machine refines a multilevel feedback queue: the levels are the queues of the mlfq, the process
in service is the one that the scheduler has taken off and will put back one level down, and only
`fork` lets a new process arrive. So while a process waits, every other one is picked at most once
at each level down to its own, and processes that are all on the bottom level take turns.

* `Refines`: a run of the machine as a run of the queue.
* `refines_of_steps`: every run that spares the scheduler process is one.
* `no_starvation`: what the log of picks can look like.
-/

namespace HorizonOS.Sched

open HorizonOS.Proc HorizonOS.Lib

/-! ## The log as a run of the queue -/

/-- The picks, in order. -/
def picked (log : List Event) : List (ProcId × Level) :=
  log.filterMap fun e =>
    match e with
    | .pick p i => some (p, i)
    | _ => none

/-- What an operation on the queues leaves in the log. -/
def entry : MultilevelQueue.Op ProcId Level → Option Event
  | .pick p i => some (.pick p i)
  | .put p i | .arrive p i => some (.enqueue p i)
  | .drop _ => none

/-- The queues that the machine holds. -/
def Machine.queues (m : Machine) (q : Level → List ProcId) : MultilevelQueue.State ProcId Level where
  queue := q
  hand := m.owed
  seen := { p | ∃ i, .enqueue p i ∈ m.log }

theorem picks_eq_picked (ops : List (MultilevelQueue.Op ProcId Level)) :
    MultilevelQueue.picks ops = picked (ops.filterMap entry) := by
  unfold MultilevelQueue.picks picked
  rw [List.filterMap_filterMap]
  refine List.filterMap_congr fun op _ => ?_
  cases op <;> rfl

theorem le_demote (i : Level) : i ≤ demote i := by
  revert i
  decide

theorem lt_demote {i j : Level} (h : i < j) : i < demote i := by
  revert i j
  decide

/-- From `m` with the levels `q` to `m'` with the levels `q'` by operations on the queues; a process
    leaves them only by its exit. -/
def Refines (m : Machine) (q : Level → List ProcId) (m' : Machine) (q' : Level → List ProcId) : Prop :=
  ∃ ops log, MultilevelQueue.Run demote (m.queues q) ops (m'.queues q') ∧ m'.log = m.log ++ log ∧
    ops.filterMap entry = log ∧ ∀ p, .drop p ∈ ops → m'.states p = .zombie

section Step

variable {h : List Moment} {m m' : Machine} {q q' : Level → List ProcId} {f : Frame}
  {rest : List Frame}

/-- Each step is an operation on the queues, or none. -/
theorem Passes.op (h : Passes m q m' q') (hinv : Inv m q)
    (hvalid : MultilevelQueue.Valid (m.queues q)) :
    (m.queues q = m'.queues q' ∧ m'.log = m.log) ∨
    ∃ op, MultilevelQueue.Step demote (m.queues q) op (m'.queues q') ∧
      m'.log = m.log ++ (entry op).toList ∧ ∀ p, op = .drop p → m'.states p = .zombie := by
  have hseen : ∀ {log : List Event}, m'.log = m.log ++ log →
      (∀ p i, .enqueue p i ∉ log) → (m'.queues q').seen = (m.queues q).seen := by
    intro log hlog hnot
    ext p
    simp [Machine.queues, hlog, hnot]
  have hqueues : ∀ {hand seen}, m'.owed = hand → (m'.queues q').seen = seen →
      m'.queues q' = ⟨q', hand, seen⟩ := by
    intro hand seen hhand hs
    rw [← hhand, ← hs]
    rfl
  have hadded : ∀ {p i}, m'.log = m.log ++ [Event.enqueue p i] →
      (m'.queues q').seen = insert p (m.queues q).seen := by
    intro p i hlog
    ext r
    simp only [Machine.queues, hlog, Set.mem_ofPred_eq, List.mem_append, List.mem_singleton,
      Event.enqueue.injEq, Set.mem_insert_iff]
    constructor
    · intro hr
      obtain ⟨j, hr | ⟨hr, -⟩⟩ := hr
      · exact .inr ⟨j, hr⟩
      · exact .inl hr
    · intro hr
      rcases hr with hr | ⟨j, hr⟩
      · exact ⟨i, .inr ⟨hr, rfl⟩⟩
      · exact ⟨j, .inl hr⟩
  cases h with
  | keep howed hlog =>
    refine .inl ⟨?_, hlog⟩
    rw [hqueues howed (hseen (hlog.trans (List.append_nil _).symm) (by simp))]
    rfl
  | @pick p i xs hfirst hi howed howed' hlog =>
    refine .inr ⟨.pick p i, ?_, hlog, fun r hr => by cases hr⟩
    rw [hqueues howed' (hseen hlog (by simp))]
    exact .pick hfirst hi howed
  | @put p i howed howed' hlog =>
    refine .inr ⟨.put p i, ?_, hlog, fun r hr => by cases hr⟩
    have hold := (hvalid.hand howed).1
    rw [hqueues howed' ((hadded hlog).trans (Set.insert_eq_of_mem hold))]
    exact .put howed
  | @spawn c i hforked howed hlog =>
    refine .inr ⟨.arrive c i, ?_, hlog, fun r hr => by cases hr⟩
    have hnew : c ∉ (m.queues q).seen := by
      intro hc
      obtain ⟨j, hj⟩ := hc
      exact (hinv.fresh c j hj).2 hforked
    rw [hqueues howed (hadded hlog)]
    exact .arrive hnew
  | @drop p i howed howed' hstate hstates hlog =>
    refine .inr ⟨.drop p, ?_, hlog.trans (List.append_nil _).symm, fun r hr => ?_⟩
    · rw [hqueues howed' (hseen (hlog.trans (List.append_nil _).symm) (by simp))]
      exact .drop howed
    · obtain rfl := MultilevelQueue.Op.drop.inj hr
      rw [hstates]
      exact hstate

/-- Only two commands write a state. -/
theorem Machine.exec_states {c : Cmd} (he : m.exec f rest c = some m')
    (hset : ∀ state, c ≠ .setState state) (hclaim : c ≠ .claimSlot) : m'.states = m.states := by
  cases c with
  | setState state => exact absurd rfl (hset state)
  | claimSlot => exact absurd rfl hclaim
  | setTask | listAddTail | cloneStack | ifZombie =>
    obtain ⟨_, -, rfl⟩ := Option.map_eq_some_iff.mp he
    rfl
  | scan =>
    simp only [Machine.exec] at he
    split at he <;> obtain rfl := Option.some.inj he <;> rfl
  | spinlock =>
    simp only [Machine.exec] at he
    split_ifs at he <;> obtain rfl := Option.some.inj he <;> rfl
  | swtch =>
    obtain ⟨_, -, hmap⟩ := Option.bind_eq_some_iff.mp he
    obtain ⟨_, -, rfl⟩ := Option.map_eq_some_iff.mp hmap
    rfl
  | ret | retProc =>
    cases rest with
    | nil => cases he
    | cons _ _ =>
      obtain rfl := Option.some.inj he
      rfl
  | user | halt => cases he
  | _ =>
    obtain rfl := Option.some.inj he
    rfl

/-- The process whose state is written is not a zombie. -/
theorem Inv.setState_ne {state : ProcessState} {p : ProcId} (hinv : Inv m q)
    (hturns : Turns h m.view) (hlive : m.live = f :: rest) (hc : f.cmd = some (.setState state))
    (hp : f.p = some p) : m.states p ≠ .zombie := by
  rcases hinv.setState_cases hlive hc hp with ⟨hs, rfl, -, hasked, -⟩ | ⟨hs, -, howed, hback, -⟩
  · have hon := hturns.cur hs
    rw [hasked] at hon
    have hrunning : m.states m.cur = .running := hon.1
    rw [hrunning]
    decide
  · exact hinv.settled hs p _ howed (by simp [hback])

/-- A zombie stays one. -/
theorem Inv.zombie_step {a : Act} {r : ProcId} (hinv : Inv m q) (hturns : Turns h m.view)
    (hstep : m.step a = some m') (hr : m.states r = .zombie) : m'.states r = .zombie := by
  rcases Machine.step_cases hstep with ⟨-, -, rfl⟩ | ⟨f, rest, hlive, hc, he⟩ |
    ⟨f, rest, c, hlive, hc, he, -⟩
  · exact hr
  · cases a with
    | fork | yield | exitProcess | irqSave | leave =>
      obtain rfl := Option.some.inj he
      exact hr
    | go | timer => cases he
  · by_cases hset : ∃ state, c = .setState state
    · obtain ⟨state, rfl⟩ := hset
      obtain ⟨p, hp, rfl⟩ := Option.map_eq_some_iff.mp he
      have hne : r ≠ p := fun he => hinv.setState_ne hturns hlive hc hp (he ▸ hr)
      exact (Function.update_of_ne hne _ _).trans hr
    · by_cases hclaim : c = .claimSlot
      · subst hclaim
        simp only [Machine.exec] at he
        split at he
        · obtain rfl := Option.some.inj he
          exact hr
        · next c hfree =>
          obtain rfl := Option.some.inj he
          have hne : r ≠ c := by
            intro he
            rw [he, firstUnused_eq_some hfree] at hr
            cases hr
          exact (Function.update_of_ne hne _ _).trans hr
      · rw [Machine.exec_states he (fun state h => hset ⟨state, h⟩) hclaim]
        exact hr

end Step

/-! ## Runs -/

/-- Every run that spares the scheduler process is a run of the queues. -/
theorem refines_of_steps {m m' : Machine} {q : Level → List ProcId} (hinv : Inv m q)
    (hturns : ∃ past, Turns past m.view) (hvalid : MultilevelQueue.Valid (m.queues q))
    (h : Machine.Steps SparesScheduler m m') :
    ∃ q', Inv m' q' ∧ (∃ past, Turns past m'.view) ∧ Refines m q m' q' := by
  induction h with
  | refl => exact ⟨q, hinv, hturns, [], [], .nil, (List.append_nil _).symm, rfl, by simp⟩
  | @tail m₁ m₂ _ hstep ih =>
    obtain ⟨a, ha, hs⟩ := hstep
    obtain ⟨q₁, hinv₁, ⟨past, hturns₁⟩, ops, log, hrun, hlog, hentries, hdrop⟩ := ih
    obtain ⟨q₂, hinv₂, hpasses⟩ := hinv₁.step ha hs
    have hdrop₂ : ∀ p, .drop p ∈ ops → m₂.states p = .zombie := fun p hp =>
      hinv₁.zombie_step hturns₁ hs (hdrop p hp)
    refine ⟨q₂, hinv₂, ⟨_, hturns₁.step hinv₁ ha hs⟩, ?_⟩
    rcases hpasses.op hinv₁ (hrun.valid hvalid) with ⟨hsame, hlog₁⟩ | ⟨op, hop, hlog₁, hzombie⟩
    · exact ⟨ops, log, hsame ▸ hrun, hlog₁.trans hlog, hentries, hdrop₂⟩
    · refine ⟨ops ++ [op], log ++ (entry op).toList, hrun.snoc hop, ?_, ?_, fun p hp => ?_⟩
      · rw [hlog₁, hlog, List.append_assoc]
      · rw [List.filterMap_append, hentries]
        cases hentry : entry op <;> simp [hentry]
      · rcases List.mem_append.mp hp with hp | hp
        · exact hdrop₂ p hp
        · exact hzombie p (List.mem_singleton.mp hp).symm

/-- Before `init_process` nothing is queued. -/
def noQueues : MultilevelQueue.State ProcId Level := ⟨fun _ => [], none, ∅⟩

theorem noQueues_valid : MultilevelQueue.Valid noQueues where
  nodup _ := List.nodup_nil
  unique ha := absurd ha List.not_mem_nil
  hand ha := absurd ha (by simp [noQueues])
  seen ha := absurd ha List.not_mem_nil

/-- `init` and its two children arrive. -/
theorem run_boot : MultilevelQueue.Run demote noQueues [.arrive 0 2, .arrive 1 0, .arrive 2 1]
    (boot.queues bootQueues) := by
  have h0 : MultilevelQueue.Step demote noQueues (.arrive 0 2) _ := .arrive (by simp [noQueues])
  have h1 := MultilevelQueue.Run.snoc (.snoc .nil h0) (.arrive (a := 1) (i := 0) (by simp [noQueues]))
  have h2 := MultilevelQueue.Run.snoc h1 (.arrive (a := 2) (i := 1) (by simp [noQueues]))
  have hend : boot.queues bootQueues =
      ⟨Function.update (Function.update (Function.update (fun _ => []) 2 [0]) 0 [1]) 1 [2], none,
        {2, 1, 0}⟩ := by
    have hqueue : bootQueues =
        Function.update (Function.update (Function.update (fun _ => []) 2 [0]) 0 [1]) 1 [2] := by
      decide
    have hseen : { p | ∃ i, Event.enqueue p i ∈ boot.log } = ({2, 1, 0} : Set ProcId) := by
      ext p
      simp only [boot, Set.mem_ofPred_eq, List.mem_cons, List.not_mem_nil, or_false,
        Event.enqueue.injEq, exists_or, exists_and_left, exists_eq, and_true,
        Set.mem_insert_iff, Set.mem_singleton_iff]
      tauto
    unfold Machine.queues
    rw [hseen, hqueue]
    rfl
  rw [hend]
  simpa [noQueues] using h2

/-- Every state that a run from the start reaches, with the operations on the queues since
    `init_process`. -/
theorem run_of_steps {m : Machine} (h : Machine.Steps SparesScheduler boot m) :
    ∃ q ops, Inv m q ∧ (∃ past, Turns past m.view) ∧
      MultilevelQueue.Run demote noQueues ops (m.queues q) ∧ ops.filterMap entry = m.log := by
  have hvalid := run_boot.valid noQueues_valid
  obtain ⟨q, hinv, hturns, ops, log, hrun, hlog, hentries, -⟩ :=
    refines_of_steps boot_inv ⟨_, boot_turns⟩ hvalid h
  refine ⟨q, _, hinv, hturns, run_boot.append hrun, ?_⟩
  rw [List.filterMap_append, hentries, hlog]
  rfl

/-- The process that has just been queued waits. -/
theorem mem_queue_of_entry {σ σ' : MultilevelQueue.State ProcId Level}
    {op : MultilevelQueue.Op ProcId Level} {p : ProcId} {i : Level}
    (h : MultilevelQueue.Step demote σ op σ') (hop : entry op = some (.enqueue p i)) :
    p ∈ σ'.queue i := by
  cases h with
  | pick | drop => cases hop
  | put | arrive =>
    obtain ⟨rfl, rfl⟩ := Event.enqueue.inj (Option.some.inj hop)
    exact MultilevelQueue.mem_update_append.mpr (.inr ⟨rfl, rfl⟩)

/-- The run of the queues from the moment a process was queued. -/
theorem run_since_enqueue {m : Machine} (h : Machine.Steps SparesScheduler boot m)
    {before after : List Event} {p : ProcId} {L : Level}
    (hlog : m.log = before ++ Event.enqueue p L :: after) :
    ∃ q σ ops, MultilevelQueue.Run demote σ ops (m.queues q) ∧ MultilevelQueue.Valid σ ∧
      p ∈ σ.queue L ∧ MultilevelQueue.picks ops = picked after := by
  obtain ⟨q, ops, -, -, hrun, hentries⟩ := run_of_steps h
  have hsplit : ops.filterMap entry = before ++ .enqueue p L :: after := hentries.trans hlog
  obtain ⟨ops₁, ops₂, rfl, -, hops₂⟩ := List.filterMap_eq_append_iff.mp hsplit
  obtain ⟨idle, op, ops₃, rfl, -, hop, hops₃⟩ := List.filterMap_eq_cons_iff.mp hops₂
  obtain ⟨σ₁, hrun₁, hrest⟩ := hrun.append_inv
  obtain ⟨σ₂, hidle, hrest⟩ := hrest.append_inv
  have hcons : op :: ops₃ = [op] ++ ops₃ := rfl
  rw [hcons] at hrest
  obtain ⟨σ₃, hqueued, hafter⟩ := hrest.append_inv
  have hvalid : MultilevelQueue.Valid σ₃ :=
    hqueued.valid (hidle.valid (hrun₁.valid noQueues_valid))
  refine ⟨q, σ₃, ops₃, hafter, hvalid, mem_queue_of_entry hqueued.step_of_singleton hop, ?_⟩
  rw [picks_eq_picked, hops₃]

/-- No run makes a process wait for more than this. Once `sched_enqueue` has put `p` on level `L`,
    and until the scheduler picks it, every process is picked at most once at each level down to
    `L` and never below; in all there are at most `3 * (NUM_PROCESSES - 1)` picks. Processes that are
    all on the bottom level are picked in rotation while none exits and none is forked. -/
theorem no_starvation {m : Machine} (h : Machine.Steps SparesScheduler boot m) :
    (∀ before p L after, m.log = before ++ .enqueue p L :: after → (∀ i, (p, i) ∉ picked after) →
      (∀ r l, (picked after).count (r, l) ≤ if l ≤ L then 1 else 0) ∧
      (∀ r, ((picked after).filter (·.1 = r)).length ≤ L + 1) ∧
      (picked after).length ≤ 3 * (numProcesses - 1)) ∧
    ∀ f ps m' log, m.At f .scan → m.listed 0 = [] → m.listed 1 = [] → m.listed 2 = ps →
      Machine.Steps SparesScheduler m m' → m'.log = m.log ++ log →
      (∀ r i, .enqueue r i ∈ log → r ∈ ps) → (∀ r ∈ ps, m'.states r ≠ .zombie) →
      ∀ k x, (picked log)[k]? = some x → (ps.rotate k).head? = some x.1 ∧ x.2 = 2 := by
  constructor
  · intro before p L after hlog hpick
    obtain ⟨q, σ, ops, hrun, hvalid, hwaits, hpicks⟩ := run_since_enqueue h hlog
    rw [← hpicks] at hpick ⊢
    have hlt : ∀ i j : Level, i < j → i < demote i := fun _ _ => lt_demote
    have hcard : (Finset.Iic L).card = L + 1 := Fin.card_Iic L
    refine ⟨fun r l => ?_, fun r => ?_, ?_⟩
    · split_ifs with hl
      · exact List.nodup_iff_count_le_one.mp
          (hrun.picks_nodup hvalid hwaits hpick le_demote hlt) (r, l)
      · rw [List.count_eq_zero.mpr fun hmem => hl ?_]
        exact (hrun.le_of_mem_picks hvalid hwaits hpick le_demote hlt hmem).2
    · rw [← hcard]
      exact hrun.length_filter_picks_le hvalid hwaits hpick le_demote hlt r
    · have hle := hrun.length_picks_le hvalid hwaits hpick le_demote hlt
      have hL := L.isLt
      rw [hcard, Fintype.card_fin] at hle
      calc (MultilevelQueue.picks ops).length ≤ (numProcesses - 1) * (L + 1) := hle
        _ ≤ (numProcesses - 1) * 3 := Nat.mul_le_mul_left _ hL
        _ = 3 * (numProcesses - 1) := Nat.mul_comm _ _
  · intro f ps m' log hat h0 h1 h2 hsteps hlog hold halive
    obtain ⟨q, ops₀, hinv, hturns, hrun₀, -⟩ := run_of_steps h
    have hvalid := hrun₀.valid noQueues_valid
    obtain ⟨q', -, -, ops, log', hrun, hlog', hentries, hdrop⟩ :=
      refines_of_steps hinv hturns hvalid hsteps
    obtain rfl : log = log' := List.append_cancel_left (hlog.symm.trans hlog')
    have hq : m.listed = q := funext hinv.holds.queue_eq
    rw [hq] at h0 h1 h2
    have hempty : ∀ i : Level, i ≠ 2 → q i = [] := by
      intro i hi
      fin_cases i
      · exact h0
      · exact h1
      · exact absurd rfl hi
    obtain ⟨-, howed⟩ := hinv.owed_scan hat
    -- a process that arrives would be new, one that leaves would be a zombie
    have harrive : ∀ op ∈ ops, ∀ a i, op ≠ .arrive a i := by
      intro op hop a i he
      subst he
      have hmem : .enqueue a i ∈ log := by
        rw [← hentries]
        exact List.mem_filterMap.mpr ⟨_, hop, rfl⟩
      have hps : a ∈ q 2 := h2 ▸ hold a i hmem
      exact hrun.arrive_not_seen.2 hop (hvalid.seen hps)
    have hstay : ∀ op ∈ ops, ∀ a, op ≠ .drop a := by
      intro op hop a he
      subst he
      rcases (hrun.present_of_drop harrive).2 hop with ⟨i, hi⟩ | ⟨i, hi⟩
      · by_cases hi2 : i = 2
        · subst hi2
          exact halive a (h2 ▸ hi) (hdrop a hop)
        · have hi : a ∈ q i := hi
          rw [hempty i hi2] at hi
          exact absurd hi List.not_mem_nil
      · have hi : m.owed = some (a, i) := hi
        rw [howed] at hi
        cases hi
    have hstart : MultilevelQueue.Rotated ps 2 0 (m.queues q) :=
      ⟨hempty, fun _ => h2.trans (List.rotate_zero ps).symm, fun hh => by
        have hh : m.owed = some _ := hh
        rw [howed] at hh
        cases hh⟩
    have hrotate := (hrun.picks_rotate (by decide) hstart fun op hop =>
      ⟨hstay op hop, harrive op hop⟩).2
    rw [picks_eq_picked, hentries] at hrotate
    exact hrotate

/-- `init` waits on the bottom level while process A has its turn. -/
theorem no_starvation_init : ∃ m after, Machine.Steps SparesScheduler boot m ∧
    m.log = [] ++ .enqueue 0 2 :: after ∧ picked after = [(1, 0)] ∧
    (picked after).count (1, 0) ≤ 1 ∧ (picked after).length ≤ 3 * (numProcesses - 1) := by
  have hend : (boot.run (List.replicate 41 .go)).map (·.log) =
      some ([] ++ Event.enqueue 0 2 :: [.enqueue 1 0, .enqueue 2 1, .pick 1 0]) := by
    decide +kernel
  obtain ⟨m, hrun, hlog⟩ := Option.map_eq_some_iff.mp hend
  have hsteps : Machine.Steps SparesScheduler boot m := .of_untimed hrun (by decide)
  obtain ⟨hcount, -, hlength⟩ := (no_starvation hsteps).1 _ _ _ _ hlog (by decide)
  exact ⟨m, _, hsteps, hlog, rfl, hcount 1 0, hlength⟩

end HorizonOS.Sched
