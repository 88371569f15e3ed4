import HorizonOS.Switch.Swtch

/-!
# Context switching implements coroutines

A system of processes that share a memory and a processor. The running process
computes on its own stack, allocates processes (`alloc_process`, whose stack
`init_stack` seeds), forks (`clone_parent_base_frame`), and hands the processor
over (`ctx_switch`, arch/x86_64/switch.c:12–24).

Specification: next to the machine a ghost `status` records, for each process,
how it last gave the processor up: `switchedOut` at a call of `swtch` with these
registers, `forked` from a parent, or `fresh`.

Results:
* `Step.inv`: every step keeps the frame of every suspended process intact.
* `ctxSwitch_coroutine`: in every reachable state a switch resumes its target
  exactly where the ghost record says it stopped.
-/

namespace HorizonOS.Switch

open HorizonOS.Lib HorizonOS.Libc HorizonOS.Proc

variable {ι : Type}

/-! ## Model -/

/-- How a process last gave up the processor. `switchedOut` holds the registers
    and the return address of its call of `swtch`, `forked` those with which it is
    to return from `clone_parent_base_frame`. -/
inductive Status
  | unused
  | running
  | fresh
  | forked (saved : CalleeSaved) (rsp : Addr) (ret : Word)
  | switchedOut (saved : CalleeSaved) (rsp : Addr) (ret : Word)

/-- The processor, the process table, `cpus[0].task`, and the ghost status of each
    process. -/
structure Sys (ι : Type) where
  cpu : Cpu
  procs : ι → Process
  task : ι
  status : ι → Status

namespace Sys

variable [DecidableEq ι]

/-- `alloc_process` (process.c:311–352) for the free slot `p`: the record `rec`
    with the stack `r`, seeded to enter `forkret`. -/
def allocProcess (L : Labels) (s : Sys ι) (p : ι) (rec : Process) (r : VmRegion) : Sys ι :=
  let (m, rec) := initStack s.cpu.mem rec r L.forkret
  { s with
    cpu := { s.cpu with mem := m }
    procs := Function.update s.procs p rec
    status := Function.update s.status p .fresh }

/-- `ctx_switch(new)` (switch.c:12–24): `old = cpus[0].task`, `cpus[0].task = new`,
    and `swtch(&old->context.sp, new->context.sp, new->pml4_addr)` called with the
    return address `ret`. -/
def ctxSwitch (s : Sys ι) (new : ι) (ret : Word) : Sys ι :=
  let old := s.task
  let (c, oldSp) := swtch (s.cpu.push ret) (s.procs new).sp (s.procs new).pml4Addr
  { cpu := c
    procs := Function.update s.procs old { s.procs old with sp := oldSp }
    task := new
    status := Function.update
      (Function.update s.status old (.switchedOut s.cpu.saved s.cpu.rsp ret)) new .running }

/-- The call of `clone_parent_base_frame(child)` in `fork` (process.c:486) with the
    return address `ret`, for a child record `rec` whose stack is `rc`. -/
def cloneParentBaseFrame (L : Labels) (s : Sys ι) (fuel : ℕ) (child : ι) (rec : Process)
    (ret : Word) : Option (Sys ι) := do
  let rp ← findStack (s.procs s.task)
  let rc ← findStack rec
  let (c, rec) ← Switch.cloneParentBaseFrame L fuel (s.cpu.push ret) (s.procs s.task) rec
  some { s with
    cpu := c
    procs := Function.update s.procs child rec
    status := Function.update s.status child
      (.forked (childSaved s.cpu.saved (s.cpu.rsp - 64#64) rp.stop (rc.stop - rp.stop))
        (s.cpu.rsp + (rc.stop - rp.stop)) ret) }

end Sys

/-! ## Runs -/

/-- A kernel stack as `alloc_stack` makes them. -/
structure KStack (r : VmRegion) : Prop where
  size : r.stop.toNat = r.start.toNat + kstackSize
  aligned : r.stop.toNat % pageSize = 0

/-- Byte `b` lies in the stack of `p`. -/
def OnStack (p : Process) (b : Addr) : Prop :=
  ∃ r, findStack p = some r ∧ r.start ≤ b ∧ b < r.stop

/-- The regions `r` and `r'` do not overlap. -/
def Apart (r r' : VmRegion) : Prop := r.stop ≤ r'.start ∨ r'.stop ≤ r.start

namespace Sys

def Used (s : Sys ι) (p : ι) : Prop := s.status p ≠ .unused

/-- A new process `p` may be given the record `rec` with the stack `r`: the slot is
    free and the stack overlaps that of no process. -/
structure NewProc (s : Sys ι) (p : ι) (rec : Process) (r : VmRegion) : Prop where
  unused : s.status p = .unused
  stack : findStack rec = some r
  kstack : KStack r
  apart : ∀ q r', s.Used q → findStack (s.procs q) = some r' → Apart r r'

/-- The running process has the stack `r` and room for `n` more bytes on it. -/
structure Room (s : Sys ι) (r : VmRegion) (n : ℕ) : Prop where
  stack : findStack (s.procs s.task) = some r
  low : r.start.toNat + n ≤ s.cpu.rsp.toNat
  high : s.cpu.rsp ≤ r.stop

/-- What `fork` relies on when it calls `clone_parent_base_frame` with the return
    address `ret`: the saved frame pointers of the parent form a chain, and code
    addresses do not look like addresses of its stack. -/
structure CanFork (L : Labels) (s : Sys ι) (rp : VmRegion) (slots : List Addr) (ret : Word) :
    Prop where
  room : s.Room rp 72
  chain : ∃ e, FpChain (cloneCallMem L (s.cpu.push ret)) (s.cpu.rsp - 64#64) rp.stop
    (s.cpu.rsp - 64#64 + BitVec.ofNat 64 (8 * forkFrameFpSlot)) slots e
  label : ¬ (s.cpu.rsp - 64#64 ≤ L.forkChildResume ∧ L.forkChildResume < rp.stop)
  ret : ¬ (s.cpu.rsp - 64#64 ≤ ret ∧ ret < rp.stop)

end Sys

/-- One step of the system. The running process may change everything but the
    stacks of the others, the saved stack pointers and the stack regions; a switch
    goes to a process other than the current one. -/
inductive Step [DecidableEq ι] (L : Labels) : Sys ι → Sys ι → Prop
  | run {s : Sys ι} (c : Cpu) (procs : ι → Process) :
      (∀ p, p ≠ s.task → s.Used p → ∀ b, OnStack (s.procs p) b → c.mem b = s.cpu.mem b) →
      (∀ p, (procs p).sp = (s.procs p).sp ∧ findStack (procs p) = findStack (s.procs p)) →
      Step L s { s with cpu := c, procs := procs }
  | alloc {s : Sys ι} {p : ι} {rec : Process} {r : VmRegion} :
      s.NewProc p rec r → Step L s (s.allocProcess L p rec r)
  | fork {s s' : Sys ι} {child : ι} {rec : Process} {rp rc : VmRegion} {slots : List Addr}
      {ret : Word} {fuel : ℕ} : s.NewProc child rec rc → s.CanFork L rp slots ret →
      slots.length ≤ fuel → s.cloneParentBaseFrame L fuel child rec ret = some s' → Step L s s'
  | switch {s : Sys ι} {new : ι} {r : VmRegion} {ret : Word} :
      new ≠ s.task → s.Used new → s.Room r 56 → Step L s (s.ctxSwitch new ret)

/-- The system starts with one process, running on its stack. -/
structure Initial (s : Sys ι) : Prop where
  running : s.status s.task = .running
  others : ∀ p, p ≠ s.task → s.status p = .unused
  stack : ∃ r, findStack (s.procs s.task) = some r ∧ KStack r

/-- The states that a sequence of steps reaches. -/
inductive Reachable [DecidableEq ι] (L : Labels) : Sys ι → Prop
  | init {s : Sys ι} : Initial s → Reachable L s
  | step {s s' : Sys ι} : Reachable L s → Step L s s' → Reachable L s'

/-! ## Invariant -/

/-- The `n` bytes from `a` on lie in the stack of `p`. -/
def OnStackN (p : Process) (a : Addr) (n : ℕ) : Prop :=
  ∀ k < n, OnStack p (a + BitVec.ofNat 64 k)

/-- The saved stack pointer of a suspended process points to a frame, in its own
    stack, that resumes it as its status says. -/
def Suspended (L : Labels) (m : Mem) (p : Process) : Status → Prop
  | .unused => True
  | .running => True
  | .fresh => OnStackN p p.sp 56 ∧ SwtchFrame m p.sp zeroSaved L.forkret ∧
      ∃ r, findStack p = some r ∧ p.sp = r.stop - 64#64
  | .forked saved rsp ret => OnStackN p p.sp 64 ∧ SwtchFrame m p.sp saved L.forkChildResume ∧
      m.load (p.sp + 56#64) = ret ∧ p.sp = rsp - 64#64
  | .switchedOut saved rsp ret => OnStackN p p.sp 56 ∧ SwtchFrame m p.sp saved ret ∧
      p.sp = rsp - 56#64

structure Inv (L : Labels) (s : Sys ι) : Prop where
  running : s.status s.task = .running
  only : ∀ p, s.status p = .running → p = s.task
  stack : ∀ p, s.Used p → ∃ r, findStack (s.procs p) = some r ∧ KStack r
  apart : ∀ p q r r', p ≠ q → s.Used p → s.Used q → findStack (s.procs p) = some r →
    findStack (s.procs q) = some r' → Apart r r'
  suspended : ∀ p, Suspended L s.cpu.mem (s.procs p) (s.status p)

section Lemmas

variable {L : Labels} {s : Sys ι} {m m' : Mem} {p p' : Process} {r r' : VmRegion} {b : Addr}

theorem Apart.not_mem (h : Apart r r') (h1 : r.start ≤ b) (h2 : b < r.stop) :
    ¬ (r'.start ≤ b ∧ b < r'.stop) := by
  rintro ⟨h3, h4⟩
  rcases h with h | h <;> bv_omega

theorem Apart.symm (h : Apart r r') : Apart r' r := Or.symm h

theorem OnStackN.load_eq {a : Addr} {n : ℕ} (h : OnStackN p a n)
    (hm : ∀ b, OnStack p b → m' b = m b) {k : ℕ} (hk : k + 8 ≤ n) :
    m'.load (a + BitVec.ofNat 64 k) = m.load (a + BitVec.ofNat 64 k) := by
  apply Mem.load_congr
  intro i hi
  rw [add_assoc, ← BitVec.ofNat_add]
  exact hm _ (h (k + i) (by omega))

/-- The suspended frame of a process only depends on its stack, its saved stack
    pointer and its stack region. -/
theorem Suspended.congr {st : Status} (h : Suspended L m p st) (hsp : p'.sp = p.sp)
    (hst : findStack p' = findStack p) (hm : ∀ b, OnStack p b → m' b = m b) :
    Suspended L m' p' st := by
  have hon : ∀ n, OnStackN p p.sp n → OnStackN p' p'.sp n := by
    intro n hn
    simpa only [OnStackN, OnStack, hst, hsp] using hn
  cases st with
  | unused => trivial
  | running => trivial
  | fresh =>
    obtain ⟨h1, h2, h3⟩ := h
    refine ⟨hon _ h1, ?_, by rwa [hst, hsp]⟩
    rw [hsp]
    exact h2.congr fun k hk => hm _ (h1 k hk)
  | forked saved rsp ret =>
    obtain ⟨h1, h2, h3, h4⟩ := h
    refine ⟨hon _ h1, ?_, ?_, hsp.trans h4⟩
    · rw [hsp]
      exact h2.congr fun k hk => hm _ (h1 k (by omega))
    · rw [hsp, ← h3]
      exact h1.load_eq hm (k := 56) (by norm_num)
  | switchedOut saved rsp ret =>
    obtain ⟨h1, h2, h3⟩ := h
    refine ⟨hon _ h1, ?_, hsp.trans h3⟩
    rw [hsp]
    exact h2.congr fun k hk => hm _ (h1 k hk)

/-- The bytes a running process pushes lie in its own stack. -/
theorem Sys.Room.onStack {n : ℕ} (h : s.Room r n)
    (hb : Within (s.cpu.rsp - BitVec.ofNat 64 n) n b) : OnStack (s.procs s.task) b := by
  obtain ⟨hr, hlow, hhigh⟩ := h
  have hlt := s.cpu.rsp.isLt
  have hnat : (s.cpu.rsp - BitVec.ofNat 64 n).toNat = s.cpu.rsp.toNat - n := by
    rw [BitVec.toNat_sub, BitVec.toNat_ofNat]
    omega
  rw [within_iff (by omega), hnat] at hb
  rw [BitVec.le_def] at hhigh
  exact ⟨r, hr, by rw [BitVec.le_def]; omega, by rw [BitVec.lt_def]; omega⟩

theorem Sys.NewProc.ne {p q : ι} {rec : Process} (h : s.NewProc q rec r) (hp : s.Used p) : p ≠ q := by
  rintro rfl
  exact hp h.unused

theorem Inv.not_onStack (h : Inv L s) {p q : ι} (hne : p ≠ q) (hp : s.Used p) (hq : s.Used q)
    (hb : OnStack (s.procs p) b) : ¬ OnStack (s.procs q) b := by
  obtain ⟨r, hr, h1, h2⟩ := hb
  rintro ⟨r', hr', h3⟩
  exact (h.apart p q r r' hne hp hq hr hr').not_mem h1 h2 h3

theorem Inv.used_task (h : Inv L s) : s.Used s.task := by
  rw [Sys.Used, h.running]
  exact Status.noConfusion

/-- The stacks of a fork are a pair as `clone_stack_rebased` needs it. -/
theorem Inv.stackPair (h : Inv L s) {child : ι} {rec : Process} {rp rc : VmRegion}
    (hnew : s.NewProc child rec rc) (hroom : s.Room rp 72) :
    StackPair rp rc (s.cpu.rsp - 64#64) := by
  obtain ⟨hstack, hlow, hhigh⟩ := hroom
  obtain ⟨r, hr, hk⟩ := h.stack s.task h.used_task
  obtain rfl : rp = r := Option.some.inj (hstack.symm.trans hr)
  have h1 : rp.stop.toNat = rp.start.toNat + 33 * 4096 := hk.size
  have h2 : rc.stop.toNat = rc.start.toNat + 33 * 4096 := hnew.kstack.size
  have h3 := hk.aligned
  have h4 : (s.cpu.rsp - 64#64).toNat = s.cpu.rsp.toNat - 64 := by bv_omega
  simp only [BitVec.le_def] at hhigh
  refine ⟨?_, ?_, ?_, ?_, ?_, ?_, ?_⟩
  · rw [BitVec.lt_def]; omega
  · rw [BitVec.lt_def]; omega
  · apply BitVec.eq_of_toNat_eq
    rw [BitVec.toNat_sub, BitVec.toNat_sub]
    omega
  · exact hnew.apart s.task rp h.used_task hstack
  · simp only [pageSize] at h3
    omega
  · rw [BitVec.le_def, h4]; omega
  · rw [BitVec.lt_def, h4]; omega

/-- The memory after the pushes of `swtch`. -/
def Sys.switchMem (s : Sys ι) (ret : Word) : Mem :=
  writeSaved (s.cpu.push ret).mem ((s.cpu.push ret).rsp - 48#64) s.cpu.saved

theorem Sys.switchMem_apply {ret : Word} {b : Addr} (h : ¬ Within (s.cpu.rsp - 56#64) 56 b) :
    s.switchMem ret b = s.cpu.mem b := by
  have e1 : (s.cpu.push ret).rsp - 48#64 = s.cpu.rsp - 56#64 + 0#64 := by
    rw [Cpu.push_rsp_sub, BitVec.add_zero]
    rfl
  have e2 : s.cpu.rsp - 8#64 = s.cpu.rsp - 56#64 + 48#64 := by bv_omega
  rw [Sys.switchMem, writeSaved_apply]
  · simp only [Cpu.push]
    refine Mem.store_apply_of_not_within fun hw => h ?_
    rw [e2] at hw
    exact within_of_within_add (k := 48) hw (by norm_num) (by norm_num)
  · intro hw
    rw [e1] at hw
    exact h (within_of_within_add (k := 0) hw (by norm_num) (by norm_num))

/-- The frame of a suspended process survives the pushes of `swtch` by another. -/
theorem Inv.suspended_switch (h : Inv L s) (hroom : s.Room r 56) {q : ι} (hq : q ≠ s.task)
    (ret : Word) : Suspended L (s.switchMem ret) (s.procs q) (s.status q) := by
  by_cases hun : s.status q = .unused
  · rw [hun]; trivial
  refine (h.suspended q).congr rfl rfl fun b hb => Sys.switchMem_apply fun hw => ?_
  exact h.not_onStack hq hun h.used_task hb (hroom.onStack hw)

/-- A suspended process has a frame at its saved stack pointer. -/
theorem Suspended.frame {st : Status} (h : Suspended L m p st) (h1 : st ≠ .unused)
    (h2 : st ≠ .running) : ∃ r rip, SwtchFrame m p.sp r rip := by
  cases st with
  | unused => exact absurd rfl h1
  | running => exact absurd rfl h2
  | fresh => exact ⟨_, _, h.2.1⟩
  | forked saved rsp ret => exact ⟨_, _, h.2.1⟩
  | switchedOut saved rsp ret => exact ⟨_, _, h.2.1⟩

/-- A step that adds a suspended process and otherwise writes only to the stack of
    the running process and to the new stack keeps the invariant. -/
theorem Inv.add [DecidableEq ι] (h : Inv L s) {p : ι} {rec rec' : Process} {c : Cpu} {st : Status}
    (hnew : s.NewProc p rec r) (hrec : findStack rec' = some r) (hst : st ≠ .running)
    (hsus : Suspended L c.mem rec' st)
    (hmem : ∀ b, ¬ (r.start ≤ b ∧ b < r.stop) → ¬ OnStack (s.procs s.task) b →
      c.mem b = s.cpu.mem b) :
    Inv L { s with
      cpu := c, procs := Function.update s.procs p rec',
      status := Function.update s.status p st } := by
  have hused : ∀ q, q ≠ p → ({ s with
      cpu := c, procs := Function.update s.procs p rec',
      status := Function.update s.status p st } : Sys ι).Used q → s.Used q := by
    intro q hq hu
    simpa only [Sys.Used, Function.update_of_ne hq] using hu
  have htask : s.task ≠ p := hnew.ne h.used_task
  refine ⟨?_, ?_, ?_, ?_, ?_⟩
  · simpa only [Function.update_of_ne htask] using h.running
  · intro q hq
    by_cases hqp : q = p
    · subst hqp
      simp only [Function.update_self] at hq
      exact absurd hq hst
    · simp only [Function.update_of_ne hqp] at hq
      exact h.only q hq
  · intro q hq
    by_cases hqp : q = p
    · subst hqp
      exact ⟨r, by simpa only [Function.update_self] using hrec, hnew.kstack⟩
    · simp only [Function.update_of_ne hqp]
      exact h.stack q (hused q hqp hq)
  · intro q q' r1 r2 hne hq hq' hr1 hr2
    -- the new stack is apart from the others by assumption, the others by the invariant
    by_cases hqp : q = p
    · subst hqp
      simp only [Function.update_self, hrec, Option.some.injEq] at hr1
      simp only [Function.update_of_ne (Ne.symm hne)] at hr2
      subst hr1
      exact hnew.apart q' r2 (hused q' (Ne.symm hne) hq') hr2
    · simp only [Function.update_of_ne hqp] at hr1
      by_cases hqp' : q' = p
      · subst hqp'
        simp only [Function.update_self, hrec, Option.some.injEq] at hr2
        subst hr2
        exact (hnew.apart q r1 (hused q hqp hq) hr1).symm
      · simp only [Function.update_of_ne hqp'] at hr2
        exact h.apart q q' r1 r2 hne (hused q hqp hq) (hused q' hqp' hq') hr1 hr2
  · intro q
    by_cases hqp : q = p
    · subst hqp
      simpa only [Function.update_self] using hsus
    · simp only [Function.update_of_ne hqp]
      by_cases hrun : s.status q = .running
      · rw [hrun]; trivial
      by_cases hun : s.status q = .unused
      · rw [hun]; trivial
      refine (h.suspended q).congr rfl rfl fun b hb => hmem b ?_ ?_
      · obtain ⟨r', hr', h1, h2⟩ := hb
        exact (hnew.apart q r' hun hr').symm.not_mem h1 h2
      · refine h.not_onStack ?_ hun h.used_task hb
        rintro rfl
        exact hrun h.running

end Lemmas

/-! ## Steps -/

section Steps

variable [DecidableEq ι] {L : Labels} {s s' : Sys ι}

theorem Initial.inv (h : Initial s) : Inv L s := by
  have hused : ∀ p, s.Used p → p = s.task := by
    intro p hp
    by_contra hne
    exact hp (h.others p hne)
  refine ⟨h.running, ?_, ?_, ?_, ?_⟩
  · intro p hp
    exact hused p (by rw [Sys.Used, hp]; exact Status.noConfusion)
  · intro p hp
    rw [hused p hp]
    exact h.stack
  · intro p q _ _ hne hp hq
    exact absurd ((hused p hp).trans (hused q hq).symm) hne
  · intro p
    by_cases hp : p = s.task
    · rw [hp, h.running]; trivial
    · rw [h.others p hp]; trivial

theorem Inv.run (h : Inv L s) {c : Cpu} {procs : ι → Process}
    (hmem : ∀ p, p ≠ s.task → s.Used p → ∀ b, OnStack (s.procs p) b → c.mem b = s.cpu.mem b)
    (hprocs : ∀ p, (procs p).sp = (s.procs p).sp ∧ findStack (procs p) = findStack (s.procs p)) :
    Inv L { s with cpu := c, procs := procs } := by
  refine ⟨h.running, h.only, ?_, ?_, ?_⟩
  · intro p hp
    rw [(hprocs p).2]
    exact h.stack p hp
  · intro p q r r' hne hp hq hr hr'
    rw [(hprocs p).2] at hr
    rw [(hprocs q).2] at hr'
    exact h.apart p q r r' hne hp hq hr hr'
  · intro p
    by_cases hp : p = s.task
    · rw [hp, h.running]; trivial
    by_cases hun : s.status p = .unused
    · simp only [hun]; trivial
    · exact (h.suspended p).congr (hprocs p).1 (hprocs p).2 (hmem p hp hun)

theorem KStack.top_words {r : VmRegion} (h : KStack r) {k : ℕ} (hk : k < 64) :
    r.start ≤ r.stop - 64#64 + BitVec.ofNat 64 k ∧ r.stop - 64#64 + BitVec.ofNat 64 k < r.stop := by
  have h1 : r.stop.toNat = r.start.toNat + 33 * 4096 := h.size
  have h2 := r.stop.isLt
  have h3 : (r.stop - 64#64).toNat = r.stop.toNat - 64 := by bv_omega
  rw [BitVec.le_def, BitVec.lt_def, toNat_add_ofNat (by omega), h3]
  omega

theorem Sys.allocProcess_eq {p : ι} {rec : Process} {r : VmRegion} :
    s.allocProcess L p rec r =
      { s with
        cpu := { s.cpu with mem := (initStack s.cpu.mem rec r L.forkret).1 }
        procs := Function.update s.procs p { rec with sp := r.stop - 64#64 }
        status := Function.update s.status p .fresh } := rfl

theorem Inv.alloc (h : Inv L s) {p : ι} {rec : Process} {r : VmRegion}
    (hnew : s.NewProc p rec r) : Inv L (s.allocProcess L p rec r) := by
  have hstack : findStack { rec with sp := r.stop - 64#64 } = some r := hnew.stack
  rw [Sys.allocProcess_eq]
  refine h.add hnew hstack Status.noConfusion ?_ ?_
  · refine ⟨?_, initStack_frame s.cpu.mem rec r L.forkret, r, hstack, rfl⟩
    intro k hk
    exact ⟨r, hstack, hnew.kstack.top_words (by omega)⟩
  · intro b hb _
    refine initStack_apply (p := rec) fun hw => ?_
    obtain ⟨k, hk, rfl⟩ := exists_of_within hw
    exact hb (hnew.kstack.top_words hk)

/-- `clone_parent_base_frame` returns in a process that can fork: the parent gets 1
    with its registers unchanged, and the child is left suspended. -/
theorem Inv.cloneParentBaseFrame_eq (h : Inv L s) {child : ι} {rec : Process} {rp rc : VmRegion}
    {slots : List Addr} {ret : Word} (hnew : s.NewProc child rec rc)
    (hfork : s.CanFork L rp slots ret) :
    ∃ m : Mem,
      (∀ fuel, slots.length ≤ fuel → s.cloneParentBaseFrame L fuel child rec ret =
        some { s with
          cpu := { s.cpu with rax := 1, rip := ret, mem := m }
          procs := Function.update s.procs child
            { rec with sp := s.cpu.rsp - 64#64 + (rc.stop - rp.stop) }
          status := Function.update s.status child
            (.forked (childSaved s.cpu.saved (s.cpu.rsp - 64#64) rp.stop (rc.stop - rp.stop))
              (s.cpu.rsp + (rc.stop - rp.stop)) ret) }) ∧
      Suspended L m { rec with sp := s.cpu.rsp - 64#64 + (rc.stop - rp.stop) }
        (.forked (childSaved s.cpu.saved (s.cpu.rsp - 64#64) rp.stop (rc.stop - rp.stop))
          (s.cpu.rsp + (rc.stop - rp.stop)) ret) ∧
      ∀ b, ¬ (rc.start ≤ b ∧ b < rc.stop) → ¬ OnStack (s.procs s.task) b →
        m b = s.cpu.mem b := by
  have hpair := h.stackPair hnew hfork.room
  obtain ⟨⟨hstack, hlow, hhigh⟩, ⟨e, hchain⟩, hlabel, hret⟩ := hfork
  have hframe : (s.cpu.push ret).rsp - 56#64 = s.cpu.rsp - 64#64 := Cpu.push_rsp_sub _ _ _
  have hrsp : (s.cpu.push ret).rsp + 8#64 = s.cpu.rsp := sub_add_cancel _ _
  have htop : (s.cpu.push ret).top = ret := Mem.load_store_self _ _ _
  have hnat : (s.cpu.push ret).rsp.toNat = s.cpu.rsp.toNat - 8 := by
    simp only [Cpu.push]; bv_omega
  have h64 : (s.cpu.rsp - 64#64).toNat = s.cpu.rsp.toNat - 64 := by bv_omega
  rw [BitVec.le_def] at hhigh
  obtain ⟨m, hrun, hsw, hword, hout⟩ := cloneParentBaseFrame_child (L := L) (c := s.cpu.push ret)
    hstack hnew.stack (by rwa [hframe]) (by omega) (by omega) (by rw [hframe]; exact hchain)
    (by rwa [hframe]) (by rwa [hframe, htop])
  rw [hframe] at hsw hword hout
  rw [htop] at hword
  have hchild := hpair.toNat_childFrame
  have hstart := hpair.le_frame
  have hsize := hpair.size_toNat
  have hclt := hpair.child_lt
  rw [BitVec.le_def] at hstart
  rw [BitVec.lt_def] at hclt
  refine ⟨m, ?_, ⟨?_, hsw, hword, ?_⟩, ?_⟩
  · intro fuel hf
    have := hrun fuel hf
    rw [hframe, hrsp, htop] at this
    simp only [Sys.cloneParentBaseFrame, hstack, hnew.stack, this, Option.bind_eq_bind,
      Option.bind_some]
    rfl
  · intro k hk
    have hlt := rc.stop.isLt
    have hkn := toNat_add_ofNat (a := s.cpu.rsp - 64#64 + (rc.stop - rp.stop)) (i := k) (by omega)
    have h1 : rc.start ≤ s.cpu.rsp - 64#64 + (rc.stop - rp.stop) + BitVec.ofNat 64 k := by
      rw [BitVec.le_def]; omega
    have h2 : s.cpu.rsp - 64#64 + (rc.stop - rp.stop) + BitVec.ofNat 64 k < rc.stop := by
      rw [BitVec.lt_def]; omega
    exact ⟨rc, hnew.stack, h1, h2⟩
  · rw [sub_add_eq_add_sub]
  · intro b hb hon
    -- the snapshot and the two return addresses are the 72 bytes below `rsp`
    have hnot : ¬ Within (s.cpu.rsp - 72#64) 72 b := fun hw =>
      hon (Sys.Room.onStack ⟨hstack, hlow, by rwa [BitVec.le_def]⟩ hw)
    have e1 : (s.cpu.push ret).rsp - 64#64 = s.cpu.rsp - 72#64 + 0#64 := by
      rw [Cpu.push_rsp_sub, BitVec.add_zero]
      rfl
    have e2 : s.cpu.rsp - 8#64 = s.cpu.rsp - 72#64 + 64#64 := by
      rw [sub_add]
      rfl
    rw [hout b, cloneCallMem_apply]
    · simp only [Cpu.push]
      refine Mem.store_apply_of_not_within fun hw => hnot ?_
      rw [e2] at hw
      exact within_of_within_add (k := 64) hw (by norm_num) (by norm_num)
    · intro hw
      rw [e1] at hw
      exact hnot (within_of_within_add (k := 0) hw (by norm_num) (by norm_num))
    · rintro ⟨h1, h2⟩
      rw [BitVec.le_def] at h1
      exact hb ⟨by rw [BitVec.le_def]; omega, h2⟩

theorem Inv.fork (h : Inv L s) {child : ι} {rec : Process} {rp rc : VmRegion}
    {slots : List Addr} {ret : Word} {fuel : ℕ} (hnew : s.NewProc child rec rc)
    (hfork : s.CanFork L rp slots ret) (hf : slots.length ≤ fuel)
    (hs : s.cloneParentBaseFrame L fuel child rec ret = some s') : Inv L s' := by
  obtain ⟨m, hrun, hsus, hmem⟩ := h.cloneParentBaseFrame_eq hnew hfork
  rw [hrun fuel hf] at hs
  obtain rfl := Option.some.inj hs
  exact h.add hnew hnew.stack Status.noConfusion hsus hmem

theorem Sys.ctxSwitch_eq {new : ι} {ret : Word} {r : CalleeSaved} {rip : Word}
    (h : SwtchFrame (s.switchMem ret) (s.procs new).sp r rip) :
    s.ctxSwitch new ret =
      { cpu := { saved := r, rsp := (s.procs new).sp + 56#64, rax := s.cpu.rax, rip := rip,
                 cr3 := (s.procs new).pml4Addr, mem := s.switchMem ret }
        procs := Function.update s.procs s.task { s.procs s.task with sp := s.cpu.rsp - 56#64 }
        task := new
        status := Function.update
          (Function.update s.status s.task (.switchedOut s.cpu.saved s.cpu.rsp ret)) new
          .running } := by
  have e : (s.cpu.push ret).rsp - 48#64 = s.cpu.rsp - 56#64 := Cpu.push_rsp_sub _ _ _
  have h1 : (swtch (s.cpu.push ret) (s.procs new).sp (s.procs new).pml4Addr).1 = _ :=
    swtch_resumes h
  have h2 : (swtch (s.cpu.push ret) (s.procs new).sp (s.procs new).pml4Addr).2 = _ := swtch_snd
  simp only [Sys.ctxSwitch, h1, h2, e, Sys.switchMem]
  rfl

theorem Inv.switch (h : Inv L s) {new : ι} {r : VmRegion} {ret : Word} (hne : new ≠ s.task)
    (hused : s.Used new) (hroom : s.Room r 56) : Inv L (s.ctxSwitch new ret) := by
  obtain ⟨regs, rip, hframe⟩ := (h.suspended_switch hroom hne ret).frame hused
    fun hrun => hne (h.only new hrun)
  rw [Sys.ctxSwitch_eq hframe]
  have hstack : ∀ q, findStack (Function.update s.procs s.task
      { s.procs s.task with sp := s.cpu.rsp - 56#64 } q) = findStack (s.procs q) := by
    intro q
    by_cases hq : q = s.task
    · subst hq
      rw [Function.update_self]
      rfl
    · rw [Function.update_of_ne hq]
  have hu : ∀ q, Function.update (Function.update s.status s.task
      (.switchedOut s.cpu.saved s.cpu.rsp ret)) new .running q ≠ .unused → s.Used q := by
    intro q hq
    by_cases hqn : q = new
    · exact hqn ▸ hused
    by_cases hqt : q = s.task
    · exact hqt ▸ h.used_task
    · rwa [Function.update_of_ne hqn, Function.update_of_ne hqt] at hq
  refine ⟨?_, ?_, ?_, ?_, ?_⟩
  · simp only [Function.update_self]
  · intro q hq
    by_contra hqn
    simp only [Function.update_of_ne hqn] at hq
    by_cases hqt : q = s.task
    · subst hqt
      simp only [Function.update_self] at hq
      exact Status.noConfusion hq
    · simp only [Function.update_of_ne hqt] at hq
      exact hqt (h.only q hq)
  · intro q hq
    simp only [hstack]
    exact h.stack q (hu q hq)
  · intro q q' r1 r2 hqq hq hq' hr1 hr2
    simp only [hstack] at hr1 hr2
    exact h.apart q q' r1 r2 hqq (hu q hq) (hu q' hq') hr1 hr2
  · intro q
    by_cases hqn : q = new
    · subst hqn
      simp only [Function.update_self]
      trivial
    simp only [Function.update_of_ne hqn]
    by_cases hqt : q = s.task
    · -- the process switched out has just pushed its own frame
      subst hqt
      simp only [Function.update_self]
      have e : (s.cpu.push ret).rsp - 48#64 = s.cpu.rsp - 56#64 := Cpu.push_rsp_sub _ _ _
      refine ⟨?_, ?_, rfl⟩
      · intro k hk
        obtain ⟨r', hr', hb⟩ := hroom.onStack (b := s.cpu.rsp - 56#64 + BitVec.ofNat 64 k) (by
          unfold Within
          bv_omega)
        exact ⟨r', hr', hb⟩
      · have htop : (s.cpu.push ret).top = ret := Mem.load_store_self _ _ _
        have hsave := swtch_saves htop
        rw [e] at hsave
        rw [Sys.switchMem, e]
        exact hsave
    · simp only [Function.update_of_ne hqt]
      exact h.suspended_switch hroom hqt ret

/-- Every step keeps the frame of every suspended process intact. -/
theorem Step.inv (h : Inv L s) (hstep : Step L s s') : Inv L s' := by
  cases hstep with
  | run c procs hmem hprocs => exact h.run hmem hprocs
  | alloc hnew => exact h.alloc hnew
  | fork hnew hfork hf hs => exact h.fork hnew hfork hf hs
  | switch hne hused hroom => exact h.switch hne hused hroom

theorem Reachable.inv (h : Reachable L s) : Inv L s := by
  induction h with
  | init h => exact h.inv
  | step _ hstep ih => exact hstep.inv ih

end Steps

/-! ## Coroutines -/

/-- The processor `c`, just switched to the process `p`, goes on where the status
    of `p` says it stopped. A forked child goes on at `fork_child_resume`, which
    returns 0 from `clone_parent_base_frame`. -/
def Resumed (L : Labels) (c : Cpu) (p : Process) : Status → Prop
  | .unused => False
  | .running => False
  | .fresh => c.rip = L.forkret ∧ c.saved = zeroSaved ∧ c.rsp.toNat % 16 = 8 ∧
      ∃ r, findStack p = some r ∧ c.rsp = r.stop - 8#64
  | .forked saved rsp ret => c.rip = L.forkChildResume ∧
      forkChildResume c = { c with saved := saved, rsp := rsp, rax := 0, rip := ret }
  | .switchedOut saved rsp ret => c.saved = saved ∧ c.rsp = rsp ∧ c.rip = ret

section Coroutine

variable [DecidableEq ι] {L : Labels} {s : Sys ι}

theorem Inv.resumed (h : Inv L s) {new : ι} {r : VmRegion} {ret : Word} (hne : new ≠ s.task)
    (hused : s.Used new) (hroom : s.Room r 56) :
    Resumed L (s.ctxSwitch new ret).cpu (s.procs new) (s.status new) := by
  have hrun : s.status new ≠ .running := fun hrun => hne (h.only new hrun)
  have hsus := h.suspended_switch hroom hne ret
  generalize hst : s.status new = st at *
  cases st with
  | unused => exact absurd hst hused
  | running => exact absurd rfl hrun
  | fresh =>
    obtain ⟨_, hframe, r', hr', hsp⟩ := hsus
    obtain ⟨r'', hr'', hk⟩ := h.stack new hused
    obtain rfl : r' = r'' := Option.some.inj (hr'.symm.trans hr'')
    have hrsp : (s.procs new).sp + 56#64 = r'.stop - 8#64 := by rw [hsp]; bv_omega
    have hal : r'.stop.toNat % 4096 = 0 := hk.aligned
    have hsize : r'.stop.toNat = r'.start.toNat + 33 * 4096 := hk.size
    rw [Sys.ctxSwitch_eq hframe]
    refine ⟨rfl, rfl, ?_, r', hr', hrsp⟩
    simp only [hrsp]
    have hnat : (r'.stop - 8#64).toNat = r'.stop.toNat - 8 := by bv_omega
    omega
  | forked saved rsp ret' =>
    obtain ⟨_, hframe, hret, hsp⟩ := hsus
    rw [Sys.ctxSwitch_eq hframe]
    have hrsp : (s.procs new).sp + 56#64 + 8#64 = rsp := by rw [hsp]; bv_omega
    refine ⟨rfl, ?_⟩
    simp only [forkChildResume, Cpu.ret, Cpu.drop, Cpu.top, hret, hrsp]
  | switchedOut saved rsp ret' =>
    obtain ⟨_, hframe, hsp⟩ := hsus
    rw [Sys.ctxSwitch_eq hframe]
    exact ⟨rfl, by simp only [hsp]; bv_omega, rfl⟩

/-- What is recorded of a suspended process does not change until it is resumed. -/
theorem Inv.status_step (h : Inv L s) {s' : Sys ι} (hstep : Step L s s') {p : ι} (hp : s.Used p)
    (h1 : p ≠ s.task) (h2 : p ≠ s'.task) : s'.status p = s.status p := by
  cases hstep with
  | run c procs hmem hprocs => rfl
  | alloc hnew => exact Function.update_of_ne (hnew.ne hp) _ _
  | fork hnew hfork hf hs =>
    obtain ⟨m, hrun, -, -⟩ := h.cloneParentBaseFrame_eq hnew hfork
    rw [hrun _ hf] at hs
    obtain rfl := Option.some.inj hs
    exact Function.update_of_ne (hnew.ne hp) _ _
  | switch hne hused hroom =>
    have h2' : p ≠ _ := h2
    simp only [Sys.ctxSwitch] at h2' ⊢
    rw [Function.update_of_ne h2', Function.update_of_ne h1]

/-- **Context switching implements coroutines.** In every reachable state:
    * a switch to another process makes it the current task on its own page
      tables, resumes it where it stopped, and records where the outgoing process
      stopped;
    * what is recorded of a suspended process stays until it is resumed;
    * `clone_parent_base_frame` returns 1 in the parent, with its registers
      unchanged, and leaves a child that is to return 0 from the same call. -/
theorem ctxSwitch_coroutine (h : Reachable L s) :
    (∀ (new : ι) (r : VmRegion) (ret : Word), new ≠ s.task → s.Used new → s.Room r 56 →
      let s' := s.ctxSwitch new ret
      s'.task = new ∧ s'.cpu.cr3 = (s'.procs new).pml4Addr ∧
      Resumed L s'.cpu (s.procs new) (s.status new) ∧
      s'.status s.task = .switchedOut s.cpu.saved s.cpu.rsp ret) ∧
    (∀ (s' : Sys ι) (p : ι), Step L s s' → s.Used p → p ≠ s.task → p ≠ s'.task →
      s'.status p = s.status p) ∧
    (∀ (child : ι) (rec : Process) (rp rc : VmRegion) (slots : List Addr) (ret : Word),
      s.NewProc child rec rc → s.CanFork L rp slots ret →
      ∃ s' : Sys ι, (∀ fuel, slots.length ≤ fuel →
          s.cloneParentBaseFrame L fuel child rec ret = some s') ∧
        s'.cpu.rax = 1 ∧ s'.cpu.rip = ret ∧ s'.cpu.rsp = s.cpu.rsp ∧
        s'.cpu.saved = s.cpu.saved ∧ s'.task = s.task ∧
        s'.status child =
          .forked (childSaved s.cpu.saved (s.cpu.rsp - 64#64) rp.stop (rc.stop - rp.stop))
            (s.cpu.rsp + (rc.stop - rp.stop)) ret) := by
  have hinv := h.inv
  refine ⟨?_, fun s' p hstep hp h1 h2 => hinv.status_step hstep hp h1 h2, ?_⟩
  · intro new r ret hne hused hroom
    obtain ⟨regs, rip, hframe⟩ := (hinv.suspended_switch hroom hne ret).frame hused
      fun hrun => hne (hinv.only new hrun)
    have hres : Resumed L (s.ctxSwitch new ret).cpu _ _ := hinv.resumed hne hused hroom
    intro s'
    refine ⟨rfl, ?_, hres, ?_⟩
    · simp only [s', Sys.ctxSwitch_eq hframe, Function.update_of_ne hne]
    · simp only [s', Sys.ctxSwitch_eq hframe, Function.update_of_ne (Ne.symm hne),
        Function.update_self]
  · intro child rec rp rc slots ret hnew hfork
    obtain ⟨m, hrun, -, -⟩ := hinv.cloneParentBaseFrame_eq hnew hfork
    exact ⟨_, hrun, rfl, rfl, rfl, rfl, rfl, by simp only [Function.update_self]⟩

end Coroutine

/-! ## Two processes -/

section Pair

def pairLabels : Labels := ⟨0xffffffff80001000, 0xffffffff80002000, 0xffffffff80003000⟩

def pairStack : Bool → VmRegion
  | false => ⟨0, .stack, 0x100000, 0x121000⟩
  | true => ⟨0, .stack, 0x121000, 0x142000⟩

/-- One process, running with a frame pointer of 0 on the lower of two stacks. -/
def pairStart : Sys Bool where
  cpu := ⟨⟨0, 1, 2, 3, 4, 5⟩, 0x120000, 0, 0, 0x1000, fun _ => 0⟩
  procs p := if p then {} else { vmList := [pairStack false], pml4Addr := 0x1000 }
  task := false
  status p := if p then .unused else .running

theorem pairStack_kstack (p : Bool) : KStack (pairStack p) := by
  cases p <;> exact ⟨by decide, by decide⟩

theorem pairStart_reachable : Reachable pairLabels pairStart := by
  refine .init ⟨rfl, ?_, pairStack false, rfl, pairStack_kstack false⟩
  rintro (_ | _) hp
  · exact absurd rfl hp
  · rfl

theorem pairStart_newProc {rec : Process} (h : findStack rec = some (pairStack true)) :
    pairStart.NewProc true rec (pairStack true) := by
  refine ⟨rfl, h, pairStack_kstack true, ?_⟩
  rintro (_ | _) r' hu hr'
  · obtain rfl : pairStack false = r' := Option.some.inj hr'
    exact Or.inr (by decide)
  · exact absurd rfl hu

theorem pairStart_canFork :
    pairStart.CanFork pairLabels (pairStack false) [0x11ffe8] 0xffffffff80005000 := by
  refine ⟨⟨rfl, by decide, by decide⟩, ⟨0, ?_⟩, by decide, by decide⟩
  -- the frame pointer is 0, so the chain is its slot alone
  have hfp : (cloneCallMem pairLabels (pairStart.cpu.push 0xffffffff80005000)).load 0x11ffe8 = 0 :=
    cloneCallMem_frame.rbp
  exact FpChain.single (by decide) (by decide) (by decide) hfp (by decide)

/-- The process allocates a second one, switches to it, and is switched back to;
    or it forks. -/
theorem ctxSwitch_coroutine_pair :
    let s1 := pairStart.allocProcess pairLabels true
      { vmList := [pairStack true], pml4Addr := 0x2000 } (pairStack true)
    let s2 := s1.ctxSwitch true 0xffffffff80004000
    let s3 := s2.ctxSwitch false 0xffffffff80004000
    (s2.task = true ∧ s2.cpu.cr3 = 0x2000 ∧ s2.cpu.rip = pairLabels.forkret ∧
      s2.cpu.rsp = (pairStack true).stop - 8#64) ∧
    (s3.task = false ∧ s3.cpu.saved = pairStart.cpu.saved ∧ s3.cpu.rsp = pairStart.cpu.rsp ∧
      s3.cpu.rip = 0xffffffff80004000) ∧
    ∃ s' : Sys Bool, pairStart.cloneParentBaseFrame pairLabels 1 true
        { vmList := [pairStack true] } 0xffffffff80005000 = some s' ∧
      s'.cpu.rax = 1 ∧ s'.cpu.rip = 0xffffffff80005000 := by
  intro s1 s2 s3
  have hreach1 : Reachable pairLabels s1 := .step pairStart_reachable (.alloc (pairStart_newProc rfl))
  have hroom1 : s1.Room (pairStack false) 56 := ⟨rfl, by decide, by decide⟩
  have hused1 : s1.Used true := Status.noConfusion
  have hswitch1 := (ctxSwitch_coroutine hreach1).1 true (pairStack false) 0xffffffff80004000
    (by decide) hused1 hroom1
  obtain ⟨htask, hcr3, ⟨hrip, -, -, r, hr, hrsp⟩, hout⟩ := hswitch1
  obtain rfl : pairStack true = r := Option.some.inj hr
  have hreach2 : Reachable pairLabels s2 := .step hreach1 (.switch (by decide) hused1 hroom1)
  have hroom2 : s2.Room (pairStack true) 56 := by
    refine ⟨rfl, ?_, ?_⟩
    · rw [hrsp]; decide
    · rw [hrsp]; decide
  have hused2 : s2.Used false := fun e => Status.noConfusion (hout.symm.trans e)
  have hswitch2 := (ctxSwitch_coroutine hreach2).1 false (pairStack true) 0xffffffff80004000
    (by decide) hused2 hroom2
  obtain ⟨htask3, -, hres, -⟩ := hswitch2
  rw [show s2.status false = _ from hout] at hres
  obtain ⟨hsaved, hrsp3, hrip3⟩ := hres
  obtain ⟨s', hrun, hrax, hret, -⟩ := (ctxSwitch_coroutine pairStart_reachable).2.2 true
    { vmList := [pairStack true] } (pairStack false) (pairStack true) [0x11ffe8] 0xffffffff80005000
    (pairStart_newProc rfl) pairStart_canFork
  exact ⟨⟨htask, hcr3, hrip, hrsp⟩, ⟨htask3, hsaved, hrsp3, hrip3⟩, s', hrun 1 le_rfl, hrax, hret⟩

end Pair


end HorizonOS.Switch
