import Mathlib.Data.Nat.Init
import Mathlib.Logic.Relation
import Mathlib.Logic.Function.Basic

/-!
# Critical sections under a spin lock

Threads that share a state and change it, step by step, only inside critical sections
that a test-and-set flag protects. The steps of different threads interleave in any
way.

* `Step`: the interleaved system. `AtomicStep`: the same threads with sections that
  happen at once.
* `Sim.step`, `simulates`: every run of the first is one of the second, in which a
  section happens when its lock is released.
* `Sim.releases`: the thread inside can leave its section whatever the others do.
* `Completes.of_next`, `Completes.of_end`: what a section computes, step by step.
-/

namespace HorizonOS.Lib.SpinLock

variable {κ τ ℓ σ : Type*}

/-- Threads of one kind: what a thread may do without the lock, which sections it may
    call, how a section goes on from one of its points (`none` where it ends), and how
    the thread goes on when the section `c` has ended at `a`. -/
structure Client (τ ℓ σ : Type*) where
  own : τ → τ → Prop
  call : τ → ℓ → Prop
  next : ℓ → σ → Option (ℓ × σ)
  ret : τ → ℓ → ℓ → τ → Prop

/-- Where a thread stands: outside, in the loop of the lock before the section `c`, or
    in that section at the point `a`. -/
inductive Phase (τ ℓ : Type*)
  | outside (t : τ)
  | spinning (t : τ) (c : ℓ)
  | inside (t : τ) (c a : ℓ)

/-- The thread's own state, as it was when it called. -/
def Phase.thread : Phase τ ℓ → τ
  | .outside t => t
  | .spinning t _ => t
  | .inside t _ _ => t

structure State (κ τ ℓ σ : Type*) where
  flag : Bool
  shared : σ
  phase : κ → Phase τ ℓ

/-- One step of one thread. `spin` and `acquire` are the two outcomes of the
    test-and-set. -/
inductive Step [DecidableEq κ] (C : Client τ ℓ σ) : State κ τ ℓ σ → State κ τ ℓ σ → Prop
  | own {s : State κ τ ℓ σ} {k : κ} {t t' : τ} : s.phase k = .outside t → C.own t t' →
      Step C s { s with phase := Function.update s.phase k (.outside t') }
  | call {s : State κ τ ℓ σ} {k : κ} {t : τ} {c : ℓ} : s.phase k = .outside t → C.call t c →
      Step C s { s with phase := Function.update s.phase k (.spinning t c) }
  | spin {s : State κ τ ℓ σ} {k : κ} {t : τ} {c : ℓ} : s.phase k = .spinning t c →
      s.flag = true → Step C s s
  | acquire {s : State κ τ ℓ σ} {k : κ} {t : τ} {c : ℓ} : s.phase k = .spinning t c →
      s.flag = false →
      Step C s { s with flag := true, phase := Function.update s.phase k (.inside t c c) }
  | inner {s : State κ τ ℓ σ} {k : κ} {t : τ} {c a a' : ℓ} {x : σ} :
      s.phase k = .inside t c a → C.next a s.shared = some (a', x) →
      Step C s { s with shared := x, phase := Function.update s.phase k (.inside t c a') }
  | release {s : State κ τ ℓ σ} {k : κ} {t t' : τ} {c a : ℓ} : s.phase k = .inside t c a →
      C.next a s.shared = none → C.ret t c a t' →
      Step C s { s with flag := false, phase := Function.update s.phase k (.outside t') }

/-! ## Sections that happen at once -/

/-- The section goes from one point and state to another. -/
def Runs (C : Client τ ℓ σ) : ℓ × σ → ℓ × σ → Prop :=
  Relation.ReflTransGen fun p p' => C.next p.1 p.2 = some p'

/-- The whole section `c` takes the state `x` to `x'` and ends at `a`. -/
def Completes (C : Client τ ℓ σ) (c : ℓ) (x : σ) (a : ℓ) (x' : σ) : Prop :=
  Runs C (c, x) (a, x') ∧ C.next a x' = none

section Completes

variable {C : Client τ ℓ σ} {a b c : ℓ} {x y z : σ}

theorem Completes.of_next (h : Completes C c x a y) (hnext : C.next c x = some (b, z)) :
    Completes C b z a y := by
  obtain ⟨hruns, hend⟩ := h
  rcases hruns.cases_head with heq | ⟨p, hp, hrest⟩
  · obtain ⟨rfl, rfl⟩ := Prod.mk.inj heq
    rw [hend] at hnext
    contradiction
  · obtain rfl : (b, z) = p := Option.some.inj (hnext.symm.trans hp)
    exact ⟨hrest, hend⟩

theorem Completes.of_end (h : Completes C c x a y) (hend : C.next c x = none) : a = c ∧ y = x := by
  rcases h.1.cases_head with heq | ⟨p, hp, -⟩
  · exact Prod.mk.inj heq.symm
  · rw [hend] at hp
    contradiction

/-- A section ends when every step brings it nearer to its end. -/
theorem exists_completes (rank : ℓ → ℕ)
    (hrank : ∀ c x c' x', C.next c x = some (c', x') → rank c' < rank c) (c : ℓ) (x : σ) :
    ∃ a y, Completes C c x a y := by
  induction hn : rank c using Nat.strongRecOn generalizing c x with
  | _ n ih =>
    cases hnext : C.next c x with
    | none => exact ⟨c, x, .refl, hnext⟩
    | some p =>
      obtain ⟨b, z⟩ := p
      obtain ⟨a, y, hruns, hend⟩ := ih _ (hn ▸ hrank c x b z hnext) b z rfl
      exact ⟨a, y, .head hnext hruns, hend⟩

end Completes

structure Spec (κ τ σ : Type*) where
  shared : σ
  thread : κ → τ

inductive AtomicStep [DecidableEq κ] (C : Client τ ℓ σ) : Spec κ τ σ → Spec κ τ σ → Prop
  | own {m : Spec κ τ σ} {k : κ} {t : τ} : C.own (m.thread k) t →
      AtomicStep C m { m with thread := Function.update m.thread k t }
  | call {m : Spec κ τ σ} {k : κ} {t : τ} {c a : ℓ} {x : σ} : C.call (m.thread k) c →
      Completes C c m.shared a x → C.ret (m.thread k) c a t →
      AtomicStep C m { shared := x, thread := Function.update m.thread k t }

/-! ## Simulation -/

def Phase.IsInside : Phase τ ℓ → Prop
  | .inside _ _ _ => True
  | _ => False

/-- A thread that is `t₀` in the specification, whose shared state is `x₀`. Inside, the
    shared state is `x₀` but for the steps of the section so far. -/
def Phase.Ok (C : Client τ ℓ σ) (flag : Bool) (x x₀ : σ) (t₀ : τ) : Phase τ ℓ → Prop
  | .outside t => t = t₀
  | .spinning t c => t = t₀ ∧ C.call t c
  | .inside t c a => t = t₀ ∧ C.call t c ∧ flag = true ∧ Runs C (c, x₀) (a, x)

/-- At most one thread is inside, and the flag is set exactly while one is. -/
structure Sim (C : Client τ ℓ σ) (s : State κ τ ℓ σ) (m : Spec κ τ σ) : Prop where
  phase : ∀ k, (s.phase k).Ok C s.flag s.shared m.shared (m.thread k)
  exclusive : ∀ k k', (s.phase k).IsInside → (s.phase k').IsInside → k = k'
  held : s.flag = true → ∃ k, (s.phase k).IsInside
  free : s.flag = false → s.shared = m.shared

section Simulation

variable {C : Client τ ℓ σ} {s s' : State κ τ ℓ σ} {m : Spec κ τ σ} {k : κ} {p : Phase τ ℓ}

/-- A thread outside its section does not see the flag and the shared state. -/
theorem Phase.Ok.of_not_inside {flag flag' : Bool} {x x' x₀ x₀' : σ} {t₀ : τ}
    (h : p.Ok C flag x x₀ t₀) (hp : ¬ p.IsInside) : p.Ok C flag' x' x₀' t₀ := by
  cases p with
  | outside t => exact h
  | spinning t c => exact h
  | inside t c a => exact absurd trivial hp

theorem Sim.thread_eq (h : Sim C s m) (j : κ) : (s.phase j).thread = m.thread j := by
  have hok := h.phase j
  cases hj : s.phase j with
  | outside t => rw [hj] at hok; exact hok
  | spinning t c => rw [hj] at hok; exact hok.1
  | inside t c a => rw [hj] at hok; exact hok.1

/-- No thread is inside while the flag is clear. -/
theorem Sim.not_inside (h : Sim C s m) (hflag : s.flag = false) (j : κ) :
    ¬ (s.phase j).IsInside := by
  intro hj
  have hok := h.phase j
  cases hphase : s.phase j with
  | outside t => rw [hphase] at hj; exact hj
  | spinning t c => rw [hphase] at hj; exact hj
  | inside t c a =>
    rw [hphase] at hok
    exact absurd (hok.2.2.1.symm.trans hflag) (by decide)

/-- A state with the lock free and every thread outside. -/
def start (x : σ) (thread : κ → τ) : State κ τ ℓ σ := ⟨false, x, fun k => .outside (thread k)⟩

theorem sim_start (x : σ) (thread : κ → τ) : Sim C (start x thread) ⟨x, thread⟩ :=
  ⟨fun _ => rfl, fun _ _ hk => hk.elim, fun h => Bool.noConfusion h, fun _ => rfl⟩

variable [DecidableEq κ]

/-- A step of thread `k` that does not take it into a section or out of one. -/
theorem Sim.move (h : Sim C s m) (hk : ¬ (s.phase k).IsInside) (hp : ¬ p.IsInside) {t : τ}
    (hok : p.Ok C s.flag s.shared m.shared t) :
    Sim C { s with phase := Function.update s.phase k p }
      { m with thread := Function.update m.thread k t } := by
  have hinside : ∀ j, (Function.update s.phase k p j).IsInside ↔ (s.phase j).IsInside := by
    intro j
    by_cases hj : j = k
    · subst hj
      rw [Function.update_self]
      exact iff_of_false hp hk
    · rw [Function.update_of_ne hj]
  refine ⟨fun j => ?_, fun j j' hj hj' => ?_, fun hflag => ?_, h.free⟩
  · by_cases hj : j = k
    · subst hj
      simpa only [Function.update_self] using hok
    · simpa only [Function.update_of_ne hj] using h.phase j
  · exact h.exclusive j j' ((hinside j).mp hj) ((hinside j').mp hj')
  · obtain ⟨j, hj⟩ := h.held hflag
    exact ⟨j, (hinside j).mpr hj⟩

/-- Thread `k`, with all others outside their sections, is in the section `c` at `a`. -/
theorem Sim.holder (h : Sim C s m) (hothers : ∀ j, (s.phase j).IsInside → j = k) {c a : ℓ} {x : σ}
    (hcall : C.call (m.thread k) c) (hruns : Runs C (c, m.shared) (a, x)) :
    Sim C ⟨true, x, Function.update s.phase k (.inside (m.thread k) c a)⟩ m := by
  have hinside : ∀ j, (Function.update s.phase k (.inside (m.thread k) c a) j).IsInside → j = k := by
    intro j hj
    by_contra hne
    rw [Function.update_of_ne hne] at hj
    exact hne (hothers j hj)
  refine ⟨fun j => ?_, fun j j' hj hj' => (hinside j hj).trans (hinside j' hj').symm, fun _ => ?_,
    fun hfalse => Bool.noConfusion hfalse⟩
  · by_cases hj : j = k
    · subst hj
      simp only [Function.update_self]
      exact ⟨rfl, hcall, rfl, hruns⟩
    · simp only [Function.update_of_ne hj]
      exact (h.phase j).of_not_inside fun hin => hj (hothers j hin)
  · exact ⟨k, by simp only [Function.update_self]; trivial⟩

theorem Sim.acquire (h : Sim C s m) {t : τ} {c : ℓ} (hk : s.phase k = .spinning t c)
    (hflag : s.flag = false) :
    Sim C { s with flag := true, phase := Function.update s.phase k (.inside t c c) } m := by
  have hok := h.phase k
  rw [hk] at hok
  obtain ⟨rfl, hcall⟩ := hok
  refine h.holder (fun j hj => absurd hj (h.not_inside hflag j)) hcall ?_
  rw [h.free hflag]
  exact .refl

theorem Sim.inner (h : Sim C s m) {t : τ} {c a a' : ℓ} {x : σ} (hk : s.phase k = .inside t c a)
    (hnext : C.next a s.shared = some (a', x)) :
    Sim C { s with shared := x, phase := Function.update s.phase k (.inside t c a') } m := by
  have hok := h.phase k
  rw [hk] at hok
  obtain ⟨rfl, hcall, hflag, hruns⟩ := hok
  have hkin : (s.phase k).IsInside := by rw [hk]; trivial
  rw [hflag]
  exact h.holder (fun j hj => h.exclusive j k hj hkin) hcall (hruns.tail hnext)

theorem Sim.release (h : Sim C s m) {t t' : τ} {c a : ℓ} (hk : s.phase k = .inside t c a) :
    Sim C { s with flag := false, phase := Function.update s.phase k (.outside t') }
      { shared := s.shared, thread := Function.update m.thread k t' } := by
  have hkin : (s.phase k).IsInside := by rw [hk]; trivial
  have hinside : ∀ j, ¬ (Function.update s.phase k (.outside t') j).IsInside := by
    intro j hj
    by_cases hne : j = k
    · subst hne
      rw [Function.update_self] at hj
      exact hj
    · rw [Function.update_of_ne hne] at hj
      exact hne (h.exclusive j k hj hkin)
  refine ⟨fun j => ?_, fun j _ hj => absurd hj (hinside j), fun htrue => Bool.noConfusion htrue,
    fun _ => rfl⟩
  by_cases hj : j = k
  · subst hj
    simp only [Function.update_self]
    exact rfl
  · simp only [Function.update_of_ne hj]
    exact (h.phase j).of_not_inside fun hin => hj (h.exclusive j k hin hkin)

/-- **One step** is none or one of the specification. -/
theorem Sim.step (h : Sim C s m) (hstep : Step C s s') :
    ∃ m', (m' = m ∨ AtomicStep C m m') ∧ Sim C s' m' := by
  cases hstep with
  | @own k t t' hk hown =>
    have hok := h.phase k
    rw [hk] at hok
    obtain rfl : t = m.thread k := hok
    exact ⟨_, .inr (.own hown), h.move (by rw [hk]; exact id) id rfl⟩
  | @call k t c hk hcall =>
    have hok := h.phase k
    rw [hk] at hok
    obtain rfl : t = m.thread k := hok
    have hsim := h.move (k := k) (p := .spinning (m.thread k) c) (by rw [hk]; exact id) id ⟨rfl, hcall⟩
    rw [Function.update_eq_self] at hsim
    exact ⟨m, .inl rfl, hsim⟩
  | spin hk hflag => exact ⟨m, .inl rfl, h⟩
  | acquire hk hflag => exact ⟨m, .inl rfl, h.acquire hk hflag⟩
  | inner hk hnext => exact ⟨m, .inl rfl, h.inner hk hnext⟩
  | @release k t t' c a hk hend hret =>
    have hok := h.phase k
    rw [hk] at hok
    obtain ⟨rfl, hcall, -, hruns⟩ := hok
    exact ⟨_, .inr (.call hcall ⟨hruns, hend⟩ hret), h.release hk⟩

/-- **Atomicity.** Every run of the interleaved system is a run of the atomic one. -/
theorem simulates {x : σ} {thread : κ → τ}
    (hrun : Relation.ReflTransGen (Step C) (start x thread) s) :
    ∃ m, Relation.ReflTransGen (AtomicStep C) ⟨x, thread⟩ m ∧ Sim C s m := by
  induction hrun with
  | refl => exact ⟨_, .refl, sim_start x thread⟩
  | tail _ hstep ih =>
    obtain ⟨m, hatomic, hsim⟩ := ih
    obtain ⟨m', hm', hsim'⟩ := hsim.step hstep
    refine ⟨m', ?_, hsim'⟩
    rcases hm' with rfl | hm'
    · exact hatomic
    · exact hatomic.tail hm'

/-- The thread inside goes through the rest of its section, the others waiting. -/
theorem Sim.runs_inside (h : Sim C s m) {t : τ} {c a b : ℓ} {y : σ}
    (hk : s.phase k = .inside t c a) (hruns : Runs C (a, s.shared) (b, y)) :
    ∃ s', Relation.ReflTransGen (Step C) s s' ∧ s'.phase k = .inside t c b ∧ s'.shared = y ∧
      (∀ j, j ≠ k → s'.phase j = s.phase j) ∧ Sim C s' m := by
  generalize hp : (b, y) = p at hruns
  induction hruns generalizing b y with
  | refl =>
    obtain ⟨rfl, rfl⟩ := Prod.mk.inj hp
    exact ⟨s, .refl, hk, rfl, fun _ _ => rfl, h⟩
  | @tail p' _ _ hnext ih =>
    subst hp
    obtain ⟨s₁, hrun, hphase, hshared, hkeep, hsim⟩ := ih rfl
    rw [← hshared] at hnext
    refine ⟨_, hrun.tail (.inner hphase hnext), ?_, rfl, ?_, hsim.inner hphase hnext⟩
    · exact Function.update_self _ _ _
    · intro j hj
      exact (Function.update_of_ne hj _ _).trans (hkeep j hj)

/-- **Progress.** While the lock is held, its holder can reach the release by itself. -/
theorem Sim.releases (h : Sim C s m) (hflag : s.flag = true)
    (hends : ∀ c x, ∃ a y, Completes C c x a y)
    (hret : ∀ t c x a y, C.call t c → Completes C c x a y → ∃ t', C.ret t c a t') :
    ∃ k s', Relation.ReflTransGen (Step C) s s' ∧ s'.flag = false ∧
      (∀ j, j ≠ k → s'.phase j = s.phase j) ∧ ¬ (s'.phase k).IsInside := by
  obtain ⟨k, hin⟩ := h.held hflag
  have hok := h.phase k
  cases hk : s.phase k with
  | outside t => rw [hk] at hin; exact hin.elim
  | spinning t c => rw [hk] at hin; exact hin.elim
  | inside t c a =>
    rw [hk] at hok
    obtain ⟨rfl, hcall, -, hruns⟩ := hok
    obtain ⟨b, y, hrest, hend⟩ := hends a s.shared
    obtain ⟨s₁, hrun, hphase, hshared, hkeep, -⟩ := h.runs_inside hk hrest
    obtain ⟨t', ht'⟩ := hret _ c _ b y hcall ⟨hruns.trans hrest, hend⟩
    rw [← hshared] at hend
    refine ⟨k, _, hrun.tail (.release hphase hend ht'), rfl, ?_, ?_⟩
    · intro j hj
      exact (Function.update_of_ne hj _ _).trans (hkeep j hj)
    · simp only [Function.update_self]
      exact id

end Simulation

end HorizonOS.Lib.SpinLock
