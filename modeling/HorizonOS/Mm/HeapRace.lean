import HorizonOS.Mm.Heap

/-!
# `kmalloc` under preemption

`kmalloc` and `kmalloc_a` (kheap.c:9–39) read and write `placement_address` several times and
mask no interrupts. Here every access is a step of its own, and the steps of any number of
processes interleave freely. Addresses are natural numbers: nothing wraps around.

* `alloc_alone`: an allocation that is not interrupted does what the atomic model does.
* `Inv.step`, `Inv.run`: what a step keeps while no other process is inside an allocation.
* `blocks_disjoint`: the blocks of such a run are disjoint.
* `kmalloc_race`: two processes that get the same block.
-/

namespace HorizonOS.Mm.Race

open HorizonOS.Lib

/-! ## Model -/

/-- The two functions. -/
inductive HeapFn
  | kmalloc
  | kmallocA
deriving DecidableEq

/-- Where a process stands in an allocation: the next access of `placement_address`, with the
    values loaded so far. -/
inductive AllocPc
  | idle
  /-- `if (placement_address & 0xFFF)` -/
  | test (sz : ℕ)
  /-- `placement_address &= ~0xFFFUL` -/
  | maskLoad (sz : ℕ)
  | maskStore (sz x : ℕ)
  /-- `placement_address += 0x1000` -/
  | pageLoad (sz : ℕ)
  | pageStore (sz x : ℕ)
  /-- `ret = placement_address` -/
  | retLoad (fn : HeapFn) (sz : ℕ)
  /-- `placement_address += sz` -/
  | addLoad (fn : HeapFn) (sz ret : ℕ)
  | addStore (fn : HeapFn) (sz ret x : ℕ)
deriving DecidableEq

/-- A block that was returned, and by which function. -/
structure Returned where
  fn : HeapFn
  ret : ℕ
  sz : ℕ
deriving DecidableEq

/-- The heap pointer, the processes, and the blocks returned so far, last first. -/
structure Heap (ι : Type*) where
  placementAddress : ℕ
  pc : ι → AllocPc
  returned : List Returned

/-- The first access of a function. -/
def HeapFn.entry (fn : HeapFn) (sz : ℕ) : AllocPc :=
  match fn with
  | .kmalloc => .retLoad .kmalloc sz
  | .kmallocA => .test sz

/-- A process calls a function, or makes its next access. -/
inductive Event (ι : Type*)
  | call (i : ι) (fn : HeapFn) (sz : ℕ)
  | access (i : ι)

def Event.proc {ι : Type*} : Event ι → ι
  | .call i _ _ => i
  | .access i => i

/-- One access: the new heap pointer, the next access and the block returned, if any. -/
def access (p : ℕ) : AllocPc → ℕ × AllocPc × Option Returned
  | .idle => (p, .idle, none)
  | .test sz => (p, if p % 0x1000 ≠ 0 then .maskLoad sz else .retLoad .kmallocA sz, none)
  | .maskLoad sz => (p, .maskStore sz p, none)
  | .maskStore sz x => (x - x % 0x1000, .pageLoad sz, none)
  | .pageLoad sz => (p, .pageStore sz p, none)
  | .pageStore sz x => (x + 0x1000, .retLoad .kmallocA sz, none)
  | .retLoad fn sz => (p, .addLoad fn sz p, none)
  | .addLoad fn sz ret => (p, .addStore fn sz ret p, none)
  | .addStore fn sz ret x => (x + sz, .idle, some ⟨fn, ret, sz⟩)

section

variable {ι : Type*} [DecidableEq ι]

def step (s : Heap ι) : Event ι → Heap ι
  | .call i fn sz =>
    if s.pc i = .idle then { s with pc := Function.update s.pc i (fn.entry sz) } else s
  | .access i =>
    let r := access s.placementAddress (s.pc i)
    ⟨r.1, Function.update s.pc i r.2.1, r.2.2.toList ++ s.returned⟩

def run (s : Heap ι) (es : List (Event ι)) : Heap ι := es.foldl step s

/-- Nothing allocated, with the heap at `p`. -/
def start (p : ℕ) : Heap ι := ⟨p, fun _ => .idle, []⟩

/-! ## One allocation -/

/-- The atomic model of a function. -/
def HeapFn.atomic (fn : HeapFn) (m : MmState) (sz : BitVec 32) : Addr × MmState :=
  match fn with
  | .kmalloc => Mm.kmalloc m sz
  | .kmallocA => Mm.kmallocA m sz

/-- An allocation that nobody interrupts returns what the atomic model returns and leaves the
    heap pointer where it does. -/
theorem alloc_alone (s : Heap ι) (i : ι) (hidle : s.pc i = .idle) (fn : HeapFn) (m : MmState)
    (hp : s.placementAddress = m.placementAddress.toNat) (sz : BitVec 32)
    (hroom : m.placementAddress.toNat + 4095 + sz.toNat < 2 ^ 64) :
    ∃ n, run s (.call i fn sz.toNat :: List.replicate n (.access i)) =
      ⟨(fn.atomic m sz).2.placementAddress.toNat, s.pc,
        ⟨fn, (fn.atomic m sz).1.toNat, sz.toNat⟩ :: s.returned⟩ := by
  obtain ⟨p, pc, returned⟩ := s
  simp only at hidle hp
  subst hp
  have hsz := sz.isLt
  have hself : Function.update pc i .idle = pc := by rw [← hidle, Function.update_eq_self]
  have hadd : ∀ a : Addr, a.toNat ≤ m.placementAddress.toNat + 4095 →
      (a + sz.setWidth 64).toNat = a.toNat + sz.toNat := by
    intro a ha
    rw [BitVec.toNat_add, BitVec.toNat_setWidth]
    omega
  cases fn with
  | kmalloc =>
    refine ⟨3, ?_⟩
    simp [run, step, access, List.replicate, hidle, HeapFn.entry, HeapFn.atomic, kmalloc_eq, hself,
      hadd m.placementAddress (by omega)]
  | kmallocA =>
    have hle := le_alignUp (a := m.placementAddress) (by omega)
    have hspec := alignUp_spec (a := m.placementAddress) (by omega)
    by_cases haligned : m.placementAddress.toNat % 4096 = 0
    · refine ⟨4, ?_⟩
      have hret : (alignUp m.placementAddress).toNat = m.placementAddress.toNat := by omega
      simp [run, step, access, List.replicate, hidle, HeapFn.entry, HeapFn.atomic, kmallocA_eq,
        hself, hadd _ hle.2.1, haligned, hret]
    · refine ⟨8, ?_⟩
      have hret : m.placementAddress.toNat - m.placementAddress.toNat % 4096 + 4096 =
          (alignUp m.placementAddress).toNat := by omega
      simp [run, step, access, List.replicate, hidle, HeapFn.entry, HeapFn.atomic, kmallocA_eq,
        hself, hadd _ hle.2.1, haligned, hret]

/-! ## Results -/

/-- Two blocks share no byte. -/
def Returned.Disjoint (b b' : Returned) : Prop := b.ret + b.sz ≤ b'.ret ∨ b'.ret + b'.sz ≤ b.ret

instance (b b' : Returned) : Decidable (b.Disjoint b') := inferInstanceAs (Decidable (_ ∨ _))

/-- No process but `i` is inside an allocation. -/
def Solo (s : Heap ι) (i : ι) : Prop := ∀ j, j ≠ i → s.pc j = .idle

/-- In every step of the run no process but the one that moves is inside an allocation. -/
def Exclusive : Heap ι → List (Event ι) → Prop
  | _, [] => True
  | s, e :: es => Solo s e.proc ∧ Exclusive (step s e) es

instance [Fintype ι] (s : Heap ι) (i : ι) : Decidable (Solo s i) :=
  inferInstanceAs (Decidable (∀ j, j ≠ i → s.pc j = .idle))

instance decidableExclusive [Fintype ι] : ∀ (s : Heap ι) es, Decidable (Exclusive s es)
  | _, [] => isTrue trivial
  | s, e :: es =>
    have := decidableExclusive (step s e) es
    inferInstanceAs (Decidable (Solo s e.proc ∧ Exclusive (step s e) es))

theorem Solo.step {s : Heap ι} {e : Event ι} (h : Solo s e.proc) : Solo (step s e) e.proc := by
  intro j hj
  cases e with
  | call i fn sz =>
    have hji : j ≠ i := hj
    simp only [Race.step]
    split_ifs
    · show Function.update s.pc i _ j = .idle
      rw [Function.update_of_ne hji]
      exact h j hj
    · exact h j hj
  | access i =>
    have hji : j ≠ i := hj
    show Function.update s.pc i _ j = .idle
    rw [Function.update_of_ne hji]
    exact h j hj

/-- All blocks end at or below `p`. -/
def Under (bs : List Returned) (p : ℕ) : Prop := ∀ b ∈ bs, b.ret + b.sz ≤ p

/-- What holds before an access of the only process inside an allocation, with the heap
    pointer at `p`. While the pointer is being aligned it is up to one page too low. -/
def PcOk (p : ℕ) (bs : List Returned) : AllocPc → Prop
  | .idle | .test _ | .maskLoad _ => Under bs p
  | .maskStore _ x => x = p ∧ Under bs p
  | .pageLoad _ => p % 0x1000 = 0 ∧ Under bs (p + 0x1000)
  | .pageStore _ x => x = p ∧ p % 0x1000 = 0 ∧ Under bs (p + 0x1000)
  | .retLoad fn _ => (fn = .kmallocA → p % 0x1000 = 0) ∧ Under bs p
  | .addLoad fn _ ret => ret = p ∧ (fn = .kmallocA → p % 0x1000 = 0) ∧ Under bs p
  | .addStore fn _ ret x => ret = p ∧ x = p ∧ (fn = .kmallocA → p % 0x1000 = 0) ∧ Under bs p

theorem Under.mono {bs : List Returned} {p q : ℕ} (h : Under bs p) (hpq : p ≤ q) : Under bs q :=
  fun b hb => (h b hb).trans hpq

/-- What one access keeps, and that a block returned lies above all others. -/
theorem PcOk.access {p : ℕ} {bs : List Returned} {pc : AllocPc} (h : PcOk p bs pc) :
    PcOk (access p pc).1 ((access p pc).2.2.toList ++ bs) (access p pc).2.1 ∧
      ∀ b, (access p pc).2.2 = some b →
        Under bs b.ret ∧ (b.fn = .kmallocA → b.ret % 0x1000 = 0) := by
  cases pc with
  | idle => exact ⟨h, by simp [Race.access]⟩
  | test sz =>
    refine ⟨?_, by simp [Race.access]⟩
    simp only [Race.access, Option.toList_none, List.nil_append]
    split_ifs with hp
    · exact h
    · exact ⟨fun _ => by omega, h⟩
  | maskLoad sz => exact ⟨⟨rfl, h⟩, by simp [Race.access]⟩
  | maskStore sz x =>
    obtain ⟨rfl, hunder⟩ := h
    refine ⟨⟨?_, hunder.mono ?_⟩, by simp [Race.access]⟩
    · show (x - x % 0x1000) % 0x1000 = 0
      omega
    · show x ≤ x - x % 0x1000 + 0x1000
      omega
  | pageLoad sz => exact ⟨⟨rfl, h⟩, by simp [Race.access]⟩
  | pageStore sz x =>
    obtain ⟨rfl, haligned, hunder⟩ := h
    refine ⟨⟨fun _ => ?_, hunder⟩, by simp [Race.access]⟩
    show (x + 0x1000) % 0x1000 = 0
    omega
  | retLoad fn sz => exact ⟨⟨rfl, h⟩, by simp [Race.access]⟩
  | addLoad fn sz ret =>
    obtain ⟨rfl, h⟩ := h
    exact ⟨⟨rfl, rfl, h⟩, by simp [Race.access]⟩
  | addStore fn sz ret x =>
    obtain ⟨rfl, rfl, haligned, hunder⟩ := h
    constructor
    · intro b hb
      show b.ret + b.sz ≤ x + sz
      rcases List.mem_cons.mp hb with rfl | hb
      · exact le_rfl
      · exact (hunder b hb).trans (by omega)
    · rintro b ⟨⟩
      exact ⟨hunder, haligned⟩

/-- The invariant while no process but `i` is inside an allocation. -/
structure Inv (s : Heap ι) (i : ι) : Prop where
  solo : Solo s i
  pc : PcOk s.placementAddress s.returned (s.pc i)
  disjoint : s.returned.Pairwise Returned.Disjoint
  aligned : ∀ b ∈ s.returned, b.fn = .kmallocA → b.ret % 0x1000 = 0

/-- When another process may move, nobody is inside an allocation. -/
theorem Inv.handover {s : Heap ι} {i j : ι} (h : Inv s i) (hj : Solo s j) : Inv s j := by
  by_cases hij : j = i
  · rwa [hij]
  · refine ⟨hj, ?_, h.disjoint, h.aligned⟩
    have hpc := h.pc
    rw [hj i (Ne.symm hij)] at hpc
    rwa [h.solo j hij]

theorem Inv.step {s : Heap ι} {e : Event ι} (h : Inv s e.proc) : Inv (step s e) e.proc := by
  have hsolo := h.solo.step
  cases e with
  | call i fn sz =>
    refine ⟨hsolo, ?_, ?_, ?_⟩
    all_goals simp only [Race.step] ; split_ifs with hidle
    · have hpc := h.pc
      rw [show s.pc (Event.call i fn sz).proc = .idle from hidle] at hpc
      show PcOk s.placementAddress s.returned (Function.update s.pc i (fn.entry sz) i)
      rw [Function.update_self]
      cases fn with
      | kmalloc => exact ⟨fun he => HeapFn.noConfusion he, hpc⟩
      | kmallocA => exact hpc
    · exact h.pc
    · exact h.disjoint
    · exact h.disjoint
    · exact h.aligned
    · exact h.aligned
  | access i =>
    obtain ⟨hpc, hblock⟩ := h.pc.access
    simp only [Event.proc] at hpc hblock
    refine ⟨hsolo, ?_, ?_, ?_⟩
    · show PcOk _ _ (Function.update s.pc i _ i)
      rw [Function.update_self]
      exact hpc
    · show List.Pairwise Returned.Disjoint
        ((Race.access s.placementAddress (s.pc i)).2.2.toList ++ s.returned)
      cases hb : (Race.access s.placementAddress (s.pc i)).2.2 with
      | none => exact h.disjoint
      | some b =>
        exact List.pairwise_cons.mpr
          ⟨fun b' hb' => .inr ((hblock b hb).1 b' hb'), h.disjoint⟩
    · show ∀ b ∈ (Race.access s.placementAddress (s.pc i)).2.2.toList ++ s.returned, _
      intro b hmem
      rcases List.mem_append.mp hmem with hb | hb
      · exact (hblock b (Option.mem_toList.mp hb)).2
      · exact h.aligned b hb

theorem Inv.run {s : Heap ι} {i : ι} (h : Inv s i) {es : List (Event ι)} (hes : Exclusive s es) :
    ∃ j, Inv (run s es) j := by
  induction es generalizing s i with
  | nil => exact ⟨i, h⟩
  | cons e es ih => exact ih (h.handover hes.1).step hes.2

/-- If no process moves while another one is inside an allocation, the blocks returned are
    pairwise disjoint and those of `kmalloc_a` start on a page boundary. -/
theorem blocks_disjoint (p : ℕ) (es : List (Event ι)) (hes : Exclusive (start p) es) :
    (run (start p) es).returned.Pairwise Returned.Disjoint ∧
      ∀ b ∈ (run (start p) es).returned, b.fn = .kmallocA → b.ret % 0x1000 = 0 := by
  cases es with
  | nil => exact ⟨List.Pairwise.nil, by simp [run, start]⟩
  | cons e es =>
    have hstart : Inv (start p) e.proc := by
      refine ⟨fun _ _ => rfl, ?_, List.Pairwise.nil, ?_⟩
      · intro b hb
        cases hb
      · intro b hb
        cases hb
    obtain ⟨j, hinv⟩ := hstart.run hes
    exact ⟨hinv.disjoint, hinv.aligned⟩

end

/-- A process allocates a page between two allocations of another one. -/
def takingTurns : List (Event Bool) :=
  .call false .kmalloc 24 :: List.replicate 3 (.access false) ++
    .call true .kmallocA 0x1000 :: List.replicate 8 (.access true) ++
    .call false .kmalloc 24 :: List.replicate 3 (.access false)

theorem blocks_disjoint_takingTurns :
    Exclusive (start 0x8000) takingTurns ∧
    (run (start 0x8000) takingTurns).returned.length = 3 ∧
    (run (start 0x8000) takingTurns).returned.Pairwise Returned.Disjoint :=
  ⟨by decide, by decide, (blocks_disjoint 0x8000 takingTurns (by decide)).1⟩

/-- A process is preempted after `ret = placement_address`, and another one allocates: both
    get the block at `0x8000`. -/
theorem kmalloc_race :
    ¬ (run (start 0x8000)
        ([.call false .kmalloc 24, .access false, .call true .kmalloc 24, .access true,
          .access true, .access true, .access false, .access false] :
          List (Event Bool))).returned.Pairwise Returned.Disjoint := by
  decide

end HorizonOS.Mm.Race
