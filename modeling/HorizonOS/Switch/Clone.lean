import HorizonOS.Libc.String
import HorizonOS.Proc.Basic

/-!
# `clone_stack_rebased` copies a stack and moves its frame pointers

`clone_stack_rebased(child, frame)` (kernel/scheduler/process.c:428–447) copies
the words from `frame` to the end of the running process's stack to the same
distance below the end of the child's stack, and then follows the chain of saved
frame pointers through the copy, adding `delta` to each one that points into the
copied range.

Specification: `FpChain`, the chain of frame-pointer slots of the parent.

Results:
* `rebase_chain`: the loop, run on a copy of a chain, moves every slot of the
  chain and writes no other byte.
* `cloneStackRebased_eq`: the words of the child's stack after the call.
* `FpChain.shift`: the child's chain is the parent's, moved by `delta`.
-/

namespace HorizonOS.Switch

open HorizonOS.Lib HorizonOS.Libc HorizonOS.Proc

/-! ## Model -/

/-- `FORK_FRAME_FP_SLOT` (x86_64/switch.h:44). -/
def forkFrameFpSlot : ℕ := 5

/-- The loop of `clone_stack_rebased` (process.c:441–444):
    `while (*slot >= frame && *slot < parent_stack_top)`, at most `fuel` tests
    of the condition. -/
def rebase (frame top delta : Addr) : (fuel : ℕ) → Mem → (slot : Addr) → Option Mem
  | 0, _, _ => none
  | fuel + 1, m, slot =>
    if frame ≤ m.load slot ∧ m.load slot < top then
      let m' := m.store slot (m.load slot + delta)
      rebase frame top delta fuel m' (m'.load slot)
    else some m

/-- `clone_stack_rebased(child, frame)` (process.c:428–447), run by `parent`.
    Returns the memory and the child's record; `none` when a process has no
    stack or the loop was still running after `fuel` tests. -/
def cloneStackRebased (fuel : ℕ) (m : Mem) (parent child : Process) (frame : Addr) :
    Option (Mem × Process) := do
  let parentStackTop := (← findStack parent).stop
  let childStackTop := (← findStack child).stop
  let delta := childStackTop - parentStackTop
  let childFrame := frame + delta
  let m := memcpy m childFrame frame (parentStackTop - frame).toNat
  let slot := childFrame + BitVec.ofNat 64 (8 * forkFrameFpSlot)
  let m ← rebase frame parentStackTop delta fuel m slot
  some (m, { child with sp := childFrame })

/-! ## Specification: the chain of saved frame pointers -/

/-- Following saved frame pointers from the slot `a` visits the slots `l` and
    ends with the value `c`. -/
inductive FpLinks (m : Mem) : Addr → List Addr → Word → Prop
  | last {a : Addr} : FpLinks m a [a] (m.load a)
  | next {a : Addr} {l : List Addr} {c : Word} : FpLinks m (m.load a) l c → FpLinks m a (a :: l) c

/-- The chain the loop follows: the slots `l` from `a` on are words of
    `[lo, hi)` at strictly increasing addresses, and the chain ends in a value
    `c` outside `[lo, hi)`. -/
inductive FpChain (m : Mem) (lo hi : Addr) : Addr → List Addr → Word → Prop
  | last {a : Addr} : lo ≤ a → a < hi → a.toNat % 8 = 0 →
      ¬ (lo ≤ m.load a ∧ m.load a < hi) → FpChain m lo hi a [a] (m.load a)
  | next {a : Addr} {l : List Addr} {c : Word} : lo ≤ a → a < hi → a.toNat % 8 = 0 →
      a < m.load a → FpChain m lo hi (m.load a) l c → FpChain m lo hi a (a :: l) c

/-- The value of the copied slot `a`: moved by `delta` when it points into the
    copied range. -/
def rebased (m : Mem) (lo hi delta a : Addr) : Word :=
  if lo ≤ m.load a ∧ m.load a < hi then m.load a + delta else m.load a

namespace FpChain

variable {m : Mem} {lo hi a : Addr} {l : List Addr} {c : Word}

/-- A chain of one slot. -/
theorem single (h1 : lo ≤ a) (h2 : a < hi) (h3 : a.toNat % 8 = 0) (hc : m.load a = c)
    (hout : ¬ (lo ≤ c ∧ c < hi)) : FpChain m lo hi a [a] c := by
  subst hc
  exact .last h1 h2 h3 hout

theorem head_mem (h : FpChain m lo hi a l c) : a ∈ l := by
  cases h <;> simp

theorem bounds (h : FpChain m lo hi a l c) : ∀ x ∈ l, lo ≤ x ∧ x < hi ∧ x.toNat % 8 = 0 := by
  induction h with
  | last h1 h2 h3 _ => simp [h1, h2, h3]
  | next h1 h2 h3 _ _ ih =>
    intro x hx
    rcases List.mem_cons.mp hx with rfl | hx
    · exact ⟨h1, h2, h3⟩
    · exact ih x hx

theorem head_le (h : FpChain m lo hi a l c) : ∀ x ∈ l, a ≤ x := by
  induction h with
  | last => simp
  | next _ _ _ hlt _ ih =>
    intro x hx
    rcases List.mem_cons.mp hx with rfl | hx
    · exact BitVec.le_refl _
    · have := ih x hx; bv_omega

theorem lo_le (h : FpChain m lo hi a l c) : lo ≤ a := (h.bounds a h.head_mem).1

theorem lt_hi (h : FpChain m lo hi a l c) : a < hi := (h.bounds a h.head_mem).2.1

/-- A memory whose slots hold the moved values has the chain moved by `delta`,
    with the same last value. -/
theorem shift (h : FpChain m lo hi a l c) {m' : Mem} {delta : Addr}
    (hm : ∀ x ∈ l, m'.load (x + delta) = rebased m lo hi delta x) :
    FpLinks m' (a + delta) (l.map (· + delta)) c := by
  induction h with
  | @last a _ _ _ hout =>
    have hval : m'.load (a + delta) = m.load a := by
      rw [hm a (by simp), rebased, if_neg hout]
    rw [← hval]
    exact .last
  | @next a l c _ _ _ _ hchain ih =>
    have hval : m'.load (a + delta) = m.load a + delta := by
      rw [hm a (by simp), rebased, if_pos ⟨hchain.lo_le, hchain.lt_hi⟩]
    apply FpLinks.next
    rw [hval]
    exact ih fun x hx => hm x (by simp [hx])

end FpChain

/-! ## The loop -/

/-- The loop follows a chain through its copy: it returns, every slot of the copy
    is moved, and no byte outside the slots of the copy is written. -/
theorem rebase_chain {m : Mem} {lo hi delta a : Addr} {l : List Addr} {c : Word}
    (h : FpChain m lo hi a l c) :
    ∀ μ : Mem, (∀ x ∈ l, μ.load (x + delta) = m.load x) →
      ∃ μ', (∀ fuel, l.length ≤ fuel → rebase lo hi delta fuel μ (a + delta) = some μ') ∧
        (∀ x ∈ l, μ'.load (x + delta) = rebased m lo hi delta x) ∧
        ∀ b, (∀ x ∈ l, ¬ Within (x + delta) 8 b) → μ' b = μ b := by
  induction h with
  | @last a h1 h2 h3 hout =>
    intro μ hμ
    have hval : μ.load (a + delta) = m.load a := hμ a (by simp)
    refine ⟨μ, ?_, ?_, fun _ _ => rfl⟩
    · intro fuel hf
      obtain ⟨f, rfl⟩ : ∃ f, fuel = f + 1 := ⟨fuel - 1, by simp at hf; omega⟩
      rw [rebase, hval, if_neg hout]
    · intro x hx
      obtain rfl : x = a := by simpa using hx
      rw [hval, rebased, if_neg hout]
  | @next a l c h1 h2 h3 hlt hchain ih =>
    intro μ hμ
    have hval : μ.load (a + delta) = m.load a := hμ a (by simp)
    have hin : lo ≤ m.load a ∧ m.load a < hi := ⟨hchain.lo_le, hchain.lt_hi⟩
    -- the slots still to come lie above `a`, so the store leaves them alone
    have hdisj : ∀ x ∈ l, Mem.Disjoint (a + delta) (x + delta) := by
      intro x hx
      have hle := hchain.head_le x hx
      exact Mem.disjoint_add_right_iff.mpr
        (Mem.disjoint_of_aligned h3 (hchain.bounds x hx).2.2 (by bv_omega))
    obtain ⟨μ', hrun, hslots, hframe⟩ := ih (μ.store (a + delta) (m.load a + delta)) (by
      intro x hx
      rw [Mem.load_store_of_disjoint (hdisj x hx)]
      exact hμ x (by simp [hx]))
    refine ⟨μ', ?_, ?_, ?_⟩
    · intro fuel hf
      obtain ⟨f, rfl⟩ : ∃ f, fuel = f + 1 := ⟨fuel - 1, by simp at hf; omega⟩
      rw [rebase, hval, if_pos hin]
      simp only [Mem.load_store_self]
      exact hrun f (by simpa using hf)
    · intro x hx
      rcases List.mem_cons.mp hx with rfl | hx
      · -- the slot just moved is not written again
        have hself : (μ.store (x + delta) (m.load x + delta)).load (x + delta) = m.load x + delta :=
          Mem.load_store_self _ _ _
        rw [rebased, if_pos hin, ← hself]
        apply Mem.load_congr
        intro i hi
        apply hframe
        intro y hy
        exact (hdisj y hy).symm.not_within hi
      · exact hslots x hx
    · intro b hb
      rw [hframe b fun x hx => hb x (by simp [hx])]
      exact Mem.store_apply_of_not_within (hb a (by simp))

/-! ## The whole call -/

section Clone

variable {m : Mem} {parent child : Process} {rp rc : VmRegion} {frame : Addr}

/-- The two stacks of a `fork`: the parent's region `rp` and the child's region
    `rc` have the same size and do not overlap; `frame` lies in the parent's,
    whose end is word aligned (`alloc_stack` makes both ends page aligned). -/
structure StackPair (rp rc : VmRegion) (frame : Addr) : Prop where
  parent_lt : rp.start < rp.stop
  child_lt : rc.start < rc.stop
  size_eq : rc.stop - rc.start = rp.stop - rp.start
  disjoint : rc.stop ≤ rp.start ∨ rp.stop ≤ rc.start
  aligned : rp.stop.toNat % 8 = 0
  le_frame : rp.start ≤ frame
  frame_lt : frame < rp.stop

namespace StackPair

theorem size_toNat (h : StackPair rp rc frame) :
    rc.stop.toNat - rc.start.toNat = rp.stop.toNat - rp.start.toNat := by
  have h1 := h.parent_lt
  have h2 := h.child_lt
  have h3 := congrArg BitVec.toNat h.size_eq
  bv_omega

/-- The child's copy of the snapshot lies as far below the end of its stack as
    the snapshot lies below the end of the parent's. -/
theorem toNat_childFrame (h : StackPair rp rc frame) :
    (frame + (rc.stop - rp.stop)).toNat = rc.stop.toNat - (rp.stop.toNat - frame.toNat) := by
  have h1 := h.size_toNat
  have h2 := h.le_frame
  have h3 := h.frame_lt
  have h4 := h.child_lt
  bv_omega

theorem toNat_size (h : StackPair rp rc frame) :
    (rp.stop - frame).toNat = rp.stop.toNat - frame.toNat := by
  have h3 := h.frame_lt
  bv_omega

theorem copied_iff (h : StackPair rp rc frame) (b : Addr) :
    Within (frame + (rc.stop - rp.stop)) (rp.stop - frame).toNat b ↔
      frame + (rc.stop - rp.stop) ≤ b ∧ b < rc.stop := by
  have h1 := h.size_toNat
  have h2 := h.le_frame
  have h3 := h.frame_lt
  have h4 := h.child_lt
  have h5 := rc.stop.isLt
  simp only [BitVec.le_def, BitVec.lt_def] at *
  rw [within_iff] <;> rw [h.toNat_childFrame, h.toNat_size] <;> omega

/-- The copy does not touch the parent's stack. -/
theorem not_copied (h : StackPair rp rc frame) {b : Addr} (h1 : rp.start ≤ b) (h2 : b < rp.stop) :
    ¬ Within (frame + (rc.stop - rp.stop)) (rp.stop - frame).toNat b := by
  rw [h.copied_iff]
  rintro ⟨h3, h4⟩
  have h5 := h.size_toNat
  have h6 := h.le_frame
  have h7 := h.frame_lt
  have h8 := h.disjoint
  have h9 := h.toNat_childFrame
  simp only [BitVec.le_def, BitVec.lt_def] at *
  omega

/-- A word of the parent's range has all its bytes there. -/
theorem toNat_word (h : StackPair rp rc frame) {a : Addr} (h2 : a < rp.stop)
    (h3 : a.toNat % 8 = 0) {i : ℕ} (hi : i < 8) :
    (a + BitVec.ofNat 64 i).toNat = a.toNat + i ∧ a.toNat + 8 ≤ rp.stop.toNat := by
  have hal := h.aligned
  have hlt := rp.stop.isLt
  rw [BitVec.lt_def] at h2
  exact ⟨toNat_add_ofNat (by omega), by omega⟩

theorem memcpy_eq (h : StackPair rp rc frame) (b : Addr) :
    memcpy m (frame + (rc.stop - rp.stop)) frame (rp.stop - frame).toNat b =
      if Within (frame + (rc.stop - rp.stop)) (rp.stop - frame).toNat b then
        m (frame + (b - (frame + (rc.stop - rp.stop)))) else m b := by
  apply memcpy_apply _ _ _ (by omega)
  intro i hi
  have h1 := h.le_frame
  have h2 := h.frame_lt
  have h3 := rp.stop.isLt
  rw [h.toNat_size] at hi
  simp only [BitVec.le_def, BitVec.lt_def] at h1 h2
  have h4 := toNat_add_ofNat (a := frame) (i := i) (by omega)
  exact h.not_copied (by rw [BitVec.le_def]; omega) (by rw [BitVec.lt_def]; omega)

/-- A word of the copied range lies in it with all its bytes. -/
theorem word_copied (h : StackPair rp rc frame) {a : Addr} (h1 : frame ≤ a) (h2 : a < rp.stop)
    (h3 : a.toNat % 8 = 0) {i : ℕ} (hi : i < 8) :
    Within frame (rp.stop - frame).toNat (a + BitVec.ofNat 64 i) := by
  obtain ⟨h4, h5⟩ := h.toNat_word h2 h3 hi
  have h6 := rp.stop.isLt
  rw [BitVec.le_def] at h1
  rw [h.toNat_size, within_iff (by omega), h4]
  omega

theorem memcpy_load (h : StackPair rp rc frame) {a : Addr} (h1 : frame ≤ a) (h2 : a < rp.stop)
    (h3 : a.toNat % 8 = 0) :
    (memcpy m (frame + (rc.stop - rp.stop)) frame (rp.stop - frame).toNat).load
      (a + (rc.stop - rp.stop)) = m.load a := by
  apply Mem.load_congr
  intro i hi
  rw [add_right_comm, h.memcpy_eq, if_pos (within_add_right_iff.mpr (h.word_copied h1 h2 h3 hi)),
    add_sub_add_right_eq_sub, add_sub_cancel]

end StackPair

/-- The call returns; the slots of the copied chain are moved, every other word of
    the copy is as in the parent, and nothing outside the copy is written. -/
theorem cloneStackRebased_eq (hp : findStack parent = some rp) (hc : findStack child = some rc)
    (h : StackPair rp rc frame) {slots : List Addr} {c : Word}
    (hchain : FpChain m frame rp.stop (frame + BitVec.ofNat 64 (8 * forkFrameFpSlot)) slots c) :
    ∃ m' : Mem,
      (∀ fuel, slots.length ≤ fuel →
        cloneStackRebased fuel m parent child frame =
          some (m', { child with sp := frame + (rc.stop - rp.stop) })) ∧
      (∀ a ∈ slots, m'.load (a + (rc.stop - rp.stop)) =
        rebased m frame rp.stop (rc.stop - rp.stop) a) ∧
      (∀ a, frame ≤ a → a < rp.stop → a.toNat % 8 = 0 → a ∉ slots →
        m'.load (a + (rc.stop - rp.stop)) = m.load a) ∧
      ∀ b, ¬ (frame + (rc.stop - rp.stop) ≤ b ∧ b < rc.stop) → m' b = m b := by
  obtain ⟨m', hrun, hslots, hframe⟩ := rebase_chain hchain
    (memcpy m (frame + (rc.stop - rp.stop)) frame (rp.stop - frame).toNat) (by
      intro x hx
      obtain ⟨h1, h2, h3⟩ := hchain.bounds x hx
      exact h.memcpy_load h1 h2 h3)
  refine ⟨m', ?_, hslots, ?_, ?_⟩
  · intro fuel hf
    simp only [cloneStackRebased, hp, hc, Option.bind_eq_bind, Option.bind_some]
    rw [add_right_comm, hrun fuel hf, Option.bind_some]
  · intro a h1 h2 h3 ha
    rw [← h.memcpy_load h1 h2 h3]
    apply Mem.load_congr
    intro i hi
    apply hframe
    intro x hx
    have hne : x ≠ a := fun e => ha (e ▸ hx)
    have hd : Mem.Disjoint x a := Mem.disjoint_of_aligned (hchain.bounds x hx).2.2 h3 hne
    exact (Mem.disjoint_add_right_iff.mpr hd).not_within hi
  · intro b hb
    rw [← h.copied_iff] at hb
    rw [hframe b, h.memcpy_eq, if_neg hb]
    -- the slots of the chain lie in the copied range
    intro x hx hw
    obtain ⟨h1, h2, h3⟩ := hchain.bounds x hx
    obtain ⟨i, hi, rfl⟩ := exists_of_within hw
    apply hb
    rw [add_right_comm]
    exact within_add_right_iff.mpr (h.word_copied h1 h2 h3 hi)

/-- **`clone_stack_rebased` clones the stack.** When the saved frame pointers of
    the parent from the snapshot on form a chain, the call returns, whatever the
    depth of the chain, and with `delta` the distance from the end of the parent's
    stack to the end of the child's:
    * a chain slot that points into `[frame, end)` points, in the copy, to the copy
      of what it pointed to;
    * every other word is copied unchanged;
    * no byte outside the child's copy changes, in particular none of the
      parent's;
    * the child's saved stack pointer is the copied snapshot;
    * the child's chain is the parent's moved by `delta`. -/
theorem cloneStackRebased_clones (hp : findStack parent = some rp) (hc : findStack child = some rc)
    (h : StackPair rp rc frame) {slots : List Addr} {c : Word}
    (hchain : FpChain m frame rp.stop (frame + BitVec.ofNat 64 (8 * forkFrameFpSlot)) slots c) :
    let delta := rc.stop - rp.stop
    ∃ m' : Mem,
      (∀ fuel, slots.length ≤ fuel →
        cloneStackRebased fuel m parent child frame =
          some (m', { child with sp := frame + delta })) ∧
      (∀ a ∈ slots, m'.load a = m.load a ∧
        (frame ≤ m.load a ∧ m.load a < rp.stop → m'.load (a + delta) = m.load a + delta)) ∧
      (∀ a, frame ≤ a → a < rp.stop → a.toNat % 8 = 0 →
        (a ∉ slots ∨ ¬ (frame ≤ m.load a ∧ m.load a < rp.stop)) →
        m'.load (a + delta) = m.load a) ∧
      (∀ b, rp.start ≤ b → b < rp.stop → m' b = m b) ∧
      (∀ b, ¬ (frame + delta ≤ b ∧ b < rp.stop + delta) → m' b = m b) ∧
      FpLinks m' (frame + delta + BitVec.ofNat 64 (8 * forkFrameFpSlot))
        (slots.map (· + delta)) c := by
  intro delta
  obtain ⟨m', hrun, hslots, hwords, hout⟩ := cloneStackRebased_eq hp hc h hchain
  have hparent : ∀ b, rp.start ≤ b → b < rp.stop → m' b = m b := fun b h1 h2 =>
    hout b (by rw [← h.copied_iff]; exact h.not_copied h1 h2)
  refine ⟨m', hrun, ?_, ?_, hparent, ?_, ?_⟩
  · intro a ha
    obtain ⟨h1, h2, h3⟩ := hchain.bounds a ha
    have hlo := h.le_frame
    refine ⟨Mem.load_congr fun i hi => ?_, fun hin => ?_⟩
    · obtain ⟨h4, h5⟩ := h.toNat_word h2 h3 hi
      simp only [BitVec.le_def] at h1 hlo
      exact hparent _ (by rw [BitVec.le_def]; omega) (by rw [BitVec.lt_def]; omega)
    · rw [hslots a ha, rebased, if_pos hin]
  · intro a h1 h2 h3 hor
    by_cases ha : a ∈ slots
    · rw [hslots a ha, rebased, if_neg (hor.resolve_left (by simpa using ha))]
    · exact hwords a h1 h2 h3 ha
  · intro b hb
    have hstop : rp.stop + delta = rc.stop := add_sub_cancel _ _
    rw [hstop] at hb
    exact hout b hb
  · have hshift : frame + delta + BitVec.ofNat 64 (8 * forkFrameFpSlot) =
        frame + BitVec.ofNat 64 (8 * forkFrameFpSlot) + delta := add_right_comm _ _ _
    rw [hshift]
    exact hchain.shift hslots

/-- A parent stack with two frames, forked into a child whose stack lies above:
    the saved frame pointer at `0x10f28` points to the slot `0x10f80`, which ends
    the chain with 0. -/
theorem cloneStackRebased_clones_two_frames :
    let m : Mem := Mem.store (fun _ => 0) 0x10f28#64 0x10f80#64
    let parent : Process := { vmList := [⟨0, .stack, 0x10000, 0x11000⟩] }
    let child : Process := { vmList := [⟨0, .stack, 0x20000, 0x21000⟩] }
    ∃ m' : Mem, cloneStackRebased 2 m parent child 0x10f00 =
        some (m', { child with sp := 0x20f00 }) ∧
      m'.load 0x10f28 = 0x10f80 ∧ m'.load 0x20f28 = 0x20f80 ∧ m'.load 0x20f80 = 0 ∧
      FpLinks m' 0x20f28 [0x20f28, 0x20f80] 0 := by
  intro m parent child
  have hl1 : m.load 0x10f28#64 = 0x10f80#64 := Mem.load_store_self _ _ _
  have hl2 : m.load 0x10f80#64 = 0#64 := by decide
  have hchain : FpChain m 0x10f00 0x11000 0x10f28#64 [0x10f28#64, 0x10f80#64] 0#64 := by
    apply FpChain.next (by decide) (by decide) (by decide) (by rw [hl1]; decide)
    rw [hl1]
    exact FpChain.single (by decide) (by decide) (by decide) hl2 (by decide)
  have hp : findStack parent = some ⟨0, .stack, 0x10000, 0x11000⟩ := rfl
  have hc : findStack child = some ⟨0, .stack, 0x20000, 0x21000⟩ := rfl
  have hpair : StackPair ⟨0, .stack, 0x10000, 0x11000⟩ ⟨0, .stack, 0x20000, 0x21000⟩ 0x10f00 :=
    ⟨by decide, by decide, by decide, by decide, by decide, by decide, by decide⟩
  obtain ⟨m', hrun, hslots, hwords, -, -, hlinks⟩ := cloneStackRebased_clones hp hc hpair hchain
  obtain ⟨h1, h2⟩ := hslots 0x10f28#64 (by simp)
  have h3 := hwords 0x10f80#64 (by decide) (by decide) (by decide) (Or.inr (by rw [hl2]; decide))
  rw [hl1] at h1 h2
  rw [hl2] at h3
  exact ⟨m', hrun 2 (by simp), h1, h2 ⟨by decide, by decide⟩, h3, hlinks⟩

end Clone

end HorizonOS.Switch
