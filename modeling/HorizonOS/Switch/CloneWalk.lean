import HorizonOS.I386.Switch

/-!
# The frame-pointer walk of `fork` ends

The loop of `clone_stack_rebased` (process.c:441–444) follows words of the child's stack that look
like pointers into the parent's. Nothing is known about these words: the compiler may use `rbp` as
a general register, and the copied range holds data as well. Each word the loop follows is moved
out of the parent's range, so the loop is a `walk` and ends.

* `rebase_eq_walk`: the loop is a walk.
* `moves_memcpy`: on the copy of a stack, the walk stays on the words of the copy.
* `clone_walk_ends`: the loop ends, on both architectures.
-/

/-! ## i386 -/

namespace HorizonOS.I386.Switch

open HorizonOS.Lib

/-- `FORK_FRAME_FP_SLOT` (i386/switch.h:43). -/
def forkFrameFpSlot : ℕ := 3

/-- `memcpy` (libc/string/string.c:19–26) of `n` words, from one aligned address to another. -/
def memcpy (m : Mem) (dst src : BitVec 32) : (n : ℕ) → Mem
  | 0 => m
  | i + 1 =>
    let m' := memcpy m dst src i
    Function.update m' (dst + BitVec.ofNat 32 (4 * i)) (m' (src + BitVec.ofNat 32 (4 * i)))

/-- The loop of `clone_stack_rebased` (process.c:441–444), at most `fuel` tests of the
    condition. -/
def rebase (frame top delta : BitVec 32) : (fuel : ℕ) → Mem → (slot : BitVec 32) → Option Mem
  | 0, _, _ => none
  | fuel + 1, m, slot =>
    if frame ≤ m slot ∧ m slot < top then
      let m' := Function.update m slot (m slot + delta)
      rebase frame top delta fuel m' (m' slot)
    else some m

/-- `clone_stack_rebased(child, frame)` (process.c:428–447), where `find_stack` gave stacks that
    end at `parentStackTop` and `childStackTop`: the memory and `child->context.sp`. -/
def cloneStackRebased (fuel : ℕ) (m : Mem) (parentStackTop childStackTop frame : BitVec 32) :
    Option (Mem × BitVec 32) := do
  let delta := childStackTop - parentStackTop
  let childFrame := frame + delta
  let m := memcpy m childFrame frame ((parentStackTop - frame).toNat / 4)
  let slot := childFrame + BitVec.ofNat 32 (4 * forkFrameFpSlot)
  let m ← rebase frame parentStackTop delta fuel m slot
  some (m, childFrame)

/-- The slots that the loop reads. -/
def cloneSlots (fuel : ℕ) (m : Mem) (parentStackTop childStackTop frame : BitVec 32) :
    List (BitVec 32) :=
  let delta := childStackTop - parentStackTop
  walkSlots (fun m a => m a) Function.update (fun v => frame ≤ v ∧ v < parentStackTop) (· + delta)
    fuel (memcpy m (frame + delta) frame ((parentStackTop - frame).toNat / 4))
    (frame + delta + BitVec.ofNat 32 (4 * forkFrameFpSlot))

theorem rebase_eq_walk (frame top delta : BitVec 32) (fuel : ℕ) (m : Mem) (slot : BitVec 32) :
    rebase frame top delta fuel m slot =
      walk (fun m a => m a) Function.update (fun v => frame ≤ v ∧ v < top) (· + delta) fuel m
        slot := by
  induction fuel generalizing m slot with
  | zero => rfl
  | succ fuel ih => simp only [rebase, walk, ih]

/-- The stacks of a `fork`, `[pStart, pStop)` and `[cStart, cStop)`: they have the same size, do
    not overlap and end on word boundaries. The frame of `clone_parent_base_frame`, five words and
    the return address above them, lies in the parent's. -/
structure StackPair (pStart pStop cStart cStop frame : BitVec 32) : Prop where
  size_eq : cStop.toNat - cStart.toNat = pStop.toNat - pStart.toNat
  child_lt : cStart.toNat < cStop.toNat
  disjoint : cStop.toNat ≤ pStart.toNat ∨ pStop.toNat ≤ cStart.toNat
  parent_aligned : pStop.toNat % 4 = 0
  child_aligned : cStop.toNat % 4 = 0
  le_frame : pStart.toNat ≤ frame.toNat
  frame_aligned : frame.toNat % 4 = 0
  frame_le : frame.toNat + 24 ≤ pStop.toNat

/-- Every word of `[frame, stop)` whose value lies in that range is word aligned. -/
def AlignedPointers (m : Mem) (frame stop : BitVec 32) : Prop :=
  ∀ a : BitVec 32, frame ≤ a → a < stop → a.toNat % 4 = 0 →
    frame ≤ m a → m a < stop → (m a).toNat % 4 = 0

/-- A copy to words that the source does not contain. -/
theorem memcpy_apply (m : Mem) (dst src : BitVec 32) {n : ℕ} (hn : 4 * n ≤ 2 ^ 32)
    (hsep : ∀ i < n, ∀ j < n, src + BitVec.ofNat 32 (4 * i) ≠ dst + BitVec.ofNat 32 (4 * j)) {i : ℕ}
    (hi : i < n) :
    memcpy m dst src n (dst + BitVec.ofNat 32 (4 * i)) = m (src + BitVec.ofNat 32 (4 * i)) := by
  have hinj : ∀ j < n, ∀ k < n, j ≠ k →
      dst + BitVec.ofNat 32 (4 * j) ≠ dst + BitVec.ofNat 32 (4 * k) := by
    intro j hj k hk hne heq
    have h := congrArg BitVec.toNat (add_left_cancel heq)
    rw [BitVec.toNat_ofNat, BitVec.toNat_ofNat] at h
    omega
  -- after `k` iterations the first `k` words are copied and the source is as before
  have hrun : ∀ k ≤ n, (∀ j < k, memcpy m dst src k (dst + BitVec.ofNat 32 (4 * j)) =
      m (src + BitVec.ofNat 32 (4 * j))) ∧ ∀ j < n,
      memcpy m dst src k (src + BitVec.ofNat 32 (4 * j)) = m (src + BitVec.ofNat 32 (4 * j)) := by
    intro k
    induction k with
    | zero => exact fun _ => ⟨fun j hj => absurd hj (Nat.not_lt_zero j), fun _ _ => rfl⟩
    | succ k ih =>
      intro hk
      obtain ⟨hdst, hsrc⟩ := ih (by omega)
      simp only [memcpy]
      refine ⟨fun j hj => ?_, fun j hj => ?_⟩
      · by_cases hjk : j = k
        · rw [hjk, Function.update_self]
          exact hsrc k (by omega)
        · rw [Function.update_of_ne (hinj j (by omega) k (by omega) hjk)]
          exact hdst j (by omega)
      · rw [Function.update_of_ne (hsep j hj k (by omega))]
        exact hsrc j hj
  exact (hrun n le_rfl).1 i hi

section StackPair

variable {pStart pStop cStart cStop frame : BitVec 32} {m : Mem}

namespace StackPair

variable (h : StackPair pStart pStop cStart cStop frame)

include h

/-- An address of the copied range, moved to the child's stack. -/
theorem toNat_add_delta {v : BitVec 32} (hle : frame.toNat ≤ v.toNat) (hlt : v.toNat < pStop.toNat) :
    (v + (cStop - pStop)).toNat = cStop.toNat - (pStop.toNat - v.toNat) := by
  obtain ⟨h1, h2, h3, h4, h5, h6, h7, h8⟩ := h
  have h9 := cStop.isLt
  have h10 := pStop.isLt
  rw [BitVec.toNat_add, BitVec.toNat_sub]
  omega

theorem toNat_size : (pStop - frame).toNat = pStop.toNat - frame.toNat := by
  have h1 := h.frame_le
  have h2 := pStop.isLt
  rw [BitVec.toNat_sub]
  omega

/-- The copied range is a whole number of words. -/
theorem size_eq_words : 4 * ((pStop - frame).toNat / 4) = pStop.toNat - frame.toNat := by
  have h1 := h.parent_aligned
  have h2 := h.frame_aligned
  rw [h.toNat_size]
  omega

theorem toNat_word {i : ℕ} (hi : i < (pStop - frame).toNat / 4) :
    (frame + BitVec.ofNat 32 (4 * i)).toNat = frame.toNat + 4 * i := by
  have h1 := h.size_eq_words
  have h2 := pStop.isLt
  rw [BitVec.toNat_add, BitVec.toNat_ofNat]
  omega

theorem memcpy_word {i : ℕ} (hi : i < (pStop - frame).toNat / 4) :
    memcpy m (frame + (cStop - pStop)) frame ((pStop - frame).toNat / 4)
        (frame + (cStop - pStop) + BitVec.ofNat 32 (4 * i)) =
      m (frame + BitVec.ofNat 32 (4 * i)) := by
  have h1 := h.size_eq_words
  refine memcpy_apply m _ _ (by have := pStop.isLt; omega) ?_ hi
  intro i hi j hj heq
  have hlt : frame.toNat + 4 * j < pStop.toNat := by omega
  have hchild := h.toNat_add_delta (v := frame + BitVec.ofNat 32 (4 * j))
    (by rw [h.toNat_word hj]; omega) (by rw [h.toNat_word hj]; exact hlt)
  rw [add_right_comm] at hchild
  have hnat := congrArg BitVec.toNat heq
  rw [hchild, h.toNat_word hi, h.toNat_word hj] at hnat
  obtain ⟨h2, h3, h4, h5, h6, h7, h8, h9⟩ := h
  omega

/-- On the copy, the walk stays on the words of the copy. -/
theorem moves_memcpy (hal : AlignedPointers m frame pStop) :
    Moves (fun (m : Mem) a => m a) Function.update (fun v => frame ≤ v ∧ v < pStop)
      (· + (cStop - pStop)) (words (frame + (cStop - pStop)) 4 ((pStop - frame).toNat / 4))
      (memcpy m (frame + (cStop - pStop)) frame ((pStop - frame).toNat / 4)) := by
  have hsize := h.size_eq_words
  -- a word of the copy that is in range is aligned
  have hword : ∀ a ∈ words (frame + (cStop - pStop)) 4 ((pStop - frame).toNat / 4), ∀ v,
      memcpy m (frame + (cStop - pStop)) frame ((pStop - frame).toNat / 4) a = v →
      frame ≤ v → v < pStop → v.toNat % 4 = 0 := by
    intro a ha v hv hle hlt
    obtain ⟨i, hi, rfl⟩ := mem_words.mp ha
    rw [h.memcpy_word hi] at hv
    subst hv
    have hnat := h.toNat_word hi
    have haligned := h.frame_aligned
    exact hal _ (by rw [BitVec.le_def]; omega) (by rw [BitVec.lt_def]; omega) (by omega) hle hlt
  refine ⟨fun m a _ v => Function.update_self a v m,
    fun m a _ b _ hne v => Function.update_of_ne hne.symm v m, ?_, ?_⟩
  · rintro a - ⟨hle, hlt⟩ hin
    rw [BitVec.le_def, BitVec.lt_def, h.toNat_add_delta hle hlt] at hin
    obtain ⟨h1, h2, h3, h4, h5, h6, h7, h8⟩ := h
    rw [BitVec.le_def] at hle
    rw [BitVec.lt_def] at hlt
    omega
  · rintro a ha ⟨hle, hlt⟩
    have haligned := hword a ha _ rfl hle hlt
    have hframe := h.frame_aligned
    rw [BitVec.le_def] at hle
    rw [BitVec.lt_def] at hlt
    rw [words_add]
    exact Finset.mem_image_of_mem _ (mem_words_of_toNat hle (by omega) (by omega))

end StackPair

theorem cloneStackRebased_ends (h : StackPair pStart pStop cStart cStop frame)
    (hal : AlignedPointers m frame pStop) :
    let n := (pStop - frame).toNat / 4
    (∃ m', cloneStackRebased (n + 1) m pStop cStop frame = some (m', frame + (cStop - pStop))) ∧
      ∀ slot ∈ cloneSlots (n + 1) m pStop cStop frame,
        frame + (cStop - pStop) ≤ slot ∧ slot.toNat + 4 ≤ cStop.toNat := by
  intro n
  have hsize := h.size_eq_words
  have hle := h.frame_le
  have hmoves := h.moves_memcpy hal
  have hfirst : frame + (cStop - pStop) + BitVec.ofNat 32 (4 * forkFrameFpSlot) ∈
      words (frame + (cStop - pStop)) 4 n :=
    mem_words.mpr ⟨forkFrameFpSlot, by unfold forkFrameFpSlot; omega, rfl⟩
  obtain ⟨⟨m', hwalk⟩, hslots⟩ :=
    walk_returns hmoves hfirst (Nat.lt_succ_of_le (card_words_le _ 4 n))
  refine ⟨⟨m', ?_⟩, fun slot hslot => ?_⟩
  · simp only [cloneStackRebased, rebase_eq_walk]
    rw [hwalk]
    rfl
  · obtain ⟨i, hi, rfl⟩ := mem_words.mp (hslots slot hslot)
    have hnat := h.toNat_word hi
    have hframe := h.toNat_add_delta (v := frame) le_rfl (by omega)
    have hslot := h.toNat_add_delta (v := frame + BitVec.ofNat 32 (4 * i)) (by omega) (by omega)
    obtain ⟨h1, h2, h3, h4, h5, h6, h7, h8⟩ := h
    rw [add_right_comm] at hslot
    rw [BitVec.le_def, hframe, hslot, hnat]
    omega

end StackPair

end HorizonOS.I386.Switch

/-! ## x86_64 -/

namespace HorizonOS.Switch

open HorizonOS.Lib HorizonOS.Libc HorizonOS.Proc

/-- The slots that the loop of `clone_stack_rebased` reads, when the stacks of the two processes
    are `rp` and `rc`. -/
def cloneSlots (fuel : ℕ) (m : Mem) (rp rc : VmRegion) (frame : Addr) : List Addr :=
  let delta := rc.stop - rp.stop
  walkSlots Mem.load Mem.store (fun v => frame ≤ v ∧ v < rp.stop) (· + delta) fuel
    (memcpy m (frame + delta) frame (rp.stop - frame).toNat)
    (frame + delta + BitVec.ofNat 64 (8 * forkFrameFpSlot))

theorem rebase_eq_walk (frame top delta : Addr) (fuel : ℕ) (m : Mem) (slot : Addr) :
    rebase frame top delta fuel m slot =
      walk Mem.load Mem.store (fun v => frame ≤ v ∧ v < top) (· + delta) fuel m slot := by
  induction fuel generalizing m slot with
  | zero => rfl
  | succ fuel ih => simp only [rebase, walk, ih]

/-- Every word of `[frame, stop)` whose value lies in that range is word aligned. -/
def AlignedPointers (m : Mem) (frame stop : Addr) : Prop :=
  ∀ a : Addr, frame ≤ a → a < stop → a.toNat % 8 = 0 →
    frame ≤ m.load a → m.load a < stop → (m.load a).toNat % 8 = 0

/-- `frame` is the address that `clone_parent_base_frame` passes: it is word aligned, and the seven
    words pushed and the return address above them lie in the stack. -/
structure IsSnapshot (rp : VmRegion) (frame : Addr) : Prop where
  aligned : frame.toNat % 8 = 0
  le_stop : frame.toNat + 64 ≤ rp.stop.toNat

section StackPair

variable {m : Mem} {rp rc : VmRegion} {frame : Addr}

/-- The copied range is a whole number of words. -/
theorem StackPair.size_eq_words (h : StackPair rp rc frame) (hf : IsSnapshot rp frame) :
    8 * ((rp.stop - frame).toNat / 8) = rp.stop.toNat - frame.toNat := by
  have h1 := h.aligned
  have h2 := hf.aligned
  rw [h.toNat_size]
  omega

theorem StackPair.toNat_nthWord (h : StackPair rp rc frame) (hf : IsSnapshot rp frame) {i : ℕ}
    (hi : i < (rp.stop - frame).toNat / 8) :
    (frame + BitVec.ofNat 64 (8 * i)).toNat = frame.toNat + 8 * i := by
  have h1 := h.size_eq_words hf
  have h2 := rp.stop.isLt
  exact toNat_add_ofNat (by omega)

theorem StackPair.within_of_mem (h : StackPair rp rc frame) {v : Addr} (hle : frame ≤ v)
    (hlt : v < rp.stop) : Within frame (rp.stop - frame).toNat v := by
  have hframe := h.frame_lt
  have hstop := rp.stop.isLt
  simp only [BitVec.le_def, BitVec.lt_def] at hle hlt hframe
  rw [h.toNat_size, within_iff (by omega)]
  omega

/-- On the copy, the walk stays on the words of the copy. -/
theorem StackPair.moves_memcpy (h : StackPair rp rc frame) (hf : IsSnapshot rp frame)
    (hal : AlignedPointers m frame rp.stop) :
    Moves Mem.load Mem.store (fun v => frame ≤ v ∧ v < rp.stop) (· + (rc.stop - rp.stop))
      (words (frame + (rc.stop - rp.stop)) 8 ((rp.stop - frame).toNat / 8))
      (memcpy m (frame + (rc.stop - rp.stop)) frame (rp.stop - frame).toNat) := by
  have hsize := h.size_eq_words hf
  have hframe := hf.aligned
  have hstop := rp.stop.isLt
  -- a word of the copy that is in range is aligned
  have hword : ∀ a ∈ words (frame + (rc.stop - rp.stop)) 8 ((rp.stop - frame).toNat / 8), ∀ v,
      (memcpy m (frame + (rc.stop - rp.stop)) frame (rp.stop - frame).toNat).load a = v →
      frame ≤ v → v < rp.stop → v.toNat % 8 = 0 := by
    intro a ha v hv hle hlt
    obtain ⟨i, hi, rfl⟩ := mem_words.mp ha
    have hnat := h.toNat_nthWord hf hi
    have h1 : frame ≤ frame + BitVec.ofNat 64 (8 * i) := by rw [BitVec.le_def]; omega
    have h2 : frame + BitVec.ofNat 64 (8 * i) < rp.stop := by rw [BitVec.lt_def]; omega
    have h3 : (frame + BitVec.ofNat 64 (8 * i)).toNat % 8 = 0 := by omega
    rw [add_right_comm, h.memcpy_load h1 h2 h3] at hv
    subst hv
    exact hal _ h1 h2 h3 hle hlt
  refine ⟨fun m a _ v => Mem.load_store_self m a v, ?_, ?_, ?_⟩
  · intro m a ha b hb hne v
    obtain ⟨i, hi, rfl⟩ := mem_words.mp ha
    obtain ⟨j, hj, rfl⟩ := mem_words.mp hb
    apply Mem.load_store_of_disjoint
    rw [Mem.disjoint_add_left_iff]
    have hij : ∀ k, k < (rp.stop - frame).toNat / 8 → (BitVec.ofNat 64 (8 * k)).toNat = 8 * k := by
      intro k hk
      rw [BitVec.toNat_ofNat]
      omega
    refine Mem.disjoint_of_aligned (by rw [hij i hi]; omega) (by rw [hij j hj]; omega) ?_
    intro heq
    exact hne (by rw [heq])
  · rintro a - ⟨hle, hlt⟩ ⟨hle', hlt'⟩
    exact h.not_copied (BitVec.le_trans h.le_frame hle') hlt'
      (within_add_right_iff.mpr (h.within_of_mem hle hlt))
  · rintro a ha ⟨hle, hlt⟩
    have haligned := hword a ha _ rfl hle hlt
    rw [BitVec.le_def] at hle
    rw [BitVec.lt_def] at hlt
    rw [words_add]
    exact Finset.mem_image_of_mem _ (mem_words_of_toNat hle (by omega) (by omega))

theorem cloneStackRebased_ends {parent child : Process} (hp : findStack parent = some rp)
    (hc : findStack child = some rc) (h : StackPair rp rc frame) (hf : IsSnapshot rp frame)
    (hal : AlignedPointers m frame rp.stop) :
    let n := (rp.stop - frame).toNat / 8
    (∃ m', cloneStackRebased (n + 1) m parent child frame =
        some (m', { child with sp := frame + (rc.stop - rp.stop) })) ∧
      ∀ slot ∈ cloneSlots (n + 1) m rp rc frame,
        frame + (rc.stop - rp.stop) ≤ slot ∧ slot.toNat + 8 ≤ rc.stop.toNat := by
  intro n
  have hsize := h.size_eq_words hf
  have hle := hf.le_stop
  have hmoves := h.moves_memcpy hf hal
  have hfirst : frame + (rc.stop - rp.stop) + BitVec.ofNat 64 (8 * forkFrameFpSlot) ∈
      words (frame + (rc.stop - rp.stop)) 8 n :=
    mem_words.mpr ⟨forkFrameFpSlot, by unfold forkFrameFpSlot; omega, rfl⟩
  obtain ⟨⟨m', hwalk⟩, hslots⟩ :=
    walk_returns hmoves hfirst (Nat.lt_succ_of_le (card_words_le _ 8 n))
  refine ⟨⟨m', ?_⟩, fun slot hslot => ?_⟩
  · simp only [cloneStackRebased, hp, hc, Option.bind_eq_bind, Option.bind_some, rebase_eq_walk]
    rw [hwalk, Option.bind_some]
  · obtain ⟨i, hi, rfl⟩ := mem_words.mp (hslots slot hslot)
    have hchild := h.toNat_childFrame
    have hcsize := h.size_toNat
    have hlo := h.le_frame
    have hclt := h.child_lt
    have hstop := rc.stop.isLt
    rw [BitVec.le_def] at hlo
    rw [BitVec.lt_def] at hclt
    rw [BitVec.le_def, toNat_add_ofNat (by omega), hchild]
    omega

end StackPair

/-- **The walk of `clone_stack_rebased` ends.** Whatever the parent's stack holds, if the words
    that point into the copied range are aligned, the loop ends after at most as many iterations as
    the range has words, and every slot it reads is a word of the child's copy. On x86_64 a word
    has eight bytes, on i386 four. -/
theorem clone_walk_ends :
    (∀ (m : Mem) (parent child : Process) (rp rc : VmRegion) (frame : Addr),
      findStack parent = some rp → findStack child = some rc → StackPair rp rc frame →
      IsSnapshot rp frame → AlignedPointers m frame rp.stop →
      let n := (rp.stop - frame).toNat / 8
      (∃ m', cloneStackRebased (n + 1) m parent child frame =
          some (m', { child with sp := frame + (rc.stop - rp.stop) })) ∧
        ∀ slot ∈ cloneSlots (n + 1) m rp rc frame,
          frame + (rc.stop - rp.stop) ≤ slot ∧ slot.toNat + 8 ≤ rc.stop.toNat) ∧
    ∀ (m : I386.Switch.Mem) (pStart pStop cStart cStop frame : BitVec 32),
      I386.Switch.StackPair pStart pStop cStart cStop frame →
      I386.Switch.AlignedPointers m frame pStop →
      let n := (pStop - frame).toNat / 4
      (∃ m', I386.Switch.cloneStackRebased (n + 1) m pStop cStop frame =
          some (m', frame + (cStop - pStop))) ∧
        ∀ slot ∈ I386.Switch.cloneSlots (n + 1) m pStop cStop frame,
          frame + (cStop - pStop) ≤ slot ∧ slot.toNat + 4 ≤ cStop.toNat :=
  ⟨fun _ _ _ _ _ _ hp hc h hf hal => cloneStackRebased_ends hp hc h hf hal,
    fun _ _ _ _ _ _ h hal => I386.Switch.cloneStackRebased_ends h hal⟩

/-- A parent whose saved frame pointer points to itself, on both architectures. -/
theorem clone_walk_ends_cycle :
    (∃ m', cloneStackRebased 33 (Mem.store (fun _ => 0) 0x10f28#64 0x10f28#64)
        { vmList := [⟨0, .stack, 0x10000, 0x11000⟩] } { vmList := [⟨0, .stack, 0x20000, 0x21000⟩] }
        0x10f00 = some (m', { vmList := [⟨0, .stack, 0x20000, 0x21000⟩], sp := 0x20f00 })) ∧
    ∃ m', I386.Switch.cloneStackRebased 65 (Function.update (fun _ => 0) 0x10f0c#32 0x10f0c#32) 0x11000
        0x21000 0x10f00 = some (m', 0x20f00) := by
  constructor
  · have hal : AlignedPointers (Mem.store (fun _ => 0) 0x10f28#64 0x10f28#64) 0x10f00 0x11000 := by
      intro a h1 h2 h3 h4 h5
      by_cases ha : a = 0x10f28#64
      · rw [ha, Mem.load_store_self]
        decide
      · have hload : (Mem.store (fun _ => 0) 0x10f28#64 0x10f28#64).load a = 0 := by
          rw [Mem.load_store_of_disjoint (Mem.disjoint_of_aligned (by decide) h3 (Ne.symm ha))]
          show 0#8 ++ 0#8 ++ 0#8 ++ 0#8 ++ 0#8 ++ 0#8 ++ 0#8 ++ 0#8 = 0#64
          decide
        rw [hload]
        rfl
    exact (clone_walk_ends.1 _ { vmList := [⟨0, .stack, 0x10000, 0x11000⟩] }
      { vmList := [⟨0, .stack, 0x20000, 0x21000⟩] } ⟨0, .stack, 0x10000, 0x11000⟩
      ⟨0, .stack, 0x20000, 0x21000⟩ 0x10f00 rfl rfl
      ⟨by decide, by decide, by decide, by decide, by decide, by decide, by decide⟩
      ⟨by decide, by decide⟩ hal).1
  · have hal : I386.Switch.AlignedPointers (Function.update (fun _ => 0) 0x10f0c#32 0x10f0c#32) 0x10f00
        0x11000 := by
      intro a h1 h2 h3 h4 h5
      by_cases ha : a = 0x10f0c#32
      · rw [ha, Function.update_self]
        decide
      · rw [Function.update_of_ne ha]
        rfl
    exact (clone_walk_ends.2 _ 0x10000 0x11000 0x20000 0x21000 0x10f00
      ⟨by decide, by decide, by decide, by decide, by decide, by decide, by decide, by decide⟩
      hal).1

end HorizonOS.Switch
