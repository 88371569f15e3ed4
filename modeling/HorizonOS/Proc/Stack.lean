import HorizonOS.Paging.Map
import HorizonOS.Proc.Basic

/-!
# `alloc_stack` and its guard pages

`alloc_stack` (kernel/scheduler/process.c:33–62) takes a stack and its
`vm_region` from the heap and unmaps the lowest page of the stack. The heap lies
in the direct map, which the boot loader maps with large pages, so the unmap
itself takes page tables from the same heap.

Results:
* `allocStack_spec`: one call.
* `Arena.Inv.step`: the invariant of a sequence of heap calls.
* `arena_guards`: after any sequence the unmapped pages of the heap are the
  lowest pages of the stacks.
-/

namespace HorizonOS.Proc

open HorizonOS.Lib HorizonOS.Lib.Radix HorizonOS.Libc HorizonOS.Mm HorizonOS.Paging

/-! ## Model -/

/-- `FL_VM_READ | FL_VM_WRITE` (asm/mm.h:14–15). -/
def stackFlags : Word := 1#64 <<< 1 ||| 1#64 <<< 2

/-- The assignments to `*vma_stack` (process.c:46–52): `flags` at offset 0, `type` (four
    bytes, `STACK` is 0) at 8, `start` at 16 and `end` at 24. -/
def fillVmRegion (s : MmState) (vma stack : Addr) : MmState :=
  let s := s.write vma stackFlags
  let s := { s with mem := s.mem.store32 (vma + 8#64) 0 }
  let s := s.write (vma + 16#64) stack
  s.write (vma + 24#64) (stack + BitVec.ofNat 64 kstackSize)

/-- `alloc_stack()` (process.c:33–62); `none` is a panic. A region stands for the pointer
    to it; `sizeof(struct vm_region)` is 48. -/
def allocStack (L : Layout) (s : MmState) : Option VmRegion × MmState :=
  let (stack, s) := kmallocA s (BitVec.ofNat 32 kstackSize)
  let (vma, s) := kmalloc s 48
  if stack = 0 ∨ vma = 0 then (none, s)
  else
    let s := fillVmRegion s vma stack
    let (guardFrame, s) := unmapPage L s (s.mem.load (vma + 16#64)) s.cr3
    if guardFrame = 0 then (none, s)
    else (some ⟨stackFlags, .stack, stack, stack + BitVec.ofNat 64 kstackSize⟩, s)

/-- The heap and what `alloc_stack` has returned so far; `panicked` once it did not
    return. -/
structure Arena where
  mm : MmState
  regions : List VmRegion
  panicked : Bool

/-- A call into the heap. -/
inductive HeapCall
  | kmalloc (sz : BitVec 32)
  | kmallocA (sz : BitVec 32)
  | kmallocAz (sz : BitVec 32)
  | allocStack
deriving DecidableEq

namespace Arena

/-- One call. After a panic nothing happens. -/
def step (L : Layout) (a : Arena) (c : HeapCall) : Arena :=
  if a.panicked then a
  else
    match c with
    | .kmalloc sz => { a with mm := (Mm.kmalloc a.mm sz).2 }
    | .kmallocA sz => { a with mm := (Mm.kmallocA a.mm sz).2 }
    | .kmallocAz sz => { a with mm := (Mm.kmallocAz a.mm sz).2 }
    | .allocStack =>
      match Proc.allocStack L a.mm with
      | (none, s) => { a with mm := s, panicked := true }
      | (some r, s) => { a with mm := s, regions := r :: a.regions }

def run (L : Layout) (a : Arena) (cs : List HeapCall) : Arena := cs.foldl (step L) a

end Arena

/-! ## Blocks -/

section Blocks

variable {L : Layout} {cr3 : Word} {hi lo : ℕ} {s s' : MmState}

theorem fit_head {b : Block} (hfit : Fit hi s s') (hb : s'.allocs = b :: s.allocs) :
    b.addr.toNat + b.size ≤ hi := by
  obtain ⟨bs, hbs, hin⟩ := hfit
  obtain rfl : bs = [b] := List.append_cancel_right (hbs.symm.trans hb)
  exact hin b (List.mem_singleton_self b)

/-- Handing out a block from the heap pointer on, and writing in it, is a step that no
    translation notices. -/
theorem walked_push (hs : AddrSpace L cr3 hi s) {a : Addr} {n : ℕ}
    (hle : s.placementAddress.toNat ≤ a.toNat) (hn : a.toNat + n ≤ hi)
    (hp : s'.placementAddress = a + BitVec.ofNat 64 n) (hb : s'.allocs = ⟨a, n⟩ :: s.allocs)
    (hmem : ∀ b, ¬ Within a n b → s'.mem b = s.mem b) (hcr3 : s'.cr3 = s.cr3) :
    Walked L cr3 hi s s' := by
  have h1 := hs.hi_le
  have h2 := L.kernelVirtBase.isLt
  have hp' : s'.placementAddress.toNat = a.toNat + n := by
    rw [hp, toNat_add_ofNat (by omega)]
  have hout : ∀ b : Addr, b.toNat < s.placementAddress.toNat ∨ hi ≤ b.toNat →
      s'.mem b = s.mem b := by
    intro b hb
    apply hmem
    rw [within_iff (by omega)]
    omega
  obtain ⟨hspace, hlook⟩ := hs.frame hout (by omega) (by omega)
  exact ⟨hspace, hlook, hcr3, fun lo h => h.push hle hp' hb⟩

theorem kmalloc_walked (hs : AddrSpace L cr3 hi s) {sz : BitVec 32}
    (hfit : Fit hi s (kmalloc s sz).2) : Walked L cr3 hi s (kmalloc s sz).2 := by
  refine walked_push (a := s.placementAddress) (n := sz.toNat) hs le_rfl (fit_head hfit rfl) ?_ rfl
    (fun _ _ => rfl) rfl
  rw [BitVec.ofNat_toNat]
  rfl

/-- The page boundary from which `kmalloc_a` hands out its block. -/
theorem alignUp_addrSpace (hs : AddrSpace L cr3 hi s) :
    (alignUp s.placementAddress).toNat = 4096 * ((s.placementAddress.toNat + 4095) / 4096) := by
  have h1 := hs.placement_le
  have h2 := hs.hi_aligned
  have h3 := hs.hi_le
  have h4 := L.kernelVirtBase.isLt
  exact alignUp_spec (by omega)

theorem kmallocA_walked (hs : AddrSpace L cr3 hi s) {sz : BitVec 32}
    (hfit : Fit hi s (kmallocA s sz).2) : Walked L cr3 hi s (kmallocA s sz).2 := by
  have hal := alignUp_addrSpace hs
  refine walked_push (a := alignUp s.placementAddress) (n := sz.toNat) hs (by omega)
    (fit_head hfit rfl) ?_ rfl (fun _ _ => rfl) rfl
  rw [BitVec.ofNat_toNat]
  rfl

theorem kmallocAz_walked (hs : AddrSpace L cr3 hi s) {sz : BitVec 32}
    (hfit : Fit hi s (kmallocAz s sz).2) : Walked L cr3 hi s (kmallocAz s sz).2 := by
  have hal := alignUp_addrSpace hs
  have hsz := sz.isLt
  refine walked_push (a := alignUp s.placementAddress) (n := sz.toNat) hs (by omega)
    (fit_head hfit rfl) ?_ rfl ?_ rfl
  · rw [BitVec.ofNat_toNat]
    rfl
  · intro b hb
    rw [kmallocAz_eq]
    show memset s.mem _ 0 sz.toNat b = s.mem b
    rw [memset_apply _ _ _ (by omega), if_neg hb]

end Blocks

/-! ## One call of `alloc_stack` -/

section AllocStack

variable {L : Layout} {hi lo : ℕ} {s : MmState}

/-- The assignments stay in the `vm_region`. -/
theorem fillVmRegion_mem (s : MmState) (vma stack : Addr) {b : Addr} (hb : ¬ Within vma 48 b) :
    (fillVmRegion s vma stack).mem b = s.mem b := by
  have hne : ∀ k n : ℕ, k + n ≤ 48 → ¬ Within (vma + BitVec.ofNat 64 k) n b :=
    fun k n hk hw => hb (within_of_within_add hw (by omega) (by omega))
  simp only [fillVmRegion, MmState.write_mem]
  rw [Mem.store_apply_of_not_within (hne 24 8 (by norm_num)),
    Mem.store_apply_of_not_within (hne 16 8 (by norm_num))]
  simp only [Mem.store32]
  rw [if_neg (hne 8 4 (by norm_num)), Mem.store_apply_of_not_within]
  simpa using hne 0 8 (by norm_num)

theorem fillVmRegion_cr3 (s : MmState) (vma stack : Addr) :
    (fillVmRegion s vma stack).cr3 = s.cr3 := by
  simp only [fillVmRegion, MmState.write_cr3]

theorem fillVmRegion_allocs (s : MmState) (vma stack : Addr) :
    (fillVmRegion s vma stack).allocs = s.allocs := by
  simp only [fillVmRegion, MmState.write_allocs]

/-- `vma_stack->start` reads back the stack. -/
theorem fillVmRegion_start (s : MmState) (vma stack : Addr) :
    (fillVmRegion s vma stack).mem.load (vma + 16#64) = stack := by
  simp only [fillVmRegion, MmState.write_mem]
  rw [Mem.load_store_of_disjoint, Mem.load_store_self]
  rw [Mem.disjoint_add_left_iff]
  decide

/-- The state in which `alloc_stack` unmaps the guard page. -/
def stackAllocated (s : MmState) : MmState :=
  let (stack, s) := kmallocA s (BitVec.ofNat 32 kstackSize)
  let (vma, s) := kmalloc s 48
  fillVmRegion s vma stack

theorem stackAllocated_allocs (s : MmState) : (stackAllocated s).allocs =
    (kmalloc (kmallocA s (BitVec.ofNat 32 kstackSize)).2 48).2.allocs :=
  fillVmRegion_allocs _ _ _

theorem stackAllocated_blocks (s : MmState) : (stackAllocated s).allocs =
    ⟨alignUp s.placementAddress + BitVec.ofNat 64 kstackSize, 48⟩ ::
      ⟨alignUp s.placementAddress, kstackSize⟩ :: s.allocs := by
  rw [stackAllocated_allocs, kmalloc_eq, kmallocA_eq]
  rfl

theorem suffix_stackAllocated (s : MmState) : s.allocs <:+ (stackAllocated s).allocs := by
  rw [stackAllocated_blocks]
  exact (List.suffix_cons _ _).trans (List.suffix_cons _ _)

/-- Up to the unmap no translation changes. -/
theorem stackAllocated_walked (hs : AddrSpace L s.cr3 hi s) (hfit : Fit hi s (stackAllocated s)) :
    Walked L s.cr3 hi s (stackAllocated s) ∧
      (alignUp s.placementAddress).toNat + kstackSize ≤ hi := by
  have hsuf : s.allocs <:+ (kmallocA s (BitVec.ofNat 32 kstackSize)).2.allocs :=
    List.suffix_cons _ _
  obtain ⟨hfit1, hfit2⟩ := hfit.split hsuf (List.suffix_cons _ _)
  have hw1 := kmallocA_walked hs hfit1
  have hend1 := fit_head hfit1 (b := ⟨alignUp s.placementAddress, kstackSize⟩) rfl
  generalize hs1 : (kmallocA s (BitVec.ofNat 32 kstackSize)).2 = s1 at hfit2 hw1
  have hst : stackAllocated s =
      fillVmRegion (kmalloc s1 48).2 s1.placementAddress (alignUp s.placementAddress) := by
    rw [← hs1]
    rfl
  rw [hst] at hfit2 ⊢
  have hend2 := fit_head hfit2 (b := ⟨s1.placementAddress, 48⟩) rfl
  refine ⟨hw1.trans (walked_push (n := 48) hw1.space le_rfl hend2 rfl rfl ?_
    ((fillVmRegion_cr3 _ _ _).trans (kmalloc_cr3 _ _))), hend1⟩
  intro b hb
  rw [fillVmRegion_mem _ _ _ hb, kmalloc_mem]

/-- What `alloc_stack` returns once `unmap_page` has returned `r`. -/
def guardResult (stack : Addr) (r : Addr × MmState) : Option VmRegion × MmState :=
  if r.1 = 0 then (none, r.2)
  else (some ⟨stackFlags, .stack, stack, stack + BitVec.ofNat 64 kstackSize⟩, r.2)

theorem guardResult_snd (stack : Addr) (r : Addr × MmState) : (guardResult stack r).2 = r.2 := by
  unfold guardResult
  split_ifs <;> rfl

section Equation

-- over variables for the intermediate states, so that they are never compared field by field
variable {stack vma : Addr} {s1 s2 : MmState}

theorem stackAllocated_of (h1 : kmallocA s (BitVec.ofNat 32 kstackSize) = (stack, s1))
    (h2 : kmalloc s1 48 = (vma, s2)) : stackAllocated s = fillVmRegion s2 vma stack := by
  unfold stackAllocated
  rw [h1]
  simp only
  rw [h2]

theorem allocStack_of (h1 : kmallocA s (BitVec.ofNat 32 kstackSize) = (stack, s1))
    (h2 : kmalloc s1 48 = (vma, s2)) :
    allocStack L s =
      if stack = 0 ∨ vma = 0 then (none, s2)
      else guardResult stack (unmapPage L (fillVmRegion s2 vma stack)
        ((fillVmRegion s2 vma stack).mem.load (vma + 16#64)) (fillVmRegion s2 vma stack).cr3) := by
  unfold allocStack
  rw [h1]
  simp only
  rw [h2]
  simp only [guardResult]

end Equation

theorem allocStack_eq (L : Layout) (s : MmState) :
    allocStack L s =
      if alignUp s.placementAddress = 0 ∨
        alignUp s.placementAddress + BitVec.ofNat 64 kstackSize = 0 then
        (none, (kmalloc (kmallocA s (BitVec.ofNat 32 kstackSize)).2 48).2)
      else guardResult (alignUp s.placementAddress)
        (unmapPage L (stackAllocated s) (alignUp s.placementAddress) s.cr3) := by
  have h1 : kmallocA s (BitVec.ofNat 32 kstackSize) =
      (alignUp s.placementAddress, (kmallocA s (BitVec.ofNat 32 kstackSize)).2) := rfl
  have h2 : kmalloc (kmallocA s (BitVec.ofNat 32 kstackSize)).2 48 =
      (alignUp s.placementAddress + BitVec.ofNat 64 kstackSize,
        (kmalloc (kmallocA s (BitVec.ofNat 32 kstackSize)).2 48).2) := rfl
  rw [allocStack_of h1 h2, ← stackAllocated_of h1 h2]
  have hload : (stackAllocated s).mem.load
      (alignUp s.placementAddress + BitVec.ofNat 64 kstackSize + 16#64) =
        alignUp s.placementAddress := by
    rw [stackAllocated_of h1 h2, fillVmRegion_start]
  have hcr3 : (stackAllocated s).cr3 = s.cr3 := by
    rw [stackAllocated_of h1 h2, fillVmRegion_cr3, kmalloc_cr3, kmallocA_cr3]
  rw [hload, hcr3]

/-- The stack and its `vm_region` stay on the list of blocks. -/
theorem allocStack_suffix (L : Layout) (s : MmState) :
    (stackAllocated s).allocs <:+ (allocStack L s).2.allocs := by
  rw [allocStack_eq]
  split_ifs
  · rw [stackAllocated_allocs]
  · rw [guardResult_snd, unmapPage_snd_allocs]
    exact getPageEntry_suffix _ _ _ _ _

/-- **`alloc_stack`** in a heap whose next page boundary is mapped: it returns the stack
    from there on, and its lowest page is unmapped. -/
theorem allocStack_spec (hs : AddrSpace L s.cr3 hi s) (hfit : Fit hi s (allocStack L s).2)
    (hpos : 0 < s.placementAddress.toNat) (hmap : ∀ stack, stack = alignUp s.placementAddress →
      stack.toNat + kstackSize ≤ hi → ∃ pg, lookupPage L s.mem s.cr3 stack = some pg ∧
        frameAddr pg.frame ≠ 0) :
    ∃ s', allocStack L s = (some ⟨stackFlags, .stack, alignUp s.placementAddress,
        alignUp s.placementAddress + BitVec.ofNat 64 kstackSize⟩, s') ∧
      PointUpdate L s.cr3 hi (alignUp s.placementAddress) none s s' ∧
      (alignUp s.placementAddress).toNat + kstackSize ≤ hi ∧
      ⟨alignUp s.placementAddress, kstackSize⟩ ∈ s'.allocs := by
  have hal := alignUp_addrSpace hs
  obtain ⟨hfit1, hfit2⟩ := hfit.split (suffix_stackAllocated s) (allocStack_suffix L s)
  obtain ⟨hw, hend⟩ := stackAllocated_walked hs hfit1
  obtain ⟨pg, hpg, hframe⟩ := hmap _ rfl hend
  have hmem : (⟨alignUp s.placementAddress, kstackSize⟩ : Block) ∈ (allocStack L s).2.allocs := by
    apply (allocStack_suffix L s).subset
    rw [stackAllocated_blocks]
    exact List.mem_cons_of_mem _ List.mem_cons_self
  have hhi := hs.hi_le
  have hlt := L.kernelVirtBase.isLt
  -- neither pointer is 0, and neither is the frame of the guard page
  have hstack : alignUp s.placementAddress ≠ 0 := by
    intro h0
    have : (alignUp s.placementAddress).toNat = 0 := by rw [h0]; rfl
    omega
  have hvma : alignUp s.placementAddress + BitVec.ofNat 64 kstackSize ≠ 0 := by
    intro h0
    have : (alignUp s.placementAddress + BitVec.ofNat 64 kstackSize).toNat = 0 := by rw [h0]; rfl
    rw [toNat_add_ofNat (by omega)] at this
    omega
  rw [allocStack_eq, if_neg (not_or.mpr ⟨hstack, hvma⟩)] at hfit2 hmem ⊢
  rw [guardResult_snd] at hfit2 hmem
  obtain ⟨hup, hret⟩ := unmapPage_spec hw.space _ hfit2
  rw [lookupPage, hw.lookup_eq _ (path_length _), ← lookupPage, hpg] at hret
  have h0 : (unmapPage L (stackAllocated s) (alignUp s.placementAddress) s.cr3).1 ≠ 0 := by
    rw [hret]
    exact hframe
  rw [guardResult, if_neg h0]
  refine ⟨_, rfl, ⟨hup.space, hup.page, ?_, hup.cr3_eq.trans hw.cr3_eq, ?_⟩, hend, hmem⟩
  · intro w hne
    rw [hup.others w hne]
    exact hw.lookup_eq _ (path_length w)
  · exact fun lo hlo => hup.heap lo (hw.heap lo hlo)

end AllocStack

/-! ## Sequences of calls -/

section Sequences

variable {L : Layout} {lo hi : ℕ} {s : MmState}

/-- The start of a sequence: the heap hands out `[…, hi)` from `lo` on, no table lies
    there, and the direct map shows every page of `[lo, hi)`. The boot code refuses a heap
    at physical address 0 (x86_64/kernel.c:181–184). -/
structure BumpRegion (L : Layout) (lo hi : ℕ) (s : MmState) : Prop where
  space : AddrSpace L s.cr3 hi s
  heap : HeapInv lo s
  hhdm_lt : L.hhdmOffset.toNat < lo
  linear : ∀ v, lo ≤ v.toNat → v.toNat < hi →
    (translate L s.mem s.cr3 v).map Translation.phys = some (v - L.hhdmOffset)

/-- The page of an address of the region is where the direct map shows it. -/
theorem BumpRegion.lookup (h : BumpRegion L lo hi s) {v : Addr} (h1 : lo ≤ v.toNat)
    (h2 : v.toNat < hi) : ∃ pg, lookupPage L s.mem s.cr3 v = some pg ∧
      v.toNat = L.hhdmOffset.toNat + 4096 * pg.frame.toNat + v.toNat % 4096 := by
  have hlin := h.linear v h1 h2
  rw [Paging.translate, Option.map_map] at hlin
  obtain ⟨pg, hpg, hphys⟩ := Option.map_eq_some_iff.mp hlin
  refine ⟨pg, hpg, ?_⟩
  have hnat := congrArg BitVec.toNat hphys
  have hlt := h.hhdm_lt
  rw [Function.comp_apply, toNat_frame_append, BitVec.toNat_sub_of_le (by
    rw [BitVec.le_def]; omega), BitVec.extractLsb'_toNat] at hnat
  simp only [Nat.shiftRight_zero] at hnat
  omega

/-- Addresses of the region with one page number lie in one page. -/
theorem BumpRegion.page_inj (h : BumpRegion L lo hi s) {v w : Addr} (hv1 : lo ≤ v.toNat)
    (hv2 : v.toNat < hi) (hw1 : lo ≤ w.toNat) (hw2 : w.toNat < hi)
    (hpage : pageOf v = pageOf w) : v.toNat / 4096 = w.toNat / 4096 := by
  obtain ⟨p, hp, hpv⟩ := h.lookup hv1 hv2
  obtain ⟨q, hq, hqw⟩ := h.lookup hw1 hw2
  rw [lookupPage_congr hpage, hq] at hp
  obtain rfl := Option.some.inj hp
  have := L.hhdm_aligned
  omega

/-- What a sequence of calls that started in `s₀` keeps. -/
structure Arena.Inv (L : Layout) (lo hi : ℕ) (s₀ : MmState) (a : Arena) : Prop where
  live : a.panicked = false
  space : AddrSpace L s₀.cr3 hi a.mm
  heap : HeapInv lo a.mm
  cr3_eq : a.mm.cr3 = s₀.cr3
  regions : ∀ r ∈ a.regions, r.start.toNat % 4096 = 0 ∧ ⟨r.start, kstackSize⟩ ∈ a.mm.allocs
  guard : ∀ r ∈ a.regions, ∀ v, pageOf v = pageOf r.start →
    lookupPage L a.mm.mem s₀.cr3 v = none
  others : ∀ v, (∀ r ∈ a.regions, pageOf v ≠ pageOf r.start) →
    lookupPage L a.mm.mem s₀.cr3 v = lookupPage L s₀.mem s₀.cr3 v

/-- A call that leaves every translation keeps the invariant. -/
theorem Arena.Inv.walked {s₀ s' : MmState} {a : Arena} (hi' : a.Inv L lo hi s₀)
    (hw : Walked L s₀.cr3 hi a.mm s') (hsuf : a.mm.allocs <:+ s'.allocs) :
    Arena.Inv L lo hi s₀ { a with mm := s' } := by
  have hlook : ∀ v, lookupPage L s'.mem s₀.cr3 v = lookupPage L a.mm.mem s₀.cr3 v :=
    fun v => hw.lookup_eq _ (path_length v)
  refine ⟨hi'.live, hw.space, hw.heap lo hi'.heap, hw.cr3_eq.trans hi'.cr3_eq, ?_, ?_, ?_⟩
  · intro r hr
    exact ⟨(hi'.regions r hr).1, hsuf.subset (hi'.regions r hr).2⟩
  · intro r hr v hv
    exact (hlook v).trans (hi'.guard r hr v hv)
  · intro v hv
    exact (hlook v).trans (hi'.others v hv)

theorem Arena.step_allocStack_mm (L : Layout) {a : Arena} (h : a.panicked = false) :
    (a.step L .allocStack).mm = (Proc.allocStack L a.mm).2 := by
  simp only [Arena.step, h, Bool.false_eq_true, if_false]
  generalize Proc.allocStack L a.mm = r
  obtain ⟨_ | r, s'⟩ := r <;> rfl

theorem Arena.step_suffix (L : Layout) (a : Arena) (c : HeapCall) :
    a.mm.allocs <:+ (a.step L c).mm.allocs := by
  cases hp : a.panicked with
  | true =>
    simp only [Arena.step, hp, if_true]
    exact List.suffix_rfl
  | false =>
    cases c with
    | allocStack =>
      rw [Arena.step_allocStack_mm L hp]
      exact (suffix_stackAllocated a.mm).trans (allocStack_suffix L a.mm)
    | _ =>
      simp only [Arena.step, hp, Bool.false_eq_true, if_false]
      exact List.suffix_cons _ _

theorem Arena.run_suffix (L : Layout) (a : Arena) (cs : List HeapCall) :
    a.mm.allocs <:+ (a.run L cs).mm.allocs := by
  induction cs generalizing a with
  | nil => exact List.suffix_rfl
  | cons c cs ih => exact (Arena.step_suffix L a c).trans (ih (a.step L c))

/-- **Step.** A call that stays inside the region keeps the invariant. -/
theorem Arena.Inv.step {s₀ : MmState} {a : Arena} (h0 : BumpRegion L lo hi s₀)
    (h : a.Inv L lo hi s₀) (c : HeapCall) (hfit : Fit hi a.mm (a.step L c).mm) :
    (a.step L c).Inv L lo hi s₀ := by
  have hsuf := Arena.step_suffix L a c
  have hlive : ¬ a.panicked = true := by rw [h.live]; decide
  cases c with
  | kmalloc sz =>
    rw [Arena.step, if_neg hlive] at hfit hsuf ⊢
    exact h.walked (kmalloc_walked h.space hfit) hsuf
  | kmallocA sz =>
    rw [Arena.step, if_neg hlive] at hfit hsuf ⊢
    exact h.walked (kmallocA_walked h.space hfit) hsuf
  | kmallocAz sz =>
    rw [Arena.step, if_neg hlive] at hfit hsuf ⊢
    exact h.walked (kmallocAz_walked h.space hfit) hsuf
  | allocStack =>
    rw [Arena.step_allocStack_mm L h.live] at hfit hsuf
    have hspace : AddrSpace L a.mm.cr3 hi a.mm := h.cr3_eq ▸ h.space
    have hal := alignUp_addrSpace hspace
    have hlo := h.heap.lo_le
    have hlt := h0.hhdm_lt
    have hplace := hspace.placement_le
    -- the page of the new stack is not the guard page of an earlier one
    have hnew : (alignUp a.mm.placementAddress).toNat + 33 * 4096 ≤ hi →
        ∀ r ∈ a.regions, pageOf (alignUp a.mm.placementAddress) ≠ pageOf r.start := by
      intro hend r hr hpage
      obtain ⟨hin1, hin2⟩ : lo ≤ r.start.toNat ∧
          r.start.toNat + 33 * 4096 ≤ a.mm.placementAddress.toNat :=
        h.heap.inside _ (h.regions r hr).2
      have := h0.page_inj (by omega) (by omega) hin1 (by omega) hpage
      omega
    obtain ⟨s', hr, hup, hend, hmem⟩ := allocStack_spec hspace hfit (by omega) (by
      rintro stack rfl hend
      have hend' : (alignUp a.mm.placementAddress).toNat + 33 * 4096 ≤ hi := hend
      obtain ⟨pg, hpg, hphys⟩ := h0.lookup (v := alignUp a.mm.placementAddress) (by omega) (by omega)
      refine ⟨pg, ?_, ?_⟩
      · rw [h.cr3_eq, h.others _ (hnew hend'), hpg]
      · intro hzero
        have : (frameAddr pg.frame).toNat = 0 := by rw [hzero]; rfl
        rw [toNat_frameAddr] at this
        omega)
    have hold := hnew hend
    rw [h.cr3_eq] at hup
    rw [hr] at hsuf
    rw [Arena.step, if_neg hlive]
    simp only [hr]
    refine ⟨h.live, hup.space, hup.heap lo h.heap, hup.cr3_eq.trans h.cr3_eq, ?_, ?_, ?_⟩
    · intro r hmemr
      rcases List.mem_cons.mp hmemr with rfl | hmemr
      · exact ⟨show (alignUp a.mm.placementAddress).toNat % 4096 = 0 by omega, hmem⟩
      · exact ⟨(h.regions r hmemr).1, hsuf.subset (h.regions r hmemr).2⟩
    · intro r hmemr v hv
      rcases List.mem_cons.mp hmemr with rfl | hmemr
      · exact hup.page v hv
      · have hne : pageOf v ≠ pageOf (alignUp a.mm.placementAddress) :=
          hv ▸ (hold r hmemr).symm
        exact (hup.others v hne).trans (h.guard r hmemr v hv)
    · intro v hv
      have hne := hv _ List.mem_cons_self
      exact (hup.others v hne).trans
        (h.others v fun r hmemr => hv r (List.mem_cons_of_mem _ hmemr))

/-- **Run.** -/
theorem Arena.Inv.run {s₀ : MmState} {a : Arena} (h0 : BumpRegion L lo hi s₀)
    (h : a.Inv L lo hi s₀) (cs : List HeapCall) (hfit : Fit hi a.mm (a.run L cs).mm) :
    (a.run L cs).Inv L lo hi s₀ := by
  induction cs generalizing a with
  | nil => exact h
  | cons c cs ih =>
    obtain ⟨hfit1, hfit2⟩ := hfit.split (Arena.step_suffix L a c) (Arena.run_suffix L _ cs)
    exact ih (h.step h0 c hfit1) hfit2

/-- The arena before the first call. -/
def Arena.start (s : MmState) : Arena := ⟨s, [], false⟩

/-- **Guard pages.** After any sequence of heap calls that stays in the region no call has
    panicked; the unmapped addresses of the region are those of the lowest pages of the
    stacks, and the others translate linearly; a guard page meets no block but its own
    stack; and the blocks are disjoint. -/
theorem arena_guards (h : BumpRegion L lo hi s) (cs : List HeapCall)
    (hin : ∀ b ∈ ((Arena.start s).run L cs).mm.allocs, b.addr.toNat + b.size ≤ hi) :
    let a := (Arena.start s).run L cs
    a.panicked = false ∧
    (∀ v, lo ≤ v.toNat → v.toNat < hi →
      (translate L a.mm.mem a.mm.cr3 v = none ↔
        ∃ r ∈ a.regions, r.start.toNat ≤ v.toNat ∧ v.toNat < r.start.toNat + 4096) ∧
      (translate L a.mm.mem a.mm.cr3 v ≠ none →
        (translate L a.mm.mem a.mm.cr3 v).map Translation.phys = some (v - L.hhdmOffset))) ∧
    (∀ r ∈ a.regions, ⟨r.start, kstackSize⟩ ∈ a.mm.allocs ∧
      ∀ b ∈ a.mm.allocs, b ≠ ⟨r.start, kstackSize⟩ → b.Disjoint ⟨r.start, 4096⟩) ∧
    a.mm.allocs.Pairwise Block.Disjoint := by
  intro a
  obtain ⟨bs, hbs⟩ := Arena.run_suffix L (Arena.start s) cs
  have hstart : (Arena.start s).Inv L lo hi s :=
    ⟨rfl, h.space, h.heap, rfl, by simp [Arena.start], by simp [Arena.start], fun _ _ => rfl⟩
  have hinv : a.Inv L lo hi s := hstart.run h cs
    ⟨bs, hbs.symm, fun b hb => hin b (hbs ▸ List.mem_append_left _ hb)⟩
  have hstack : ∀ r ∈ a.regions, lo ≤ r.start.toNat ∧ r.start.toNat + 33 * 4096 ≤ hi := by
    intro r hr
    have h1 := hinv.heap.inside _ (hinv.regions r hr).2
    exact ⟨h1.1, hin _ (hinv.regions r hr).2⟩
  -- an address of the region is in a guard page when it has its page number
  have hguard : ∀ v : Addr, lo ≤ v.toNat → v.toNat < hi → ∀ r ∈ a.regions,
      (pageOf v = pageOf r.start ↔
        r.start.toNat ≤ v.toNat ∧ v.toNat < r.start.toNat + 4096) := by
    intro v hv1 hv2 r hr
    have h1 := hstack r hr
    have h2 := (hinv.regions r hr).1
    constructor
    · intro hpage
      have := h.page_inj hv1 hv2 h1.1 (by omega) hpage
      omega
    · intro hv
      apply BitVec.eq_of_toNat_eq
      simp only [pageOf, BitVec.extractLsb'_toNat, Nat.shiftRight_eq_div_pow]
      rw [show v.toNat / 2 ^ 12 = r.start.toNat / 2 ^ 12 by omega]
  refine ⟨hinv.live, ?_, ?_, hinv.heap.disjoint⟩
  · intro v hv1 hv2
    rw [hinv.cr3_eq]
    by_cases hg : ∃ r ∈ a.regions, r.start.toNat ≤ v.toNat ∧ v.toNat < r.start.toNat + 4096
    · obtain ⟨r, hr, hv⟩ := hg
      have hnone : translate L a.mm.mem s.cr3 v = none := by
        rw [Paging.translate, hinv.guard r hr v ((hguard v hv1 hv2 r hr).mpr hv), Option.map_none]
      exact ⟨⟨fun _ => ⟨r, hr, hv⟩, fun _ => hnone⟩, fun hne => absurd hnone hne⟩
    · have hsame : translate L a.mm.mem s.cr3 v = translate L s.mem s.cr3 v := by
        rw [Paging.translate, Paging.translate, hinv.others v]
        intro r hr hpage
        exact hg ⟨r, hr, (hguard v hv1 hv2 r hr).mp hpage⟩
      have hlin := h.linear v hv1 hv2
      rw [← hsame] at hlin
      refine ⟨⟨fun hnone => ?_, fun hr => absurd hr hg⟩, fun _ => hlin⟩
      rw [hnone] at hlin
      exact absurd hlin (by simp)
  · intro r hr
    refine ⟨(hinv.regions r hr).2, fun b hb hne => ?_⟩
    have hdis : b.addr.toNat + b.size ≤ r.start.toNat ∨
        r.start.toNat + 33 * 4096 ≤ b.addr.toNat :=
      hinv.heap.disjoint.forall hb (hinv.regions r hr).2 hne
    show b.addr.toNat + b.size ≤ r.start.toNat ∨ r.start.toNat + 4096 ≤ b.addr.toNat
    omega

end Sequences

/-! ## A stack in a direct map of one large page -/

section OneGib

/-- With room for the stack, its `vm_region` and three tables a call stays inside. -/
theorem allocStack_fit {L : Layout} {s : MmState} {hi : ℕ} (hhi : hi < 2 ^ 64)
    (hroom : s.HasRoom (33 * 4096 + 4 * 4096) hi) : Fit hi s (allocStack L s).2 := by
  have hal := hroom.alignUp hhi (by norm_num)
  unfold MmState.HasRoom at hroom
  have hk : kstackSize = 33 * 4096 := rfl
  have hvma : (alignUp s.placementAddress + BitVec.ofNat 64 kstackSize).toNat =
      (alignUp s.placementAddress).toNat + 33 * 4096 := toNat_add_ofNat (by omega)
  have hplace : (stackAllocated s).placementAddress.toNat =
      (alignUp s.placementAddress).toNat + 33 * 4096 + 48 := by
    show (alignUp s.placementAddress + BitVec.ofNat 64 kstackSize + BitVec.ofNat 64 48).toNat = _
    rw [toNat_add_ofNat (by omega), hvma]
  -- the two blocks of the heap itself
  have hfit1 : Fit hi s (stackAllocated s) := by
    refine ⟨[⟨alignUp s.placementAddress + BitVec.ofNat 64 kstackSize, 48⟩,
      ⟨alignUp s.placementAddress, kstackSize⟩], stackAllocated_blocks s, ?_⟩
    intro b hb
    simp only [List.mem_cons, List.not_mem_nil, or_false] at hb
    rcases hb with rfl | rfl
    · show (alignUp s.placementAddress + BitVec.ofNat 64 kstackSize).toNat + 48 ≤ hi
      omega
    · show (alignUp s.placementAddress).toNat + 33 * 4096 ≤ hi
      omega
  have hroom2 : (stackAllocated s).HasRoom (3 * 4096) hi := by
    unfold MmState.HasRoom
    omega
  have hfit2 : Fit hi (stackAllocated s)
      (getPageEntry L (stackAllocated s) (alignUp s.placementAddress &&& ~~~0xFFF#64) false s.cr3).2 :=
    getPageEntry_fit hroom2 hhi _ false
  rw [allocStack_eq]
  split_ifs
  · obtain ⟨bs, hbs, hin⟩ := hfit1
    exact ⟨bs, by rw [← stackAllocated_allocs]; exact hbs, hin⟩
  · refine hfit1.trans ?_
    obtain ⟨bs, hbs, hin⟩ := hfit2
    exact ⟨bs, by rw [guardResult_snd, unmapPage_snd_allocs]; exact hbs, hin⟩

theorem gib_linear {v : Addr} (h1 : 0x40000000 ≤ v.toNat) (h2 : v.toNat < 0x80000000) :
    (translate gibLayout gibState.mem 0 v).map Translation.phys = some (v - 0x40000000#64) := by
  have hpath : path v = [0, 1, v.extractLsb' 21 9, v.extractLsb' 12 9] := by
    have h39 : v.extractLsb' 39 9 = 0 := by
      apply BitVec.eq_of_toNat_eq
      rw [BitVec.extractLsb'_toNat, Nat.shiftRight_eq_div_pow]
      show _ = 0
      omega
    have h30 : v.extractLsb' 30 9 = 1 := by
      apply BitVec.eq_of_toNat_eq
      rw [BitVec.extractLsb'_toNat, Nat.shiftRight_eq_div_pow]
      show _ = 1
      omega
    rw [path, h39, h30]
  have hsub : v - 0x40000000#64 = (v.extractLsb' 0 30).setWidth 64 := by
    apply BitVec.eq_of_toNat_eq
    rw [BitVec.toNat_sub_of_le (by rw [BitVec.le_def]; exact h1), BitVec.toNat_setWidth,
      BitVec.extractLsb'_toNat, Nat.shiftRight_zero]
    show v.toNat - 0x40000000 = _
    omega
  have hphys : (0#22 ++ v.extractLsb' 21 9 ++ v.extractLsb' 12 9 ++ v.extractLsb' 0 12).setWidth 64 =
      v - 0x40000000#64 := by
    rw [hsub]
    apply BitVec.eq_of_getLsbD_eq
    intro k hk
    simp only [BitVec.getLsbD_setWidth, BitVec.getLsbD_append, BitVec.getLsbD_extractLsb',
      BitVec.getLsbD_zero]
    grind
  have hlook : lookup (treeOf gibLayout gibMem) 0 [0, 1, v.extractLsb' 21 9, v.extractLsb' 12 9] =
      some (restrict 0x1003 (leafPage 0x83 (0#22 ++ v.extractLsb' 21 9 ++ v.extractLsb' 12 9))) := by
    have h3 : treeOf gibLayout gibMem 3 0 0 = .table 1 (restrict 0x1003) := by
      rw [treeOf, gibMem_load]
      rfl
    have h2 : treeOf gibLayout gibMem 2 1 1 = decode 2 0x83 := by
      rw [treeOf, gibMem_load]
      rfl
    rw [lookup_cons]
    simp only [List.length_cons, List.length_nil, Nat.zero_add, Nat.reduceAdd, h3, Slot.value]
    rw [lookup_cons]
    simp only [List.length_cons, List.length_nil, Nat.zero_add, Nat.reduceAdd, h2]
    rfl
  rw [Paging.translate, lookupPage, hpath]
  show (Option.map _ (lookup (treeOf gibLayout gibMem) 0 _)).map _ = _
  rw [hlook, Option.map_some, Option.map_some, ← hphys]
  rfl

theorem gib_bumpRegion : BumpRegion gibLayout 0x40010000 0x40100000 gibState := by
  refine ⟨gibState_addrSpace, ⟨le_rfl, ?_, List.Pairwise.nil⟩, by decide, ?_⟩
  · intro b hb
    exact absurd hb (List.not_mem_nil)
  · intro v h1 h2
    exact gib_linear (by omega) (by omega)

/-- The first stack of a heap in the direct map. -/
theorem arena_guards_gib : BumpRegion gibLayout 0x40010000 0x40100000 gibState ∧
    ((Arena.start gibState).run gibLayout [.allocStack]).panicked = false := by
  refine ⟨gib_bumpRegion, (arena_guards gib_bumpRegion [.allocStack] ?_).1⟩
  have hfit : Fit 0x40100000 gibState (allocStack gibLayout gibState).2 :=
    allocStack_fit (by norm_num) (by unfold MmState.HasRoom; decide)
  obtain ⟨bs, hbs, hin⟩ := hfit
  have hmm : ((Arena.start gibState).run gibLayout [.allocStack]).mm.allocs = bs ++ [] := by
    have hstart : (Arena.start gibState).mm = gibState := rfl
    rw [Arena.run, List.foldl_cons, List.foldl_nil, Arena.step_allocStack_mm gibLayout rfl, hstart,
      hbs]
    rfl
  rw [hmm, List.append_nil]
  exact hin

end OneGib

end HorizonOS.Proc
