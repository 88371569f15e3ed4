import HorizonOS.Paging.Map

/-!
# The TLB during `unmap_page`

The processor may cache a translation of the active tables at any time, also between two
stores of `unmap_page`. Here the call is the list of its stores and of its TLB operations,
and the processor fills the TLB between any two of them.

`unmap_page` (paging.c:244–264) drops the translation of the page if its argument is the
address of the live top-level table. `alloc_stack` passes `read_cr3()` instead, with the
control bits of the register.

* `execs_unmapPageOps`: without fills the operations do what `unmap_page` does.
* `steady_getPageEntryOps`: no translation changes during the walk.
* `unmapPage_invalidates`: when the translation of the unmapped page is dropped.
-/

namespace HorizonOS.Paging

open HorizonOS.Lib HorizonOS.Lib.Radix HorizonOS.Libc HorizonOS.Mm

/-! ## Operations -/

/-- What the processor sees of the kernel: stores, and TLB operations. -/
inductive Op
  | bump (p : Addr) (b : Block)
  | clear (a : Addr) (n : ℕ)
  | store (a : Addr) (w : Word)
  | invlpg (v : Addr)
  | movCr3 (w : Word)
  | movCr4 (w : Word)

def Op.exec (s : MmState) : Op → MmState
  | .bump p b => { s with placementAddress := p, allocs := b :: s.allocs }
  | .clear a n => { s with mem := memset s.mem a 0 n }
  | .store a w => s.write a w
  | .invlpg v => invalidatePage s v
  | .movCr3 w => writeCr3 s w
  | .movCr4 w => writeCr4 s w

def execs (s : MmState) (ops : List Op) : MmState := ops.foldl Op.exec s

@[simp] theorem execs_nil (s : MmState) : execs s [] = s := rfl

@[simp] theorem execs_cons (s : MmState) (op : Op) (ops : List Op) :
    execs s (op :: ops) = execs (op.exec s) ops := rfl

theorem execs_append (s : MmState) (a b : List Op) : execs s (a ++ b) = execs (execs s a) b :=
  List.foldl_append

/-- `flush_tlb_all()` (paging.h:231–241). -/
def flushTlbAllOps (s : MmState) : List Op :=
  if s.cr4 &&& cr4Pge ≠ 0 then [.movCr4 (s.cr4 &&& ~~~cr4Pge), .movCr4 s.cr4]
  else [.movCr3 s.cr3]

/-- `split_huge_entry(huge, step)` (paging.c:42–64). -/
def splitHugeEntryOps (s : MmState) (huge step : Word) : List Op :=
  let table := alignUp s.placementAddress
  .bump (table + 4096#64) ⟨table, 4096⟩ :: .clear table 4096 ::
    (List.range 512).map fun i => .store (entryPtr table (BitVec.ofNat 64 i)) (splitEntry huge step i)

/-- One level of `get_page_entry` without `create`. -/
def nextTableOps (L : Layout) (s : MmState) (entry : Addr) (cr3 : Word) (step : Option Word) :
    List Op :=
  if s.mem.load entry &&& pagePresent = 0 then []
  else
    match step with
    | none => []
    | some step =>
      if s.mem.load entry &&& pagePs ≠ 0 then
        let (split, s') := splitHugeEntry L s (s.mem.load entry) step
        splitHugeEntryOps s (s.mem.load entry) step ++
          .store entry (split ||| pagePresent ||| pageWrite |||
            (s'.mem.load entry &&& (pageUser ||| pageNx))) ::
          if cr3 = s.cr3 then flushTlbAllOps s else []
      else []

/-- Go on from the table found. -/
def andThenOps (r : Option Addr × MmState) (k : Addr → MmState → List Op) : List Op :=
  match r with
  | (none, _) => []
  | (some table, s) => k table s

/-- `get_page_entry(vaddr, 0, cr3)` (paging.c:73–161). -/
def getPageEntryOps (L : Layout) (s : MmState) (vaddr : Addr) (cr3 : Word) : List Op :=
  let pml4 := physToVirt L (pageGetAddr cr3)
  andThenOps (nextTable L s (entryPtr pml4 (pml4Index vaddr)) false cr3 none) fun pud s =>
  nextTableOps L s (entryPtr pud (pdptIndex vaddr)) cr3 (some 0x200000) ++
  andThenOps (nextTable L s (entryPtr pud (pdptIndex vaddr)) false cr3 (some 0x200000)) fun pd s =>
  nextTableOps L s (entryPtr pd (pdIndex vaddr)) cr3 (some 4096)

/-- `unmap_page(addr, pml4_addr)` (paging.c:244–264). -/
def unmapPageOps (L : Layout) (s : MmState) (addr pml4Addr : Addr) : List Op :=
  let addr := addr &&& ~~~0xFFF#64
  getPageEntryOps L s addr pml4Addr ++
  match getPageEntry L s addr false pml4Addr with
  | (none, _) => []
  | (some pte, s) =>
    if s.mem.load pte &&& pagePresent = 0 then []
    else .store pte 0 :: if pml4Addr = pageGetAddr s.cr3 then [.invlpg addr] else []

/-! ## The operations do what the functions do -/

theorem execs_flushTlbAllOps (s : MmState) : execs s (flushTlbAllOps s) = flushTlbAll s := by
  simp only [flushTlbAllOps, flushTlbAll]
  split_ifs <;> rfl

theorem execs_stores (s : MmState) (table : Addr) (entry : ℕ → Word) (n : ℕ) :
    execs s ((List.range n).map fun i => .store (entryPtr table (BitVec.ofNat 64 i)) (entry i)) =
      { s with mem := fillTable s.mem table entry n } := by
  induction n with
  | zero => rfl
  | succ n ih =>
    rw [List.range_succ, List.map_append, execs_append, ih]
    rfl

theorem splitHugeEntry_eq (L : Layout) (s : MmState) (huge step : Word) :
    splitHugeEntry L s huge step =
      (virtToPhys L (alignUp s.placementAddress),
        { s with
          mem := fillTable (memset s.mem (alignUp s.placementAddress) 0 4096)
            (alignUp s.placementAddress) (splitEntry huge step) 512
          placementAddress := alignUp s.placementAddress + 4096#64
          allocs := ⟨alignUp s.placementAddress, 4096⟩ :: s.allocs }) := by
  rw [splitHugeEntry, kmallocAz_eq, show (4096 : BitVec 32).setWidth 64 = 4096#64 by decide,
    show (4096 : BitVec 32).toNat = 4096 by decide]

theorem execs_splitHugeEntryOps (L : Layout) (s : MmState) (huge step : Word) :
    execs s (splitHugeEntryOps s huge step) = (splitHugeEntry L s huge step).2 := by
  rw [splitHugeEntry_eq]
  simp only [splitHugeEntryOps, execs_cons, execs_stores, Op.exec]

/-- The state after a large page was replaced, before the flush. -/
def afterSplit (L : Layout) (s : MmState) (entry : Addr) (step : Word) : MmState :=
  let (split, s') := splitHugeEntry L s (s.mem.load entry) step
  s'.write entry (split ||| pagePresent ||| pageWrite |||
    (s'.mem.load entry &&& (pageUser ||| pageNx)))

theorem afterSplit_cr3 (L : Layout) (s : MmState) (entry : Addr) (step : Word) :
    (afterSplit L s entry step).cr3 = s.cr3 := by
  simp only [afterSplit, splitHugeEntry_eq, MmState.write_cr3]

theorem afterSplit_cr4 (L : Layout) (s : MmState) (entry : Addr) (step : Word) :
    (afterSplit L s entry step).cr4 = s.cr4 := by
  simp only [afterSplit, splitHugeEntry_eq, MmState.write]

/-- The level splits a large page. -/
def Splits (s : MmState) (entry : Addr) (step : Option Word) (st : Word) : Prop :=
  step = some st ∧ s.mem.load entry &&& pagePresent ≠ 0 ∧ s.mem.load entry &&& pagePs ≠ 0

/-- A level either changes nothing, or splits a large page. -/
theorem nextTable_cases (L : Layout) (s : MmState) (entry : Addr) (cr3 : Word)
    (step : Option Word) :
    (nextTableOps L s entry cr3 step = [] ∧ (nextTable L s entry false cr3 step).2 = s) ∨
    ∃ st, Splits s entry step st ∧
      nextTableOps L s entry cr3 step =
        splitHugeEntryOps s (s.mem.load entry) st ++
          .store entry ((splitHugeEntry L s (s.mem.load entry) st).1 ||| pagePresent ||| pageWrite |||
            ((splitHugeEntry L s (s.mem.load entry) st).2.mem.load entry &&&
              (pageUser ||| pageNx))) ::
          (if cr3 = s.cr3 then flushTlbAllOps s else []) ∧
      (nextTable L s entry false cr3 step).2 =
        if cr3 = (afterSplit L s entry st).cr3 then flushTlbAll (afterSplit L s entry st)
        else afterSplit L s entry st := by
  by_cases hpresent : s.mem.load entry &&& pagePresent = 0
  · left
    unfold nextTableOps nextTable
    rw [if_pos hpresent, if_pos hpresent]
    exact ⟨rfl, rfl⟩
  · unfold nextTableOps nextTable
    rw [if_neg hpresent, if_neg hpresent]
    cases step with
    | none => exact .inl ⟨rfl, rfl⟩
    | some st =>
      by_cases hps : s.mem.load entry &&& pagePs ≠ 0
      · right
        simp only [if_pos hps]
        exact ⟨st, ⟨rfl, hpresent, hps⟩, rfl, rfl⟩
      · left
        exact ⟨if_neg hps, by simp only [if_neg hps]⟩

theorem execs_split_store (L : Layout) (s : MmState) (entry : Addr) (st : Word) :
    execs s (splitHugeEntryOps s (s.mem.load entry) st ++
      [.store entry ((splitHugeEntry L s (s.mem.load entry) st).1 ||| pagePresent ||| pageWrite |||
        ((splitHugeEntry L s (s.mem.load entry) st).2.mem.load entry &&& (pageUser ||| pageNx)))]) =
      afterSplit L s entry st := by
  rw [execs_append, execs_splitHugeEntryOps L]
  rfl

theorem execs_nextTableOps (L : Layout) (s : MmState) (entry : Addr) (cr3 : Word)
    (step : Option Word) :
    execs s (nextTableOps L s entry cr3 step) = (nextTable L s entry false cr3 step).2 := by
  rcases nextTable_cases L s entry cr3 step with ⟨hops, hstate⟩ | ⟨st, -, hops, hstate⟩
  · rw [hops, hstate, execs_nil]
  · rw [hops, hstate, List.append_cons, execs_append, execs_split_store, afterSplit_cr3]
    have hflush : flushTlbAllOps s = flushTlbAllOps (afterSplit L s entry st) := by
      rw [flushTlbAllOps, flushTlbAllOps, afterSplit_cr3, afterSplit_cr4]
    split_ifs
    · rw [hflush, execs_flushTlbAllOps]
    · rfl

theorem nextTableOps_none (L : Layout) (s : MmState) (entry : Addr) (cr3 : Word) :
    nextTableOps L s entry cr3 none = [] := by
  rw [nextTableOps]
  split_ifs
  · rfl
  · rfl

/-- A step of the walk, and the operations of the rest of it. -/
theorem execs_andThenOps {k : Addr → MmState → List Op}
    {k' : Addr → MmState → Option Addr × MmState} (h : ∀ t s, execs s (k t s) = (k' t s).2)
    (r : Option Addr × MmState) : execs r.2 (andThenOps r k) = (andThen r k').2 := by
  obtain ⟨_ | t, s⟩ := r
  · exact execs_nil s
  · exact h t s

theorem andThen_snd (r : Option Addr × MmState) (f : Addr → Addr) :
    (andThen r fun t s => (some (f t), s)).2 = r.2 := by
  obtain ⟨_ | t, s⟩ := r
  · rfl
  · rfl

theorem execs_getPageEntryOps (L : Layout) (s : MmState) (v : Addr) (cr3 : Word) :
    execs s (getPageEntryOps L s v cr3) = (getPageEntry L s v false cr3).2 := by
  -- the top-level entry is never split
  have htop : s = (nextTable L s (entryPtr (physToVirt L (pageGetAddr cr3)) (pml4Index v)) false
      cr3 none).2 := by
    rw [← execs_nextTableOps, nextTableOps_none, execs_nil]
  refine (congrArg (fun x => execs x (getPageEntryOps L s v cr3)) htop).trans ?_
  refine execs_andThenOps (fun pud s => ?_) _
  rw [execs_append, execs_nextTableOps]
  refine execs_andThenOps (fun pd s => ?_) _
  rw [execs_nextTableOps, andThen_snd]

/-- Without fills the operations of `unmap_page` do what `unmap_page` does. -/
theorem execs_unmapPageOps (L : Layout) (s : MmState) (v pml4Addr : Addr) :
    execs s (unmapPageOps L s v pml4Addr) = (unmapPage L s v pml4Addr).2 := by
  simp only [unmapPageOps, unmapPage, execs_append, execs_getPageEntryOps]
  generalize getPageEntry L s (v &&& ~~~0xFFF#64) false pml4Addr = r
  obtain ⟨_ | pte, s'⟩ := r
  · rfl
  · by_cases hpresent : s'.mem.load pte &&& pagePresent = 0
    · simp only [if_pos hpresent, execs_nil]
    · simp only [if_neg hpresent]
      have hcr3 : (s'.write pte 0).cr3 = s'.cr3 := rfl
      by_cases hlive : pml4Addr = pageGetAddr s'.cr3
      · rw [if_pos hlive]
        exact (if_pos (hcr3 ▸ hlive)).symm
      · rw [if_neg hlive]
        exact (if_neg (hcr3 ▸ hlive)).symm

/-! ## Translations during the walk -/

/-- The live tables answer every lookup with `look`. -/
def Answers (L : Layout) (look : Addr → Option Page) (s : MmState) : Prop :=
  ∀ w, lookupPage L s.mem s.cr3 w = look w

/-- So they do before and after every operation. -/
def Steady (L : Layout) (look : Addr → Option Page) : MmState → List Op → Prop
  | s, [] => Answers L look s
  | s, op :: ops => Answers L look s ∧ Steady L look (op.exec s) ops

section Walk

variable {L : Layout} {look : Addr → Option Page} {hi k : ℕ} {s s' : MmState} {cr3 : Word}

theorem Steady.append {a b : List Op} (ha : Steady L look s a) (hb : Steady L look (execs s a) b) :
    Steady L look s (a ++ b) := by
  induction a generalizing s with
  | nil => exact hb
  | cons op a ih => exact ⟨ha.1, ih ha.2 hb⟩

theorem Steady.last {ops : List Op} (h : Steady L look s ops) : Answers L look (execs s ops) := by
  induction ops generalizing s with
  | nil => exact h
  | cons op ops ih => exact ih h.2

/-- A property that every operation keeps and that fixes the answers. -/
theorem Steady.of_inv {J : MmState → Prop} (hanswers : ∀ x, J x → Answers L look x)
    {ops : List Op} (hstep : ∀ op ∈ ops, ∀ x, J x → J (op.exec x)) (hs : J s) :
    Steady L look s ops := by
  induction ops generalizing s with
  | nil => exact hanswers s hs
  | cons op ops ih =>
    refine ⟨hanswers s hs, ih (fun op' h => hstep op' (List.mem_cons_of_mem _ h)) ?_⟩
    exact hstep op List.mem_cons_self s hs

/-- The stores of a split go to a page that no table uses. -/
theorem steady_splitHugeEntryOps (hs : AddrSpace L cr3 hi s) (hroom : s.HasRoom 4096 hi)
    (hroot : rootOf s.cr3 = rootOf cr3) (huge st : Word) :
    Steady L (lookupPage L s.mem s.cr3) s (splitHugeEntryOps s huge st) := by
  have hle := hs.hi_le
  have hlt := L.kernelVirtBase.isLt
  have hbase := hroom.alignUp (by omega) (by norm_num)
  unfold MmState.HasRoom at hroom
  refine Steady.of_inv (J := fun x => x.cr3 = s.cr3 ∧
    ∀ b, ¬ Within (alignUp s.placementAddress) 4096 b → x.mem b = s.mem b) ?_ ?_
    ⟨rfl, fun _ _ => rfl⟩
  · rintro x ⟨hcr3, hmem⟩ w
    have hkept : ∀ b : Addr, b.toNat < s.placementAddress.toNat ∨ hi ≤ b.toNat →
        ({ s with mem := x.mem } : MmState).mem b = s.mem b := by
      intro b hb
      refine hmem b ?_
      rw [within_iff (by omega)]
      omega
    have hframe := (hs.frame hkept le_rfl hs.placement_le).2 (path w) (path_length w)
    rw [lookupPage, lookupPage, hcr3, hroot]
    exact hframe
  · intro op hop x hx
    obtain ⟨hcr3, hmem⟩ := hx
    rcases List.mem_cons.mp hop with rfl | hop
    · simp only [Op.exec]
      exact ⟨hcr3, hmem⟩
    rcases List.mem_cons.mp hop with rfl | hop
    · simp only [Op.exec]
      refine ⟨hcr3, fun b hb => ?_⟩
      rw [memset_apply _ _ _ (by norm_num), if_neg hb, hmem b hb]
    · obtain ⟨j, hj, rfl⟩ := List.mem_map.mp hop
      have hj512 : j < 512 := List.mem_range.mp hj
      simp only [Op.exec, MmState.write]
      refine ⟨hcr3, fun b hb => ?_⟩
      rw [Mem.store_apply_of_not_within, hmem b hb]
      intro hw
      refine hb (within_of_within_add (k := 8 * j) (n := 8) ?_ (by omega) (by norm_num))
      rw [BitVec.ofNat_mul]
      exact hw

theorem steady_flush (h : Answers L look s) (c : Prop) [Decidable c] {t : MmState}
    (hcr3 : t.cr3 = s.cr3) :
    Steady L look s (if c then flushTlbAllOps t else []) := by
  refine Steady.of_inv (J := fun x => x.mem = s.mem ∧ x.cr3 = s.cr3) ?_ ?_ ⟨rfl, rfl⟩
  · rintro x ⟨hmem, hx⟩ w
    rw [hmem, hx]
    exact h w
  · rintro op hop x ⟨hmem, hx⟩
    split_ifs at hop with hc
    · unfold flushTlbAllOps at hop
      split_ifs at hop
      · rcases List.mem_cons.mp hop with rfl | hop
        · exact ⟨hmem, hx⟩
        · rw [List.mem_singleton.mp hop]
          exact ⟨hmem, hx⟩
      · rw [List.mem_singleton.mp hop]
        exact ⟨hmem, hcr3⟩
    · cases hop

/-- Replacing a large page changes no answer at any time. -/
theorem steady_nextTableOps (hs : AddrSpace L cr3 hi s) (hroom : s.HasRoom 4096 hi)
    (hroot : rootOf s.cr3 = rootOf cr3) (entry : Addr) (step : Option Word)
    (hwalked : Walked L cr3 hi s (nextTable L s entry false cr3 step).2) :
    Steady L (lookupPage L s.mem s.cr3) s (nextTableOps L s entry cr3 step) := by
  rcases nextTable_cases L s entry cr3 step with ⟨hops, -⟩ | ⟨st, -, hops, hstate⟩
  · rw [hops]
    exact fun w => rfl
  · have hafter : Answers L (lookupPage L s.mem s.cr3) (afterSplit L s entry st) := by
      intro w
      have hmem : (nextTable L s entry false cr3 step).2.mem = (afterSplit L s entry st).mem := by
        rw [hstate]
        split_ifs
        · rw [flushTlbAll_eq]
        · rfl
      have hlook := hwalked.lookup_eq (path w) (path_length w)
      rw [hmem] at hlook
      rw [lookupPage, lookupPage, afterSplit_cr3, hroot]
      exact hlook
    rw [hops, List.append_cons]
    have hsplit := steady_splitHugeEntryOps hs hroom hroot (s.mem.load entry) st
    refine Steady.append (Steady.append hsplit ⟨hsplit.last, ?_⟩) ?_
    · rw [execs_splitHugeEntryOps L]
      exact hafter
    · rw [execs_split_store]
      exact steady_flush hafter _ (afterSplit_cr3 L s entry st).symm

theorem lookupPage_root {c c' : Word} (h : rootOf c = rootOf c') (m : Mem) (w : Addr) :
    lookupPage L m c w = lookupPage L m c' w := by
  rw [lookupPage, lookupPage, h]

/-- No translation changes at any time during the walk. -/
theorem steady_getPageEntryOps (hs : AddrSpace L cr3 hi s) (hroom : s.HasRoom (3 * 4096) hi)
    (hroot : rootOf s.cr3 = rootOf cr3) (v : Addr) :
    Steady L (lookupPage L s.mem s.cr3) s (getPageEntryOps L s v cr3) := by
  have hhi : hi < 2 ^ 64 := by
    have := hs.hi_le
    omega
  have e1 : entryPtr (physToVirt L (pageGetAddr cr3)) (pml4Index v) =
      entryAddr L (rootOf cr3) (v.extractLsb' 39 9) := by
    rw [pageGetAddr_eq, pml4Index, index_eq]
    rfl
  have e2 : ∀ f, entryPtr (tableAddr L f) (pdptIndex v) = entryAddr L f (v.extractLsb' 30 9) :=
    fun f => by rw [pdptIndex, index_eq, entryPtr_eq]
  have e3 : ∀ f, entryPtr (tableAddr L f) (pdIndex v) = entryAddr L f (v.extractLsb' 21 9) :=
    fun f => by rw [pdIndex, index_eq, entryPtr_eq]
  have hanswers : Answers L (lookupPage L s.mem s.cr3) s := fun _ => rfl
  simp only [getPageEntryOps, e1]
  -- top level: nothing is split
  have htop : (nextTable L s (entryAddr L (rootOf cr3) (v.extractLsb' 39 9)) false cr3 none).2 =
      s := by
    rcases nextTable_cases L s (entryAddr L (rootOf cr3) (v.extractLsb' 39 9)) cr3 none with
      ⟨-, h⟩ | ⟨st, ⟨hst, -⟩, -⟩
    · exact h
    · cases hst
  have hfit (entry : Addr) (step : Option Word) :
      Fit hi s (nextTable L s entry false cr3 step).2 ∧
        (nextTable L s entry false cr3 step).2.HasRoom (2 * 4096) hi :=
    nextTable_fit hroom hhi entry false step
  have hfit1 := hfit (entryAddr L (rootOf cr3) (v.extractLsb' 39 9)) none
  rcases nextTable_spec hs .pml4 (p := []) descend_nil rfl false hfit1.1 with
    ⟨-, -, hr1⟩ | ⟨f1, g1, s1, hr1, hd1, -, -⟩
  · rw [hr1]
    exact hanswers
  rw [hr1] at htop ⊢
  obtain rfl : s1 = s := htop
  simp only [andThenOps, e2]
  -- page directory pointer table
  have hfit2 := hfit (entryAddr L f1 (v.extractLsb' 30 9)) (some 0x200000)
  have hroom1 : s1.HasRoom 4096 hi := by
    unfold MmState.HasRoom at hroom ⊢
    omega
  rcases nextTable_spec hs .pdpt hd1 rfl false hfit2.1 with
    ⟨-, -, hr2⟩ | ⟨f2, g2, s2, hr2, hd2, hw2, -⟩
  · have hsteady := steady_nextTableOps hs hroom1 hroot _ (some 0x200000)
      (by rw [hr2]; exact Walked.refl hs)
    refine hsteady.append ?_
    rw [hr2]
    exact hsteady.last
  · have hsteady := steady_nextTableOps hs hroom1 hroot _ (some 0x200000) (by rw [hr2]; exact hw2)
    refine hsteady.append ?_
    rw [execs_nextTableOps, hr2]
    simp only [e3]
    -- page directory
    rw [hr2] at hfit2
    have hroom2 : s2.HasRoom 4096 hi := by
      have hroom2 : s2.HasRoom (2 * 4096) hi := hfit2.2
      unfold MmState.HasRoom at hroom2 ⊢
      omega
    have hfit3 : Fit hi s2
          (nextTable L s2 (entryAddr L f2 (v.extractLsb' 21 9)) false cr3 (some 4096)).2 ∧
        (nextTable L s2 (entryAddr L f2 (v.extractLsb' 21 9)) false cr3 (some 4096)).2.HasRoom
          4096 hi :=
      nextTable_fit hfit2.2 hhi _ false (some 4096)
    have hroot2 : rootOf s2.cr3 = rootOf cr3 := by rw [hw2.cr3_eq, hroot]
    have hlook : lookupPage L s2.mem s2.cr3 = lookupPage L s1.mem s1.cr3 := by
      funext w
      rw [lookupPage_root hroot2, lookupPage_root hroot]
      exact hw2.lookup_eq _ (path_length w)
    rw [← hlook]
    rcases nextTable_spec hw2.space .pd hd2 rfl false hfit3.1 with
      ⟨-, -, hr3⟩ | ⟨f3, g3, s3, hr3, -, hw3, -⟩
    · exact steady_nextTableOps hw2.space hroom2 hroot2 _ _
        (by rw [hr3]; exact Walked.refl hw2.space)
    · exact steady_nextTableOps hw2.space hroom2 hroot2 _ _ (by rw [hr3]; exact hw3)

end Walk

/-! ## Fills -/

/-- `look` answers the page of `t` with its frame. -/
def CachedBy (look : Addr → Option Page) (t : TlbEntry) : Prop :=
  ∃ w pg, pageOf w = t.page ∧ look w = some pg ∧ pg.frame = t.frame

/-- The operations are executed, and at any time the processor caches translations of the
    live tables. -/
inductive Runs (L : Layout) : MmState → List Op → MmState → Prop
  | nil (s : MmState) : Runs L s [] s
  | fill {s s' : MmState} {ops : List Op} (t : TlbEntry) :
      CachedBy (lookupPage L s.mem s.cr3) t →
      Runs L { s with tlb := t :: s.tlb } ops s' → Runs L s ops s'
  | exec {s s' : MmState} {op : Op} {ops : List Op} :
      Runs L (op.exec s) ops s' → Runs L s (op :: ops) s'

/-- The TLB holds translations of the live tables only. -/
def Coherent (L : Layout) (s : MmState) : Prop :=
  ∀ t ∈ s.tlb, CachedBy (lookupPage L s.mem s.cr3) t

/-- The TLB holds no translation of the page of `v`. -/
def Uncached (s : MmState) (v : Addr) : Prop := ∀ t ∈ s.tlb, t.page ≠ pageOf v

theorem Op.exec_tlb (op : Op) (s : MmState) (t : List TlbEntry) :
    op.exec { s with tlb := t } =
      { op.exec s with tlb := (op.exec { s with tlb := t }).tlb } := by
  cases op <;> rfl

theorem Op.exec_tlb_subset (op : Op) (s : MmState) : (op.exec s).tlb ⊆ s.tlb := by
  cases op with
  | invlpg | movCr3 => exact List.filter_subset_self _
  | movCr4 w =>
    simp only [Op.exec, writeCr4]
    split_ifs
    · exact List.Subset.refl _
    · exact List.nil_subset _
  | bump | clear | store => exact List.Subset.refl _

section Fills

variable {L : Layout} {look : Addr → Option Page} {s r r' : MmState} {ops a b : List Op}

/-- Fills change the TLB only. -/
theorem Runs.eq_execs (h : Runs L r ops r') (s : MmState) (hr : r = { s with tlb := r.tlb }) :
    r' = { execs s ops with tlb := r'.tlb } := by
  induction h generalizing s with
  | nil r => exact hr
  | fill t _ _ ih => exact ih s (by rw [hr])
  | @exec r r' op ops _ ih =>
    refine ih (op.exec s) ?_
    rw [hr]
    exact op.exec_tlb s r.tlb

/-- While the answers stay the same, the TLB holds translations that they give. -/
theorem Runs.cachedBy (h : Runs L r ops r') (s : MmState) (hr : r = { s with tlb := r.tlb })
    (hsteady : Steady L look s ops) (htlb : ∀ t ∈ r.tlb, CachedBy look t) :
    ∀ t ∈ r'.tlb, CachedBy look t := by
  induction h generalizing s with
  | nil r => exact htlb
  | @fill r r' ops t ht _ ih =>
    have hlook : lookupPage L r.mem r.cr3 = look := by
      have hs : Answers L look s := by
        cases ops with
        | nil => exact hsteady
        | cons op ops => exact hsteady.1
      funext w
      rw [hr]
      exact hs w
    refine ih s (by rw [hr]) hsteady ?_
    intro t' ht'
    rcases List.mem_cons.mp ht' with rfl | ht'
    · rwa [hlook] at ht
    · exact htlb t' ht'
  | @exec r r' op ops _ ih =>
    refine ih (op.exec s) ?_ hsteady.2 fun t ht => htlb t (op.exec_tlb_subset r ht)
    rw [hr]
    exact op.exec_tlb s r.tlb

theorem Runs.split (h : Runs L r (a ++ b) r') : ∃ m, Runs L r a m ∧ Runs L m b r' := by
  generalize hops : a ++ b = ops at h
  induction h generalizing a with
  | nil r =>
    obtain ⟨rfl, rfl⟩ := List.append_eq_nil_iff.mp hops
    exact ⟨r, .nil r, .nil r⟩
  | fill t ht _ ih =>
    obtain ⟨m, h1, h2⟩ := ih hops
    exact ⟨m, .fill t ht h1, h2⟩
  | @exec r r' op ops h ih =>
    cases a with
    | nil =>
      refine ⟨r, .nil r, ?_⟩
      rw [List.nil_append] at hops
      rw [hops]
      exact .exec h
    | cons op' a =>
      obtain ⟨rfl, hrest⟩ := List.cons.inj hops
      obtain ⟨m, h1, h2⟩ := ih hrest
      exact ⟨m, .exec h1, h2⟩

theorem runs_execs_append (h : Runs L (execs s a) b r') : Runs L s (a ++ b) r' := by
  induction a generalizing s with
  | nil => exact h
  | cons op a ih => exact .exec (ih h)

/-- After the page is gone from the tables, nothing brings its translation back. -/
theorem Runs.uncached_nil {v : Addr} (h : Runs L r [] r')
    (hlook : ∀ w, pageOf w = pageOf v → lookupPage L r.mem r.cr3 w = none) (hr : Uncached r v) :
    Uncached r' v := by
  generalize hops : ([] : List Op) = ops at h
  induction h with
  | nil r => exact hr
  | fill t ht _ ih =>
    obtain ⟨w, pg, hw, hsome, -⟩ := ht
    refine ih hlook ?_ hops
    intro t' ht'
    rcases List.mem_cons.mp ht' with rfl | ht'
    · intro hpage
      rw [hlook w (hw.trans hpage)] at hsome
      cases hsome
    · exact hr t' ht'
  | exec => cases hops

/-- `invlpg` drops the translation, whatever was cached before. -/
theorem Runs.uncached_invlpg {v v' : Addr} (hv : pageOf v' = pageOf v)
    (h : Runs L r [.invlpg v'] r')
    (hlook : ∀ w, pageOf w = pageOf v → lookupPage L r.mem r.cr3 w = none) :
    Uncached r' v := by
  generalize hops : [Op.invlpg v'] = ops at h
  induction h with
  | nil r => cases hops
  | fill t _ _ ih => exact ih hlook hops
  | @exec r r' op ops h _ =>
    obtain ⟨rfl, rfl⟩ := List.cons.inj hops
    refine h.uncached_nil hlook ?_
    intro t ht
    have := (List.mem_filter.mp ht).2
    rw [← hv]
    simpa using this

end Fills

/-! ## `unmap_page` -/

section Unmap

variable {L : Layout} {hi : ℕ} {s s' : MmState} {cr3 : Word}

theorem pageOf_align (v : Addr) : pageOf (v &&& ~~~0xFFF#64) = pageOf v :=
  extract_and_not_fff v (le_refl 12) 36

/-- The operations after the walk: none if nothing was mapped, otherwise the entry is
    cleared, and the page invalidated if the argument is the live table. -/
theorem unmapPageOps_cases (hs : AddrSpace L cr3 hi s) (hroom : s.HasRoom (3 * 4096) hi)
    (v : Addr) :
    (lookupPage L s.mem cr3 v = none ∧
      unmapPageOps L s v cr3 = getPageEntryOps L s (v &&& ~~~0xFFF#64) cr3) ∨
    ∃ pte pg, lookupPage L s.mem cr3 v = some pg ∧
      unmapPageOps L s v cr3 = getPageEntryOps L s (v &&& ~~~0xFFF#64) cr3 ++ [Op.store pte 0] ++
        (if cr3 = pageGetAddr s.cr3 then [Op.invlpg (v &&& ~~~0xFFF#64)] else []) ∧
      (execs s (getPageEntryOps L s (v &&& ~~~0xFFF#64) cr3 ++ [Op.store pte 0])).cr3 = s.cr3 ∧
      ∀ w, pageOf w = pageOf v → lookupPage L
        (execs s (getPageEntryOps L s (v &&& ~~~0xFFF#64) cr3 ++ [Op.store pte 0])).mem cr3 w =
          none := by
  have hhi : hi < 2 ^ 64 := by
    have := hs.hi_le
    omega
  have hfit : Fit hi s (getPageEntry L s (v &&& ~~~0xFFF#64) false cr3).2 :=
    getPageEntry_fit hroom hhi _ false
  have hlook : lookupPage L s.mem cr3 (v &&& ~~~0xFFF#64) = lookupPage L s.mem cr3 v := by
    rw [lookupPage, path_align, lookupPage]
  have hexecs := execs_getPageEntryOps L s (v &&& ~~~0xFFF#64) cr3
  simp only [unmapPageOps, execs_append, hexecs]
  rcases getPageEntry_spec hs _ false hfit with ⟨-, habs, hr⟩ | ⟨f, g, s', hr, hd, hw⟩
  · left
    exact ⟨hlook ▸ habs.lookupPage_eq, by rw [hr, List.append_nil]⟩
  rw [upperPath_align] at hd
  rw [extract_and_not_fff v (le_refl 12)] at hr
  have hlast := lookupPage_last hd
  rw [lookupPage, hw.lookup_eq _ (path_length v), ← lookupPage] at hlast
  rw [hr]
  simp only [and_pagePresent_eq_zero_iff]
  generalize he : s'.mem.load (entryAddr L f (v.extractLsb' 12 9)) = e at hlast ⊢
  cases h0 : e.getLsbD 0 with
  | false =>
    left
    rw [(decode_eq_absent_iff 0 e).mpr h0] at hlast
    exact ⟨hlast, by rw [if_pos rfl, List.append_nil]⟩
  | true =>
    right
    rw [decode, if_pos h0] at hlast
    refine ⟨entryAddr L f (v.extractLsb' 12 9), _, hlast, ?_, hw.cr3_eq, ?_⟩
    · rw [if_neg Bool.true_eq_false.mp, hw.cr3_eq, List.append_assoc]
      rfl
    · have hup : PointUpdate L cr3 hi v none s (s'.write (entryAddr L f (v.extractLsb' 12 9)) 0) :=
        hw.pointUpdate hd 0 rfl rfl rfl rfl
      exact hup.page

/-- If nothing is mapped at `v`, or the argument is the live table, the translation of `v` is
    gone afterwards. -/
theorem Runs.unmap_uncached (hs : AddrSpace L cr3 hi s) (hroom : s.HasRoom (3 * 4096) hi)
    (hroot : rootOf s.cr3 = rootOf cr3) (hcoherent : Coherent L s) {v : Addr}
    (hlive : cr3 = pageGetAddr s.cr3 ∨ lookupPage L s.mem s.cr3 v = none)
    (h : Runs L s (unmapPageOps L s v cr3) s') : Uncached s' v := by
  rcases unmapPageOps_cases hs hroom v with ⟨hnone, hops⟩ | ⟨pte, pg, hsome, hops, hcr3, hlook⟩
  · rw [hops] at h
    have hcached := h.cachedBy s rfl (steady_getPageEntryOps hs hroom hroot _) hcoherent
    intro t ht hpage
    obtain ⟨w, pg, hw, hlookw, -⟩ := hcached t ht
    rw [lookupPage_congr (hw.trans hpage), lookupPage_root hroot, hnone] at hlookw
    cases hlookw
  · have hlive : cr3 = pageGetAddr s.cr3 := by
      rcases hlive with hlive | hnone
      · exact hlive
      · rw [lookupPage_root hroot, hsome] at hnone
        cases hnone
    rw [hops, if_pos hlive] at h
    obtain ⟨m, hm, hinvlpg⟩ := h.split
    refine hinvlpg.uncached_invlpg (pageOf_align v) ?_
    intro w hw
    rw [hm.eq_execs s rfl]
    show lookupPage L (execs s _).mem (execs s _).cr3 w = none
    rw [hcr3, lookupPage_root hroot]
    exact hlook w hw

/-- Otherwise the processor can cache it after the walk and keep it. -/
theorem unmap_stale (hs : AddrSpace L cr3 hi s) (hroom : s.HasRoom (3 * 4096) hi)
    (hroot : rootOf s.cr3 = rootOf cr3) {v : Addr} (hlive : cr3 ≠ pageGetAddr s.cr3)
    (hmapped : lookupPage L s.mem s.cr3 v ≠ none) :
    ∃ s', Runs L s (unmapPageOps L s v cr3) s' ∧ ¬ Uncached s' v := by
  rcases unmapPageOps_cases hs hroom v with ⟨hnone, -⟩ | ⟨pte, pg, hsome, hops, -, -⟩
  · rw [lookupPage_root hroot] at hmapped
    exact absurd hnone hmapped
  · have hlast := (steady_getPageEntryOps hs hroom hroot (v &&& ~~~0xFFF#64)).last
    rw [hops, if_neg hlive, List.append_nil]
    refine ⟨_, runs_execs_append (.fill ⟨pageOf v, pg.frame, false⟩ ?_ (.exec (.nil _))), ?_⟩
    · refine ⟨v, pg, rfl, ?_, rfl⟩
      rw [hlast v, lookupPage_root hroot, hsome]
    · intro hun
      exact hun ⟨pageOf v, pg.frame, false⟩ List.mem_cons_self rfl

/-- A value of the register `cr3`: the frame of the top-level table and the control bits. -/
def cr3Of (table : Frame) (control : BitVec 12) : Word := (table ++ control).setWidth 64

theorem rootOf_cr3Of (table : Frame) (control : BitVec 12) : rootOf (cr3Of table control) = table := by
  apply BitVec.eq_of_getLsbD_eq
  intro k hk
  rw [rootOf, cr3Of, BitVec.getLsbD_extractLsb', BitVec.getLsbD_setWidth, BitVec.getLsbD_append]
  simp [hk, show 12 + k < 64 by omega]

theorem pageGetAddr_cr3Of (table : Frame) (control : BitVec 12) :
    pageGetAddr (cr3Of table control) = cr3Of table 0 := by
  rw [pageGetAddr_eq, show (cr3Of table control).extractLsb' 12 40 = table from
    rootOf_cr3Of table control]
  rfl

theorem cr3Of_eq_iff (table : Frame) (control : BitVec 12) :
    cr3Of table control = cr3Of table 0 ↔ control = 0 := by
  constructor
  · intro h
    apply BitVec.eq_of_getLsbD_eq
    intro k hk
    have hbit := congrArg (fun x => x.getLsbD k) h
    simp only [cr3Of, BitVec.getLsbD_setWidth, BitVec.getLsbD_append] at hbit
    simpa [hk, show k < 64 by omega] using hbit
  · rintro rfl
    rfl

/-- **Unmapping in the live address space.** With the top-level table `table` and the control
    bits `control` in `cr3`, and a TLB that holds translations of the live tables: after
    `unmap_page(v, read_cr3())` the translation of `v` is gone, whatever the processor cached
    meanwhile, if and only if the control bits are zero or nothing was mapped at `v`. After
    `unmap_page(v, table)` it is gone in any case. -/
theorem unmapPage_invalidates (table : Frame) (control : BitVec 12)
    (hcr3 : s.cr3 = cr3Of table control) (hs : AddrSpace L s.cr3 hi s)
    (hroom : s.HasRoom (3 * 4096) hi) (hcoherent : Coherent L s) (v : Addr) :
    ((∀ s', Runs L s (unmapPageOps L s v s.cr3) s' → Uncached s' v) ↔
      control = 0 ∨ lookupPage L s.mem s.cr3 v = none) ∧
    ∀ s', Runs L s (unmapPageOps L s v (pageGetAddr s.cr3)) s' → Uncached s' v := by
  have hiff : s.cr3 = pageGetAddr s.cr3 ↔ control = 0 := by
    rw [hcr3, pageGetAddr_cr3Of, cr3Of_eq_iff]
  refine ⟨⟨?_, ?_⟩, ?_⟩
  · intro hall
    by_contra hcond
    rw [not_or, ← hiff] at hcond
    obtain ⟨s', hrun, hstale⟩ := unmap_stale hs hroom rfl hcond.1 hcond.2
    exact hstale (hall s' hrun)
  · intro hcond s' hrun
    rw [← hiff] at hcond
    exact hrun.unmap_uncached hs hroom rfl hcoherent hcond
  · intro s' hrun
    have hroot : rootOf s.cr3 = rootOf (pageGetAddr s.cr3) := by
      rw [hcr3, pageGetAddr_cr3Of, rootOf_cr3Of, rootOf_cr3Of]
    have hs' : AddrSpace L (pageGetAddr s.cr3) hi s :=
      ⟨hroot ▸ hs.unshared, hroot ▸ hs.clear, hs.hhdm_le, hs.placement_le, hs.hi_aligned, hs.hi_le,
        hs.hi_phys⟩
    exact hrun.unmap_uncached hs' hroom hroot hcoherent (.inl rfl)

end Unmap

/-- A page inside a 1 GiB page is unmapped, with no control bits in `cr3`. -/
theorem unmapPage_invalidates_gib :
    Coherent gibLayout gibState ∧ ∀ s',
      Runs gibLayout gibState (unmapPageOps gibLayout gibState 0x40200000 gibState.cr3) s' →
        Uncached s' 0x40200000 := by
  have hcoherent : Coherent gibLayout gibState := by
    intro t ht
    cases ht
  refine ⟨hcoherent, ?_⟩
  exact (unmapPage_invalidates 0 0 (by decide) gibState_addrSpace gibState_hasRoom hcoherent
    0x40200000).1.mpr (.inl rfl)

/-- The same tables, with `cr3` set for uncached access to the top-level table. -/
def gibPcdState : MmState := { gibState with cr3 := cr3Of 0 0x10 }

theorem unmapPage_stale_gib :
    Coherent gibLayout gibPcdState ∧ ∃ s',
      Runs gibLayout gibPcdState
        (unmapPageOps gibLayout gibPcdState 0x40200000 gibPcdState.cr3) s' ∧
      ¬ Uncached s' 0x40200000 := by
  have hroot : rootOf gibPcdState.cr3 = rootOf 0 := rootOf_cr3Of 0 0x10
  have hspace : AddrSpace gibLayout gibPcdState.cr3 0x40100000 gibPcdState := by
    obtain ⟨hunshared, hclear, h1, h2, h3, h4, h5⟩ := gibState_addrSpace
    exact ⟨hroot ▸ hunshared, hroot ▸ hclear, h1, h2, h3, h4, h5⟩
  have hcoherent : Coherent gibLayout gibPcdState := by
    intro t ht
    cases ht
  refine ⟨hcoherent, ?_⟩
  refine unmap_stale hspace gibState_hasRoom rfl (by decide) ?_
  rw [lookupPage_root hroot]
  decide

end HorizonOS.Paging
