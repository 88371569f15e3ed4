import HorizonOS.Paging.Entry

/-!
# `get_page_entry` leaves every translation as it is

`get_page_entry(vaddr, create, cr3)` (arch/x86_64/memory/paging.c:73–161) walks
the tables of `cr3` down to the level-1 entry of `vaddr`. On the way it replaces
absent entries by fresh tables, when `create` asks for it, and large pages by
tables of smaller pages.

Results:
* `nextTable_spec`: one level of the walk.
* `getPageEntry_grown`, `getPageEntry_spec`: the whole walk: it ends at the level-1
  entry of the address, only adds tables, and no lookup changes.
* `getPageEntry_of_descend`: where the path is there the walk changes nothing.
-/

namespace HorizonOS.Paging

open HorizonOS.Lib HorizonOS.Lib.Radix HorizonOS.Libc HorizonOS.Mm

/-! ## TLB -/

/-- The number of the virtual page of `v`. -/
def pageOf (v : Addr) : BitVec 36 := v.extractLsb' 12 36

/-- `invalidate_page(vaddr)` (paging.h:185–187): `invlpg`. -/
def invalidatePage (s : MmState) (v : Addr) : MmState :=
  { s with tlb := s.tlb.filter fun t => t.page ≠ pageOf v }

/-- `write_cr3(cr3)` (paging.h:218–220): global translations stay when `CR4.PGE` is
    set. -/
def writeCr3 (s : MmState) (w : Word) : MmState :=
  { s with cr3 := w, tlb := s.tlb.filter fun t => t.global ∧ s.cr4 &&& cr4Pge ≠ 0 }

/-- `write_cr4(cr4)` (paging.h:222–224): a change of `CR4.PGE` drops every
    translation. -/
def writeCr4 (s : MmState) (w : Word) : MmState :=
  { s with cr4 := w, tlb := if (s.cr4 ^^^ w) &&& cr4Pge = 0 then s.tlb else [] }

/-- `flush_tlb_all()` (paging.h:231–241). -/
def flushTlbAll (s : MmState) : MmState :=
  let cr4 := s.cr4
  if cr4 &&& cr4Pge ≠ 0 then writeCr4 (writeCr4 s (cr4 &&& ~~~cr4Pge)) cr4 else writeCr3 s s.cr3

theorem flushTlbAll_eq (s : MmState) : flushTlbAll s = { s with tlb := (flushTlbAll s).tlb } := by
  dsimp only [flushTlbAll]
  split_ifs <;> rfl

theorem ite_flushTlbAll (s : MmState) (cr3 : Word) :
    ∃ t, (if cr3 = s.cr3 then flushTlbAll s else s) = { s with tlb := t } := by
  split_ifs
  · exact ⟨_, flushTlbAll_eq s⟩
  · exact ⟨_, rfl⟩

/-! ## Model of `get_page_entry` -/

/-- The loop of `split_huge_entry` (paging.c:59–61) after `n` iterations. -/
def fillTable (m : Mem) (table : Addr) (entry : ℕ → Word) : (n : ℕ) → Mem
  | 0 => m
  | i + 1 => (fillTable m table entry i).store (entryPtr table (BitVec.ofNat 64 i)) (entry i)

/-- `split_huge_entry(huge, step)` (paging.c:42–64). -/
def splitHugeEntry (L : Layout) (s : MmState) (huge step : Word) : Addr × MmState :=
  let (table, s) := kmallocAz s 4096
  (virtToPhys L table, { s with mem := fillTable s.mem table (splitEntry huge step) 512 })

/-- One level of `get_page_entry` (paging.c:85–97, 103–127 and 133–157): from the
    entry at address `entry` to the table it points to, `none` for `NULL`. The top
    level does not look at `PAGE_PS`; the others split a large page into pages of
    `step` bytes. -/
def nextTable (L : Layout) (s : MmState) (entry : Addr) (create : Bool) (cr3 : Word)
    (step : Option Word) : Option Addr × MmState :=
  if s.mem.load entry &&& pagePresent = 0 then
    if create then
      let (table, s) := kmallocAz s 4096
      (some table, s.write entry (virtToPhys L table ||| pagePresent ||| pageWrite))
    else (none, s)
  else
    let s :=
      match step with
      | none => s
      | some step =>
        if s.mem.load entry &&& pagePs ≠ 0 then
          let (split, s) := splitHugeEntry L s (s.mem.load entry) step
          let s := s.write entry (split ||| pagePresent ||| pageWrite |||
            (s.mem.load entry &&& (pageUser ||| pageNx)))
          if cr3 = s.cr3 then flushTlbAll s else s
        else s
    (some (physToVirt L (pageGetAddr (s.mem.load entry))), s)

/-- Go on with the table found, or return `NULL`. -/
def andThen (r : Option Addr × MmState) (k : Addr → MmState → Option Addr × MmState) :
    Option Addr × MmState :=
  match r with
  | (none, s) => (none, s)
  | (some table, s) => k table s

/-- `get_page_entry(vaddr, create, cr3)` (paging.c:73–161): the address of the
    level-1 entry, `none` for `NULL`. -/
def getPageEntry (L : Layout) (s : MmState) (vaddr : Addr) (create : Bool) (cr3 : Word) :
    Option Addr × MmState :=
  let pml4 := physToVirt L (pageGetAddr cr3)
  andThen (nextTable L s (entryPtr pml4 (pml4Index vaddr)) create cr3 none) fun pud s =>
  andThen (nextTable L s (entryPtr pud (pdptIndex vaddr)) create cr3 (some 0x200000)) fun pd s =>
  andThen (nextTable L s (entryPtr pd (pdIndex vaddr)) create cr3 (some 4096)) fun pt s =>
  (some (entryPtr pt (ptIndex vaddr)), s)

/-! ## The address space -/

/-- The tables of `cr3` form a tree, and none of them lies in the part `[…, hi)` of
    the direct map from which the heap still hands out blocks. -/
structure AddrSpace (L : Layout) (cr3 : Word) (hi : ℕ) (s : MmState) : Prop where
  unshared : Unshared (treeOf L s.mem) 4 (rootOf cr3)
  clear : ∀ p f, Reaches (treeOf L s.mem) 4 (rootOf cr3) p f →
    (tableAddr L f).toNat + 4096 ≤ s.placementAddress.toNat ∨ hi ≤ (tableAddr L f).toNat
  hhdm_le : L.hhdmOffset.toNat ≤ s.placementAddress.toNat
  placement_le : s.placementAddress.toNat ≤ hi
  hi_aligned : hi % 4096 = 0
  hi_le : hi ≤ L.kernelVirtBase.toNat
  hi_phys : hi ≤ L.hhdmOffset.toNat + 2 ^ 52

/-- What a walk keeps: the address space is in order, every lookup answers as before,
    and the heap has only handed out blocks. -/
structure Walked (L : Layout) (cr3 : Word) (hi : ℕ) (s s' : MmState) : Prop where
  space : AddrSpace L cr3 hi s'
  lookup_eq : ∀ w, w.length = 4 →
    lookup (treeOf L s'.mem) (rootOf cr3) w = lookup (treeOf L s.mem) (rootOf cr3) w
  cr3_eq : s'.cr3 = s.cr3
  heap : ∀ lo, HeapInv lo s → HeapInv lo s'

section Walk

variable {L : Layout} {cr3 : Word} {hi k : ℕ} {s s' s'' : MmState} {p : List (BitVec 9)}
  {n f : Frame} {i : BitVec 9} {h g : Page → Page}

theorem Walked.refl (hs : AddrSpace L cr3 hi s) : Walked L cr3 hi s s :=
  ⟨hs, fun _ _ => rfl, rfl, fun _ h => h⟩

theorem Walked.trans (h1 : Walked L cr3 hi s s') (h2 : Walked L cr3 hi s' s'') :
    Walked L cr3 hi s s'' :=
  ⟨h2.space, fun w hw => (h2.lookup_eq w hw).trans (h1.lookup_eq w hw), h2.cr3_eq.trans h1.cr3_eq,
    fun lo hlo => h2.heap lo (h1.heap lo hlo)⟩

/-- Writes between the heap pointer and `hi`, and a higher heap pointer, change nothing
    that the tables say. -/
theorem AddrSpace.frame (hs : AddrSpace L cr3 hi s)
    (hmem : ∀ b : Addr, b.toNat < s.placementAddress.toNat ∨ hi ≤ b.toNat → s'.mem b = s.mem b)
    (hle : s.placementAddress.toNat ≤ s'.placementAddress.toNat)
    (hhi : s'.placementAddress.toNat ≤ hi) :
    AddrSpace L cr3 hi s' ∧ ∀ w, w.length = 4 →
      lookup (treeOf L s'.mem) (rootOf cr3) w = lookup (treeOf L s.mem) (rootOf cr3) w := by
  -- an entry of a reachable table has the bytes it had
  have hagree : ∀ w, AgreeOn (treeOf L s.mem) (treeOf L s'.mem) 4 (rootOf cr3) w := by
    intro w q j q' t _ hq m
    have hload : s'.mem.load (entryAddr L t j) = s.mem.load (entryAddr L t j) := by
      apply Mem.load_congr
      intro k hk
      have hclear := hs.clear q t hq
      have h1 := tableAddr_aligned (L := L) t
      have h2 := (tableAddr L t).isLt
      have hin := (within_iff (by omega)).mp (within_entry (L := L) (f := t) (i := j) hk)
      exact hmem _ (by omega)
    simp only [treeOf, hload]
  have hreach : ∀ q t, Reaches (treeOf L s'.mem) 4 (rootOf cr3) q t →
      Reaches (treeOf L s.mem) 4 (rootOf cr3) q t := by
    rintro q t ⟨g, hg⟩
    exact ⟨g, by rw [← descend_congr (hagree q)]; exact hg⟩
  refine ⟨⟨?_, ?_, hs.hhdm_le.trans hle, hhi, hs.hi_aligned, hs.hi_le, hs.hi_phys⟩, ?_⟩
  · intro p q t hp hq
    exact hs.unshared p q t (hreach p t hp) (hreach q t hq)
  · intro q t hq
    have := hs.clear q t (hreach q t hq)
    omega
  · intro w hw
    exact lookup_congr hw (hagree w)

/-- The next page of the heap is a frame that no table uses. -/
theorem AddrSpace.newFrame (hs : AddrSpace L cr3 hi s) (hroom : s.HasRoom 4096 hi) :
    ∃ f : Frame, tableAddr L f = alignUp s.placementAddress ∧
      virtToPhys L (alignUp s.placementAddress) = frameAddr f ∧
      ∀ q t, Reaches (treeOf L s.mem) 4 (rootOf cr3) q t → t ≠ f := by
  have h1 := hs.hhdm_le
  have h2 := hs.hi_le
  have h3 := hs.hi_phys
  have h4 := L.hhdm_aligned
  have hlt := L.kernelVirtBase.isLt
  have hbase := hroom.alignUp (by omega) (by norm_num)
  unfold MmState.HasRoom at hroom
  have hsub : (alignUp s.placementAddress - L.hhdmOffset).toNat =
      (alignUp s.placementAddress).toNat - L.hhdmOffset.toNat := by
    rw [BitVec.toNat_sub]
    omega
  have hframe : frameAddr ((alignUp s.placementAddress - L.hhdmOffset).extractLsb' 12 40) =
      alignUp s.placementAddress - L.hhdmOffset := by
    apply BitVec.eq_of_toNat_eq
    rw [toNat_frameAddr, BitVec.extractLsb'_toNat, Nat.shiftRight_eq_div_pow, hsub]
    omega
  have htable : tableAddr L ((alignUp s.placementAddress - L.hhdmOffset).extractLsb' 12 40) =
      alignUp s.placementAddress := by
    rw [tableAddr, physToVirt, hframe, sub_add_cancel]
  refine ⟨_, htable, ?_, ?_⟩
  · rw [virtToPhys, if_neg (by rw [BitVec.le_def]; omega), hframe]
  · rintro q t hq rfl
    have := hs.clear q _ hq
    rw [htable] at this
    omega

/-! ## Fresh tables -/

theorem fillTable_apply {m : Mem} {entry : ℕ → Word} {b : Addr} (hb : ¬ Within (tableAddr L f) 4096 b)
    {j : ℕ} (hj : j ≤ 512) : fillTable m (tableAddr L f) entry j b = m b := by
  induction j with
  | zero => rfl
  | succ j ih =>
    rw [fillTable, Mem.store_apply_of_not_within, ih (by omega)]
    intro hw
    apply hb
    refine within_of_within_add (k := 8 * j) (n := 8) ?_ (by omega) (by norm_num)
    rw [BitVec.ofNat_mul]
    exact hw

/-- Entry `i` of a filled table. -/
theorem fillTable_load (m : Mem) (entry : ℕ → Word) (i : BitVec 9) {j : ℕ} (hij : i.toNat < j)
    (hj : j ≤ 512) :
    (fillTable m (tableAddr L f) entry j).load (entryAddr L f i) = entry i.toNat := by
  induction j with
  | zero => omega
  | succ j ih =>
    have hptr : entryPtr (tableAddr L f) (BitVec.ofNat 64 j) = entryAddr L f (BitVec.ofNat 9 j) := by
      rw [← entryPtr_eq]
      congr 1
      apply BitVec.eq_of_toNat_eq
      rw [BitVec.toNat_setWidth, BitVec.toNat_ofNat, BitVec.toNat_ofNat]
      omega
    rw [fillTable, hptr]
    by_cases hi : i.toNat = j
    · have : i = BitVec.ofNat 9 j := by rw [← hi, BitVec.ofNat_toNat, BitVec.setWidth_eq]
      rw [← this, Mem.load_store_self, hi]
    · rw [load_entry_store (Or.inr ?_), ih (by omega) (by omega)]
      rintro rfl
      rw [BitVec.toNat_ofNat] at hi
      omega

theorem memset_apply_page {m : Mem} {b : Addr} (hb : ¬ Within (tableAddr L f) 4096 b) :
    memset m (tableAddr L f) 0 4096 b = m b := by
  rw [memset_apply _ _ _ (by norm_num), if_neg hb]

/-- A cleared table holds no entry. -/
theorem memset_load (m : Mem) (i : BitVec 9) :
    (memset m (tableAddr L f) 0 4096).load (entryAddr L f i) = 0 := by
  have hz : Mem.load (fun _ => 0) (entryAddr L f i) = 0 := by
    simp only [Mem.load]
    decide
  rw [← hz]
  apply Mem.load_congr
  intro j hj
  rw [memset_apply _ _ _ (by norm_num), if_pos (within_entry hj)]

theorem decode_zero (l : ℕ) : decode l 0 = .absent := by
  match l with
  | 0 => rfl
  | 1 => rfl
  | 2 => rfl
  | l + 3 => rfl

/-- A pointer to the table in frame `f`, with `PAGE_USER` and `PAGE_NX` as in `x`. -/
def pointer (f : Frame) (x : Word) : Word :=
  frameAddr f ||| pagePresent ||| pageWrite ||| (x &&& (pageUser ||| pageNx))

theorem getLsbD_frameAddr (f : Frame) (j : ℕ) :
    (frameAddr f).getLsbD j = (decide (12 ≤ j) && f.getLsbD (j - 12)) := by
  rw [frameAddr, BitVec.getLsbD_setWidth, BitVec.getLsbD_append]
  by_cases h1 : j < 12
  · simp [h1, show ¬ 12 ≤ j by omega]
  · by_cases h2 : j < 64
    · simp [h1, h2, show 12 ≤ j by omega]
    · rw [BitVec.getLsbD_of_ge f _ (by omega)]
      simp [h2]

theorem getLsbD_pointer (f : Frame) (x : Word) {j : ℕ} (hj : j < 64) :
    (pointer f x).getLsbD j = (decide (j = 0) || decide (j = 1) ||
      (decide (j = 2 ∨ j = 63) && x.getLsbD j) || (decide (12 ≤ j) && f.getLsbD (j - 12))) := by
  have h1 : ∀ j : Fin 64, (pagePresent ||| pageWrite).getLsbD j =
      (decide (j.val = 0) || decide (j.val = 1)) := by decide
  have h2 : ∀ j : Fin 64, (pageUser ||| pageNx).getLsbD j = decide (j.val = 2 ∨ j.val = 63) := by
    decide
  rw [pointer, BitVec.or_assoc (frameAddr f), BitVec.getLsbD_or, BitVec.getLsbD_or,
    BitVec.getLsbD_and, getLsbD_frameAddr, h1 ⟨j, hj⟩, h2 ⟨j, hj⟩]
  generalize decide (j = 0) = b1
  generalize decide (j = 1) = b2
  generalize decide (j = 2 ∨ j = 63) = b3
  generalize decide (12 ≤ j) = b4
  cases b1 <;> cases b2 <;> cases b3 <;> cases b4 <;> simp [Bool.or_comm]

theorem pointer_frame (f : Frame) (x : Word) : (pointer f x).extractLsb' 12 40 = f := by
  apply BitVec.eq_of_getLsbD_eq
  intro j hj
  rw [BitVec.getLsbD_extractLsb', getLsbD_pointer f x (by omega)]
  simp [hj, show 12 + j ≠ 1 by omega, show 12 + j ≠ 2 by omega, show 12 + j ≠ 63 by omega]

theorem decode_pointer (f : Frame) (x : Word) {l : ℕ} (hl : 1 ≤ l) :
    decode l (pointer f x) = .table f (restrict (pointer f x)) := by
  have h0 : (pointer f x).getLsbD 0 = true := by rw [getLsbD_pointer f x (by norm_num)]; rfl
  have h7 : (pointer f x).getLsbD 7 = false := by rw [getLsbD_pointer f x (by norm_num)]; rfl
  have hf := pointer_frame f x
  match l, hl with
  | 1, _ => rw [decode, if_pos h0, if_neg (by rw [h7]; decide), hf]
  | 2, _ => rw [decode, if_pos h0, if_neg (by rw [h7]; decide), hf]
  | l + 3, _ => rw [decode, if_pos h0, hf]

/-- Below a pointer the rights of `x` are `PAGE_USER` and `PAGE_NX`; every page below
    it may be written. -/
theorem restrict_pointer (f : Frame) (x : Word) (q : Page) :
    restrict (pointer f x) q =
      ⟨q.frame, q.writable, q.user && x.getLsbD 2, q.noExec || x.getLsbD 63⟩ := by
  rw [restrict, getLsbD_pointer f x (by norm_num), getLsbD_pointer f x (by norm_num),
    getLsbD_pointer f x (by norm_num)]
  simp

/-- A large page keeps its rights below a pointer that took them from it. -/
theorem restrict_pointer_leafPage (f : Frame) (x : Word) (fr : Frame) :
    restrict (pointer f x) (leafPage x fr) = leafPage x fr := by
  rw [restrict_pointer, leafPage, Bool.and_self, Bool.or_self]

theorem decode_eq_absent_iff (l : ℕ) (e : Word) : decode l e = .absent ↔ e.getLsbD 0 = false := by
  cases h0 : e.getLsbD 0 with
  | false =>
    have hne : ¬ e.getLsbD 0 = true := by rw [h0]; decide
    rcases l with _ | _ | _ | l <;> · rw [decode, if_neg hne]; simp
  | true =>
    rcases l with _ | _ | _ | l <;> rw [decode, if_pos h0]
    · simp
    · split_ifs <;> simp
    · split_ifs <;> simp
    · simp

/-! ## One level of the walk -/

/-- From `s` to `s'` an entry that is no pointer has been replaced by a pointer to a new
    table, which is empty and gives no right to the user where the entry was absent. -/
def Attaches (L : Layout) (cr3 : Word) (s s' : MmState) : Prop :=
  ∃ (k : ℕ) (p : List (BitVec 9)) (n f : Frame) (i : BitVec 9) (h : Page → Page) (x : Word),
    p.length + (k + 1) = 4 ∧ Unshared (treeOf L s.mem) 4 (rootOf cr3) ∧
    Attached (treeOf L s.mem) (treeOf L s'.mem) k (rootOf cr3) p n f i h (restrict (pointer f x)) ∧
    (treeOf L s.mem k n i = .absent → x = 0 ∧ ∀ l j, treeOf L s'.mem l f j = .absent)

/-- A walk is a chain of such replacements. -/
abbrev Grown (L : Layout) (cr3 : Word) : MmState → MmState → Prop :=
  Relation.ReflTransGen (Attaches L cr3)

/-- `s'` is `s` after a page of the heap has been made the table in frame `f`, with
    the contents `mp`, and a pointer to it has been stored in entry `i` of the table
    `n`. -/
structure Linked (L : Layout) (n : Frame) (i : BitVec 9) (f : Frame) (x : Word) (mp : Mem)
    (s s' : MmState) : Prop where
  table : tableAddr L f = alignUp s.placementAddress
  filled : ∀ b, ¬ Within (tableAddr L f) 4096 b → mp b = s.mem b
  mem : s'.mem = mp.store (entryAddr L n i) (pointer f x)
  cr3 : s'.cr3 = s.cr3
  placement : s'.placementAddress = tableAddr L f + 4096#64
  allocs : s'.allocs = ⟨tableAddr L f, 4096⟩ :: s.allocs

section Linked

variable {x : Word} {mp : Mem}

theorem Linked.load_fresh (hl : Linked L n i f x mp s s') (hn : f ≠ n) (j : BitVec 9) :
    s'.mem.load (entryAddr L f j) = mp.load (entryAddr L f j) := by
  rw [hl.mem, load_entry_store (Or.inl hn)]

theorem Linked.attached (hl : Linked L n i f x mp s s')
    (hp : descend (treeOf L s.mem) 4 (rootOf cr3) p = some (n, h)) (hk : p.length + (k + 1) = 4)
    (hk1 : 1 ≤ k) (hold : ¬ (treeOf L s.mem k n i).IsTable)
    (hfresh : ∀ q t, Reaches (treeOf L s.mem) 4 (rootOf cr3) q t → t ≠ f)
    (hinner : ∀ l j, l + 1 = k → ¬ (decode l (mp.load (entryAddr L f j))).IsTable) :
    Attached (treeOf L s.mem) (treeOf L s'.mem) k (rootOf cr3) p n f i h
      (restrict (pointer f x)) := by
  have hn : f ≠ n := fun e => hfresh p n ⟨h, hp⟩ e.symm
  refine ⟨⟨?_, ?_⟩, ?_, hold, ?_, ?_⟩
  · intro l t j ht hne
    have ht' : t ≠ f := ht
    simp only [treeOf]
    rw [hl.mem, load_entry_store hne, load_entry_congr (tableAddr_aligned f) hl.filled]
    exact fun e => ht' (tableAddr_inj e)
  · rw [hk]
    exact fun q t hq => hfresh q t hq
  · rw [hk]
    exact hp
  · simp only [treeOf]
    rw [hl.mem, Mem.load_store_self, decode_pointer f x hk1]
  · intro l j hlk
    simp only [treeOf]
    rw [hl.load_fresh hn]
    exact hinner l j hlk

/-- Linking a table that answers as the entry it replaces did keeps the address
    space and every answer. -/
theorem Linked.walked (hl : Linked L n i f x mp s s') (hs : AddrSpace L cr3 hi s)
    (hroom : s.HasRoom 4096 hi)
    (ha : Attached (treeOf L s.mem) (treeOf L s'.mem) k (rootOf cr3) p n f i h g)
    (hk : p.length + (k + 1) = 4)
    (hval : ∀ w, w.length = k → (lookup (treeOf L s'.mem) f w).map g =
      (treeOf L s.mem k n i).value (treeOf L s.mem) w) :
    Walked L cr3 hi s s' ∧
      descend (treeOf L s'.mem) 4 (rootOf cr3) (p ++ [i]) = some (f, h ∘ g) := by
  have h2 := hs.hi_le
  have hlt := L.kernelVirtBase.isLt
  have hbase := hroom.alignUp (by omega) (by norm_num)
  rw [← hl.table] at hbase
  unfold MmState.HasRoom at hroom
  have hnat : s'.placementAddress.toNat = (tableAddr L f).toNat + 4096 := by
    rw [hl.placement]
    exact toNat_add_ofNat (i := 4096) (by omega)
  have hsh : Unshared (treeOf L s.mem) (p.length + (k + 1)) (rootOf cr3) := by
    rw [hk]
    exact hs.unshared
  have hdesc := attach_descend ha hsh
  rw [hk] at hdesc
  refine ⟨⟨⟨?_, ?_, ?_, by omega, hs.hi_aligned, hs.hi_le, hs.hi_phys⟩, ?_, hl.cr3, ?_⟩, ?_⟩
  · have := attach_unshared ha hsh
    rwa [hk] at this
  · rintro q t ⟨gt, hq⟩
    rw [hdesc] at hq
    split_ifs at hq with hqp
    · obtain ⟨rfl, -⟩ : f = t ∧ _ := by simpa using hq
      omega
    · have := hs.clear q t ⟨gt, hq⟩
      omega
  · have := hs.hhdm_le
    omega
  · intro w hw
    exact attach_lookup ha hsh hval (hw.trans hk.symm)
  · intro lo hlo
    exact hlo.push (by omega) hnat hl.allocs
  · rw [hdesc, if_pos rfl]

end Linked

/-- The levels of the walk: how many are below, and the size of the pages that a
    large page at this level is split into. -/
inductive LevelStep : ℕ → Option Word → Prop
  | pml4 : LevelStep 3 none
  | pdpt : LevelStep 2 (some 0x200000)
  | pd : LevelStep 1 (some 4096)

theorem LevelStep.one_le {step : Option Word} (hl : LevelStep k step) : 1 ≤ k := by
  cases hl <;> norm_num

/-- An entry that the walk follows without splitting is a pointer. -/
theorem decode_of_follow {step : Option Word} (hl : LevelStep k step) {e : Word}
    (h0 : e.getLsbD 0 = true) (h7 : step = none ∨ e.getLsbD 7 = false) :
    decode k e = .table (e.extractLsb' 12 40) (restrict e) := by
  cases hl with
  | pml4 => rw [decode, if_pos h0]
  | pdpt => rw [decode, if_pos h0, if_neg (by simpa using h7)]
  | pd => rw [decode, if_pos h0, if_neg (by simpa using h7)]

theorem kmallocAz_page (s : MmState) (hf : tableAddr L f = alignUp s.placementAddress) :
    kmallocAz s 4096 = (tableAddr L f,
      { s with
        mem := memset s.mem (tableAddr L f) 0 4096
        placementAddress := tableAddr L f + 4096#64
        allocs := ⟨tableAddr L f, 4096⟩ :: s.allocs }) := by
  rw [kmallocAz_eq, hf]
  rfl

/-- The branch that replaces an absent entry by a pointer to a cleared table. -/
theorem nextTable_create (hs : AddrSpace L cr3 hi s) (hroom : s.HasRoom 4096 hi)
    (hp : descend (treeOf L s.mem) 4 (rootOf cr3) p = some (n, h)) (hk : p.length + (k + 1) = 4)
    (hk1 : 1 ≤ k) (habs : treeOf L s.mem k n i = .absent) (step : Option Word) :
    ∃ f g s', nextTable L s (entryAddr L n i) true cr3 step = (some (tableAddr L f), s') ∧
      descend (treeOf L s'.mem) 4 (rootOf cr3) (p ++ [i]) = some (f, g) ∧
      Walked L cr3 hi s s' ∧ Attaches L cr3 s s' := by
  obtain ⟨f, htable, hphys, hfresh⟩ := hs.newFrame hroom
  have hn : f ≠ n := fun e => hfresh p n ⟨h, hp⟩ e.symm
  have hptr : frameAddr f ||| pagePresent ||| pageWrite = pointer f 0 := by
    rw [pointer, show (0 : Word) &&& (pageUser ||| pageNx) = 0#64 from BitVec.zero_and,
      BitVec.or_zero]
  have hpres : s.mem.load (entryAddr L n i) &&& pagePresent = 0 :=
    (and_pagePresent_eq_zero_iff _).mpr ((decode_eq_absent_iff k _).mp habs)
  have hl : Linked L n i f 0 (memset s.mem (tableAddr L f) 0 4096) s
      { s with
        mem := (memset s.mem (tableAddr L f) 0 4096).store (entryAddr L n i) (pointer f 0)
        placementAddress := tableAddr L f + 4096#64
        allocs := ⟨tableAddr L f, 4096⟩ :: s.allocs } :=
    ⟨htable, fun b hb => memset_apply_page hb, rfl, rfl, rfl, rfl⟩
  have ha := hl.attached hp hk hk1 (by rw [habs]; exact not_false) hfresh
    (by intro l j _; rw [memset_load, decode_zero]; exact not_false)
  obtain ⟨hw, hd⟩ := hl.walked hs hroom ha hk (by
    intro w hw
    cases w with
    | nil => simp at hw; omega
    | cons j w =>
      rw [lookup_cons, habs]
      simp only [treeOf]
      rw [hl.load_fresh hn, memset_load, decode_zero]
      rfl)
  refine ⟨f, _, _, ?_, hd, hw, k, p, n, f, i, h, 0, hk, hs.unshared, ha, fun _ => ⟨rfl, ?_⟩⟩
  swap
  · intro l j
    simp only [treeOf]
    rw [hl.load_fresh hn, memset_load, decode_zero]
  unfold nextTable
  rw [if_pos hpres, if_pos rfl, kmallocAz_page s htable]
  simp only [htable, hphys, hptr]
  rfl

/-- A level whose entry is a pointer is passed without a write. -/
theorem nextTable_of_table {step : Option Word} (hlev : LevelStep k step) (create : Bool)
    (ht : treeOf L s.mem k n i = .table f g) :
    nextTable L s (entryAddr L n i) create cr3 step = (some (tableAddr L f), s) := by
  have ht : decode k (s.mem.load (entryAddr L n i)) = .table f g := ht
  have h0 : (s.mem.load (entryAddr L n i)).getLsbD 0 = true := by
    by_contra hne
    rw [(decode_eq_absent_iff k _).mpr (by simpa using hne)] at ht
    cases ht
  have hps : ∀ st, step = some st → s.mem.load (entryAddr L n i) &&& pagePs = 0 := by
    intro st hst
    rw [and_pagePs_eq_zero_iff]
    cases hlev with
    | pml4 => cases hst
    | pdpt | pd =>
      rw [decode, if_pos h0] at ht
      split_ifs at ht with h7
      simpa using h7
  have h7 : step = none ∨ (s.mem.load (entryAddr L n i)).getLsbD 7 = false := by
    cases step with
    | none => exact Or.inl rfl
    | some st => exact Or.inr ((and_pagePs_eq_zero_iff _).mp (hps st rfl))
  rw [decode_of_follow hlev h0 h7] at ht
  injection ht with hf
  unfold nextTable
  rw [if_neg (by rw [and_pagePresent_eq_zero_iff, h0]; decide)]
  cases step with
  | none => simp only [pageGetAddr_eq, tableAddr, hf]
  | some st =>
    simp only [hps st rfl, ne_eq, not_true_eq_false, if_false, pageGetAddr_eq, tableAddr, hf]

/-- The branch that follows a pointer. -/
theorem nextTable_follow (hs : AddrSpace L cr3 hi s) {step : Option Word} (hlev : LevelStep k step)
    (hp : descend (treeOf L s.mem) 4 (rootOf cr3) p = some (n, h)) (hk : p.length + (k + 1) = 4)
    (h0 : (s.mem.load (entryAddr L n i)).getLsbD 0 = true)
    (h7 : step = none ∨ (s.mem.load (entryAddr L n i)).getLsbD 7 = false) (create : Bool) :
    ∃ f g, nextTable L s (entryAddr L n i) create cr3 step = (some (tableAddr L f), s) ∧
      descend (treeOf L s.mem) 4 (rootOf cr3) (p ++ [i]) = some (f, g) ∧
      Walked L cr3 hi s s := by
  have ht : treeOf L s.mem k n i = .table _ _ := decode_of_follow hlev h0 h7
  rw [← hk] at hp
  have hd := descend_snoc hp ht
  rw [hk] at hd
  exact ⟨_, _, nextTable_of_table hlev create ht, hd, Walked.refl hs⟩

/-- A large page and the entries it is split into are leaves with the same answers. -/
theorem splitEntry_leaves {st e : Word} (hlev : LevelStep k (some st)) (h0 : e.getLsbD 0 = true)
    (h7 : e.getLsbD 7 = true) :
    ¬ (decode k e).IsTable ∧
    (∀ l (j : BitVec 9), l + 1 = k → ∃ fn, decode l (splitEntry e st j.toNat) = .leaf fn) ∧
    ∀ (T T' : Tree Frame (BitVec 9) Page) (j : BitVec 9) (w : List (BitVec 9)), w.length + 1 = k →
      ∃ fr, (decode k e).value T (j :: w) = some (leafPage e fr) ∧
        (decode w.length (splitEntry e st j.toNat)).value T' w = some (leafPage e fr) := by
  cases hlev with
  | pdpt =>
    refine ⟨?_, ?_, ?_⟩
    · rw [decode, if_pos h0, if_pos h7]
      exact not_false
    · intro l j hl
      obtain rfl : l = 1 := by omega
      obtain ⟨f, hf, -⟩ := splitEntry_decode_2m h0 h7 j
      exact ⟨f, hf⟩
    · intro T T' j w hw
      obtain ⟨i, rfl⟩ : ∃ i, w = [i] := List.length_eq_one_iff.mp (by omega)
      obtain ⟨f, hf, hfi⟩ := splitEntry_decode_2m h0 h7 j
      refine ⟨_, by rw [decode, if_pos h0, if_pos h7]; rfl, ?_⟩
      rw [List.length_singleton, hf]
      exact hfi i
  | pd =>
    refine ⟨?_, ?_, ?_⟩
    · rw [decode, if_pos h0, if_pos h7]
      exact not_false
    · intro l j hl
      obtain rfl : l = 0 := by omega
      exact ⟨_, splitEntry_decode_4k h0 j⟩
    · intro T T' j w hw
      obtain rfl : w = [] := List.length_eq_zero_iff.mp (by omega)
      refine ⟨_, by rw [decode, if_pos h0, if_pos h7]; rfl, ?_⟩
      rw [List.length_nil, splitEntry_decode_4k h0]
      rfl

/-- The branch that splits a large page. -/
theorem nextTable_split (hs : AddrSpace L cr3 hi s) (hroom : s.HasRoom 4096 hi) {st : Word}
    (hlev : LevelStep k (some st))
    (hp : descend (treeOf L s.mem) 4 (rootOf cr3) p = some (n, h)) (hk : p.length + (k + 1) = 4)
    (h0 : (s.mem.load (entryAddr L n i)).getLsbD 0 = true)
    (h7 : (s.mem.load (entryAddr L n i)).getLsbD 7 = true) (create : Bool) :
    ∃ f g s', nextTable L s (entryAddr L n i) create cr3 (some st) = (some (tableAddr L f), s') ∧
      descend (treeOf L s'.mem) 4 (rootOf cr3) (p ++ [i]) = some (f, g) ∧
      Walked L cr3 hi s s' ∧ Attaches L cr3 s s' ∧
      ∀ l j, l + 1 = k → treeOf L s'.mem l f j ≠ .absent := by
  obtain ⟨f, htable, hphys, hfresh⟩ := hs.newFrame hroom
  have hn : f ≠ n := fun e => hfresh p n ⟨h, hp⟩ e.symm
  have hpres : ¬ s.mem.load (entryAddr L n i) &&& pagePresent = 0 := by
    rw [and_pagePresent_eq_zero_iff, h0]
    decide
  have hps : s.mem.load (entryAddr L n i) &&& pagePs ≠ 0 := by
    rw [ne_eq, and_pagePs_eq_zero_iff, h7]
    decide
  generalize he : s.mem.load (entryAddr L n i) = e at *
  -- the page of the new table
  obtain ⟨mp, hmp⟩ : ∃ mp, mp = fillTable (memset s.mem (tableAddr L f) 0 4096) (tableAddr L f)
    (splitEntry e st) 512 := ⟨_, rfl⟩
  have hfilled : ∀ b, ¬ Within (tableAddr L f) 4096 b → mp b = s.mem b := by
    intro b hb
    rw [hmp, fillTable_apply hb le_rfl, memset_apply_page hb]
  have hentry : ∀ j, mp.load (entryAddr L f j) = splitEntry e st j.toNat := by
    intro j
    rw [hmp]
    exact fillTable_load _ _ j j.isLt le_rfl
  have hsame : mp.load (entryAddr L n i) = e := by
    rw [load_entry_congr (tableAddr_aligned f) hfilled (fun e => hn (tableAddr_inj e.symm)), he]
  have hleaves := splitEntry_leaves hlev h0 h7
  have hstate : ∃ s', nextTable L s (entryAddr L n i) create cr3 (some st) =
      (some (tableAddr L f), s') ∧ Linked L n i f e mp s s' := by
    unfold nextTable
    rw [he, if_neg hpres]
    simp only [splitHugeEntry, if_pos hps, kmallocAz_page s htable]
    rw [← hmp, hsame, htable, hphys, ← htable]
    obtain ⟨t, ht⟩ := ite_flushTlbAll (MmState.write
      { s with
        mem := mp
        placementAddress := tableAddr L f + 4096#64
        allocs := ⟨tableAddr L f, 4096⟩ :: s.allocs } (entryAddr L n i) (pointer f e)) cr3
    rw [pointer] at ht
    rw [ht]
    refine ⟨_, Prod.ext ?_ rfl, htable, hfilled, rfl, rfl, rfl, rfl⟩
    show some (physToVirt L (pageGetAddr
      ((mp.store (entryAddr L n i) (pointer f e)).load (entryAddr L n i)))) = some (tableAddr L f)
    rw [Mem.load_store_self, pageGetAddr_eq, pointer_frame]
    rfl
  obtain ⟨s', hnext, hl⟩ := hstate
  have ha := hl.attached hp hk hlev.one_le (by simp only [treeOf]; rw [he]; exact hleaves.1) hfresh
    (by
      intro l j hlk
      obtain ⟨fn, hfn⟩ := hleaves.2.1 l j hlk
      rw [hentry, hfn]
      exact not_false)
  obtain ⟨hw, hd⟩ := hl.walked hs hroom ha hk (by
    intro w hw
    cases w with
    | nil => have := hlev.one_le; simp at hw; omega
    | cons j w =>
      obtain ⟨fr, h1, h2⟩ := hleaves.2.2 (treeOf L s.mem) (treeOf L s'.mem) j w (by simpa using hw)
      rw [lookup_cons]
      simp only [treeOf] at h1 h2 ⊢
      rw [he, h1, hl.load_fresh hn, hentry, h2, Option.map_some, restrict_pointer_leafPage])
  have hpresent : treeOf L s.mem k n i ≠ .absent := by
    simp only [treeOf]
    rw [he, ne_eq, decode_eq_absent_iff, h0]
    decide
  refine ⟨f, _, s', hnext, hd, hw,
    ⟨k, p, n, f, i, h, e, hk, hs.unshared, ha, fun habs => absurd habs hpresent⟩, ?_⟩
  intro l j hlk
  obtain ⟨fn, hfn⟩ := hleaves.2.1 l j hlk
  simp only [treeOf]
  rw [hl.load_fresh hn, hentry, hfn]
  simp

/-! ## The heap during the walk -/

/-- `s'` has one more page of the heap in use than `s`. -/
structure Grew (s s' : MmState) : Prop where
  placement : s'.placementAddress = alignUp s.placementAddress + 4096#64
  allocs : s'.allocs = ⟨alignUp s.placementAddress, 4096⟩ :: s.allocs

/-- The blocks handed out between `s` and `s'` end at or below `hi`. -/
def Fit (hi : ℕ) (s s' : MmState) : Prop :=
  ∃ bs, s'.allocs = bs ++ s.allocs ∧ ∀ b ∈ bs, b.addr.toNat + b.size ≤ hi

theorem Fit.hasRoom (hfit : Fit hi s s') (hs : AddrSpace L cr3 hi s) (hg : Grew s s') :
    s.HasRoom 4096 hi := by
  obtain ⟨bs, hbs, hin⟩ := hfit
  have h1 := hs.placement_le
  have h2 := hs.hi_aligned
  have h3 := hs.hi_le
  have h4 := L.kernelVirtBase.isLt
  obtain rfl : bs = [⟨alignUp s.placementAddress, 4096⟩] :=
    List.append_cancel_right (hbs.symm.trans hg.allocs)
  have h5 := hin _ (List.mem_singleton_self _)
  simp only [alignUp_spec (a := s.placementAddress) (by omega)] at h5
  exact h5

/-- Parts of a walk that fits fit. -/
theorem Fit.split (hfit : Fit hi s s'') (h1 : s.allocs <:+ s'.allocs)
    (h2 : s'.allocs <:+ s''.allocs) : Fit hi s s' ∧ Fit hi s' s'' := by
  obtain ⟨bs, hbs, hin⟩ := hfit
  obtain ⟨b1, hb1⟩ := h1
  obtain ⟨b2, hb2⟩ := h2
  obtain rfl : bs = b2 ++ b1 := by
    have happ : bs ++ s.allocs = (b2 ++ b1) ++ s.allocs := by
      rw [← hbs, ← hb2, ← hb1, List.append_assoc]
    exact List.append_cancel_right happ
  exact ⟨⟨b1, hb1.symm, fun b hb => hin b (List.mem_append_right _ hb)⟩,
    ⟨b2, hb2.symm, fun b hb => hin b (List.mem_append_left _ hb)⟩⟩

theorem Fit.refl : Fit hi s s := ⟨[], rfl, by simp⟩

theorem Fit.trans (h1 : Fit hi s s') (h2 : Fit hi s' s'') : Fit hi s s'' := by
  obtain ⟨b1, hb1, hin1⟩ := h1
  obtain ⟨b2, hb2, hin2⟩ := h2
  refine ⟨b2 ++ b1, by rw [hb2, hb1, List.append_assoc], fun b hb => ?_⟩
  rcases List.mem_append.mp hb with hb | hb
  · exact hin2 b hb
  · exact hin1 b hb

/-- One level of the walk takes at most one page from the heap. -/
theorem nextTable_heap (L : Layout) (s : MmState) (entry : Addr) (create : Bool) (cr3 : Word)
    (step : Option Word) :
    ((nextTable L s entry create cr3 step).2.placementAddress = s.placementAddress ∧
      (nextTable L s entry create cr3 step).2.allocs = s.allocs) ∨
    Grew s (nextTable L s entry create cr3 step).2 := by
  unfold nextTable
  by_cases h1 : s.mem.load entry &&& pagePresent = 0
  · rw [if_pos h1]
    cases create with
    | false => exact Or.inl ⟨rfl, rfl⟩
    | true => exact Or.inr ⟨rfl, rfl⟩
  · rw [if_neg h1]
    cases step with
    | none => exact Or.inl ⟨rfl, rfl⟩
    | some st =>
      simp only
      by_cases h2 : s.mem.load entry &&& pagePs ≠ 0
      · rw [if_pos h2]
        split_ifs
        · rw [flushTlbAll_eq]; exact Or.inr ⟨rfl, rfl⟩
        · exact Or.inr ⟨rfl, rfl⟩
      · rw [if_neg h2]
        exact Or.inl ⟨rfl, rfl⟩

theorem nextTable_suffix (L : Layout) (s : MmState) (entry : Addr) (create : Bool) (cr3 : Word)
    (step : Option Word) : s.allocs <:+ (nextTable L s entry create cr3 step).2.allocs := by
  rcases nextTable_heap L s entry create cr3 step with ⟨-, h⟩ | h
  · rw [h]
  · rw [h.allocs]
    exact List.suffix_cons _ _

/-- With room for a page the level's page fits, and the rest of the room is left. -/
theorem nextTable_fit {m : ℕ} (hroom : s.HasRoom (4096 + m) hi) (hhi : hi < 2 ^ 64)
    (entry : Addr) (create : Bool) (step : Option Word) :
    Fit hi s (nextTable L s entry create cr3 step).2 ∧
      (nextTable L s entry create cr3 step).2.HasRoom m hi := by
  have hbase := hroom.alignUp hhi (by omega)
  have hheap := nextTable_heap L s entry create cr3 step
  generalize (nextTable L s entry create cr3 step).2 = s' at hheap ⊢
  unfold MmState.HasRoom at hroom ⊢
  rcases hheap with ⟨h1, h2⟩ | h
  · rw [h1]
    exact ⟨⟨[], h2, by simp⟩, by omega⟩
  · have hnat : s'.placementAddress.toNat = (alignUp s.placementAddress).toNat + 4096 := by
      rw [h.placement]
      exact toNat_add_ofNat (i := 4096) (by omega)
    refine ⟨⟨[_], h.allocs, ?_⟩, by omega⟩
    intro b hb
    obtain rfl := List.mem_singleton.mp hb
    show (alignUp s.placementAddress).toNat + 4096 ≤ hi
    omega

/-- **One level of the walk.** It returns `NULL` only where the entry is absent and
    `create` is not given, and then changes nothing. Otherwise it returns the next
    table on the path, and every lookup answers as before. -/
theorem nextTable_spec (hs : AddrSpace L cr3 hi s) {step : Option Word} (hlev : LevelStep k step)
    (hp : descend (treeOf L s.mem) 4 (rootOf cr3) p = some (n, h)) (hk : p.length + (k + 1) = 4)
    (create : Bool) (hfit : Fit hi s (nextTable L s (entryAddr L n i) create cr3 step).2) :
    (create = false ∧ treeOf L s.mem k n i = .absent ∧
      nextTable L s (entryAddr L n i) create cr3 step = (none, s)) ∨
    ∃ f g s', nextTable L s (entryAddr L n i) create cr3 step = (some (tableAddr L f), s') ∧
      descend (treeOf L s'.mem) 4 (rootOf cr3) (p ++ [i]) = some (f, g) ∧
      Walked L cr3 hi s s' ∧ Grown L cr3 s s' ∧
      (s' = s ∨ create = true ∨
        step ≠ none ∧ ∀ l j, l + 1 = k → treeOf L s'.mem l f j ≠ .absent) := by
  cases h0 : (s.mem.load (entryAddr L n i)).getLsbD 0 with
  | false =>
    have hpres := (and_pagePresent_eq_zero_iff _).mpr h0
    have habs : treeOf L s.mem k n i = .absent := (decode_eq_absent_iff k _).mpr h0
    cases create with
    | false =>
      refine Or.inl ⟨rfl, habs, ?_⟩
      unfold nextTable
      rw [if_pos hpres]
      rfl
    | true =>
      have hg : Grew s (nextTable L s (entryAddr L n i) true cr3 step).2 := by
        unfold nextTable
        rw [if_pos hpres]
        exact ⟨rfl, rfl⟩
      obtain ⟨f, g, s', h1, h2, h3, h4⟩ :=
        nextTable_create hs (hfit.hasRoom hs hg) hp hk hlev.one_le habs step
      exact Or.inr ⟨f, g, s', h1, h2, h3, .single h4, Or.inr (Or.inl rfl)⟩
  | true =>
    by_cases h7 : step = none ∨ (s.mem.load (entryAddr L n i)).getLsbD 7 = false
    · obtain ⟨f, g, h1, h2, h3⟩ := nextTable_follow hs hlev hp hk h0 h7 create
      exact Or.inr ⟨f, g, s, h1, h2, h3, .refl, Or.inl rfl⟩
    · push Not at h7
      obtain ⟨hne, h7⟩ := h7
      obtain ⟨st, rfl⟩ := Option.ne_none_iff_exists'.mp hne
      have hg : Grew s (nextTable L s (entryAddr L n i) create cr3 (some st)).2 := by
        unfold nextTable
        rw [if_neg (by rw [and_pagePresent_eq_zero_iff, h0]; decide)]
        simp only
        rw [if_pos (by rw [ne_eq, and_pagePs_eq_zero_iff]; exact h7)]
        split_ifs
        · rw [flushTlbAll_eq]; exact ⟨rfl, rfl⟩
        · exact ⟨rfl, rfl⟩
      obtain ⟨f, g, s', h1, h2, h3, h4, h5⟩ :=
        nextTable_split hs (hfit.hasRoom hs hg) hlev hp hk h0 (by simpa using h7) create
      exact Or.inr ⟨f, g, s', h1, h2, h3, .single h4, Or.inr (Or.inr ⟨hne, h5⟩)⟩

/-! ## The whole walk -/

/-- The indices of the three upper levels. -/
def upperPath (v : Addr) : List (BitVec 9) :=
  [v.extractLsb' 39 9, v.extractLsb' 30 9, v.extractLsb' 21 9]

theorem path_eq (v : Addr) : path v = upperPath v ++ [v.extractLsb' 12 9] := rfl

theorem path_length (v : Addr) : (path v).length = 4 := rfl

/-- An entry above the last level on the path of `v` is not present. -/
def UpperAbsent (L : Layout) (m : Mem) (cr3 : Word) (v : Addr) : Prop :=
  ∃ q j r t, q ++ j :: r = path v ∧ r ≠ [] ∧ Reaches (treeOf L m) 4 (rootOf cr3) q t ∧
    treeOf L m r.length t j = .absent

theorem andThen_none (s : MmState) (k : Addr → MmState → Option Addr × MmState) :
    andThen (none, s) k = (none, s) := rfl

theorem andThen_some (t : Addr) (s : MmState) (k : Addr → MmState → Option Addr × MmState) :
    andThen (some t, s) k = k t s := rfl

theorem andThen_suffix {r : Option Addr × MmState} {k : Addr → MmState → Option Addr × MmState}
    (hk : ∀ t s, s.allocs <:+ (k t s).2.allocs) : r.2.allocs <:+ (andThen r k).2.allocs := by
  obtain ⟨_ | t, s⟩ := r
  · exact List.suffix_rfl
  · exact hk t s

theorem andThen_fit {m m' : ℕ} {r : Option Addr × MmState}
    {k : Addr → MmState → Option Addr × MmState} (hr : Fit hi s r.2 ∧ r.2.HasRoom m hi)
    (hm : m' ≤ m)
    (hk : ∀ t s', s'.HasRoom m hi → Fit hi s' (k t s').2 ∧ (k t s').2.HasRoom m' hi) :
    Fit hi s (andThen r k).2 ∧ (andThen r k).2.HasRoom m' hi := by
  obtain ⟨_ | t, s'⟩ := r
  · refine ⟨hr.1, ?_⟩
    have hroom := hr.2
    unfold MmState.HasRoom at hroom ⊢
    exact le_trans (Nat.add_le_add_left hm _) hroom
  · obtain ⟨hfit, hroom⟩ := hk t s' hr.2
    exact ⟨hr.1.trans hfit, hroom⟩

/-- With room for three pages the walk fits, and the rest of the room is left. -/
theorem getPageEntry_room {m : ℕ} (hroom : s.HasRoom (3 * 4096 + m) hi) (hhi : hi < 2 ^ 64)
    (v : Addr) (create : Bool) :
    Fit hi s (getPageEntry L s v create cr3).2 ∧
      (getPageEntry L s v create cr3).2.HasRoom m hi := by
  rw [show 3 * 4096 + m = 4096 + (4096 + (4096 + m)) by omega] at hroom
  refine andThen_fit (nextTable_fit hroom hhi _ _ _) (by omega) fun _ s1 h1 => ?_
  refine andThen_fit (nextTable_fit h1 hhi _ _ _) (by omega) fun _ s2 h2 => ?_
  exact andThen_fit (nextTable_fit h2 hhi _ _ _) le_rfl fun _ s3 h3 => ⟨Fit.refl, h3⟩

theorem getPageEntry_fit (hroom : s.HasRoom (3 * 4096) hi) (hhi : hi < 2 ^ 64) (v : Addr)
    (create : Bool) : Fit hi s (getPageEntry L s v create cr3).2 :=
  (getPageEntry_room (m := 0) hroom hhi v create).1

theorem getPageEntry_suffix (L : Layout) (s : MmState) (v : Addr) (create : Bool) (cr3 : Word) :
    s.allocs <:+ (getPageEntry L s v create cr3).2.allocs :=
  (nextTable_suffix _ _ _ _ _ _).trans (andThen_suffix fun _ _ =>
    (nextTable_suffix _ _ _ _ _ _).trans (andThen_suffix fun _ _ =>
      (nextTable_suffix _ _ _ _ _ _).trans (andThen_suffix fun _ _ => List.suffix_rfl)))

/-- Where the walk looks for the entries of `v`. -/
theorem entryPtr_index (f : Frame) (v : Addr) :
    entryPtr (tableAddr L f) (pml4Index v) = entryAddr L f (v.extractLsb' 39 9) ∧
    entryPtr (tableAddr L f) (pdptIndex v) = entryAddr L f (v.extractLsb' 30 9) ∧
    entryPtr (tableAddr L f) (pdIndex v) = entryAddr L f (v.extractLsb' 21 9) ∧
    entryPtr (tableAddr L f) (ptIndex v) = entryAddr L f (v.extractLsb' 12 9) := by
  rw [pml4Index, pdptIndex, pdIndex, ptIndex, index_eq, index_eq, index_eq, index_eq]
  exact ⟨rfl, rfl, rfl, rfl⟩

/-- **The walk of `get_page_entry`.** It returns `NULL` only where an upper entry is
    absent and `create` is not given, and then changes nothing. Otherwise it returns
    the level-1 entry on the path, has only added tables, and every lookup answers as
    before. -/
theorem getPageEntry_grown (hs : AddrSpace L cr3 hi s) (v : Addr) (create : Bool)
    (hfit : Fit hi s (getPageEntry L s v create cr3).2) :
    (create = false ∧ UpperAbsent L s.mem cr3 v ∧ getPageEntry L s v create cr3 = (none, s)) ∨
    ∃ f g s', getPageEntry L s v create cr3 = (some (entryAddr L f (v.extractLsb' 12 9)), s') ∧
      descend (treeOf L s'.mem) 4 (rootOf cr3) (upperPath v) = some (f, g) ∧
      Walked L cr3 hi s s' ∧ Grown L cr3 s s' := by
  have hroot : physToVirt L (pageGetAddr cr3) = tableAddr L (rootOf cr3) := by
    rw [pageGetAddr_eq]
    rfl
  simp only [getPageEntry, hroot, (entryPtr_index _ v).1] at hfit ⊢
  -- top level
  obtain ⟨hfit1, hfit⟩ := hfit.split (nextTable_suffix _ _ _ _ _ _) (andThen_suffix fun t s =>
    (nextTable_suffix _ _ _ _ _ _).trans (andThen_suffix fun t s =>
      (nextTable_suffix _ _ _ _ _ _).trans (andThen_suffix fun t s => List.suffix_rfl)))
  rcases nextTable_spec hs .pml4 (p := []) descend_nil rfl create hfit1 with
    ⟨hc, habs, hr⟩ | ⟨f1, g1, s1, hr1, hd1, hw1, hg1, hsame1⟩
  · refine Or.inl ⟨hc, ⟨[], _, _, rootOf cr3, rfl, by simp, reaches_nil, habs⟩, ?_⟩
    rw [hr, andThen_none]
  rw [hr1, andThen_some, (entryPtr_index f1 v).2.1] at hfit ⊢
  -- page directory pointer table
  obtain ⟨hfit2, hfit⟩ := hfit.split (nextTable_suffix _ _ _ _ _ _) (andThen_suffix fun t s =>
    (nextTable_suffix _ _ _ _ _ _).trans (andThen_suffix fun t s => List.suffix_rfl))
  rcases nextTable_spec hw1.space .pdpt hd1 rfl create hfit2 with
    ⟨hc, habs, hr⟩ | ⟨f2, g2, s2, hr2, hd2, hw2, hg2, hsame2⟩
  · rcases hsame1 with rfl | htrue | ⟨hne, -⟩
    · refine Or.inl ⟨hc, ⟨[_], _, _, f1, rfl, by simp, ⟨g1, hd1⟩, habs⟩, ?_⟩
      rw [hr, andThen_none]
    · exact absurd (htrue.symm.trans hc) Bool.noConfusion
    · exact absurd rfl hne
  rw [hr2, andThen_some, (entryPtr_index f2 v).2.2.1] at hfit ⊢
  -- page directory
  obtain ⟨hfit3, -⟩ := hfit.split (nextTable_suffix _ _ _ _ _ _)
    (andThen_suffix fun t s => List.suffix_rfl)
  rcases nextTable_spec hw2.space .pd hd2 rfl create hfit3 with
    ⟨hc, habs, hr⟩ | ⟨f3, g3, s3, hr3, hd3, hw3, hg3, -⟩
  · rcases hsame2 with rfl | htrue | ⟨-, hpres⟩
    · rcases hsame1 with rfl | htrue | ⟨hne, -⟩
      · refine Or.inl ⟨hc, ⟨[_, _], _, _, f2, rfl, by simp, ⟨g2, hd2⟩, habs⟩, ?_⟩
        rw [hr, andThen_none]
      · exact absurd (htrue.symm.trans hc) Bool.noConfusion
      · exact absurd rfl hne
    · exact absurd (htrue.symm.trans hc) Bool.noConfusion
    · -- the entries of a large page that was split are present
      exact absurd habs (hpres 1 _ rfl)
  rw [hr3, andThen_some, (entryPtr_index f3 v).2.2.2]
  exact Or.inr ⟨f3, g3, s3, rfl, hd3, (hw1.trans hw2).trans hw3, (hg1.trans hg2).trans hg3⟩

theorem getPageEntry_spec (hs : AddrSpace L cr3 hi s) (v : Addr) (create : Bool)
    (hfit : Fit hi s (getPageEntry L s v create cr3).2) :
    (create = false ∧ UpperAbsent L s.mem cr3 v ∧ getPageEntry L s v create cr3 = (none, s)) ∨
    ∃ f g s', getPageEntry L s v create cr3 = (some (entryAddr L f (v.extractLsb' 12 9)), s') ∧
      descend (treeOf L s'.mem) 4 (rootOf cr3) (upperPath v) = some (f, g) ∧
      Walked L cr3 hi s s' := by
  rcases getPageEntry_grown hs v create hfit with hnone | ⟨f, g, s', hr, hd, hw, -⟩
  · exact Or.inl hnone
  · exact Or.inr ⟨f, g, s', hr, hd, hw⟩

/-- Where the tables of the upper levels are there, the walk changes nothing. -/
theorem getPageEntry_of_descend {v : Addr} (create : Bool)
    (hd : descend (treeOf L s.mem) 4 (rootOf cr3) (upperPath v) = some (f, g)) :
    getPageEntry L s v create cr3 = (some (entryAddr L f (v.extractLsb' 12 9)), s) := by
  have hroot : physToVirt L (pageGetAddr cr3) = tableAddr L (rootOf cr3) := by
    rw [pageGetAddr_eq]
    rfl
  obtain ⟨f1, g1, x1, h1, hd1, -⟩ := exists_of_descend_cons hd
  obtain ⟨f2, g2, x2, h2, hd2, -⟩ := exists_of_descend_cons hd1
  obtain ⟨f3, g3, x3, h3, hd3, -⟩ := exists_of_descend_cons hd2
  simp only [descend_nil, Option.some.injEq, Prod.mk.injEq] at hd3
  simp only [getPageEntry, hroot, (entryPtr_index _ v).1]
  rw [nextTable_of_table .pml4 create h1, andThen_some, (entryPtr_index f1 v).2.1,
    nextTable_of_table .pdpt create h2, andThen_some, (entryPtr_index f2 v).2.2.1,
    nextTable_of_table .pd create h3, andThen_some, (entryPtr_index f3 v).2.2.2, hd3.1]

/-- Tables that were there stay where they are. -/
theorem Grown.descend_eq (hg : Grown L cr3 s s') {q : List (BitVec 9)} {r : Frame × (Page → Page)}
    (hd : descend (treeOf L s.mem) 4 (rootOf cr3) q = some r) :
    descend (treeOf L s'.mem) 4 (rootOf cr3) q = some r := by
  induction hg with
  | refl => exact hd
  | tail _ hstep ih =>
    obtain ⟨k, p, n, t, i, h, x, hk, hun, ha, -⟩ := hstep
    rw [← hk] at hun ih ⊢
    have hq : q ≠ p ++ [i] := by
      rintro rfl
      rw [descend_below_not_table (q := []) ha.path ha.old] at ih
      cases ih
    rw [attach_descend ha hun, if_neg hq]
    exact ih

/-- **`get_page_entry` never changes what an address translates to.** In every tree of
    tables, with room on the heap for the tables that may be needed:
    * every address translates as before, with the same rights;
    * a result that is not `NULL` is the address of the level-1 entry that the walk of
      `v` reaches;
    * `NULL` is returned only when `create` is 0 and an upper level on the path of `v`
      is not present. -/
theorem getPageEntry_translate (hs : AddrSpace L cr3 hi s) (hroom : s.HasRoom (3 * 4096) hi)
    (v : Addr) (create : Bool) :
    (∀ w, translate L (getPageEntry L s v create cr3).2.mem cr3 w = translate L s.mem cr3 w) ∧
    (∀ a, (getPageEntry L s v create cr3).1 = some a →
      ∃ f, Reaches (treeOf L (getPageEntry L s v create cr3).2.mem) 4 (rootOf cr3) (upperPath v) f ∧
        a = entryAddr L f (v.extractLsb' 12 9)) ∧
    ((getPageEntry L s v create cr3).1 = none → create = false ∧ UpperAbsent L s.mem cr3 v) := by
  have hlt := L.kernelVirtBase.isLt
  have hle := hs.hi_le
  have hfit : Fit hi s (getPageEntry L s v create cr3).2 :=
    getPageEntry_fit hroom (by omega) v create
  rcases getPageEntry_spec hs v create hfit with ⟨hc, habs, hr⟩ | ⟨f, g, s', hr, hd, hw⟩
  · rw [hr]
    exact ⟨fun w => rfl, fun a ha => by simp at ha, fun _ => ⟨hc, habs⟩⟩
  · rw [hr]
    refine ⟨fun w => ?_, fun a ha => ⟨f, ⟨g, hd⟩, (Option.some.inj ha).symm⟩,
      fun hnone => by simp at hnone⟩
    rw [translate, translate, lookupPage, lookupPage, hw.lookup_eq _ (path_length w)]

end Walk

/-! ## A tree with one 1 GiB page -/

section OneGib

def gibLayout : Layout := ⟨0x40000000, 0xffffffff80000000, 0, by decide⟩

/-- Frame 0 holds the top-level table; its first entry points to frame 1, whose second
    entry maps the direct map to the first GiB, writable. -/
def gibMem : Mem :=
  (Mem.store (fun _ => 0) (entryAddr gibLayout 0 0) 0x1003).store (entryAddr gibLayout 1 1) 0x83

def gibState : MmState := ⟨gibMem, 0x40010000, 0, 0, [], []⟩

theorem gibMem_load (f : Frame) (j : BitVec 9) :
    gibMem.load (entryAddr gibLayout f j) =
      if f = 1 ∧ j = 1 then 0x83 else if f = 0 ∧ j = 0 then 0x1003 else 0 := by
  unfold gibMem
  by_cases h1 : f = 1 ∧ j = 1
  · obtain ⟨rfl, rfl⟩ := h1
    rw [Mem.load_store_self, if_pos ⟨rfl, rfl⟩]
  rw [load_entry_store (by tauto), if_neg h1]
  by_cases h0 : f = 0 ∧ j = 0
  · obtain ⟨rfl, rfl⟩ := h0
    rw [Mem.load_store_self, if_pos ⟨rfl, rfl⟩]
  rw [load_entry_store (by tauto), if_neg h0]
  simp only [Mem.load]
  decide

theorem gibTree_reaches {p : List (BitVec 9)} {t : Frame}
    (h : Reaches (treeOf gibLayout gibMem) 4 0 p t) : p = [] ∧ t = 0 ∨ p = [0] ∧ t = 1 := by
  obtain ⟨g, hd⟩ := h
  cases p with
  | nil =>
    simp only [descend_nil, Option.some.injEq, Prod.mk.injEq] at hd
    exact Or.inl ⟨rfl, hd.1.symm⟩
  | cons i p =>
    obtain ⟨r, gr, gx, hs, hx, -⟩ := exists_of_descend_cons hd
    have hs : decode 3 (gibMem.load (entryAddr gibLayout 0 i)) = .table r gr := hs
    have h01 : (0 : Frame) ≠ 1 := by decide
    rw [gibMem_load, if_neg (by tauto)] at hs
    by_cases hi : i = 0
    · subst hi
      rw [if_pos ⟨rfl, rfl⟩, show decode 3 0x1003 = .table 1 (restrict 0x1003) from rfl] at hs
      injection hs with hr hg
      subst hr
      cases p with
      | nil =>
        simp only [descend_nil, Option.some.injEq, Prod.mk.injEq] at hx
        exact Or.inr ⟨rfl, hx.1.symm⟩
      | cons j p =>
        -- the large page ends every path
        obtain ⟨r, gr, gx, hs, -, -⟩ := exists_of_descend_cons hx
        have hs : decode 2 (gibMem.load (entryAddr gibLayout 1 j)) = .table r gr := hs
        rw [gibMem_load] at hs
        by_cases hj : j = 1
        · rw [if_pos ⟨rfl, hj⟩] at hs
          exact absurd (congrArg Slot.IsTable hs) (by simp [decode, Slot.IsTable])
        · rw [if_neg (by tauto), if_neg (by tauto), decode_zero] at hs
          exact absurd (congrArg Slot.IsTable hs) (by simp [Slot.IsTable])
    · rw [if_neg (by tauto), decode_zero] at hs
      exact absurd (congrArg Slot.IsTable hs) (by simp [Slot.IsTable])

theorem gibState_addrSpace : AddrSpace gibLayout 0 0x40100000 gibState := by
  refine ⟨?_, ?_, by decide, by decide, by decide, by decide, by decide⟩
  · intro p q t hp hq
    rcases gibTree_reaches hp with ⟨rfl, rfl⟩ | ⟨rfl, rfl⟩ <;>
      rcases gibTree_reaches hq with ⟨rfl, h⟩ | ⟨rfl, h⟩ <;> simp_all
  · intro p t hp
    rcases gibTree_reaches hp with ⟨-, rfl⟩ | ⟨-, rfl⟩ <;> exact Or.inl (by decide)

theorem gibState_hasRoom : gibState.HasRoom (3 * 4096) 0x40100000 := by
  unfold MmState.HasRoom
  decide

/-- The second 2 MiB of a 1 GiB page are split off, and the addresses next to them
    translate as before. -/
theorem getPageEntry_translate_gib :
    gibState.HasRoom (3 * 4096) 0x40100000 ∧
    translate gibLayout (getPageEntry gibLayout gibState 0x40200000 false 0).2.mem 0 0x403fffff =
      some ⟨0x3fffff, true, false, false⟩ := by
  refine ⟨gibState_hasRoom, ?_⟩
  rw [(getPageEntry_translate gibState_addrSpace gibState_hasRoom 0x40200000 false).1 0x403fffff]
  decide

end OneGib

/-! ## A tree with nothing in it -/

section Empty

/-- The layout of `gibState` with an empty top-level table in frame 0. -/
def emptyState : MmState := ⟨fun _ => 0, 0x40010000, 0, 0, [], []⟩

theorem emptyState_load (a : Addr) : emptyState.mem.load a = 0 := by
  simp only [emptyState, Mem.load]
  decide

theorem emptyState_addrSpace : AddrSpace gibLayout 0 0x40100000 emptyState := by
  have hreach : ∀ q t, Reaches (treeOf gibLayout emptyState.mem) 4 (rootOf 0) q t →
      q = [] ∧ t = rootOf 0 := by
    intro q t hq
    obtain ⟨g, hq⟩ := hq
    cases q with
    | nil =>
      simp only [descend_nil, Option.some.injEq, Prod.mk.injEq] at hq
      exact ⟨rfl, hq.1.symm⟩
    | cons j q =>
      obtain ⟨r, gr, gx, ht, -⟩ := exists_of_descend_cons hq
      simp only [treeOf] at ht
      rw [emptyState_load, decode_zero] at ht
      cases ht
  refine ⟨?_, ?_, by decide, by decide, by decide, by decide, by decide⟩
  · intro p q t hp hq
    rw [(hreach p t hp).1, (hreach q t hq).1]
  · intro p t hp
    rw [(hreach p t hp).2]
    exact Or.inl (by decide)

theorem emptyState_absent (i : BitVec 9) :
    (emptyState.mem.load (entryAddr gibLayout (rootOf 0) i)).getLsbD 0 = false := by
  rw [emptyState_load]
  decide

theorem emptyState_hasRoom : emptyState.HasRoom (3 * 4096) 0x40100000 := by
  unfold MmState.HasRoom
  decide

end Empty

end HorizonOS.Paging
