import HorizonOS.I386.Paging

/-!
# The page tables of i386 as the processor reads them

The translation that the processor computes from a directory and its tables, and what
`map_page`, `unmap_page` and the loop of `map_physical_range`
(src/arch/i386/memory/paging.c) do to it. The kernel never sets `CR4.PSE`, so bit 7 of a
directory entry is not looked at.

`mapPageTables` and `mapRangeEntry` are `map_page` and one round of `map_physical_range`
without the record in the frame bitmap, which has no bit for a frame beyond 64 MB.

* `mapPage_eq_tables`, `mapRangePage_eq_entry`: they are the mapping functions but for that.
* `getLsbD_mappedPte`: the entry that `map_page` leaves, bit by bit.
* `lookupPage_mapPageTables`: the page after `map_page`.
* `unmapPage_eq`: the two outcomes of `unmap_page`.
-/

namespace HorizonOS.I386

open HorizonOS.Lib

/-! ## The processor's translation -/

/-- A page: the address of its frame and its rights. -/
structure Page where
  frame : BitVec 32
  writable : Bool
  user : Bool
deriving DecidableEq

/-- The directory entry that the address `v` selects. -/
def Machine.pde (m : Machine) (cr3 v : BitVec 32) : BitVec 32 :=
  m.dirs (cr3 &&& pdePageTableBaseMask) (v >>> 22).toNat

/-- Where the table entry of `v` is. -/
def Machine.ptePtr (m : Machine) (cr3 v : BitVec 32) : PtePtr :=
  (m.pde cr3 v &&& pdePageTableBaseMask, ((v >>> 12) &&& 0x3FF).toNat)

/-- The page that a directory entry and a table entry give. -/
def pageOf (pde pte : BitVec 32) : Option Page :=
  if pde &&& pdePresent = 0 ∨ pte &&& ptePresent = 0 then none
  else some ⟨pte &&& pteFrameMask, pde.getLsbD 1 && pte.getLsbD 1, pde.getLsbD 2 && pte.getLsbD 2⟩

/-- The page that the processor finds for `v` in the tables of `cr3`. -/
def lookupPage (m : Machine) (cr3 v : BitVec 32) : Option Page :=
  pageOf (m.pde cr3 v) (m.pte (m.ptePtr cr3 v))

/-! ## Model -/

/-- The entry that `map_page` leaves in place of `pte` (paging.c:304–315). -/
def mappedPte (pte physAddr : BitVec 32) (iskernel writeable : Bool) : BitVec 32 :=
  let pte := pteWritable (pteSetFrame pte (physAddr / 0x1000) ||| ptePresent) writeable
  if iskernel then pte else pte ||| pteUserSupervisor

/-- `map_page` (paging.c:289–322) up to `set_frame`. -/
def mapPageTables (m : Machine) (virtAddr physAddr : BitVec 32) (iskernel writeable : Bool)
    (cr3 : BitVec 32) : Machine :=
  let virtAddr := virtAddr &&& 0xFFFFF000
  let physAddr := physAddr &&& 0xFFFFF000
  match getPage m virtAddr true cr3 with
  | (none, m) => m
  | (some page, m) => m.setPte page (mappedPte (m.pte page) physAddr iskernel writeable)

/-- The entry that `map_physical_range` leaves in place of `pte` (paging.c:264–276). -/
def rangePte (pte addr : BitVec 32) (iskernel writeable : Bool) : BitVec 32 :=
  let pte := pteWritable (pte ||| ptePresent) writeable
  let pte := if iskernel then pte &&& ~~~pteUserSupervisor else pte ||| pteUserSupervisor
  pteSetFrame pte (addr / 0x1000)

/-- The body of the loop of `map_physical_range` (paging.c:250–284) up to `set_frame`. -/
def mapRangeEntry (m : Machine) (addr : BitVec 32) (iskernel writeable : Bool)
    (cr3 : BitVec 32) : Machine :=
  let dir := cr3 &&& pdePageTableBaseMask
  let pageDirIndex := (addr >>> 22).toNat
  let m :=
    if writeable then m.setPde dir pageDirIndex (m.dirs dir pageDirIndex ||| pdeReadWrite) else m
  match getPage m addr true cr3 with
  | (none, m) => m
  | (some page, m) => m.setPte page (rangePte (m.pte page) addr iskernel writeable)

/-- `unmap_page` (paging.c:332–354). -/
def unmapPage (m : Machine) (virtAddr cr3 : BitVec 32) : BitVec 32 × Machine :=
  let virtAddr := virtAddr &&& 0xFFFFF000
  match getPage m virtAddr false cr3 with
  | (none, m) => (0, m)
  | (some page, m) =>
    if !pteIsPresent (m.pte page) then (0, m)
    else (m.pte page &&& pteFrameMask, m.setPte page 0)

/-- `is_page_mapped` (paging.c:357–360). -/
def isPageMapped (m : Machine) (virtAddr cr3 : BitVec 32) : Bool :=
  match getPage m virtAddr false cr3 with
  | (none, _) => false
  | (some page, m) => pteIsPresent (m.pte page)

/-! ## `get_page` -/

section GetPage

variable {m : Machine} {v cr3 : BitVec 32}

/-- Rounding down to a page keeps the page number. -/
theorem shift_align (v : BitVec 32) {n : ℕ} (hn : 12 ≤ n) : (v &&& 0xFFFFF000) >>> n = v >>> n := by
  have hmask : (0xFFFFF000 : BitVec 32) = pteFrameMask := rfl
  apply BitVec.eq_of_getLsbD_eq
  intro i hi
  rw [hmask, BitVec.getLsbD_ushiftRight, BitVec.getLsbD_ushiftRight, BitVec.getLsbD_and]
  by_cases h : n + i < 32
  · rw [getLsbD_pteFrameMask h]
    simp [show 12 ≤ n + i by omega]
  · rw [BitVec.getLsbD_of_ge v _ (by omega), Bool.false_and]

@[simp] theorem pde_align (m : Machine) (cr3 v : BitVec 32) :
    m.pde cr3 (v &&& 0xFFFFF000) = m.pde cr3 v := by
  rw [Machine.pde, shift_align v (by norm_num), Machine.pde]

@[simp] theorem ptePtr_align (m : Machine) (cr3 v : BitVec 32) :
    m.ptePtr cr3 (v &&& 0xFFFFF000) = m.ptePtr cr3 v := by
  rw [Machine.ptePtr, shift_align v (le_refl 12), pde_align, Machine.ptePtr]

theorem getPage_of_present (make : Bool) (h : m.pde cr3 v &&& pdePresent ≠ 0) :
    getPage m v make cr3 = (some (m.ptePtr cr3 v), m) := by
  simp only [getPage]
  rw [if_neg (show ¬ m.dirs _ _ &&& pdePresent = 0 from h)]
  rfl

theorem getPage_of_absent (h : m.pde cr3 v &&& pdePresent = 0) :
    getPage m v false cr3 = (none, m) := by
  simp only [getPage]
  rw [if_pos (show m.dirs _ _ &&& pdePresent = 0 from h)]
  rfl

/-- The machine after `get_page` has made sure that there is a table for `v`. -/
def withTable (m : Machine) (cr3 v : BitVec 32) : Machine :=
  if m.pde cr3 v &&& pdePresent = 0 then
    m.addTable (kmallocA m 4096).1 (kmallocA m 4096).2.placementAddress
      (cr3 &&& pdePageTableBaseMask) (v >>> 22).toNat
  else m

theorem addTable_dirs (m : Machine) (pt pl dir : BitVec 32) (i : ℕ) (dir' : BitVec 32) (i' : ℕ) :
    (m.addTable pt pl dir i).dirs dir' i' =
      if dir' = dir ∧ i' = i then pt ||| pdePresent ||| pdeReadWrite else m.dirs dir' i' := by
  simp only [Machine.addTable, Machine.setPde, Function.update_apply]
  by_cases hd : dir' = dir
  · by_cases hi : i' = i
    · simp [hd, hi]
    · simp [hd, hi]
  · simp [hd]

/-- With `make` the result is the entry of `v` in a machine that has a table for it. -/
theorem getPage_make (m : Machine) (cr3 v : BitVec 32) :
    getPage m v true cr3 =
      (some ((withTable m cr3 v).ptePtr cr3 v), withTable m cr3 v) := by
  rw [withTable]
  split_ifs with h
  · have haligned := kmallocA_aligned m 4096
    have hk : kmallocA m 4096 = ((kmallocA m 4096).1,
        { m with placementAddress := (kmallocA m 4096).2.placementAddress }) := rfl
    simp only [getPage]
    rw [if_pos (show m.dirs _ _ &&& pdePresent = 0 from h), hk]
    rfl
  · exact getPage_of_present true h

/-- A directory entry for a new table is present, writable and not for the user. -/
theorem newPde_flags (pt : BitVec 32) (hpt : pt.toNat % 0x1000 = 0) :
    (pt ||| pdePresent ||| pdeReadWrite) &&& pdePresent ≠ 0 ∧
      (pt ||| pdePresent ||| pdeReadWrite).getLsbD 1 = true ∧
      (pt ||| pdePresent ||| pdeReadWrite).getLsbD 2 = false := by
  have hlow : ∀ i < 12, pt.getLsbD i = false := by
    intro i hi
    rw [BitVec.getLsbD, Nat.testBit_eq_decide_div_mod_eq, decide_eq_false_iff_not]
    have hd : 2 ^ i * (2 ^ (12 - i)) ∣ pt.toNat := by
      rw [← pow_add, show i + (12 - i) = 12 by omega]
      exact Nat.dvd_of_mod_eq_zero hpt
    obtain ⟨c, hc⟩ := hd
    rw [hc, mul_assoc, Nat.mul_div_cancel_left _ (by positivity),
      show 12 - i = (11 - i) + 1 by omega, pow_succ, mul_assoc, mul_left_comm, Nat.mul_mod_right]
    norm_num
  refine ⟨?_, ?_, ?_⟩
  · have hbit : ((pt ||| pdePresent ||| pdeReadWrite) &&& pdePresent).getLsbD 0 = true := by
      simp [pdePresent]
    intro hzero
    rw [hzero] at hbit
    simp at hbit
  · simp [pdeReadWrite]
  · rw [BitVec.getLsbD_or, BitVec.getLsbD_or, hlow 2 (by norm_num)]
    decide

/-- The directory entry of `v` afterwards: the one there was, or a new one. -/
theorem withTable_pde (m : Machine) (cr3 v : BitVec 32) :
    ((withTable m cr3 v).pde cr3 v = m.pde cr3 v ∧ m.pde cr3 v &&& pdePresent ≠ 0) ∨
    (m.pde cr3 v &&& pdePresent = 0 ∧ ∃ pt : BitVec 32, pt.toNat % 0x1000 = 0 ∧
      (withTable m cr3 v).pde cr3 v = pt ||| pdePresent ||| pdeReadWrite) := by
  rw [withTable]
  split_ifs with h
  · refine Or.inr ⟨h, (kmallocA m 4096).1, kmallocA_aligned m 4096, ?_⟩
    rw [Machine.pde, addTable_dirs, if_pos ⟨rfl, rfl⟩]
  · exact Or.inl ⟨rfl, h⟩

theorem withTable_present (m : Machine) (cr3 v : BitVec 32) :
    (withTable m cr3 v).pde cr3 v &&& pdePresent ≠ 0 := by
  rcases withTable_pde m cr3 v with ⟨heq, hpres⟩ | ⟨-, pt, hpt, heq⟩
  · rw [heq]
    exact hpres
  · rw [heq]
    exact (newPde_flags pt hpt).1

theorem withTable_frames (m : Machine) (cr3 v : BitVec 32) :
    (withTable m cr3 v).frames = m.frames := by
  rw [withTable]
  split_ifs <;> rfl

@[simp] theorem setPte_pde (m : Machine) (p : PtePtr) (x cr3 v : BitVec 32) :
    (m.setPte p x).pde cr3 v = m.pde cr3 v := rfl

@[simp] theorem setPte_ptePtr (m : Machine) (p : PtePtr) (x cr3 v : BitVec 32) :
    (m.setPte p x).ptePtr cr3 v = m.ptePtr cr3 v := rfl

@[simp] theorem setPte_frames (m : Machine) (p : PtePtr) (x : BitVec 32) :
    (m.setPte p x).frames = m.frames := rfl

theorem setPte_pte (m : Machine) (p q : PtePtr) (x : BitVec 32) :
    (m.setPte p x).pte q = if q = p then x else m.pte q := by
  obtain ⟨a, i⟩ := p
  obtain ⟨b, j⟩ := q
  simp only [Machine.setPte, Machine.pte, Function.update_apply, Prod.mk.injEq]
  by_cases hb : b = a
  · by_cases hj : j = i
    · simp [hb, hj]
    · simp [hb, hj]
  · simp [hb]

@[simp] theorem setPte_pte_self (m : Machine) (p : PtePtr) (x : BitVec 32) :
    (m.setPte p x).pte p = x := by
  rw [setPte_pte, if_pos rfl]

@[simp] theorem setPte_setPte (m : Machine) (p : PtePtr) (x y : BitVec 32) :
    (m.setPte p x).setPte p y = m.setPte p y := by
  simp only [Machine.setPte, Function.update_idem, Function.update_self]

end GetPage

/-! ## The bitmap aside -/

/-- `map_page` is `mapPageTables` and a record in the bitmap. -/
theorem mapPage_eq_tables (m : Machine) (virtAddr physAddr : BitVec 32) (iskernel writeable : Bool)
    (cr3 : BitVec 32) :
    mapPage m virtAddr physAddr iskernel writeable cr3 =
      (setFrame m.frames (physAddr &&& 0xFFFFF000)).map fun frames =>
        { mapPageTables m virtAddr physAddr iskernel writeable cr3 with frames := frames } := by
  simp only [mapPage, mapPageTables, getPage_make, setPte_frames, withTable_frames]
  cases setFrame m.frames (physAddr &&& 0xFFFFF000) <;> rfl

theorem mapRangePage_eq_entry (m : Machine) (addr : BitVec 32) (iskernel writeable : Bool)
    (cr3 : BitVec 32) :
    mapRangePage m addr iskernel writeable cr3 =
      (setFrame m.frames addr).map fun frames =>
        { mapRangeEntry m addr iskernel writeable cr3 with frames := frames } := by
  have hframes : ∀ dir i x, (m.setPde dir i x).frames = m.frames := fun _ _ _ => rfl
  cases writeable <;>
    simp only [mapRangePage, mapRangeEntry, getPage_make, setPte_frames, withTable_frames, if_true,
      Bool.false_eq_true, if_false, hframes] <;>
    cases setFrame m.frames addr <;> rfl

/-! ## Entries -/

theorem getLsbD_pteSetFrame (pte addr : BitVec 32) {k : ℕ} (hk : k < 32) :
    (pteSetFrame pte (addr / 0x1000)).getLsbD k =
      if 12 ≤ k then addr.getLsbD k else pte.getLsbD k := by
  have hlow : ∀ i < 20, (0xFFFFF#32).getLsbD i = true := by decide
  have hdiv : addr / (0x1000 : BitVec 32) = addr >>> 12 := by
    apply BitVec.eq_of_toNat_eq
    rw [div_page_toNat, BitVec.toNat_ushiftRight, Nat.shiftRight_eq_div_pow]
  rw [pteSetFrame, hdiv, BitVec.getLsbD_or, BitVec.getLsbD_and, BitVec.getLsbD_not,
    getLsbD_pteFrameMask hk, BitVec.getLsbD_shiftLeft, BitVec.getLsbD_and,
    BitVec.getLsbD_ushiftRight]
  by_cases h12 : 12 ≤ k
  · simp [h12, hk, hlow (k - 12) (by omega), show ¬ k < 12 by omega,
      show 12 + (k - 12) = k by omega]
  · simp [h12, hk, show k < 12 by omega]

theorem getLsbD_pteWritable (pte : BitVec 32) (writeable : Bool) {k : ℕ} (hk : k < 32) :
    (pteWritable pte writeable).getLsbD k = if k = 1 then writeable else pte.getLsbD k := by
  have hbit : ∀ i < 32, pteReadWrite.getLsbD i = decide (i = 1) := by decide
  cases writeable
  · simp only [pteWritable, Bool.false_eq_true, if_false, BitVec.getLsbD_and, BitVec.getLsbD_not,
      hbit k hk, hk]
    by_cases h1 : k = 1 <;> simp [h1]
  · simp only [pteWritable, if_true, BitVec.getLsbD_or, hbit k hk]
    by_cases h1 : k = 1 <;> simp [h1]

theorem getLsbD_or_ptePresent (pte : BitVec 32) {k : ℕ} (hk : k < 32) :
    (pte ||| ptePresent).getLsbD k = if k = 0 then true else pte.getLsbD k := by
  have hbit : ∀ i < 32, ptePresent.getLsbD i = decide (i = 0) := by decide
  rw [BitVec.getLsbD_or, hbit k hk]
  by_cases h0 : k = 0 <;> simp [h0]

theorem getLsbD_pteUserSupervisor {k : ℕ} (hk : k < 32) :
    pteUserSupervisor.getLsbD k = decide (k = 2) := by
  have hbit : ∀ i < 32, pteUserSupervisor.getLsbD i = decide (i = 2) := by decide
  exact hbit k hk

/-- `map_page` takes the frame from the address, sets `PTE_PRESENT` and
    `PTE_READ_WRITE`, sets `PTE_USER_SUPERVISOR` for a user page, and keeps what else
    there was. -/
theorem getLsbD_mappedPte (pte physAddr : BitVec 32) (iskernel writeable : Bool) {k : ℕ}
    (hk : k < 32) :
    (mappedPte pte physAddr iskernel writeable).getLsbD k =
      if 12 ≤ k then physAddr.getLsbD k
      else if k = 0 then true
      else if k = 1 then writeable
      else if k = 2 then (!iskernel || pte.getLsbD 2)
      else pte.getLsbD k := by
  have hbase : (pteWritable (pteSetFrame pte (physAddr / 0x1000) ||| ptePresent)
      writeable).getLsbD k =
      if 12 ≤ k then physAddr.getLsbD k
      else if k = 0 then true
      else if k = 1 then writeable
      else pte.getLsbD k := by
    rw [getLsbD_pteWritable _ _ hk, getLsbD_or_ptePresent _ hk, getLsbD_pteSetFrame _ _ hk]
    split_ifs <;> first | rfl | omega
  cases iskernel
  · simp only [mappedPte, Bool.false_eq_true, if_false, BitVec.getLsbD_or, hbase,
      getLsbD_pteUserSupervisor hk]
    split_ifs with h1 h2 h3 h4 <;> simp_all
    omega
  · simp only [mappedPte, if_true, hbase]
    split_ifs with h1 h2 h3 h4 <;> simp_all

/-- `map_physical_range` also clears `PTE_USER_SUPERVISOR` for a kernel page. -/
theorem getLsbD_rangePte (pte addr : BitVec 32) (iskernel writeable : Bool) {k : ℕ} (hk : k < 32) :
    (rangePte pte addr iskernel writeable).getLsbD k =
      if 12 ≤ k then addr.getLsbD k
      else if k = 0 then true
      else if k = 1 then writeable
      else if k = 2 then !iskernel
      else pte.getLsbD k := by
  have hbase : (pteWritable (pte ||| ptePresent) writeable).getLsbD k =
      if k = 0 then true else if k = 1 then writeable else pte.getLsbD k := by
    rw [getLsbD_pteWritable _ _ hk, getLsbD_or_ptePresent _ hk]
    split_ifs <;> first | rfl | omega
  rw [rangePte, getLsbD_pteSetFrame _ _ hk]
  cases iskernel
  · simp only [Bool.false_eq_true, if_false, BitVec.getLsbD_or, hbase,
      getLsbD_pteUserSupervisor hk]
    split_ifs with h1 h2 h3 h4 <;> simp_all
  · simp only [if_true, BitVec.getLsbD_and, BitVec.getLsbD_not, hbase,
      getLsbD_pteUserSupervisor hk]
    split_ifs with h1 h2 h3 h4 <;> simp_all

theorem and_pteFrameMask_congr {x y : BitVec 32}
    (h : ∀ k < 32, 12 ≤ k → x.getLsbD k = y.getLsbD k) : x &&& pteFrameMask = y &&& pteFrameMask := by
  apply BitVec.eq_of_getLsbD_eq
  intro k hk
  rw [BitVec.getLsbD_and, BitVec.getLsbD_and, getLsbD_pteFrameMask hk]
  by_cases h12 : 12 ≤ k
  · rw [h k hk h12]
  · simp [h12]

theorem and_ptePresent_ne_zero {x : BitVec 32} (h : x.getLsbD 0 = true) : x &&& ptePresent ≠ 0 := by
  have := (pteIsPresent_iff x).mpr h
  simpa [pteIsPresent] using this

/-! ## The calls -/

section Calls

variable (m : Machine) (v p cr3 : BitVec 32) (iskernel writeable : Bool)

theorem mapPageTables_eq :
    mapPageTables m v p iskernel writeable cr3 =
      (withTable m cr3 (v &&& 0xFFFFF000)).setPte
        ((withTable m cr3 (v &&& 0xFFFFF000)).ptePtr cr3 v)
        (mappedPte ((withTable m cr3 (v &&& 0xFFFFF000)).pte
          ((withTable m cr3 (v &&& 0xFFFFF000)).ptePtr cr3 v)) (p &&& 0xFFFFF000) iskernel
          writeable) := by
  simp only [mapPageTables, getPage_make, ptePtr_align]

/-- The page of `v` after `map_page`: the frame of `p`, with the rights of the entry that
    was written and of the directory entry. -/
theorem lookupPage_mapPageTables :
    ∃ pte pde, pde = (withTable m cr3 (v &&& 0xFFFFF000)).pde cr3 v ∧
      lookupPage (mapPageTables m v p iskernel writeable cr3) cr3 v =
        some ⟨p &&& pteFrameMask, pde.getLsbD 1 && writeable,
          pde.getLsbD 2 && (!iskernel || pte)⟩ := by
  have hpres := withTable_present m cr3 (v &&& 0xFFFFF000)
  rw [pde_align] at hpres
  rw [mapPageTables_eq]
  generalize withTable m cr3 (v &&& 0xFFFFF000) = m₁ at hpres ⊢
  refine ⟨(m₁.pte (m₁.ptePtr cr3 v)).getLsbD 2, _, rfl, ?_⟩
  have hbits := fun k (hk : k < 32) => getLsbD_mappedPte (m₁.pte (m₁.ptePtr cr3 v))
    (p &&& 0xFFFFF000) iskernel writeable hk
  have hframe : mappedPte (m₁.pte (m₁.ptePtr cr3 v)) (p &&& 0xFFFFF000) iskernel writeable &&&
      pteFrameMask = p &&& pteFrameMask := by
    apply and_pteFrameMask_congr
    intro k hk h12
    rw [hbits k hk, if_pos h12, show (0xFFFFF000 : BitVec 32) = pteFrameMask from rfl,
      BitVec.getLsbD_and, getLsbD_pteFrameMask hk]
    simp [h12]
  rw [lookupPage, setPte_pde, setPte_ptePtr, setPte_pte_self, pageOf, if_neg, hframe,
    hbits 1 (by norm_num), hbits 2 (by norm_num)]
  · simp
  · rintro (hzero | hzero)
    · exact hpres hzero
    · exact and_ptePresent_ne_zero (by rw [hbits 0 (by norm_num)]; simp) hzero

/-- `unmap_page` returns 0 and changes nothing where there is no page, and else clears
    the entry and returns the frame. -/
theorem unmapPage_eq :
    unmapPage m v cr3 =
      match lookupPage m cr3 v with
      | none => (0, m)
      | some pg => (pg.frame, m.setPte (m.ptePtr cr3 v) 0) := by
  rw [lookupPage, pageOf]
  by_cases hpde : m.pde cr3 v &&& pdePresent = 0
  · simp only [unmapPage]
    rw [getPage_of_absent (by rw [pde_align]; exact hpde), if_pos (Or.inl hpde)]
  · simp only [unmapPage]
    rw [getPage_of_present false (by rw [pde_align]; exact hpde), ptePtr_align]
    by_cases hpte : m.pte (m.ptePtr cr3 v) &&& ptePresent = 0
    · rw [if_pos (Or.inr hpte)]
      simp [pteIsPresent, hpte]
    · have hpresent : pteIsPresent (m.pte (m.ptePtr cr3 v)) = true := by
        simpa [pteIsPresent] using hpte
      rw [if_neg (by rintro (h | h) <;> contradiction)]
      simp [hpresent]

/-- `is_page_mapped` tells whether the processor finds a page. -/
theorem isPageMapped_eq : isPageMapped m v cr3 = (lookupPage m cr3 v).isSome := by
  rw [lookupPage, pageOf, isPageMapped]
  by_cases hpde : m.pde cr3 v &&& pdePresent = 0
  · rw [getPage_of_absent hpde, if_pos (Or.inl hpde)]
    rfl
  · rw [getPage_of_present false hpde]
    by_cases hpte : m.pte (m.ptePtr cr3 v) &&& ptePresent = 0
    · rw [if_pos (Or.inr hpte)]
      simp [pteIsPresent, hpte]
    · have hpresent : pteIsPresent (m.pte (m.ptePtr cr3 v)) = true := by
        simpa [pteIsPresent] using hpte
      rw [if_neg (by rintro (h | h) <;> contradiction)]
      simp [hpresent]

end Calls

end HorizonOS.I386
