import HorizonOS.I386.PageTables

/-!
# `map_physical_range` on i386 up to the top of memory

`map_physical_range` (src/arch/i386/memory/paging.c:236–285) rounds the end of the range up
in 32-bit arithmetic. For a range that reaches into the last page below 4 GiB the rounded
end is 0, and nothing is mapped.

* `DirSpace`: the tables of a directory are apart from each other and from the heap.
* `mapRangeEntry_spec`: one round of the loop maps one page and leaves the others.
* `mapRangeTables_spec`: the loop maps the pages from its start to its end.
* `mapPhysicalRange_covers_iff`: the range is mapped afterwards exactly if it ends below the
  last page, or was mapped before.
-/

namespace HorizonOS.I386

open HorizonOS.Lib

/-! ## Model -/

/-- The loop of `map_physical_range` without the records in the frame bitmap; `none` when
    `fuel` does not suffice. -/
def mapRangeTables (stop : BitVec 32) (iskernel writeable : Bool) (cr3 : BitVec 32) :
    ℕ → BitVec 32 → Machine → Option Machine
  | 0, _, _ => none
  | fuel + 1, addr, m =>
    if addr < stop then
      mapRangeTables stop iskernel writeable cr3 fuel (addr + 0x1000)
        (mapRangeEntry m addr iskernel writeable cr3)
    else some m

/-- `map_physical_range` (paging.c:236–285) without the records in the frame bitmap. -/
def mapPhysicalRangeTables (m : Machine) (physStart length : BitVec 32) (iskernel writeable : Bool)
    (cr3 : BitVec 32) : Option Machine :=
  mapRangeTables (rangeEnd physStart length) iskernel writeable cr3 (2 ^ 20) (rangeStart physStart) m

/-! ## Specification -/

/-- The frame that the processor finds for `v`. -/
def frameOf (m : Machine) (cr3 v : BitVec 32) : Option (BitVec 32) :=
  (lookupPage m cr3 v).map Page.frame

/-- The page of `v` has a byte of `[physStart, physStart + length)`. -/
def Touches (physStart length v : BitVec 32) : Prop :=
  ∃ x, physStart.toNat ≤ x ∧ x < physStart.toNat + length.toNat ∧ x / 0x1000 = v.toNat / 0x1000

/-- Every page of the range is mapped to itself. -/
def Covers (m : Machine) (cr3 physStart length : BitVec 32) : Prop :=
  ∀ v, Touches physStart length v → frameOf m cr3 v = some (v &&& pteFrameMask)

/-! ## Directories -/

/-- Entry `i` of the directory of `cr3` points to a table. -/
def Machine.HasTable (m : Machine) (cr3 : BitVec 32) (i : ℕ) : Prop :=
  m.dirs (cr3 &&& pdePageTableBaseMask) i &&& pdePresent ≠ 0

instance (m : Machine) (cr3 : BitVec 32) (i : ℕ) : Decidable (m.HasTable cr3 i) :=
  inferInstanceAs (Decidable (_ ≠ _))

/-- The base of the table that entry `i` points to. -/
def Machine.base (m : Machine) (cr3 : BitVec 32) (i : ℕ) : BitVec 32 :=
  m.dirs (cr3 &&& pdePageTableBaseMask) i &&& pdePageTableBaseMask

/-- How many entries of the directory have no table. -/
def Machine.missing (m : Machine) (cr3 : BitVec 32) : ℕ :=
  ((Finset.range 1024).filter fun i => ¬ m.HasTable cr3 i).card

/-- The next page boundary. -/
@[irreducible]
def pageUp (n : ℕ) : ℕ := (n + 0xFFF) / 0x1000 * 0x1000

theorem pageUp_spec (n : ℕ) : n ≤ pageUp n ∧ pageUp n < n + 0x1000 ∧ pageUp n % 0x1000 = 0 := by
  rw [pageUp]
  omega

/-- The tables of the directory are distinct and below the heap pointer, and the heap has
    room for those that are missing. -/
structure DirSpace (m : Machine) (cr3 : BitVec 32) : Prop where
  below : ∀ i, m.HasTable cr3 i → (m.base cr3 i).toNat + 0x1000 ≤ m.placementAddress.toNat
  unshared : ∀ i j, m.HasTable cr3 i → m.HasTable cr3 j → m.base cr3 i = m.base cr3 j → i = j
  room : pageUp m.placementAddress.toNat + 0x1000 * m.missing cr3 < 2 ^ 32

section Directory

variable {m m' : Machine} {cr3 v : BitVec 32}

theorem dirIndex_toNat (v : BitVec 32) : (v >>> 22).toNat = v.toNat / 0x400000 := by
  rw [BitVec.toNat_ushiftRight, Nat.shiftRight_eq_div_pow]

theorem tableIndex_toNat (v : BitVec 32) :
    ((v >>> 12) &&& 0x3FF).toNat = v.toNat / 0x1000 % 1024 := by
  rw [BitVec.toNat_and, BitVec.toNat_ushiftRight, Nat.shiftRight_eq_div_pow]
  exact Nat.and_two_pow_sub_one_eq_mod _ 10

/-- The frame that a table entry names. -/
def pteFrame (pte : BitVec 32) : Option (BitVec 32) :=
  if pte &&& ptePresent ≠ 0 then some (pte &&& pteFrameMask) else none

/-- The frame found for `v`, from the entries of its indices. -/
theorem frameOf_eq (m : Machine) (cr3 v : BitVec 32) :
    frameOf m cr3 v =
      if m.HasTable cr3 (v.toNat / 0x400000) then
        pteFrame (m.tables (m.base cr3 (v.toNat / 0x400000)) (v.toNat / 0x1000 % 1024))
      else none := by
  rw [← dirIndex_toNat, ← tableIndex_toNat]
  show (pageOf (m.pde cr3 v) (m.pte (m.ptePtr cr3 v))).map Page.frame =
    if m.pde cr3 v &&& pdePresent ≠ 0 then pteFrame (m.pte (m.ptePtr cr3 v)) else none
  rw [pageOf, pteFrame]
  by_cases h1 : m.pde cr3 v &&& pdePresent = 0
  · rw [if_pos (Or.inl h1), if_neg (not_not.mpr h1)]
    rfl
  by_cases h2 : m.pte (m.ptePtr cr3 v) &&& ptePresent = 0
  · rw [if_pos (Or.inr h2), if_pos h1, if_neg (not_not.mpr h2)]
    rfl
  · rw [if_neg (by tauto), if_pos h1, if_pos h2]
    rfl

/-- A change of other bits of directory entries changes no frame. -/
theorem DirSpace.congr (hs : DirSpace m cr3) (htables : m'.tables = m.tables)
    (hpl : m'.placementAddress = m.placementAddress)
    (hhas : ∀ i, m'.HasTable cr3 i ↔ m.HasTable cr3 i) (hbase : ∀ i, m'.base cr3 i = m.base cr3 i) :
    DirSpace m' cr3 ∧ ∀ v, frameOf m' cr3 v = frameOf m cr3 v := by
  refine ⟨⟨?_, ?_, ?_⟩, ?_⟩
  · intro i hi
    rw [hbase, hpl]
    exact hs.below i ((hhas i).mp hi)
  · intro i j hi hj hij
    rw [hbase, hbase] at hij
    exact hs.unshared i j ((hhas i).mp hi) ((hhas j).mp hj) hij
  · rw [hpl, Machine.missing]
    simp only [hhas]
    exact hs.room
  · intro v
    rw [frameOf_eq, frameOf_eq]
    simp only [hbase, hhas, htables]

/-- `*pde |= PDE_READ_WRITE` changes no frame. -/
theorem DirSpace.relax (hs : DirSpace m cr3) (i : ℕ) :
    let m' := m.setPde (cr3 &&& pdePageTableBaseMask) i
      (m.dirs (cr3 &&& pdePageTableBaseMask) i ||| pdeReadWrite)
    DirSpace m' cr3 ∧ ∀ v, frameOf m' cr3 v = frameOf m cr3 v := by
  have hdirs : ∀ j, (m.setPde (cr3 &&& pdePageTableBaseMask) i
      (m.dirs (cr3 &&& pdePageTableBaseMask) i ||| pdeReadWrite)).dirs
        (cr3 &&& pdePageTableBaseMask) j =
      if j = i then m.dirs (cr3 &&& pdePageTableBaseMask) j ||| pdeReadWrite
      else m.dirs (cr3 &&& pdePageTableBaseMask) j := by
    intro j
    simp only [Machine.setPde, Function.update_self, Function.update_apply]
    split_ifs with h
    · rw [h]
    · rfl
  refine hs.congr rfl rfl ?_ ?_
  · intro j
    rw [Machine.HasTable, hdirs, Machine.HasTable]
    split_ifs
    · rw [or_pdeReadWrite_and_pdePresent]
    · rfl
  · intro j
    rw [Machine.base, hdirs, Machine.base]
    split_ifs
    · exact or_and_pteFrameMask _ (by decide)
    · rfl

/-- The next page of the heap. -/
theorem kmallocA_toNat (h : pageUp m.placementAddress.toNat < 2 ^ 32) :
    (kmallocA m 4096).1.toNat = pageUp m.placementAddress.toNat := by
  rw [pageUp] at h ⊢
  have hzero : m.placementAddress &&& 0xFFF = 0 ↔ m.placementAddress.toNat % 0x1000 = 0 := by
    rw [← BitVec.toNat_inj, BitVec.toNat_and, show (0xFFF : BitVec 32).toNat = 2 ^ 12 - 1 from rfl,
      Nat.and_two_pow_sub_one_eq_mod]
    rfl
  simp only [kmallocA]
  split_ifs with hne
  · have hne' : m.placementAddress.toNat % 0x1000 ≠ 0 := fun e => hne (hzero.mpr e)
    rw [BitVec.toNat_add, show ~~~0xFFF#32 = pteFrameMask by decide, and_pteFrameMask_toNat,
      show (0x1000 : BitVec 32).toNat = 4096 from rfl]
    omega
  · have := hzero.mp (not_not.mp hne)
    omega

/-- A new table for entry `i`. -/
def Machine.newTable (m : Machine) (cr3 : BitVec 32) (i : ℕ) : Machine :=
  m.addTable (kmallocA m 4096).1 (kmallocA m 4096).2.placementAddress (cr3 &&& pdePageTableBaseMask) i

section NewTable

variable {i : ℕ}

theorem newTable_hasTable (m : Machine) (cr3 : BitVec 32) (i j : ℕ) :
    (m.newTable cr3 i).HasTable cr3 j ↔ j = i ∨ m.HasTable cr3 j := by
  rw [Machine.HasTable, Machine.newTable, addTable_dirs, Machine.HasTable]
  by_cases hj : j = i
  · simp only [hj, and_self, if_true, true_or, iff_true]
    exact (newPde_flags _ (kmallocA_aligned m 4096)).1
  · simp only [hj, and_false, if_false, false_or]

theorem newTable_base (m : Machine) (cr3 : BitVec 32) (i j : ℕ) :
    (m.newTable cr3 i).base cr3 j = if j = i then (kmallocA m 4096).1 else m.base cr3 j := by
  rw [Machine.base, Machine.newTable, addTable_dirs, Machine.base]
  by_cases hj : j = i
  · simp only [hj, and_self, if_true]
    exact pde_base (kmallocA_aligned m 4096)
  · simp only [hj, and_false, if_false]

theorem newTable_missing (hi : i < 1024) (habs : ¬ m.HasTable cr3 i) :
    (m.newTable cr3 i).missing cr3 + 1 = m.missing cr3 := by
  have herase : ((Finset.range 1024).filter fun j => ¬ (m.newTable cr3 i).HasTable cr3 j) =
      ((Finset.range 1024).filter fun j => ¬ m.HasTable cr3 j).erase i := by
    ext j
    simp only [newTable_hasTable, Finset.mem_filter, Finset.mem_erase, Finset.mem_range]
    tauto
  rw [Machine.missing, herase, Machine.missing]
  exact Finset.card_erase_add_one (by simp [hi, habs])

/-- The new table is at or above the heap pointer, apart from every other table. -/
theorem DirSpace.newTable_fresh (hs : DirSpace m cr3) (hi : i < 1024) (habs : ¬ m.HasTable cr3 i) :
    m.placementAddress.toNat ≤ (kmallocA m 4096).1.toNat ∧
    (kmallocA m 4096).1.toNat = pageUp m.placementAddress.toNat ∧
    (m.newTable cr3 i).placementAddress.toNat = (kmallocA m 4096).1.toNat + 0x1000 ∧
    ∀ j, m.HasTable cr3 j → m.base cr3 j ≠ (kmallocA m 4096).1 := by
  have hroom := hs.room
  have hpos : 1 ≤ m.missing cr3 := by
    rw [← newTable_missing hi habs]
    exact Nat.succ_pos _
  have hpt := kmallocA_toNat (m := m) (by omega)
  have hup := pageUp_spec m.placementAddress.toNat
  refine ⟨by omega, hpt, ?_, ?_⟩
  · show ((kmallocA m 4096).1 + 4096).toNat = _
    rw [BitVec.toNat_add, show (4096 : BitVec 32).toNat = 4096 from rfl]
    omega
  · intro j hj heq
    have hbelow := hs.below j hj
    rw [heq] at hbelow
    omega

theorem DirSpace.newTable (hs : DirSpace m cr3) (hi : i < 1024) (habs : ¬ m.HasTable cr3 i) :
    DirSpace (m.newTable cr3 i) cr3 := by
  obtain ⟨hle, hpt, hpl, hne⟩ := hs.newTable_fresh hi habs
  have hroom := hs.room
  rw [← newTable_missing hi habs] at hroom
  have hup := pageUp_spec m.placementAddress.toNat
  have hup' := pageUp_spec (m.newTable cr3 i).placementAddress.toNat
  refine ⟨?_, ?_, by omega⟩
  · intro j hj
    rw [newTable_hasTable] at hj
    rw [newTable_base, hpl]
    split_ifs with hji
    · exact le_refl _
    · have := hs.below j (hj.resolve_left hji)
      omega
  · intro j k hj hk heq
    rw [newTable_hasTable] at hj hk
    rw [newTable_base, newTable_base] at heq
    split_ifs at heq with hji hki hki
    · rw [hji, hki]
    · exact absurd heq.symm (hne k (hk.resolve_left hki))
    · exact absurd heq (hne j (hj.resolve_left hji))
    · exact hs.unshared j k (hj.resolve_left hji) (hk.resolve_left hki) heq

/-- A table that is cleared maps nothing, and neither did the absent entry. -/
theorem DirSpace.frameOf_newTable (hs : DirSpace m cr3) (hi : i < 1024)
    (habs : ¬ m.HasTable cr3 i) (a : BitVec 32) :
    frameOf (m.newTable cr3 i) cr3 a = frameOf m cr3 a := by
  obtain ⟨-, -, -, hne⟩ := hs.newTable_fresh hi habs
  have htables : (m.newTable cr3 i).tables =
      Function.update m.tables (kmallocA m 4096).1 fun _ => 0 := rfl
  rw [frameOf_eq, frameOf_eq, newTable_base, htables]
  simp only [newTable_hasTable]
  by_cases ha : a.toNat / 0x400000 = i
  · have hzero : pteFrame 0 = none := by decide
    simp only [ha, true_or, if_true, Function.update_self, hzero, habs, if_false]
  · by_cases hhas : m.HasTable cr3 (a.toNat / 0x400000)
    · simp only [ha, hhas, or_true, if_true, if_false, Function.update_of_ne (hne _ hhas)]
    · simp only [ha, hhas, or_false, if_false]

end NewTable

/-- `get_page` makes sure that there is a table for `v` and changes no frame. -/
theorem DirSpace.withTable (hs : DirSpace m cr3) (v : BitVec 32) :
    DirSpace (withTable m cr3 v) cr3 ∧ (withTable m cr3 v).HasTable cr3 (v.toNat / 0x400000) ∧
      ∀ a, frameOf (withTable m cr3 v) cr3 a = frameOf m cr3 a := by
  have hi : v.toNat / 0x400000 < 1024 := by omega
  have hwith : I386.withTable m cr3 v =
      if m.dirs (cr3 &&& pdePageTableBaseMask) (v.toNat / 0x400000) &&& pdePresent = 0 then
        m.newTable cr3 (v.toNat / 0x400000) else m := by
    rw [← dirIndex_toNat]
    rfl
  rw [hwith]
  split_ifs with habs
  · have habs : ¬ m.HasTable cr3 (v.toNat / 0x400000) := not_not.mpr habs
    exact ⟨hs.newTable hi habs, (newTable_hasTable m cr3 _ _).mpr (Or.inl rfl),
      hs.frameOf_newTable hi habs⟩
  · exact ⟨hs, habs, fun _ => rfl⟩

/-- Writing the entry of `v` changes the frame of its page only. -/
theorem DirSpace.setPte (hs : DirSpace m cr3) (hhas : m.HasTable cr3 (v.toNat / 0x400000))
    {x : BitVec 32} (hx : x &&& ptePresent ≠ 0) :
    DirSpace (m.setPte (m.ptePtr cr3 v) x) cr3 ∧
    (∀ a, a.toNat / 0x1000 = v.toNat / 0x1000 →
      frameOf (m.setPte (m.ptePtr cr3 v) x) cr3 a = some (x &&& pteFrameMask)) ∧
    ∀ a, a.toNat / 0x1000 ≠ v.toNat / 0x1000 →
      frameOf (m.setPte (m.ptePtr cr3 v) x) cr3 a = frameOf m cr3 a := by
  have hptr : m.ptePtr cr3 v = (m.base cr3 (v.toNat / 0x400000), v.toNat / 0x1000 % 1024) := by
    rw [← dirIndex_toNat, ← tableIndex_toNat]
    rfl
  have hpte : ∀ i j, (m.setPte (m.ptePtr cr3 v) x).tables (m.base cr3 i) j =
      if (m.base cr3 i, j) = m.ptePtr cr3 v then x else m.tables (m.base cr3 i) j := fun i j =>
    setPte_pte m (m.ptePtr cr3 v) (m.base cr3 i, j) x
  have hframe : ∀ a, frameOf (m.setPte (m.ptePtr cr3 v) x) cr3 a =
      if m.HasTable cr3 (a.toNat / 0x400000) then
        pteFrame ((m.setPte (m.ptePtr cr3 v) x).tables (m.base cr3 (a.toNat / 0x400000))
          (a.toNat / 0x1000 % 1024))
      else none := frameOf_eq _ cr3
  refine ⟨⟨hs.below, hs.unshared, hs.room⟩, ?_, ?_⟩
  · intro a ha
    have hdir : a.toNat / 0x400000 = v.toNat / 0x400000 := by omega
    rw [hframe, hdir, ha, if_pos hhas, hpte, if_pos hptr.symm]
    exact if_pos hx
  · intro a ha
    rw [hframe, frameOf_eq]
    by_cases hat : m.HasTable cr3 (a.toNat / 0x400000)
    · have hne : (m.base cr3 (a.toNat / 0x400000), a.toNat / 0x1000 % 1024) ≠ m.ptePtr cr3 v := by
        rw [hptr, ne_eq, Prod.mk.injEq]
        intro heq
        have := hs.unshared _ _ hat hhas heq.1
        omega
      rw [hpte, if_neg hne]
    · rw [if_neg hat, if_neg hat]

end Directory

/-! ## The loop -/

section Loop

variable {m : Machine} {cr3 : BitVec 32} (iskernel writeable : Bool)

theorem rangePte_present (pte v : BitVec 32) :
    rangePte pte v iskernel writeable &&& ptePresent ≠ 0 :=
  and_ptePresent_ne_zero (by rw [getLsbD_rangePte _ _ _ _ (by norm_num)]; rfl)

theorem rangePte_frame (pte v : BitVec 32) :
    rangePte pte v iskernel writeable &&& pteFrameMask = v &&& pteFrameMask := by
  apply and_pteFrameMask_congr
  intro k hk h12
  rw [getLsbD_rangePte _ _ _ _ hk, if_pos h12]

/-- **One round** maps the page of `v` to itself and leaves every other. -/
theorem mapRangeEntry_spec (hs : DirSpace m cr3) (v : BitVec 32) :
    DirSpace (mapRangeEntry m v iskernel writeable cr3) cr3 ∧
    (∀ a, a.toNat / 0x1000 = v.toNat / 0x1000 →
      frameOf (mapRangeEntry m v iskernel writeable cr3) cr3 a = some (v &&& pteFrameMask)) ∧
    ∀ a, a.toNat / 0x1000 ≠ v.toNat / 0x1000 →
      frameOf (mapRangeEntry m v iskernel writeable cr3) cr3 a = frameOf m cr3 a := by
  simp only [mapRangeEntry, getPage_make]
  have hrelax : DirSpace (if writeable then m.setPde (cr3 &&& pdePageTableBaseMask)
        (v >>> 22).toNat (m.dirs (cr3 &&& pdePageTableBaseMask) (v >>> 22).toNat ||| pdeReadWrite)
        else m) cr3 ∧
      ∀ a, frameOf (if writeable then m.setPde (cr3 &&& pdePageTableBaseMask)
        (v >>> 22).toNat (m.dirs (cr3 &&& pdePageTableBaseMask) (v >>> 22).toNat ||| pdeReadWrite)
        else m) cr3 a = frameOf m cr3 a := by
    split_ifs
    · exact hs.relax _
    · exact ⟨hs, fun _ => rfl⟩
  generalize (if writeable then m.setPde (cr3 &&& pdePageTableBaseMask) (v >>> 22).toNat
    (m.dirs (cr3 &&& pdePageTableBaseMask) (v >>> 22).toNat ||| pdeReadWrite) else m) = m₁ at hrelax ⊢
  obtain ⟨hs₁, hframe₁⟩ := hrelax
  obtain ⟨hs₂, hhas, hframe₂⟩ := hs₁.withTable v
  obtain ⟨hs₃, hself, hother⟩ := hs₂.setPte hhas (rangePte_present iskernel writeable
    ((withTable m₁ cr3 v).pte ((withTable m₁ cr3 v).ptePtr cr3 v)) v)
  refine ⟨hs₃, ?_, ?_⟩
  · intro a ha
    rw [hself a ha, rangePte_frame]
  · intro a ha
    rw [hother a ha, hframe₂, hframe₁]

/-- **The loop** from `addr` to `stop` maps the pages between them to themselves, leaves the
    others, and ends. -/
theorem mapRangeTables_spec {stop : BitVec 32} (hstop : stop.toNat % 0x1000 = 0) (fuel : ℕ)
    {addr : BitVec 32} (haddr : addr.toNat % 0x1000 = 0)
    (hfuel : stop.toNat ≤ addr.toNat + fuel * 0x1000) (hs : DirSpace m cr3) :
    ∃ m', mapRangeTables stop iskernel writeable cr3 (fuel + 1) addr m = some m' ∧
      DirSpace m' cr3 ∧
      ∀ a, frameOf m' cr3 a =
        if addr.toNat ≤ a.toNat ∧ a.toNat < stop.toNat then some (a &&& pteFrameMask)
        else frameOf m cr3 a := by
  induction fuel generalizing addr m with
  | zero =>
    have hlt : ¬ addr < stop := by
      rw [BitVec.lt_def]
      omega
    refine ⟨m, by rw [mapRangeTables, if_neg hlt], hs, fun a => ?_⟩
    rw [if_neg (by omega)]
  | succ fuel ih =>
    rw [mapRangeTables]
    by_cases hlt : addr < stop
    · have hlt' : addr.toNat < stop.toNat := hlt
      have hnext : (addr + 0x1000).toNat = addr.toNat + 0x1000 := by
        rw [BitVec.toNat_add, show (0x1000 : BitVec 32).toNat = 4096 from rfl]
        omega
      obtain ⟨hs₁, hself, hother⟩ := mapRangeEntry_spec iskernel writeable hs addr
      have hnext' : (addr + 0x1000).toNat % 0x1000 = 0 := by omega
      obtain ⟨m', hm', hs', hframe⟩ := ih hnext' (by omega) hs₁
      refine ⟨m', by rw [if_pos hlt]; exact hm', hs', fun a => ?_⟩
      rw [hframe a, hnext]
      by_cases hpage : a.toNat / 0x1000 = addr.toNat / 0x1000
      · -- the page of this round
        have hmask : addr &&& pteFrameMask = a &&& pteFrameMask := by
          apply BitVec.eq_of_toNat_eq
          rw [and_pteFrameMask_toNat, and_pteFrameMask_toNat, hpage]
        rw [if_neg (by omega), if_pos (by omega), hself a hpage, hmask]
      · rw [hother a hpage]
        by_cases hin : addr.toNat ≤ a.toNat ∧ a.toNat < stop.toNat
        · rw [if_pos hin, if_pos (by omega)]
        · rw [if_neg hin, if_neg (by omega)]
    · refine ⟨m, by rw [if_neg hlt], hs, fun a => ?_⟩
      have hlt' : ¬ addr.toNat < stop.toNat := hlt
      rw [if_neg (by omega)]

/-- A round depends on no record in the bitmap. -/
theorem mapRangeEntry_frames (m : Machine) (frames : Frames) (v : BitVec 32) :
    mapRangeEntry { m with frames := frames } v iskernel writeable cr3 =
      { mapRangeEntry m v iskernel writeable cr3 with frames := frames } := by
  have hwith : ∀ n : Machine, withTable { n with frames := frames } cr3 v =
      { withTable n cr3 v with frames := frames } := by
    intro n
    simp only [withTable]
    have hpde : Machine.pde { n with frames := frames } cr3 v = n.pde cr3 v := rfl
    rw [hpde]
    split_ifs <;> rfl
  simp only [mapRangeEntry, getPage_make]
  cases writeable
  · simp only [Bool.false_eq_true, if_false, hwith]
    rfl
  · simp only [if_true]
    have hset : ∀ dir i x, Machine.setPde { m with frames := frames } dir i x =
        { m.setPde dir i x with frames := frames } := fun _ _ _ => rfl
    rw [hset, hwith]
    rfl

/-- The records in the bitmap aside, the loops agree. -/
theorem mapRangeLoop_tables {stop : BitVec 32} (fuel : ℕ) {addr : BitVec 32} {m m' m'' : Machine}
    (frames : Frames) (hok : mapRangeLoop stop iskernel writeable cr3 fuel addr m = .ok m')
    (htables : mapRangeTables stop iskernel writeable cr3 fuel addr { m with frames := frames } =
      some m'') :
    m''.dirs = m'.dirs ∧ m''.tables = m'.tables := by
  induction fuel generalizing addr m frames with
  | zero => cases htables
  | succ fuel ih =>
    rw [mapRangeLoop] at hok
    rw [mapRangeTables] at htables
    by_cases hlt : addr < stop
    · rw [if_pos hlt, mapRangePage_eq_entry] at hok
      rw [if_pos hlt, mapRangeEntry_frames] at htables
      cases hset : setFrame m.frames addr with
      | error e =>
        rw [hset] at hok
        cases hok
      | ok frames' =>
        rw [hset] at hok
        exact ih (m := { mapRangeEntry m addr iskernel writeable cr3 with frames := frames' }) frames
          hok htables
    · rw [if_neg hlt] at hok htables
      cases hok
      cases htables
      exact ⟨rfl, rfl⟩

end Loop

/-! ## Ranges -/

/-- Where the rounded end of a range is: at the next page boundary, or at 0 when that is
    4 GiB. -/
theorem rangeEnd_toNat {physStart length : BitVec 32}
    (h : physStart.toNat + length.toNat ≤ 2 ^ 32) :
    (rangeEnd physStart length).toNat =
      if physStart.toNat + length.toNat ≤ 0xFFFFF000 then
        (physStart.toNat + length.toNat + 0xFFF) / 0x1000 * 0x1000
      else 0 := by
  have hmask : (rangeEnd physStart length).toNat =
      (physStart + length + 0xFFF).toNat / 0x1000 * 0x1000 :=
    and_pteFrameMask_toNat (physStart + length + 0xFFF)
  rw [hmask, BitVec.toNat_add, BitVec.toNat_add, show (0xFFF : BitVec 32).toNat = 0xFFF from rfl]
  split_ifs <;> omega

/-- **The range is mapped** to itself after `map_physical_range` exactly if it ends below the
    last page of memory, or was mapped before. The loop always ends, and where
    `map_physical_range` itself returns, these are the tables it leaves. -/
theorem mapPhysicalRange_covers_iff {m : Machine} {cr3 : BitVec 32} (hs : DirSpace m cr3)
    {physStart length : BitVec 32} (h : physStart.toNat + length.toNat ≤ 2 ^ 32)
    (iskernel writeable : Bool) :
    ∃ m', mapPhysicalRangeTables m physStart length iskernel writeable cr3 = some m' ∧
      (Covers m' cr3 physStart length ↔
        physStart.toNat + length.toNat ≤ 0xFFFFF000 ∨ Covers m cr3 physStart length) ∧
      ∀ m'', mapPhysicalRange m physStart length iskernel writeable cr3 = .ok m'' →
        m'.dirs = m''.dirs ∧ m'.tables = m''.tables := by
  have hstart : (rangeStart physStart).toNat = physStart.toNat / 0x1000 * 0x1000 :=
    and_pteFrameMask_toNat physStart
  have hend := rangeEnd_toNat h
  have hfuel : (rangeEnd physStart length).toNat ≤
      (rangeStart physStart).toNat + (2 ^ 20 - 1) * 0x1000 := by
    rw [hend]
    split_ifs <;> omega
  obtain ⟨m', hm', -, hframe⟩ := mapRangeTables_spec iskernel writeable
    (rangeEnd_aligned physStart length) (2 ^ 20 - 1) (rangeStart_aligned physStart) hfuel hs
  refine ⟨m', hm', ?_, fun m'' hok => mapRangeLoop_tables iskernel writeable _ m.frames hok hm'⟩
  by_cases hlow : physStart.toNat + length.toNat ≤ 0xFFFFF000
  · rw [if_pos hlow] at hend
    refine iff_of_true ?_ (Or.inl hlow)
    intro v hv
    obtain ⟨x, hx1, hx2, hxv⟩ := hv
    rw [hframe, if_pos (by omega)]
  · rw [if_neg hlow] at hend
    -- the end is 0: the loop does nothing
    have hsame : ∀ v, frameOf m' cr3 v = frameOf m cr3 v := by
      intro v
      rw [hframe, if_neg (by omega)]
    simp only [Covers, hsame, hlow, false_or]

/-- A directory without tables and the heap at 2 MB. -/
theorem dirSpace_cleared (cr3 : BitVec 32) : DirSpace (Machine.cleared 0x200000) cr3 := by
  have hnone : ∀ i, ¬ (Machine.cleared 0x200000).HasTable cr3 i := by
    intro i hi
    exact hi BitVec.zero_and
  refine ⟨fun i hi => absurd hi (hnone i), fun i j hi => absurd hi (hnone i), ?_⟩
  have hmissing : (Machine.cleared 0x200000).missing cr3 ≤ 1024 := by
    rw [Machine.missing]
    exact (Finset.card_filter_le _ _).trans_eq (Finset.card_range 1024)
  have hup := pageUp_spec (Machine.cleared 0x200000).placementAddress.toNat
  have hpl : (Machine.cleared 0x200000).placementAddress.toNat = 0x200000 := rfl
  omega

/-- The page of the local APIC, which `init_paging` maps. -/
theorem mapPhysicalRange_covers_iff_apic :
    ∃ m', mapPhysicalRangeTables (Machine.cleared 0x200000) 0xFEE00000 0x1000 true true 0x1000 = some m' ∧
      Covers m' 0x1000 0xFEE00000 0x1000 := by
  have hle : (0xFEE00000 : BitVec 32).toNat + (0x1000 : BitVec 32).toNat ≤ 2 ^ 32 := by decide
  obtain ⟨m', hm', hcov, -⟩ :=
    mapPhysicalRange_covers_iff (dirSpace_cleared 0x1000) hle true true
  exact ⟨m', hm', hcov.mpr (Or.inl (by decide))⟩

/-- The last page of memory is not mapped. -/
theorem mapPhysicalRange_last_page :
    mapPhysicalRange (Machine.cleared 0x200000) 0xFFFFF000 0x1000 true true 0x1000 =
      .ok (Machine.cleared 0x200000) ∧
    Touches 0xFFFFF000 0x1000 0xFFFFF000 ∧
    lookupPage (Machine.cleared 0x200000) 0x1000 0xFFFFF000 = none := by
  refine ⟨?_, ⟨0xFFFFF000, by decide, by decide, by decide⟩, by decide⟩
  show mapRangeLoop (rangeEnd 0xFFFFF000 0x1000) true true 0x1000 (1048575 + 1)
    (rangeStart 0xFFFFF000) _ = _
  rw [mapRangeLoop, if_neg (by decide)]

end HorizonOS.I386
