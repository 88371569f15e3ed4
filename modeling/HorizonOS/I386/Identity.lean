import HorizonOS.I386.Range

/-!
# The identity map of `init_paging`

The first loop of `init_paging` (src/arch/i386/memory/paging.c:116–119) never says that address X is to
be mapped to frame X. `alloc_frame` takes the first free frame, and that this is the one wanted is a
fact about the whole loop: it starts with a cleared bitmap, and it allocates for the pages in their
order. Meanwhile it takes the page tables from the heap that it maps.

* `Identity`: bitmap, directory, tables and heap pointer after some rounds.
* `Identity.addTable`, `Identity.alloc`: the two parts of a round; `Identity.step`: the round.
* `identity_map`: the machine after the loop.
-/

namespace HorizonOS.I386

open HorizonOS.Lib

/-! ## Model -/

/-- `init_paging` up to its first loop (paging.c:94–115): the directory, `identity_map_end` and the
    machine. -/
def identityStart (placementAddress : BitVec 32) : BitVec 32 × BitVec 32 × Machine :=
  let words := BitVec.ofNat 32 (bitsetIndex nframes * 4)
  let (kernelDirectory, m) := kmallocA (Machine.cleared (placementAddress + words)) 4096
  (kernelDirectory, m.placementAddress + 0x800000, m)

/-- `init_paging` up to the end of its first loop (paging.c:94–119). -/
def initIdentity (placementAddress : BitVec 32) : Except Stop Machine :=
  let (kernelDirectory, identityMapEnd, m) := identityStart placementAddress
  pagingRun m (identityMap identityMapEnd kernelDirectory)

theorem pagingRun_append (m : Machine) (l l' : List PagingCall) :
    pagingRun m (l ++ l') = (pagingRun m l).bind fun m => pagingRun m l' := by
  unfold pagingRun
  rw [List.foldlM_append]
  rfl

/-- The rest of `init_paging` runs on the machine that the loop leaves. -/
theorem initPaging_eq (placementAddress : BitVec 32) :
    initPaging placementAddress =
      (initIdentity placementAddress).bind fun m =>
        pagingRun m (initRanges (identityStart placementAddress).1) := by
  simp only [initPaging, initIdentity, identityStart, pagingRun_append]

/-! ## The tables after some rounds -/

/-- The `i`-th page behind the directory. -/
def tableAt (dir : BitVec 32) (i : ℕ) : BitVec 32 := dir + BitVec.ofNat 32 (0x1000 * (i + 1))

/-- The entry of page `q` after `k` rounds. -/
def identityPte (k q : ℕ) : BitVec 32 := if q < k then allocatedPte 0 true true q else 0

/-- The machine after `k` rounds, with `n` tables. -/
structure Identity (dir : BitVec 32) (n k : ℕ) (m : Machine) : Prop where
  frames : ∀ f, Bitmap.get m.frames f = decide (f < k)
  placement : m.placementAddress.toNat = dir.toNat + 0x1000 * (n + 1)
  pde : ∀ i < n, m.dirs dir i = tableAt dir i ||| pdePresent ||| pdeReadWrite
  absent : ∀ i, n ≤ i → m.dirs dir i = 0
  pte : ∀ i < n, ∀ j < 1024, m.pte (tableAt dir i, j) = identityPte k (i * 1024 + j)

section Rounds

variable {dir : BitVec 32} {n k : ℕ} {m : Machine}

theorem toNat_tableAt (hroom : dir.toNat + 0x20000 ≤ 2 ^ 32) {i : ℕ} (hi : i < 16) :
    (tableAt dir i).toNat = dir.toNat + 0x1000 * (i + 1) := by
  rw [tableAt, BitVec.toNat_add, BitVec.toNat_ofNat]
  omega

theorem tableAt_inj (hroom : dir.toNat + 0x20000 ≤ 2 ^ 32) {i j : ℕ} (hi : i < 16) (hj : j < 16)
    (h : tableAt dir i = tableAt dir j) : i = j := by
  have h := congrArg BitVec.toNat h
  rw [toNat_tableAt hroom hi, toNat_tableAt hroom hj] at h
  omega

theorem and_baseMask_of_aligned (hdir : dir.toNat % 0x1000 = 0) : dir &&& pdePageTableBaseMask = dir := by
  apply BitVec.eq_of_toNat_eq
  have h : (dir &&& pdePageTableBaseMask).toNat = dir.toNat / 0x1000 * 0x1000 :=
    and_pteFrameMask_toNat dir
  omega

theorem addTable_pte (m : Machine) (pt placementAddress dir : BitVec 32) (i : ℕ) (p : PtePtr) :
    (m.addTable pt placementAddress dir i).pte p = if p.1 = pt then 0 else m.pte p := by
  show Function.update m.tables pt (fun _ => 0) p.1 p.2 = _
  rw [Function.update_apply]
  split_ifs <;> rfl

theorem put_pte (m : Machine) (p q : PtePtr) (r : Frames × BitVec 32) :
    (m.put p r).pte q = if q = p then r.2 else m.pte q := setPte_pte m p q r.2

/-- `get_page` takes the next page of the heap for a new table, and clears it. -/
theorem Identity.addTable (h : Identity dir n k m) (hdir : dir.toNat % 0x1000 = 0)
    (hroom : dir.toNat + 0x20000 ≤ 2 ^ 32) (hn : n < 16) (hk : k ≤ n * 1024) :
    Identity dir (n + 1) k
      (m.addTable (kmallocA m 4096).1 (kmallocA m 4096).2.placementAddress dir n) := by
  have hplacement := h.placement
  have hup := pageUp_spec m.placementAddress.toNat
  have htoNat : (kmallocA m 4096).1.toNat = dir.toNat + 0x1000 * (n + 1) := by
    rw [kmallocA_toNat (by omega)]
    omega
  have htable : (kmallocA m 4096).1 = tableAt dir n :=
    BitVec.eq_of_toNat_eq (htoNat.trans (toNat_tableAt hroom hn).symm)
  refine ⟨h.frames, ?_, ?_, ?_, ?_⟩
  · show ((kmallocA m 4096).1 + 4096).toNat = _
    rw [BitVec.toNat_add, htoNat]
    show (_ + 4096) % 2 ^ 32 = _
    omega
  · intro i hi
    rw [addTable_dirs, htable]
    split_ifs with hnew
    · rw [hnew.2]
    · have hne : i ≠ n := fun heq => hnew ⟨rfl, heq⟩
      exact h.pde i (by omega)
  · intro i hi
    have hne : i ≠ n := by omega
    rw [addTable_dirs, if_neg fun hnew => hne hnew.2]
    exact h.absent i (by omega)
  · intro i hi j hj
    rw [addTable_pte, htable]
    dsimp only
    split_ifs with hnew
    · have heq := tableAt_inj hroom (by omega) hn hnew
      rw [identityPte, if_neg (by omega)]
    · have hne : i ≠ n := fun heq => hnew (heq ▸ rfl)
      exact h.pte i (by omega) j hj

/-- `first_frame` finds the frame of the round. -/
theorem Identity.firstZero (h : Identity dir n k m) (hk : k < nframes) :
    Bitmap.firstZero m.frames (bitsetIndex nframes) = some k := by
  have hfree : Bitmap.get m.frames k = false := (h.frames k).trans (by simp)
  cases hfirst : Bitmap.firstZero m.frames (bitsetIndex nframes) with
  | none =>
    rw [Bitmap.firstZero_eq_none hfirst hk] at hfree
    contradiction
  | some f =>
    obtain ⟨-, hf, hbefore⟩ := Bitmap.firstZero_eq_some hfirst
    have hle : k ≤ f := by
      rw [h.frames] at hf
      simpa using hf
    have hge : f ≤ k := by
      by_contra hlt
      rw [hbefore k (by omega)] at hfree
      contradiction
    rw [Nat.le_antisymm hle hge]

/-- `alloc_frame` on the entry of page `k`. -/
theorem Identity.alloc (h : Identity dir n k m) (hroom : dir.toNat + 0x20000 ≤ 2 ^ 32) (hn : n ≤ 16)
    (hk : k < n * 1024) (hframes : k < nframes) :
    ∃ m', (allocFrame m.frames (m.pte (tableAt dir (k / 1024), k % 1024)) true true).map
        (m.put (tableAt dir (k / 1024), k % 1024)) = .ok m' ∧
      Identity dir n (k + 1) m' := by
  have hsplit : k / 1024 * 1024 + k % 1024 = k := by omega
  have hentry : m.pte (tableAt dir (k / 1024), k % 1024) = 0 := by
    refine (h.pte (k / 1024) (by omega) (k % 1024) (by omega)).trans ?_
    rw [identityPte, if_neg (by omega)]
  have hzero : pteGetFrame 0 = 0 := by decide
  rw [hentry, allocFrame_eq _ _ _ hzero, h.firstZero hframes]
  refine ⟨_, rfl, ?_, h.placement, h.pde, h.absent, ?_⟩
  · intro f
    show Bitmap.get (Bitmap.set m.frames k) f = _
    rw [Bitmap.get_set (by norm_num), h.frames]
    by_cases hf : f = k
    · simp [hf]
    · have hiff : f < k ↔ f < k + 1 := by omega
      rw [if_neg hf, decide_eq_decide]
      exact hiff
  · intro i hi j hj
    rw [put_pte]
    split_ifs with hnew
    · obtain ⟨htable, hindex⟩ := Prod.mk.inj hnew
      have heq := tableAt_inj hroom (by omega) (by omega) htable
      rw [identityPte, if_pos (by omega), heq, hindex, hsplit]
    · have hne : i * 1024 + j ≠ k := by
        intro heq
        refine hnew ?_
        rw [show i = k / 1024 by omega, show j = k % 1024 by omega]
      have hiff : i * 1024 + j < k ↔ i * 1024 + j < k + 1 := by omega
      rw [h.pte i hi j hj, identityPte, identityPte]
      simp only [hiff]

/-- What the directory and table indices of page `k` are. -/
theorem page_indices (hk : k < nframes) :
    (BitVec.ofNat 32 (k * 0x1000) >>> 22).toNat = k / 1024 ∧
      ((BitVec.ofNat 32 (k * 0x1000) >>> 12) &&& 0x3FF).toNat = k % 1024 := by
  have hk' : k < 16384 := hk
  rw [dirIndex_toNat, tableIndex_toNat, BitVec.toNat_ofNat]
  omega

theorem tableAt_aligned (hdir : dir.toNat % 0x1000 = 0) (hroom : dir.toNat + 0x20000 ≤ 2 ^ 32) {i : ℕ}
    (hi : i < 16) : (tableAt dir i).toNat % 0x1000 = 0 := by
  rw [toNat_tableAt hroom hi]
  omega

/-- The first part of a round: `get_page` makes sure that there is a table for page `k`. -/
theorem Identity.withTable (h : Identity dir ((k + 1023) / 1024) k m) (hdir : dir.toNat % 0x1000 = 0)
    (hroom : dir.toNat + 0x20000 ≤ 2 ^ 32) (hk : k < nframes) :
    Identity dir (k / 1024 + 1) k (withTable m dir (BitVec.ofNat 32 (k * 0x1000))) := by
  have hk' : k < 16384 := hk
  rw [I386.withTable, Machine.pde, (page_indices hk).1, and_baseMask_of_aligned hdir]
  by_cases hfirst : k % 1024 = 0
  · -- the first page of its table
    rw [show (k + 1023) / 1024 = k / 1024 by omega] at h
    have habsent : m.dirs dir (k / 1024) &&& pdePresent = 0 := by
      rw [h.absent _ le_rfl]
      decide
    rw [if_pos habsent]
    exact h.addTable hdir hroom (by omega) (by omega)
  · rw [show (k + 1023) / 1024 = k / 1024 + 1 by omega] at h
    have hpresent : m.dirs dir (k / 1024) &&& pdePresent ≠ 0 := by
      rw [h.pde _ (Nat.lt_succ_self _)]
      exact (newPde_flags _ (tableAt_aligned hdir hroom (by omega))).1
    rw [if_neg hpresent]
    exact h

/-- A round of the loop. -/
theorem Identity.step (h : Identity dir ((k + 1023) / 1024) k m) (hdir : dir.toNat % 0x1000 = 0)
    (hroom : dir.toNat + 0x20000 ≤ 2 ^ 32) (hk : k < nframes) :
    ∃ m', pagingStep m (.allocFrame (BitVec.ofNat 32 (k * 0x1000)) true true true dir) = .ok m' ∧
      Identity dir ((k + 1 + 1023) / 1024) (k + 1) m' := by
  have hk' : k < 16384 := hk
  have hready := h.withTable hdir hroom hk
  have hptr : (I386.withTable m dir (BitVec.ofNat 32 (k * 0x1000))).ptePtr dir
      (BitVec.ofNat 32 (k * 0x1000)) = (tableAt dir (k / 1024), k % 1024) := by
    rw [Machine.ptePtr, Machine.pde, (page_indices hk).1, (page_indices hk).2,
      and_baseMask_of_aligned hdir, hready.pde _ (Nat.lt_succ_self _),
      pde_base (tableAt_aligned hdir hroom (by omega))]
  obtain ⟨m', halloc, hm'⟩ := hready.alloc hroom (by omega) (by omega) hk
  refine ⟨m', ?_, ?_⟩
  · rw [pagingStep, getPage_make, hptr]
    exact halloc
  · rwa [show (k + 1 + 1023) / 1024 = k / 1024 + 1 by omega]

/-- The loop over the first `count` pages. -/
theorem Identity.run (h : Identity dir 0 0 m) (hdir : dir.toNat % 0x1000 = 0)
    (hroom : dir.toNat + 0x20000 ≤ 2 ^ 32) {count : ℕ} (hcount : count ≤ nframes) :
    ∃ m', pagingRun m ((List.range count).map fun k =>
        .allocFrame (BitVec.ofNat 32 (k * 0x1000)) true true true dir) = .ok m' ∧
      Identity dir ((count + 1023) / 1024) count m' := by
  induction count with
  | zero => exact ⟨m, rfl, h⟩
  | succ count ih =>
    obtain ⟨m₁, hrun, hm₁⟩ := ih (by omega)
    obtain ⟨m₂, hstep, hm₂⟩ := hm₁.step hdir hroom (by omega)
    refine ⟨m₂, ?_, hm₂⟩
    rw [List.range_succ, List.map_append, pagingRun_append_of_ok hrun, List.map_singleton,
      pagingRun_cons, hstep]
    rfl

/-! ## What the processor finds -/

theorem getLsbD_one_allocatedPte (q : ℕ) : (allocatedPte 0 true true q).getLsbD 1 = true := by
  simp only [allocatedPte, pteSetFrame, BitVec.getLsbD_or, BitVec.getLsbD_and, BitVec.getLsbD_not,
    getLsbD_pteFrameMask (show 1 < 32 by omega), BitVec.getLsbD_shiftLeft]
  simp [pteReadWrite]

theorem allocatedPte_and_frameMask {q : ℕ} (hq : q < nframes) :
    (allocatedPte 0 true true q &&& pteFrameMask).toNat = q * 0x1000 := by
  have hframe := pteGetFrame_allocatedPte 0 true true hq
  rw [pteGetFrame_toNat] at hframe
  rw [and_pteFrameMask_toNat, hframe]

theorem pageOf_allocatedPte {pt : BitVec 32} (hpt : pt.toNat % 0x1000 = 0) {q : ℕ} (hq : q < nframes)
    {v : BitVec 32} (hv : v.toNat / 0x1000 = q) :
    pageOf (pt ||| pdePresent ||| pdeReadWrite) (allocatedPte 0 true true q) =
      some ⟨v &&& pteFrameMask, true, false⟩ := by
  obtain ⟨hpresent, hwritable, huser⟩ := newPde_flags pt hpt
  have hpte : allocatedPte 0 true true q &&& ptePresent ≠ 0 :=
    of_decide_eq_true (pteIsPresent_allocatedPte 0 true true q)
  have hframe : allocatedPte 0 true true q &&& pteFrameMask = v &&& pteFrameMask :=
    BitVec.eq_of_toNat_eq (by rw [allocatedPte_and_frameMask hq, and_pteFrameMask_toNat, hv])
  rw [pageOf, if_neg (not_or.mpr ⟨hpresent, hpte⟩), hwritable, huser, getLsbD_one_allocatedPte, hframe]
  rfl

/-- The table that entry `i` points to. -/
theorem Identity.base (h : Identity dir n k m) (hdir : dir.toNat % 0x1000 = 0)
    (hroom : dir.toNat + 0x20000 ≤ 2 ^ 32) {i : ℕ} (hi : i < n) (hn : n ≤ 16) :
    m.base dir i = tableAt dir i := by
  rw [Machine.base, and_baseMask_of_aligned hdir, h.pde i hi,
    pde_base (tableAt_aligned hdir hroom (by omega))]

/-- The pages that are mapped after `k` rounds: each is its own frame. -/
theorem Identity.lookupPage_eq (h : Identity dir ((k + 1023) / 1024) k m)
    (hdir : dir.toNat % 0x1000 = 0) (hroom : dir.toNat + 0x20000 ≤ 2 ^ 32) (hk : k ≤ nframes)
    (v : BitVec 32) :
    lookupPage m dir v =
      if v.toNat < k * 0x1000 then some ⟨v &&& pteFrameMask, true, false⟩ else none := by
  have hk' : k ≤ 16384 := hk
  have hpde : m.pde dir v = m.dirs dir (v.toNat / 0x400000) := by
    rw [Machine.pde, dirIndex_toNat, and_baseMask_of_aligned hdir]
  by_cases htable : v.toNat / 0x400000 < (k + 1023) / 1024
  · have hptr : m.ptePtr dir v = (tableAt dir (v.toNat / 0x400000), v.toNat / 0x1000 % 1024) := by
      rw [← h.base hdir hroom htable (by omega), Machine.ptePtr, tableIndex_toNat, hpde, Machine.base,
        and_baseMask_of_aligned hdir]
    have hpte : m.pte (m.ptePtr dir v) = identityPte k (v.toNat / 0x1000) := by
      rw [hptr, h.pte _ htable _ (Nat.mod_lt _ (by norm_num))]
      congr 1
      omega
    rw [lookupPage, hpte, hpde, h.pde _ htable, identityPte]
    by_cases hv : v.toNat < k * 0x1000
    · have hq : v.toNat / 0x1000 < k := by omega
      rw [if_pos hv, if_pos hq]
      exact pageOf_allocatedPte (tableAt_aligned hdir hroom (by omega)) (hq.trans_le hk) rfl
    · have hq : ¬ v.toNat / 0x1000 < k := by omega
      rw [if_neg hv, if_neg hq]
      exact if_pos (.inr (by decide))
  · -- no table, and no page so high
    rw [lookupPage, hpde, h.absent _ (Nat.not_lt.mp htable), if_neg (by omega)]
    exact if_pos (.inl (by decide))

end Rounds

/-! ## The whole loop -/

/-- Where the loop starts, as numbers. -/
theorem identityStart_spec {placementAddress : BitVec 32}
    (hend : pageUp (placementAddress.toNat + 0x800) + 0x1000 + 0x800000 ≤ nframes * 0x1000) :
    let (dir, stop, m) := identityStart placementAddress
    dir.toNat = pageUp (placementAddress.toNat + 0x800) ∧ stop.toNat = dir.toNat + 0x1000 + 0x800000 ∧
      Identity dir 0 0 m := by
  have hend' : pageUp (placementAddress.toNat + 0x800) + 0x1000 + 0x800000 ≤ 0x4000000 := hend
  have hup := pageUp_spec (placementAddress.toNat + 0x800)
  have hstart : (placementAddress + BitVec.ofNat 32 (bitsetIndex nframes * 4)).toNat =
      placementAddress.toNat + 0x800 := by
    rw [BitVec.toNat_add, show (BitVec.ofNat 32 (bitsetIndex nframes * 4)).toNat = 0x800 by decide]
    omega
  unfold identityStart
  dsimp only
  generalize placementAddress + BitVec.ofNat 32 (bitsetIndex nframes * 4) = start at hstart
  have hdir : (kmallocA (Machine.cleared start) 4096).1.toNat = pageUp (placementAddress.toNat + 0x800) := by
    rw [← hstart]
    refine kmallocA_toNat ?_
    show pageUp start.toNat < 2 ^ 32
    rw [hstart]
    omega
  have hnext : (kmallocA (Machine.cleared start) 4096).2.placementAddress.toNat =
      (kmallocA (Machine.cleared start) 4096).1.toNat + 0x1000 := by
    show ((kmallocA (Machine.cleared start) 4096).1 + 4096).toNat = _
    rw [BitVec.toNat_add, hdir]
    show (_ + 4096) % 2 ^ 32 = _
    omega
  refine ⟨hdir, ?_, ?_, hnext, ?_, ?_, ?_⟩
  · rw [BitVec.toNat_add, hnext, hdir]
    show (_ + 0x800000) % 2 ^ 32 = _
    omega
  · intro f
    show (0 : BitVec 32).getLsbD (f % 32) = _
    simp
  · exact fun i hi => absurd hi i.not_lt_zero
  · exact fun i _ => rfl
  · exact fun i hi => absurd hi i.not_lt_zero

/-- Let the end of the identity map, as a number, lie in the memory that the bitmap describes. After
    the loop every address below the end is mapped to itself and writable, no other address is
    mapped, exactly the frames below the end are used, and the bitmap, the directory and the page
    tables lie below the end. -/
theorem identity_map (placementAddress : BitVec 32)
    (hend : pageUp (placementAddress.toNat + 0x800) + 0x1000 + 0x800000 ≤ nframes * 0x1000) :
    let (dir, stop, _) := identityStart placementAddress
    ∃ m, initIdentity placementAddress = .ok m ∧
      (∀ v, v < stop → lookupPage m dir v = some ⟨v &&& pteFrameMask, true, false⟩) ∧
      (∀ v, stop ≤ v → lookupPage m dir v = none) ∧
      (∀ f, Bitmap.get m.frames f = true ↔ f < (stop.toNat + 0xFFF) / 0x1000) ∧
      placementAddress.toNat + 0x800 ≤ stop.toNat ∧ dir.toNat + 0x1000 ≤ stop.toNat ∧
      ∀ i, m.HasTable dir i → (m.base dir i).toNat + 0x1000 ≤ stop.toNat := by
  have hend' : pageUp (placementAddress.toNat + 0x800) + 0x1000 + 0x800000 ≤ 0x4000000 := hend
  have hup := pageUp_spec (placementAddress.toNat + 0x800)
  have hstart := identityStart_spec hend
  unfold initIdentity
  generalize identityStart placementAddress = start at hstart
  obtain ⟨dir, stop, m₀⟩ := start
  obtain ⟨hdir, hstop, hm₀⟩ := hstart
  dsimp only
  rw [identityMap]
  have hcount : (stop.toNat + 0xFFF) / 0x1000 * 0x1000 = stop.toNat := by omega
  have hle : (stop.toNat + 0xFFF) / 0x1000 ≤ 0x4000 := by omega
  generalize (stop.toNat + 0xFFF) / 0x1000 = count at hcount hle ⊢
  have haligned : dir.toNat % 0x1000 = 0 := by omega
  have hroom : dir.toNat + 0x20000 ≤ 2 ^ 32 := by omega
  have htables : ∀ i < 16, dir.toNat + 0x1000 * (i + 1) + 0x1000 ≤ stop.toNat := by omega
  obtain ⟨m, hrun, hm⟩ := hm₀.run haligned hroom hle
  have hlookup := hm.lookupPage_eq haligned hroom hle
  refine ⟨m, hrun, ?_, ?_, ?_, by omega, by omega, ?_⟩
  · intro v hv
    rw [hlookup, if_pos (by rw [hcount]; exact hv)]
  · intro v hv
    rw [hlookup, if_neg (by rw [hcount]; exact Nat.not_lt.mpr hv)]
  · intro f
    rw [hm.frames, decide_eq_true_iff]
  · intro i hi
    have hlt : i < (count + 1023) / 1024 := by
      by_contra hge
      rw [Machine.HasTable, and_baseMask_of_aligned haligned, hm.absent i (Nat.not_lt.mp hge)] at hi
      exact hi (by decide)
    have hi : i < 16 := by omega
    rw [hm.base haligned hroom hlt (by omega), toNat_tableAt hroom hi]
    exact htables i hi

/-- A kernel that ends at 2 MB. -/
theorem identity_map_two_megabytes :
    let (dir, stop, _) := identityStart 0x200000
    ∃ m, initIdentity 0x200000 = .ok m ∧
      (∀ v, v < stop → lookupPage m dir v = some ⟨v &&& pteFrameMask, true, false⟩) ∧
      ∀ v, stop ≤ v → lookupPage m dir v = none := by
  obtain ⟨m, hinit, hbelow, habove, -⟩ := identity_map 0x200000 (by rw [pageUp]; decide)
  exact ⟨m, hinit, hbelow, habove⟩

end HorizonOS.I386
