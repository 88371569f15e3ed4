import HorizonOS.I386.Frames
import HorizonOS.Lib.Basic

/-!
# Mapping on i386

`map_page` and `map_physical_range` (src/arch/i386/memory/paging.c) record every frame they
map in the bitmap of `alloc_frame`, which has a bit for each frame of 64 MB. They check no
physical address, and `init_paging` itself maps regions above that limit.

Page directories and page tables are objects of 1024 words, found by their base address.

* `Good`: no page table entry names a frame beyond the bitmap.
* `step_ok`, `step_out`: what a call does that maps below 64 MB only, or not.
* `run_inBounds_iff`: a run stays inside the bitmap exactly if it maps below 64 MB only.
* `initPaging_overruns`: `init_paging` does not.
-/

namespace HorizonOS.I386

open HorizonOS.Lib

/-! ## Model -/

/-- The bitmap, the page directories, the page tables and `placement_address`. -/
structure Machine where
  frames : Frames
  dirs : BitVec 32 → ℕ → BitVec 32
  tables : BitVec 32 → ℕ → BitVec 32
  placementAddress : BitVec 32

/-- A pointer to a page table entry: the base of the table and the index. -/
abbrev PtePtr := BitVec 32 × ℕ

def Machine.pte (m : Machine) (p : PtePtr) : BitVec 32 := m.tables p.1 p.2

def Machine.setPte (m : Machine) (p : PtePtr) (pte : BitVec 32) : Machine :=
  { m with tables := Function.update m.tables p.1 (Function.update (m.tables p.1) p.2 pte) }

def Machine.setPde (m : Machine) (dir : BitVec 32) (i : ℕ) (pde : BitVec 32) : Machine :=
  { m with dirs := Function.update m.dirs dir (Function.update (m.dirs dir) i pde) }

/-- `PDE_PRESENT`, `PDE_READ_WRITE` and `PDE_PAGE_TABLE_BASE_MASK`. -/
def pdePresent : BitVec 32 := 1

@[inherit_doc pdePresent]
def pdeReadWrite : BitVec 32 := 2

@[inherit_doc pdePresent]
def pdePageTableBaseMask : BitVec 32 := 0xFFFFF000

/-- `kmalloc_a` (kheap.c:9–18) with the 32-bit addresses of i386. -/
def kmallocA (m : Machine) (sz : BitVec 32) : BitVec 32 × Machine :=
  let p := m.placementAddress
  let p := if p &&& 0xFFF ≠ 0 then (p &&& ~~~0xFFF#32) + 0x1000 else p
  (p, { m with placementAddress := p + sz })

/-- `get_page` (paging.c:158–194). -/
def getPage (m : Machine) (addr : BitVec 32) (make : Bool) (cr3 : BitVec 32) :
    Option PtePtr × Machine :=
  let dir := cr3 &&& pdePageTableBaseMask
  let pageDirIndex := (addr >>> 22).toNat
  let pageTableIndex := ((addr >>> 12) &&& 0x3FF).toNat
  if m.dirs dir pageDirIndex &&& pdePresent = 0 then
    if !make then (none, m)
    else
      let (pageTablePhys, m) := kmallocA m 4096
      let m := { m with tables := Function.update m.tables pageTablePhys fun _ => 0 }
      let m := m.setPde dir pageDirIndex (pageTablePhys ||| pdePresent ||| pdeReadWrite)
      (some (m.dirs dir pageDirIndex &&& pdePageTableBaseMask, pageTableIndex), m)
  else (some (m.dirs dir pageDirIndex &&& pdePageTableBaseMask, pageTableIndex), m)

/-- `PTE_SET_WRITABLE` or `PTE_CLEAR_WRITABLE`. -/
def pteWritable (pte : BitVec 32) (writeable : Bool) : BitVec 32 :=
  if writeable then pte ||| pteReadWrite else pte &&& ~~~pteReadWrite

/-- The body of the loop of `map_physical_range` (paging.c:250–284) for the page at `addr`. -/
def mapRangePage (m : Machine) (addr : BitVec 32) (iskernel writeable : Bool) (cr3 : BitVec 32) :
    Except Stop Machine :=
  let dir := cr3 &&& pdePageTableBaseMask
  let pageDirIndex := (addr >>> 22).toNat
  let m :=
    if writeable then m.setPde dir pageDirIndex (m.dirs dir pageDirIndex ||| pdeReadWrite) else m
  match getPage m addr true cr3 with
  | (none, m) => .ok m
  | (some page, m) =>
    let frame := addr / 0x1000
    let pte := pteWritable (m.pte page ||| ptePresent) writeable
    let pte := if iskernel then pte &&& ~~~pteUserSupervisor else pte ||| pteUserSupervisor
    let m := m.setPte page (pteSetFrame pte frame)
    match setFrame m.frames addr with
    | .error e => .error e
    | .ok frames => .ok { m with frames := frames }

/-- `for (addr = start; addr < end; addr += 0x1000)`, at most `fuel` times. -/
def mapRangeLoop (stop : BitVec 32) (iskernel writeable : Bool) (cr3 : BitVec 32) :
    ℕ → BitVec 32 → Machine → Except Stop Machine
  | 0, _, m => .ok m
  | fuel + 1, addr, m =>
    if addr < stop then
      match mapRangePage m addr iskernel writeable cr3 with
      | .error e => .error e
      | .ok m => mapRangeLoop stop iskernel writeable cr3 fuel (addr + 0x1000) m
    else .ok m

/-- The first page of a range. -/
def rangeStart (physStart : BitVec 32) : BitVec 32 := physStart &&& 0xFFFFF000

/-- The end of a range, rounded up to a page. -/
def rangeEnd (physStart length : BitVec 32) : BitVec 32 := (physStart + length + 0xFFF) &&& 0xFFFFF000

/-- `map_physical_range` (paging.c:236–285). There are `2 ^ 20` pages. -/
def mapPhysicalRange (m : Machine) (physStart length : BitVec 32) (iskernel writeable : Bool)
    (cr3 : BitVec 32) : Except Stop Machine :=
  mapRangeLoop (rangeEnd physStart length) iskernel writeable cr3 (2 ^ 20) (rangeStart physStart) m

/-- `map_page` (paging.c:289–322). -/
def mapPage (m : Machine) (virtAddr physAddr : BitVec 32) (iskernel writeable : Bool)
    (cr3 : BitVec 32) : Except Stop Machine :=
  let virtAddr := virtAddr &&& 0xFFFFF000
  let physAddr := physAddr &&& 0xFFFFF000
  match getPage m virtAddr true cr3 with
  | (none, m) => .ok m
  | (some page, m) =>
    let frame := physAddr / 0x1000
    let pte := pteWritable (pteSetFrame (m.pte page) frame ||| ptePresent) writeable
    let pte := if iskernel then pte else pte ||| pteUserSupervisor
    let m := m.setPte page pte
    match setFrame m.frames physAddr with
    | .error e => .error e
    | .ok frames => .ok { m with frames := frames }

/-- The calls of a run. `alloc_frame` and `free_frame` are called on the entry that
    `get_page` returns, if any. -/
inductive PagingCall
  | allocFrame (addr : BitVec 32) (make iskernel writeable : Bool) (cr3 : BitVec 32)
  | freeFrame (addr : BitVec 32) (make : Bool) (cr3 : BitVec 32)
  | mapPage (virtAddr physAddr : BitVec 32) (iskernel writeable : Bool) (cr3 : BitVec 32)
  | mapPhysicalRange (physStart length : BitVec 32) (iskernel writeable : Bool) (cr3 : BitVec 32)

def Machine.put (m : Machine) (page : PtePtr) (r : Frames × BitVec 32) : Machine :=
  { m.setPte page r.2 with frames := r.1 }

def pagingStep (m : Machine) : PagingCall → Except Stop Machine
  | .allocFrame addr make iskernel writeable cr3 =>
    match getPage m addr make cr3 with
    | (none, m) => .ok m
    | (some page, m) =>
      (allocFrame m.frames (m.pte page) iskernel writeable).map (m.put page)
  | .freeFrame addr make cr3 =>
    match getPage m addr make cr3 with
    | (none, m) => .ok m
    | (some page, m) => (freeFrame m.frames (m.pte page)).map (m.put page)
  | .mapPage virtAddr physAddr iskernel writeable cr3 =>
    mapPage m virtAddr physAddr iskernel writeable cr3
  | .mapPhysicalRange physStart length iskernel writeable cr3 =>
    mapPhysicalRange m physStart length iskernel writeable cr3

def pagingRun (m : Machine) (calls : List PagingCall) : Except Stop Machine :=
  calls.foldlM pagingStep m

/-! ## `init_paging` -/

/-- The cleared bitmap and directories, with nothing mapped. -/
def Machine.cleared (placementAddress : BitVec 32) : Machine :=
  ⟨fun _ => 0, fun _ _ => 0, fun _ _ => 0, placementAddress⟩

/-- The identity map of `[0, stop)` (paging.c:116–119). -/
def identityMap (stop cr3 : BitVec 32) : List PagingCall :=
  (List.range ((stop.toNat + 0xFFF) / 0x1000)).map fun k =>
    .allocFrame (BitVec.ofNat 32 (k * 0x1000)) true true true cr3

/-- The ranges that `init_paging` maps (paging.c:122–137). -/
def initRanges (cr3 : BitVec 32) : List PagingCall :=
  [.mapPhysicalRange 0x80000 0x80000 true true cr3,
    .mapPhysicalRange 0x7fe0000 0x20000 true true cr3,
    .mapPhysicalRange 0xE0000 0x20000 true true cr3,
    .mapPhysicalRange 0xFEC00000 0x1000 true true cr3,
    .mapPhysicalRange 0xFEE00000 0x1000 true true cr3]

/-- `init_paging` (paging.c:94–142) when the kernel ends at `placementAddress`: the bitmap and
    the directory are allocated and cleared, then the identity map and the ranges follow. -/
def initPaging (placementAddress : BitVec 32) : Except Stop Machine :=
  let words := BitVec.ofNat 32 (bitsetIndex nframes * 4)
  let (kernelDirectory, m) := kmallocA (Machine.cleared (placementAddress + words)) 4096
  let identityMapEnd := m.placementAddress + 0x800000
  pagingRun m (identityMap identityMapEnd kernelDirectory ++ initRanges kernelDirectory)

/-! ## Entries -/

/-- Every entry of a page table that a directory refers to names a frame of the bitmap. -/
def Good (m : Machine) : Prop :=
  ∀ dir i, m.dirs dir i &&& pdePresent ≠ 0 →
    ∀ j, (pteGetFrame (m.tables (m.dirs dir i &&& pdePageTableBaseMask) j)).toNat < nframes

/-- The physical pages that a call maps lie below 64 MB. -/
def MapsBelowLimit : PagingCall → Prop
  | .mapPage _ physAddr _ _ _ => physAddr.toNat < 0x4000000
  | .mapPhysicalRange physStart length _ _ _ =>
    ∀ addr : BitVec 32, addr.toNat % 0x1000 = 0 → rangeStart physStart ≤ addr →
      addr < rangeEnd physStart length → addr.toNat < 0x4000000
  | .allocFrame .. | .freeFrame .. => True

theorem and_pteFrameMask_toNat (x : BitVec 32) :
    (x &&& pteFrameMask).toNat = x.toNat / 0x1000 * 0x1000 :=
  toNat_and_mask (k := 12) (by decide) x

/-- Flags are outside the frame field. -/
theorem or_and_pteFrameMask (x : BitVec 32) {f : BitVec 32} (hf : f &&& pteFrameMask = 0) :
    (x ||| f) &&& pteFrameMask = x &&& pteFrameMask := by
  rw [BitVec.and_or_distrib_right, hf]
  exact BitVec.or_zero

@[simp] theorem pteGetFrame_or {x f : BitVec 32} (hf : f &&& pteFrameMask = 0) :
    pteGetFrame (x ||| f) = pteGetFrame x := by
  rw [pteGetFrame, or_and_pteFrameMask x hf, pteGetFrame]

@[simp] theorem pteGetFrame_and_not {x f : BitVec 32} (hf : ~~~f &&& pteFrameMask = pteFrameMask) :
    pteGetFrame (x &&& ~~~f) = pteGetFrame x := by
  rw [pteGetFrame, BitVec.and_assoc, hf, pteGetFrame]

theorem pteGetFrame_pteWritable (x : BitVec 32) (writeable : Bool) :
    pteGetFrame (pteWritable x writeable) = pteGetFrame x := by
  cases writeable
  · exact pteGetFrame_and_not (by decide)
  · exact pteGetFrame_or (by decide)

theorem Good.setPte {m : Machine} (h : Good m) (p : PtePtr) {pte : BitVec 32}
    (hpte : (pteGetFrame pte).toNat < nframes) : Good (m.setPte p pte) := by
  intro dir i hpresent j
  show (pteGetFrame (Function.update m.tables p.1 _ _ j)).toNat < nframes
  rw [Function.update_apply]
  split_ifs with hbase
  · rw [Function.update_apply]
    split_ifs
    · exact hpte
    · rw [← hbase]
      exact h dir i hpresent j
  · exact h dir i hpresent j

theorem or_pdeReadWrite_and_pdePresent (x : BitVec 32) :
    (x ||| pdeReadWrite) &&& pdePresent = x &&& pdePresent := by
  rw [BitVec.and_or_distrib_right, show pdeReadWrite &&& pdePresent = 0#32 by decide]
  exact BitVec.or_zero

/-- `*pde |= PDE_READ_WRITE` refers to the same table. -/
theorem Good.setPde_readWrite {m : Machine} (h : Good m) (dir : BitVec 32) (i : ℕ) :
    Good (m.setPde dir i (m.dirs dir i ||| pdeReadWrite)) := by
  intro dir' i' hpresent j
  have hbase : ∀ x : BitVec 32,
      (x ||| pdeReadWrite) &&& pdePageTableBaseMask = x &&& pdePageTableBaseMask := fun x =>
    or_and_pteFrameMask x (by decide)
  have hdirs : (m.setPde dir i (m.dirs dir i ||| pdeReadWrite)).dirs dir' i' =
      m.dirs dir' i' ∨ (m.setPde dir i (m.dirs dir i ||| pdeReadWrite)).dirs dir' i' =
      m.dirs dir' i' ||| pdeReadWrite := by
    by_cases hd : dir' = dir
    · subst hd
      by_cases hi : i' = i
      · subst hi
        right
        simp [Machine.setPde]
      · left
        simp [Machine.setPde, hi]
    · left
      simp [Machine.setPde, hd]
  rcases hdirs with heq | heq
  · rw [heq] at hpresent ⊢
    exact h dir' i' hpresent j
  · rw [heq, or_pdeReadWrite_and_pdePresent] at hpresent
    rw [heq, hbase]
    exact h dir' i' hpresent j

theorem kmallocA_aligned (m : Machine) (sz : BitVec 32) :
    (kmallocA m sz).1.toNat % 0x1000 = 0 := by
  simp only [kmallocA]
  split_ifs with h
  · have hmask := and_pteFrameMask_toNat m.placementAddress
    rw [BitVec.toNat_add, show ~~~0xFFF#32 = pteFrameMask by decide, hmask,
      show (0x1000 : BitVec 32).toNat = 4096 from rfl]
    omega
  · have hlow : (m.placementAddress &&& 0xFFF).toNat = 0 := by
      rw [not_not.mp h]
      rfl
    rwa [BitVec.toNat_and, show (0xFFF : BitVec 32).toNat = 2 ^ 12 - 1 from rfl,
      Nat.and_two_pow_sub_one_eq_mod] at hlow

/-- The base of a directory entry for a page-aligned table. -/
theorem pde_base {x : BitVec 32} (hx : x.toNat % 0x1000 = 0) :
    (x ||| pdePresent ||| pdeReadWrite) &&& pdePageTableBaseMask = x := by
  have hmask : pdePageTableBaseMask = pteFrameMask := rfl
  rw [hmask, or_and_pteFrameMask _ (by decide), or_and_pteFrameMask _ (by decide)]
  apply BitVec.eq_of_toNat_eq
  rw [and_pteFrameMask_toNat]
  omega

/-- The cleared table that `get_page` adds. -/
def Machine.addTable (m : Machine) (pt placementAddress dir : BitVec 32) (i : ℕ) : Machine :=
  Machine.setPde
    { m with
      tables := Function.update m.tables pt fun _ => 0
      placementAddress := placementAddress }
    dir i (pt ||| pdePresent ||| pdeReadWrite)

theorem getPage_eq (m : Machine) (addr : BitVec 32) (make : Bool) (cr3 : BitVec 32) :
    ∃ pt placementAddress, pt.toNat % 0x1000 = 0 ∧
      getPage m addr make cr3 =
        let dir := cr3 &&& pdePageTableBaseMask
        let i := (addr >>> 22).toNat
        let j := ((addr >>> 12) &&& 0x3FF).toNat
        if m.dirs dir i &&& pdePresent = 0 then
          if !make then (none, m) else (some (pt, j), m.addTable pt placementAddress dir i)
        else (some (m.dirs dir i &&& pdePageTableBaseMask, j), m) := by
  have hk : kmallocA m 4096 = ((kmallocA m 4096).1,
      { m with placementAddress := (kmallocA m 4096).2.placementAddress }) := rfl
  have haligned := kmallocA_aligned m 4096
  refine ⟨(kmallocA m 4096).1, (kmallocA m 4096).2.placementAddress, haligned, ?_⟩
  simp only [getPage]
  rw [hk]
  generalize (kmallocA m 4096).1 = pt at *
  generalize (kmallocA m 4096).2.placementAddress = placementAddress
  simp only [Machine.addTable, Machine.setPde, Function.update_self, pde_base haligned]

theorem Good.addTable {m : Machine} (h : Good m) {pt : BitVec 32} (hpt : pt.toNat % 0x1000 = 0)
    (placementAddress dir : BitVec 32) (i : ℕ) : Good (m.addTable pt placementAddress dir i) := by
  intro dir' i' hpresent j
  have hzero : (pteGetFrame 0).toNat < nframes := by decide
  show (pteGetFrame (Function.update m.tables pt (fun _ => 0) _ j)).toNat < nframes
  rw [Function.update_apply]
  split_ifs with hbase
  · exact hzero
  · by_cases hnew : dir' = dir ∧ i' = i
    · obtain ⟨rfl, rfl⟩ := hnew
      refine absurd ?_ hbase
      simp [Machine.addTable, Machine.setPde, pde_base hpt]
    · have hdirs : (m.addTable pt placementAddress dir i).dirs dir' i' = m.dirs dir' i' := by
        by_cases hd : dir' = dir
        · subst hd
          have hi : i' ≠ i := fun hi => hnew ⟨rfl, hi⟩
          simp [Machine.addTable, Machine.setPde, hi]
        · simp [Machine.addTable, Machine.setPde, hd]
      rw [hdirs] at hpresent ⊢
      exact h dir' i' hpresent j

/-- `get_page` with `make` returns an entry, and whatever it returns is an entry of a table
    that names a frame of the bitmap. -/
theorem getPage_spec (m : Machine) (addr : BitVec 32) (make : Bool) (cr3 : BitVec 32) :
    ∃ p? m', getPage m addr make cr3 = (p?, m') ∧ m'.frames = m.frames ∧
      (make = true → p?.isSome) ∧
      (Good m → Good m' ∧ ∀ p, p? = some p → (pteGetFrame (m'.pte p)).toNat < nframes) := by
  obtain ⟨pt, placementAddress, hpt, heq⟩ := getPage_eq m addr make cr3
  rw [heq]
  simp only
  split_ifs with hpresent hmake
  · exact ⟨none, m, rfl, rfl, by simpa using hmake, fun h => ⟨h, by simp⟩⟩
  · refine ⟨_, _, rfl, rfl, fun _ => rfl, fun h => ⟨h.addTable hpt _ _ _, ?_⟩⟩
    rintro p ⟨⟩
    simp [Machine.pte, Machine.addTable, Machine.setPde, pteGetFrame_toNat]
  · refine ⟨_, _, rfl, rfl, fun _ => rfl, fun h => ⟨h, ?_⟩⟩
    rintro p ⟨⟩
    exact h _ _ hpresent _

/-! ## Calls -/

theorem frame_lt_iff (x : BitVec 32) : x.toNat / 0x1000 < nframes ↔ x.toNat < 0x4000000 := by
  simp only [nframes]
  omega

theorem div_page_toNat (x : BitVec 32) : (x / 0x1000).toNat = x.toNat / 0x1000 := rfl

/-- The end of both mapping functions: the entry is stored and its frame recorded. -/
theorem record_spec (m : Machine) (p : PtePtr) (pte addr : BitVec 32)
    (hpte : (pteGetFrame pte).toNat = addr.toNat / 0x1000) :
    ∃ m', (match setFrame (m.setPte p pte).frames addr with
        | .error e => .error e
        | .ok frames => .ok { m.setPte p pte with frames := frames }) =
        (if addr.toNat < 0x4000000 then .ok m'
        else .error (.outOfBounds (bitsetIndex (addr.toNat / 0x1000))) : Except Stop Machine) ∧
      (addr.toNat < 0x4000000 → Good m → Good m') := by
  refine ⟨{ m.setPte p pte with frames := Bitmap.set m.frames (addr.toNat / 0x1000) }, ?_, ?_⟩
  · rw [setFrame_eq]
    simp only [frame_lt_iff]
    split_ifs
    · rfl
    · rfl
  · intro haddr h
    exact h.setPte p (by rwa [hpte, frame_lt_iff])

/-- A page of a range is recorded if it lies below 64 MB. -/
theorem mapRangePage_spec (m : Machine) (addr : BitVec 32) (iskernel writeable : Bool)
    (cr3 : BitVec 32) :
    ∃ m', mapRangePage m addr iskernel writeable cr3 =
        (if addr.toNat < 0x4000000 then .ok m'
        else .error (.outOfBounds (bitsetIndex (addr.toNat / 0x1000)))) ∧
      (addr.toNat < 0x4000000 → Good m → Good m') := by
  have hrw : Good m → Good (if writeable then m.setPde (cr3 &&& pdePageTableBaseMask)
      (addr >>> 22).toNat (m.dirs (cr3 &&& pdePageTableBaseMask) (addr >>> 22).toNat |||
        pdeReadWrite) else m) := by
    intro h
    split_ifs
    · exact h.setPde_readWrite _ _
    · exact h
  simp only [mapRangePage]
  generalize (if writeable then m.setPde (cr3 &&& pdePageTableBaseMask) (addr >>> 22).toNat
    (m.dirs (cr3 &&& pdePageTableBaseMask) (addr >>> 22).toNat ||| pdeReadWrite) else m) = m₁ at *
  obtain ⟨p?, m₂, heq, -, hsome, hgood⟩ := getPage_spec m₁ addr true cr3
  obtain ⟨p, rfl⟩ := Option.isSome_iff_exists.mp (hsome rfl)
  rw [heq]
  have hlt : (addr / 0x1000).toNat < 2 ^ 20 := by
    rw [div_page_toNat]
    omega
  obtain ⟨m', hm', hgood'⟩ := record_spec m₂ p
    (pteSetFrame (if iskernel then pteWritable (m₂.pte p ||| ptePresent) writeable &&&
      ~~~pteUserSupervisor else pteWritable (m₂.pte p ||| ptePresent) writeable |||
      pteUserSupervisor) (addr / 0x1000)) addr
    (by rw [pteGetFrame_pteSetFrame _ hlt, div_page_toNat])
  exact ⟨m', hm', fun haddr h => hgood' haddr (hgood (hrw h)).1⟩

theorem mapPage_spec (m : Machine) (virtAddr physAddr : BitVec 32) (iskernel writeable : Bool)
    (cr3 : BitVec 32) :
    ∃ m', mapPage m virtAddr physAddr iskernel writeable cr3 =
        (if physAddr.toNat < 0x4000000 then .ok m'
        else .error (.outOfBounds (bitsetIndex (physAddr.toNat / 0x1000)))) ∧
      (physAddr.toNat < 0x4000000 → Good m → Good m') := by
  simp only [mapPage]
  obtain ⟨p?, m₂, heq, -, hsome, hgood⟩ := getPage_spec m (virtAddr &&& 0xFFFFF000) true cr3
  obtain ⟨p, rfl⟩ := Option.isSome_iff_exists.mp (hsome rfl)
  rw [heq]
  have hpage : (physAddr &&& 0xFFFFF000).toNat = physAddr.toNat / 0x1000 * 0x1000 :=
    and_pteFrameMask_toNat physAddr
  have hframe : (physAddr &&& 0xFFFFF000).toNat / 0x1000 = physAddr.toNat / 0x1000 := by
    omega
  have hlimit : (physAddr &&& 0xFFFFF000).toNat < 0x4000000 ↔ physAddr.toNat < 0x4000000 := by
    omega
  have hlt : ((physAddr &&& 0xFFFFF000) / 0x1000).toNat < 2 ^ 20 := by
    rw [div_page_toNat]
    omega
  obtain ⟨m', hm', hgood'⟩ := record_spec m₂ p
    (if iskernel then
      pteWritable (pteSetFrame (m₂.pte p) ((physAddr &&& 0xFFFFF000) / 0x1000) ||| ptePresent)
        writeable
    else pteWritable (pteSetFrame (m₂.pte p) ((physAddr &&& 0xFFFFF000) / 0x1000) |||
      ptePresent) writeable ||| pteUserSupervisor) (physAddr &&& 0xFFFFF000)
    (by
      rw [← div_page_toNat]
      cases iskernel
      · simp only [Bool.false_eq_true, if_false]
        rw [pteGetFrame_or (by decide), pteGetFrame_pteWritable, pteGetFrame_or (by decide),
          pteGetFrame_pteSetFrame _ hlt]
      · simp only [if_true]
        rw [pteGetFrame_pteWritable, pteGetFrame_or (by decide), pteGetFrame_pteSetFrame _ hlt])
  simp only [hlimit, hframe] at hm' hgood'
  exact ⟨m', hm', fun haddr h => hgood' haddr (hgood h).1⟩

theorem rangeStart_aligned (physStart : BitVec 32) : (rangeStart physStart).toNat % 0x1000 = 0 := by
  have h : (rangeStart physStart).toNat = physStart.toNat / 0x1000 * 0x1000 :=
    and_pteFrameMask_toNat physStart
  omega

theorem rangeEnd_aligned (physStart length : BitVec 32) :
    (rangeEnd physStart length).toNat % 0x1000 = 0 :=
  rangeStart_aligned (physStart + length + 0xFFF)

/-- The loop over a range below 64 MB maps all of it. -/
theorem mapRangeLoop_ok {stop : BitVec 32} (iskernel writeable : Bool) (cr3 : BitVec 32)
    (fuel : ℕ) {addr : BitVec 32} (haddr : addr.toNat % 0x1000 = 0) {m : Machine}
    (hbelow : ∀ a : BitVec 32, a.toNat % 0x1000 = 0 → addr ≤ a → a < stop →
      a.toNat < 0x4000000) :
    ∃ m', mapRangeLoop stop iskernel writeable cr3 fuel addr m = .ok m' ∧ (Good m → Good m') := by
  induction fuel generalizing addr m with
  | zero => exact ⟨m, rfl, id⟩
  | succ fuel ih =>
    rw [mapRangeLoop]
    split_ifs with hlt
    · obtain ⟨m₁, heq, hgood⟩ := mapRangePage_spec m addr iskernel writeable cr3
      have hlimit := hbelow addr haddr (BitVec.le_refl addr) hlt
      rw [heq, if_pos hlimit]
      have hnext : (addr + 0x1000).toNat = addr.toNat + 0x1000 := by
        rw [BitVec.toNat_add, show (0x1000 : BitVec 32).toNat = 4096 from rfl]
        omega
      have haddr' : (addr + 0x1000).toNat % 0x1000 = 0 := by omega
      obtain ⟨m', hm', hgood'⟩ := ih haddr' (m := m₁) (by
        intro a ha hle
        refine hbelow a ha ?_
        have hle' : (addr + 0x1000).toNat ≤ a.toNat := hle
        show addr.toNat ≤ a.toNat
        omega)
      exact ⟨m', hm', fun h => hgood' (hgood hlimit h)⟩
    · exact ⟨m, rfl, id⟩

/-- The loop stops at the first page that is not below 64 MB. -/
theorem mapRangeLoop_out {stop : BitVec 32} (hstop : stop.toNat % 0x1000 = 0)
    (iskernel writeable : Bool) (cr3 : BitVec 32) (fuel : ℕ) {addr a : BitVec 32}
    (haddr : addr.toNat % 0x1000 = 0) (ha : a.toNat % 0x1000 = 0) (hle : addr ≤ a) (hlt : a < stop)
    (hout : ¬ a.toNat < 0x4000000) (hfuel : a.toNat < addr.toNat + fuel * 0x1000) (m : Machine) :
    ∃ idx, mapRangeLoop stop iskernel writeable cr3 fuel addr m = .error (.outOfBounds idx) := by
  induction fuel generalizing addr m with
  | zero =>
    have hle' : addr.toNat ≤ a.toNat := hle
    omega
  | succ fuel ih =>
    have hle' : addr.toNat ≤ a.toNat := hle
    have hlt' : a.toNat < stop.toNat := hlt
    have haddr' : addr < stop := BitVec.lt_def.mpr (by omega)
    obtain ⟨m₁, heq, -⟩ := mapRangePage_spec m addr iskernel writeable cr3
    rw [mapRangeLoop, if_pos haddr', heq]
    split_ifs with hlimit
    · have hnext : (addr + 0x1000).toNat = addr.toNat + 0x1000 := by
        rw [BitVec.toNat_add, show (0x1000 : BitVec 32).toNat = 4096 from rfl]
        omega
      exact ih (by omega) (by show (addr + 0x1000).toNat ≤ a.toNat; omega) (by omega) m₁
    · exact ⟨_, rfl⟩

/-- A call below 64 MB returns, or finds no free frame. -/
theorem step_ok {m : Machine} (h : Good m) {c : PagingCall} (hc : MapsBelowLimit c) :
    (∃ m', pagingStep m c = .ok m' ∧ Good m') ∨ pagingStep m c = .error .noFreeFrames := by
  cases c with
  | allocFrame addr make iskernel writeable cr3 =>
    obtain ⟨p?, m₂, heq, hframes, hsome, hgood⟩ := getPage_spec m addr make cr3
    obtain ⟨hgood₂, hpte⟩ := hgood h
    rw [pagingStep, heq]
    cases p? with
    | none => exact .inl ⟨m₂, rfl, hgood₂⟩
    | some p =>
      by_cases hframe : pteGetFrame (m₂.pte p) = 0
      · simp only [allocFrame_eq _ _ _ hframe]
        cases hfirst : Bitmap.firstZero m₂.frames (bitsetIndex nframes) with
        | none => exact .inr rfl
        | some n =>
          have hn : n < nframes := (Bitmap.firstZero_eq_some hfirst).1
          exact .inl ⟨_, rfl, hgood₂.setPte p (by rwa [pteGetFrame_allocatedPte _ _ _ hn])⟩
      · simp only [allocFrame, ne_eq, hframe, not_false_eq_true, if_true]
        exact .inl ⟨_, rfl, hgood₂.setPte p (hpte p rfl)⟩
  | freeFrame addr make cr3 =>
    obtain ⟨p?, m₂, heq, hframes, hsome, hgood⟩ := getPage_spec m addr make cr3
    obtain ⟨hgood₂, hpte⟩ := hgood h
    rw [pagingStep, heq]
    cases p? with
    | none => exact .inl ⟨m₂, rfl, hgood₂⟩
    | some p =>
      by_cases hframe : pteGetFrame (m₂.pte p) = 0
      · simp only [freeFrame, hframe, if_true]
        exact .inl ⟨_, rfl, hgood₂.setPte p (hpte p rfl)⟩
      · simp only [freeFrame_eq _ hframe (hpte p rfl)]
        have hzero : (pteGetFrame 0).toNat < nframes := by decide
        exact .inl ⟨_, rfl, hgood₂.setPte p hzero⟩
  | mapPage virtAddr physAddr iskernel writeable cr3 =>
    obtain ⟨m', heq, hgood⟩ := mapPage_spec m virtAddr physAddr iskernel writeable cr3
    rw [if_pos (show physAddr.toNat < 0x4000000 from hc)] at heq
    exact .inl ⟨m', heq, hgood hc h⟩
  | mapPhysicalRange physStart length iskernel writeable cr3 =>
    obtain ⟨m', heq, hgood⟩ := mapRangeLoop_ok iskernel writeable cr3 (2 ^ 20)
      (rangeStart_aligned physStart) hc
    exact .inl ⟨m', heq, hgood h⟩

/-- A call that maps a page beyond 64 MB leaves the bitmap. -/
theorem step_out (m : Machine) {c : PagingCall} (hc : ¬ MapsBelowLimit c) :
    ∃ idx, pagingStep m c = .error (.outOfBounds idx) := by
  cases c with
  | allocFrame => exact absurd trivial hc
  | freeFrame => exact absurd trivial hc
  | mapPage virtAddr physAddr iskernel writeable cr3 =>
    obtain ⟨m', heq, -⟩ := mapPage_spec m virtAddr physAddr iskernel writeable cr3
    rw [if_neg (show ¬ physAddr.toNat < 0x4000000 from hc)] at heq
    exact ⟨_, heq⟩
  | mapPhysicalRange physStart length iskernel writeable cr3 =>
    simp only [MapsBelowLimit, not_forall] at hc
    obtain ⟨a, ha, hle, hlt, hout⟩ := hc
    exact mapRangeLoop_out (rangeEnd_aligned physStart length) iskernel writeable cr3 (2 ^ 20)
      (rangeStart_aligned physStart) ha hle hlt hout (by omega) m

/-! ## Runs -/

/-- Every call that the run reaches maps below 64 MB only. -/
def RunMapsBelowLimit : Machine → List PagingCall → Prop
  | _, [] => True
  | m, c :: cs => MapsBelowLimit c ∧ ∀ m', pagingStep m c = .ok m' → RunMapsBelowLimit m' cs

theorem pagingRun_cons (m : Machine) (c : PagingCall) (cs : List PagingCall) :
    pagingRun m (c :: cs) =
      match pagingStep m c with
      | .error e => .error e
      | .ok m' => pagingRun m' cs := by
  rw [pagingRun, List.foldlM_cons]
  cases pagingStep m c <;> rfl

theorem Good.run_iff {m : Machine} (h : Good m) (calls : List PagingCall) :
    (∀ idx, pagingRun m calls ≠ .error (.outOfBounds idx)) ↔ RunMapsBelowLimit m calls := by
  induction calls generalizing m with
  | nil =>
    refine ⟨fun _ => trivial, fun _ idx hrun => ?_⟩
    cases hrun
  | cons c cs ih =>
    rw [pagingRun_cons, RunMapsBelowLimit]
    by_cases hc : MapsBelowLimit c
    · rcases step_ok h hc with ⟨m', hstep, hgood⟩ | hstep
      · simp only [hstep, ih hgood, hc, true_and, Except.ok.injEq, forall_eq']
      · simp [hstep, hc]
    · obtain ⟨idx, hstep⟩ := step_out m hc
      simp only [hstep, hc, false_and, iff_false, not_forall, not_not]
      exact ⟨idx, rfl⟩

theorem good_cleared (placementAddress : BitVec 32) : Good (Machine.cleared placementAddress) := by
  intro dir i hpresent
  exact absurd (show (0 : BitVec 32) &&& pdePresent = 0 by decide) hpresent

/-- From the cleared bitmap and directories, a run leaves the bitmap exactly if it reaches a
    call that maps a page beyond 64 MB. -/
theorem run_inBounds_iff (placementAddress : BitVec 32) (calls : List PagingCall) :
    (∀ idx, pagingRun (Machine.cleared placementAddress) calls ≠ .error (.outOfBounds idx)) ↔
      RunMapsBelowLimit (Machine.cleared placementAddress) calls :=
  (good_cleared placementAddress).run_iff calls

/-! ## `init_paging` overruns -/

/-- All frames from `k` on are free. -/
def FreeFrom (k : ℕ) (m : Machine) : Prop :=
  ∀ f, k ≤ f → Bitmap.get m.frames f = false

/-- One `alloc_frame` takes at most the first of the frames that are all free. -/
theorem FreeFrom.alloc {k : ℕ} {m : Machine} (h : FreeFrom k m) (hk : k < nframes)
    (addr : BitVec 32) (iskernel writeable : Bool) (cr3 : BitVec 32) :
    ∃ m', pagingStep m (.allocFrame addr true iskernel writeable cr3) = .ok m' ∧
      FreeFrom (k + 1) m' := by
  obtain ⟨p?, m₂, heq, hframes, hsome, -⟩ := getPage_spec m addr true cr3
  obtain ⟨p, rfl⟩ := Option.isSome_iff_exists.mp (hsome rfl)
  have hfree : Bitmap.get m₂.frames k = false := by
    rw [hframes]
    exact h k le_rfl
  rw [pagingStep, heq]
  by_cases hframe : pteGetFrame (m₂.pte p) = 0
  · simp only [allocFrame_eq _ _ _ hframe]
    cases hfirst : Bitmap.firstZero m₂.frames (bitsetIndex nframes) with
    | none =>
      rw [Bitmap.firstZero_eq_none hfirst hk] at hfree
      contradiction
    | some n =>
      obtain ⟨-, -, hbefore⟩ := Bitmap.firstZero_eq_some hfirst
      have hn : n ≤ k := by
        by_contra hlt
        rw [hbefore k (by omega)] at hfree
        contradiction
      refine ⟨_, rfl, ?_⟩
      intro f hf
      show Bitmap.get (Bitmap.set m₂.frames n) f = false
      rw [Bitmap.get_set (by omega), if_neg (by omega), hframes]
      exact h f (by omega)
  · simp only [allocFrame, ne_eq, hframe, not_false_eq_true, if_true]
    refine ⟨_, rfl, ?_⟩
    intro f hf
    show Bitmap.get m₂.frames f = false
    rw [hframes]
    exact h f (by omega)

theorem FreeFrom.identityMap {k : ℕ} {m : Machine} (h : FreeFrom k m) (addrs : List (BitVec 32))
    (cr3 : BitVec 32) (hk : k + addrs.length ≤ nframes) :
    ∃ m', pagingRun m (addrs.map fun a => .allocFrame a true true true cr3) = .ok m' := by
  induction addrs generalizing k m with
  | nil => exact ⟨m, rfl⟩
  | cons a addrs ih =>
    rw [List.length_cons] at hk
    obtain ⟨m₁, hstep, hfree⟩ := h.alloc (by omega) a true true cr3
    obtain ⟨m', hrun⟩ := ih hfree (by omega)
    exact ⟨m', by rw [List.map_cons, pagingRun_cons, hstep]; exact hrun⟩

theorem pagingRun_append_of_ok {m m' : Machine} {l l' : List PagingCall}
    (h : pagingRun m l = .ok m') : pagingRun m (l ++ l') = pagingRun m' l' := by
  rw [pagingRun] at h
  rw [pagingRun, List.foldlM_append, h]
  rfl

theorem kmallocA_toNat_le {m : Machine} {sz : BitVec 32}
    (h : m.placementAddress.toNat < 0x10000000) :
    (kmallocA m sz).1.toNat ≤ m.placementAddress.toNat + 0x1000 := by
  simp only [kmallocA]
  split_ifs
  · rw [BitVec.toNat_add, show ~~~0xFFF#32 = pteFrameMask by decide, and_pteFrameMask_toNat,
      show (0x1000 : BitVec 32).toNat = 4096 from rfl]
    omega
  · omega

/-- The ranges of `init_paging`: the first lies below 64 MB, the second does not. -/
theorem initRanges_overrun (m : Machine) (cr3 : BitVec 32) :
    pagingRun m (initRanges cr3) = .error (.outOfBounds 1023) := by
  have hbelow : ∀ a : BitVec 32, a.toNat % 0x1000 = 0 → rangeStart 0x80000 ≤ a →
      a < rangeEnd 0x80000 0x80000 → a.toNat < 0x4000000 := by
    intro a _ _ hlt
    have hlt' : a.toNat < 0x100000 := hlt
    omega
  obtain ⟨m₁, hfirst, -⟩ := mapRangeLoop_ok true true cr3 (2 ^ 20) (rangeStart_aligned 0x80000)
    (m := m) hbelow
  obtain ⟨m₂, hsecond, -⟩ := mapRangePage_spec m₁ 0x7fe0000 true true cr3
  have hstep₁ : pagingStep m (.mapPhysicalRange 0x80000 0x80000 true true cr3) = .ok m₁ := hfirst
  have hstep₂ : pagingStep m₁ (.mapPhysicalRange 0x7fe0000 0x20000 true true cr3) =
      .error (.outOfBounds 1023) := by
    show mapRangeLoop (rangeEnd 0x7fe0000 0x20000) true true cr3 (1048575 + 1)
      (rangeStart 0x7fe0000) m₁ = _
    rw [mapRangeLoop, if_pos (by decide), show rangeStart 0x7fe0000 = 0x7fe0000 by decide, hsecond,
      if_neg (by decide)]
    rfl
  rw [initRanges, pagingRun_cons, hstep₁]
  simp only
  rw [pagingRun_cons, hstep₂]

/-- Wherever the kernel ends below 48 MB, `init_paging` itself writes beyond the bitmap. -/
theorem initPaging_overruns {placementAddress : BitVec 32}
    (h : placementAddress.toNat ≤ 0x3000000) :
    initPaging placementAddress = .error (.outOfBounds 1023) := by
  have hwords : (placementAddress + BitVec.ofNat 32 (bitsetIndex nframes * 4)).toNat =
      placementAddress.toNat + 2048 := by
    rw [BitVec.toNat_add, show (BitVec.ofNat 32 (bitsetIndex nframes * 4)).toNat = 2048 by decide]
    omega
  simp only [initPaging]
  generalize placementAddress + BitVec.ofNat 32 (bitsetIndex nframes * 4) = start at *
  have hdir : (kmallocA (Machine.cleared start) 4096).1.toNat ≤
      (Machine.cleared start).placementAddress.toNat + 0x1000 :=
    kmallocA_toNat_le (by simp only [Machine.cleared]; omega)
  have hnext : (kmallocA (Machine.cleared start) 4096).2.placementAddress =
      (kmallocA (Machine.cleared start) 4096).1 + 4096 := rfl
  have hfree : FreeFrom 0 (kmallocA (Machine.cleared start) 4096).2 := by
    intro f _
    show (0 : BitVec 32).getLsbD (f % 32) = false
    simp
  change _ ≤ start.toNat + 0x1000 at hdir
  generalize kmallocA (Machine.cleared start) 4096 = r at *
  obtain ⟨dir, m⟩ := r
  simp only at *
  have hend : (m.placementAddress + 0x800000).toNat ≤ 0x3803000 := by
    rw [hnext, BitVec.toNat_add, BitVec.toNat_add, show (4096 : BitVec 32).toNat = 4096 from rfl,
      show (0x800000 : BitVec 32).toNat = 0x800000 from rfl]
    omega
  obtain ⟨m', hrun⟩ := hfree.identityMap
    ((List.range (((m.placementAddress + 0x800000).toNat + 0xFFF) / 0x1000)).map fun k =>
      BitVec.ofNat 32 (k * 0x1000)) dir (by
        rw [List.length_map, List.length_range]
        simp only [nframes]
        omega)
  have hidentity : pagingRun m (identityMap (m.placementAddress + 0x800000) dir) = .ok m' := by
    rw [← hrun, identityMap, List.map_map]
    rfl
  rw [pagingRun_append_of_ok hidentity, initRanges_overrun]

/-- A kernel that ends at 2 MB. -/
theorem initPaging_overruns_at_boot : initPaging 0x200000 = .error (.outOfBounds 1023) :=
  initPaging_overruns (by decide)

end HorizonOS.I386
