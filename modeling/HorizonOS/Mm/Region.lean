import HorizonOS.Mm.Heap

/-!
# The memory under the heap

`kernel_main` puts the heap into the first usable region of at least 4 MiB of the boot
loader's memory map (x86_64/kernel.c:162–187). From then on only `placement_address` is
kept: no allocation looks at the end of the region, and none reports a failure.

* `bumpPhys_eq`: the region that the loop selects.
* `heap_inside_iff`: for which requests the blocks stay inside the region.
-/

namespace HorizonOS.Mm

open HorizonOS.Lib

/-! ## Region -/

/-- `struct limine_memmap_entry`. -/
structure MemmapEntry where
  base : BitVec 64
  length : BitVec 64
  type : BitVec 64
deriving DecidableEq

/-- `LIMINE_MEMMAP_USABLE`. -/
def limineMemmapUsable : BitVec 64 := 0

/-- The loop over the memory map (kernel.c:167–179). -/
def bumpPhys (entries : List MemmapEntry) : BitVec 64 :=
  entries.foldl
    (fun bump e =>
      if bump = 0 ∧ e.type = limineMemmapUsable ∧ e.length ≥ 0x400000 then e.base else bump)
    0

/-- The start of the heap (kernel.c:181–187); `none` is `hcf()`. -/
def initPlacement (hhdmOffset : Addr) (entries : List MemmapEntry) : Option Addr :=
  if bumpPhys entries = 0 then none else some (hhdmOffset + bumpPhys entries)

/-- A region that the loop can select. An entry at base 0 looks like none. -/
def MemmapEntry.suitable (e : MemmapEntry) : Bool :=
  e.type = limineMemmapUsable ∧ e.length ≥ 0x400000 ∧ e.base ≠ 0

theorem bumpPhys_eq (entries : List MemmapEntry) :
    bumpPhys entries = ((entries.find? MemmapEntry.suitable).map MemmapEntry.base).getD 0 := by
  have hkeep : ∀ (entries : List MemmapEntry) (bump : BitVec 64), bump ≠ 0 →
      entries.foldl (fun bump e => if bump = 0 ∧ e.type = limineMemmapUsable ∧
        e.length ≥ 0x400000 then e.base else bump) bump = bump := by
    intro entries bump hbump
    induction entries with
    | nil => rfl
    | cons e entries ih => rwa [List.foldl_cons, if_neg fun h => hbump h.1]
  unfold bumpPhys
  induction entries with
  | nil => rfl
  | cons e entries ih =>
    rw [List.foldl_cons, List.find?_cons]
    by_cases husable : e.type = limineMemmapUsable ∧ e.length ≥ 0x400000
    · rw [if_pos ⟨rfl, husable⟩]
      by_cases hbase : e.base = 0
      · simp only [MemmapEntry.suitable, hbase]
        simpa using ih
      · have hsuitable : e.suitable = true := by
          simpa [MemmapEntry.suitable] using ⟨husable.1, husable.2, hbase⟩
        rw [hkeep entries e.base hbase, hsuitable]
        rfl
    · have hnot : e.suitable = false := by
        rw [← Bool.not_eq_true]
        intro hs
        simp only [MemmapEntry.suitable, decide_eq_true_eq] at hs
        exact husable ⟨hs.1, hs.2.1⟩
      rw [if_neg fun h => husable h.2, hnot]
      exact ih

/-! ## Requests -/

/-- A call of the allocator. -/
inductive HeapRequest
  | kmalloc (sz : BitVec 32)
  | kmallocA (sz : BitVec 32)
  | kmallocAz (sz : BitVec 32)

def HeapRequest.size : HeapRequest → ℕ
  | .kmalloc sz | .kmallocA sz | .kmallocAz sz => sz.toNat

def HeapRequest.run (s : MmState) : HeapRequest → Addr × MmState
  | .kmalloc sz => Mm.kmalloc s sz
  | .kmallocA sz => Mm.kmallocA s sz
  | .kmallocAz sz => Mm.kmallocAz s sz

/-- The blocks that successive calls return. -/
def serve : MmState → List HeapRequest → List Block
  | _, [] => []
  | s, r :: rs => ⟨(r.run s).1, r.size⟩ :: serve (r.run s).2 rs

/-- Where a block goes when the blocks before it end at `p`: on a page boundary, for the
    functions that align. -/
def HeapRequest.place (p : ℕ) : HeapRequest → ℕ
  | .kmalloc _ => p
  | .kmallocA _ | .kmallocAz _ => 4096 * ((p + 4095) / 4096)

/-- The end of the blocks requested, laid out one after another from `p` on. -/
def heapEnd : ℕ → List HeapRequest → ℕ
  | p, [] => p
  | p, r :: rs => heapEnd (r.place p + r.size) rs

theorem HeapRequest.le_place (p : ℕ) (r : HeapRequest) : p ≤ r.place p := by
  cases r <;> simp only [HeapRequest.place] <;> omega

theorem le_heapEnd (p : ℕ) (rs : List HeapRequest) : p ≤ heapEnd p rs := by
  induction rs generalizing p with
  | nil => exact le_rfl
  | cons r rs ih =>
    have := r.le_place p
    exact le_trans (by omega) (ih (r.place p + r.size))

/-- One call: the block is placed after the heap pointer, which moves to its end. -/
theorem HeapRequest.run_spec {s : MmState} {r : HeapRequest}
    (h : s.placementAddress.toNat + 4095 < 2 ^ 64) :
    (r.run s).1.toNat = r.place s.placementAddress.toNat ∧
      (r.run s).2.placementAddress.toNat =
        (r.place s.placementAddress.toNat + r.size) % 2 ^ 64 := by
  have halign := alignUp_spec h
  have hadd : ∀ (a : Addr) (sz : BitVec 32),
      (a + sz.setWidth 64).toNat = (a.toNat + sz.toNat) % 2 ^ 64 := by
    intro a sz
    rw [BitVec.toNat_add, BitVec.toNat_setWidth, Nat.add_mod_mod]
  cases r with
  | kmalloc sz => exact ⟨rfl, hadd _ _⟩
  | kmallocA sz =>
    simp only [HeapRequest.run, kmallocA_eq, HeapRequest.place, HeapRequest.size, hadd, halign]
    exact ⟨trivial, trivial⟩
  | kmallocAz sz =>
    simp only [HeapRequest.run, kmallocAz_eq, HeapRequest.place, HeapRequest.size, hadd, halign]
    exact ⟨trivial, trivial⟩

/-! ## Result -/

/-- The block lies in `[lo, hi)`, or the call reported a failure. -/
def Block.InsideOrFailed (lo hi : ℕ) (b : Block) : Prop :=
  (lo ≤ b.addr.toNat ∧ b.addr.toNat + b.size ≤ hi) ∨ b.addr = 0

theorem serve_inside_iff {lo hi : ℕ} (hlo : 0 < lo) (hhi : hi + 4096 ≤ 2 ^ 64)
    (rs : List HeapRequest) {s : MmState} (hge : lo ≤ s.placementAddress.toNat)
    (hle : s.placementAddress.toNat ≤ hi) :
    (∀ b ∈ serve s rs, b.InsideOrFailed lo hi) ↔ heapEnd s.placementAddress.toNat rs ≤ hi := by
  induction rs generalizing s with
  | nil => simpa [serve, heapEnd] using hle
  | cons r rs ih =>
    obtain ⟨hret, hnext⟩ := r.run_spec (s := s) (by omega)
    have hplace := r.le_place s.placementAddress.toNat
    rw [serve, List.forall_mem_cons, heapEnd]
    have hne : (r.run s).1 ≠ 0 := by
      intro he
      rw [he] at hret
      simp at hret
      omega
    have hblock : Block.InsideOrFailed lo hi ⟨(r.run s).1, r.size⟩ ↔
        r.place s.placementAddress.toNat + r.size ≤ hi := by
      simp only [Block.InsideOrFailed, hret, hne, or_false]
      omega
    rw [hblock]
    by_cases hfits : r.place s.placementAddress.toNat + r.size ≤ hi
    · rw [Nat.mod_eq_of_lt (by omega)] at hnext
      rw [ih (s := (r.run s).2) (by omega) (by omega), hnext]
      exact and_iff_right hfits
    · have hend := le_heapEnd (r.place s.placementAddress.toNat + r.size) rs
      constructor
      · rintro ⟨h, -⟩
        exact absurd h hfits
      · intro h
        omega

/-- The state at the start of the heap. -/
def bootHeap (s : MmState) (hhdmOffset : Addr) (entries : List MemmapEntry) : Option MmState :=
  (initPlacement hhdmOffset entries).map fun p => { s with placementAddress := p, allocs := [] }

/-- For every memory map with a suitable first entry, and every sequence of requests: all
    blocks lie inside that entry, as the HHDM shows it, if and only if the sizes requested,
    laid out one after another, end inside it. -/
theorem heap_inside_iff (s : MmState) (hhdmOffset : Addr) (entries : List MemmapEntry)
    (e : MemmapEntry) (hfirst : entries.find? MemmapEntry.suitable = some e)
    (hregion : hhdmOffset.toNat + e.base.toNat + e.length.toNat + 4096 ≤ 2 ^ 64) :
    ∃ s', bootHeap s hhdmOffset entries = some s' ∧ ∀ rs : List HeapRequest,
      (∀ b ∈ serve s' rs, b.InsideOrFailed (hhdmOffset.toNat + e.base.toNat)
        (hhdmOffset.toNat + e.base.toNat + e.length.toNat)) ↔
      heapEnd (hhdmOffset.toNat + e.base.toNat) rs ≤
        hhdmOffset.toNat + e.base.toNat + e.length.toNat := by
  have hsuitable := List.find?_some hfirst
  simp only [MemmapEntry.suitable, decide_eq_true_eq] at hsuitable
  obtain ⟨-, -, hbase⟩ := hsuitable
  have hbump : bumpPhys entries = e.base := by rw [bumpPhys_eq, hfirst]; rfl
  have hpos : 0 < e.base.toNat := Nat.pos_of_ne_zero fun h => hbase (BitVec.eq_of_toNat_eq h)
  have hstart : (hhdmOffset + e.base).toNat = hhdmOffset.toNat + e.base.toNat := by
    rw [BitVec.toNat_add, Nat.mod_eq_of_lt (by omega)]
  refine ⟨{ s with placementAddress := hhdmOffset + e.base, allocs := [] }, ?_, ?_⟩
  · rw [bootHeap, initPlacement, hbump, if_neg hbase]
    rfl
  · intro rs
    rw [← hstart]
    exact serve_inside_iff (by omega) (by omega) rs le_rfl (Nat.le_add_right _ _)

/-- A memory map whose only suitable entry has the smallest length accepted. -/
def smallMap : List MemmapEntry := [⟨0, 0x9F000, 0⟩, ⟨0x100000, 0x400000, 0⟩]

def smallBoot : MmState := ⟨fun _ => 0, 0, 0, 0, [], []⟩

/-- A back buffer of 640 × 480 pixels and a page table. -/
theorem heap_inside_iff_small :
    ∃ s', bootHeap smallBoot 0xffff800000000000 smallMap = some s' ∧
      ∀ b ∈ serve s' [.kmalloc 1228800, .kmallocAz 4096],
        b.InsideOrFailed (0xffff800000000000 + 0x100000)
          (0xffff800000000000 + 0x100000 + 0x400000) := by
  obtain ⟨s', hboot, hiff⟩ := heap_inside_iff smallBoot 0xffff800000000000 smallMap
    ⟨0x100000, 0x400000, 0⟩ (by decide) (by decide)
  exact ⟨s', hboot, (hiff _).mpr (by decide)⟩

/-- The back buffer of a 1920 × 1080 screen with four bytes a pixel does not fit, and
    `kmalloc` returns a block all the same. -/
theorem heap_overruns :
    ∃ s', bootHeap smallBoot 0xffff800000000000 smallMap = some s' ∧
      ¬ ∀ b ∈ serve s' [.kmalloc 8294400],
        b.InsideOrFailed (0xffff800000000000 + 0x100000)
          (0xffff800000000000 + 0x100000 + 0x400000) := by
  refine ⟨_, rfl, fun h => ?_⟩
  rcases h _ List.mem_cons_self with ⟨-, hle⟩ | hzero
  · exact absurd hle (by decide)
  · exact absurd hzero (by decide)

end HorizonOS.Mm
