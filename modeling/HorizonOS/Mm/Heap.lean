import HorizonOS.Lib.Basic
import HorizonOS.Libc.String

/-!
# The bump heap and the kernel's address conversions

Models of `mm/kheap.c` and `mm/mm.c` over the state of the memory management
code: memory, `placement_address`, the control registers and the TLB.

Memory is addressed by kernel virtual addresses. The higher-half direct map
(HHDM) shows physical address `a` at `a + hhdm_offset`, so that is where the
hardware's reads of physical memory find it.

* `alignUp_spec`: the address that `kmalloc_a` returns.
* `kmallocAz_eq`: what `kmalloc_az` returns and which bytes it clears.
-/

namespace HorizonOS.Mm

open HorizonOS.Lib HorizonOS.Libc

/-! ## Address conversions -/

/-- The constants `kernel_main` takes from the boot loader (x86_64/kernel.c:154–161).
    The HHDM starts at a page boundary. -/
structure Layout where
  hhdmOffset : Addr
  kernelVirtBase : Addr
  kernelPhysBase : Addr
  hhdm_aligned : hhdmOffset.toNat % 4096 = 0

/-- `virt_to_phys(addr)` (mm.c:6–17). -/
def virtToPhys (L : Layout) (addr : Addr) : Addr :=
  if L.kernelVirtBase ≤ addr then addr - L.kernelVirtBase + L.kernelPhysBase
  else addr - L.hhdmOffset

/-- `phys_to_virt(addr)` (mm.c:19–25). -/
def physToVirt (L : Layout) (addr : Addr) : Addr := addr + L.hhdmOffset

/-! ## State -/

/-- A cached translation of one 4 KiB page. -/
structure TlbEntry where
  page : BitVec 36
  frame : BitVec 40
  global : Bool
deriving DecidableEq

/-- A block handed out by the heap. -/
structure Block where
  addr : Addr
  size : ℕ
deriving DecidableEq

/-- What the memory management code reads and writes. `allocs` is a ghost: the
    blocks handed out so far, last first. -/
structure MmState where
  mem : Mem
  placementAddress : Addr
  cr3 : Word
  cr4 : Word
  tlb : List TlbEntry
  allocs : List Block

namespace MmState

/-- A 64-bit store. -/
def write (s : MmState) (a : Addr) (w : Word) : MmState := { s with mem := s.mem.store a w }

@[simp] theorem write_mem (s : MmState) (a : Addr) (w : Word) :
    (s.write a w).mem = s.mem.store a w := rfl

@[simp] theorem write_placementAddress (s : MmState) (a : Addr) (w : Word) :
    (s.write a w).placementAddress = s.placementAddress := rfl

@[simp] theorem write_cr3 (s : MmState) (a : Addr) (w : Word) : (s.write a w).cr3 = s.cr3 := rfl

@[simp] theorem write_allocs (s : MmState) (a : Addr) (w : Word) :
    (s.write a w).allocs = s.allocs := rfl

end MmState

/-! ## `kmalloc` -/

/-- Round a heap pointer up to a page boundary as `kmalloc_a` does
    (kheap.c:11–14). -/
def alignUp (a : Addr) : Addr :=
  if a &&& 0xFFF#64 ≠ 0 then (a &&& ~~~0xFFF#64) + 0x1000#64 else a

/-- `kmalloc(sz)` (kheap.c:35–39). -/
def kmalloc (s : MmState) (sz : BitVec 32) : Addr × MmState :=
  let ret := s.placementAddress
  (ret, { s with
    placementAddress := s.placementAddress + sz.setWidth 64
    allocs := ⟨ret, sz.toNat⟩ :: s.allocs })

/-- `kmalloc_a(sz)` (kheap.c:9–18). -/
def kmallocA (s : MmState) (sz : BitVec 32) : Addr × MmState :=
  kmalloc { s with placementAddress := alignUp s.placementAddress } sz

/-- `kmalloc_az(sz)` (kheap.c:42–46). -/
def kmallocAz (s : MmState) (sz : BitVec 32) : Addr × MmState :=
  let (ret, s) := kmallocA s sz
  (ret, { s with mem := memset s.mem ret 0 sz.toNat })

/-! ## Alignment -/

theorem toNat_and_fff (a : Addr) : (a &&& 0xFFF#64).toNat = a.toNat % 4096 := by
  rw [BitVec.toNat_and]
  exact Nat.and_two_pow_sub_one_eq_mod a.toNat 12

theorem getLsbD_and_not_fff (a : Addr) (k : ℕ) :
    (a &&& ~~~0xFFF#64).getLsbD k = (decide (12 ≤ k) && a.getLsbD k) := by
  have hmask : ∀ k : Fin 64, (~~~0xFFF#64).getLsbD k = decide (12 ≤ k.val) := by decide
  by_cases hk : k < 64
  · rw [BitVec.getLsbD_and, hmask ⟨k, hk⟩, Bool.and_comm]
  · rw [BitVec.getLsbD_of_ge _ _ (by omega), BitVec.getLsbD_of_ge a _ (by omega), Bool.and_false]

/-- `kmalloc_a` returns the first page boundary at or above the heap pointer. -/
theorem alignUp_spec {a : Addr} (h : a.toNat + 4095 < 2 ^ 64) :
    (alignUp a).toNat = 4096 * ((a.toNat + 4095) / 4096) := by
  have hz : a &&& 0xFFF#64 = 0 ↔ a.toNat % 4096 = 0 := by
    rw [← toNat_and_fff, ← BitVec.toNat_inj]
    rfl
  unfold alignUp
  split_ifs with hne
  · have hne' : a.toNat % 4096 ≠ 0 := fun e => hne (hz.mpr e)
    rw [BitVec.toNat_add, toNat_and_mask (k := 12) (by decide)]
    simp only [BitVec.toNat_ofNat]
    omega
  · have he : a.toNat % 4096 = 0 := hz.mp (by simpa using hne)
    omega

theorem le_alignUp {a : Addr} (h : a.toNat + 4095 < 2 ^ 64) :
    a.toNat ≤ (alignUp a).toNat ∧ (alignUp a).toNat ≤ a.toNat + 4095 ∧
      (alignUp a).toNat % 4096 = 0 := by
  rw [alignUp_spec h]
  omega

/-- The next `n` bytes from the page boundary above the heap pointer end at or
    below `hi`. -/
def MmState.HasRoom (s : MmState) (n hi : ℕ) : Prop :=
  4096 * ((s.placementAddress.toNat + 4095) / 4096) + n ≤ hi

theorem MmState.HasRoom.alignUp {s : MmState} {n hi : ℕ} (h : s.HasRoom n hi) (hhi : hi < 2 ^ 64)
    (hn : 0 < n) : (alignUp s.placementAddress).toNat =
      4096 * ((s.placementAddress.toNat + 4095) / 4096) := by
  unfold MmState.HasRoom at h
  exact alignUp_spec (by omega)

@[simp] theorem kmalloc_mem (s : MmState) (sz : BitVec 32) : (kmalloc s sz).2.mem = s.mem := rfl

@[simp] theorem kmalloc_cr3 (s : MmState) (sz : BitVec 32) : (kmalloc s sz).2.cr3 = s.cr3 := rfl

@[simp] theorem kmallocA_cr3 (s : MmState) (sz : BitVec 32) : (kmallocA s sz).2.cr3 = s.cr3 := rfl

theorem kmalloc_eq (s : MmState) (sz : BitVec 32) :
    kmalloc s sz = (s.placementAddress,
      { s with
        placementAddress := s.placementAddress + sz.setWidth 64
        allocs := ⟨s.placementAddress, sz.toNat⟩ :: s.allocs }) := rfl

theorem kmallocA_eq (s : MmState) (sz : BitVec 32) :
    kmallocA s sz = (alignUp s.placementAddress,
      { s with
        placementAddress := alignUp s.placementAddress + sz.setWidth 64
        allocs := ⟨alignUp s.placementAddress, sz.toNat⟩ :: s.allocs }) := rfl

theorem kmallocAz_eq (s : MmState) (sz : BitVec 32) :
    kmallocAz s sz = (alignUp s.placementAddress,
      { s with
        mem := memset s.mem (alignUp s.placementAddress) 0 sz.toNat
        placementAddress := alignUp s.placementAddress + sz.setWidth 64
        allocs := ⟨alignUp s.placementAddress, sz.toNat⟩ :: s.allocs }) := rfl

/-! ## Blocks -/

/-- Two blocks share no byte. -/
def Block.Disjoint (b b' : Block) : Prop :=
  b.addr.toNat + b.size ≤ b'.addr.toNat ∨ b'.addr.toNat + b'.size ≤ b.addr.toNat

instance : Std.Symm Block.Disjoint := ⟨fun _ _ => Or.symm⟩

/-- The blocks handed out from `lo` on are disjoint and lie below the heap pointer. -/
structure HeapInv (lo : ℕ) (s : MmState) : Prop where
  lo_le : lo ≤ s.placementAddress.toNat
  inside : ∀ b ∈ s.allocs,
    lo ≤ b.addr.toNat ∧ b.addr.toNat + b.size ≤ s.placementAddress.toNat
  disjoint : s.allocs.Pairwise Block.Disjoint

/-- Handing out a block at or above the heap pointer keeps the blocks disjoint. -/
theorem HeapInv.push {lo : ℕ} {s s' : MmState} {a : Addr} {n : ℕ} (h : HeapInv lo s)
    (hle : s.placementAddress.toNat ≤ a.toNat) (hp : s'.placementAddress.toNat = a.toNat + n)
    (hb : s'.allocs = ⟨a, n⟩ :: s.allocs) : HeapInv lo s' := by
  obtain ⟨h1, h2, h3⟩ := h
  refine ⟨by omega, ?_, ?_⟩
  · rw [hb]
    intro b hmem
    rcases List.mem_cons.mp hmem with rfl | hmem
    · exact ⟨show lo ≤ a.toNat by omega, hp.ge⟩
    · have := h2 b hmem
      omega
  · rw [hb]
    refine List.pairwise_cons.mpr ⟨fun b hmem => Or.inr ?_, h3⟩
    have := h2 b hmem
    show b.addr.toNat + b.size ≤ a.toNat
    omega

end HorizonOS.Mm
