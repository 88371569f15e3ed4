import HorizonOS.Lib.Radix
import HorizonOS.Mm.Heap

/-!
# Page table entries and the hardware's walk

The flags and field macros of `arch/x86_64/memory/paging.h` and `asm/paging.h`,
and, as the specification, the translation that the processor computes from the
tables in memory: a radix tree of four levels whose leaves are 4 KiB, 2 MiB or
1 GiB pages, with the rights of a page combined over the levels.

Specification: `decode` is what an entry means at each level, `translate` the
hardware's translation of an address. Bits that the processor reserves or that
hold neither address nor rights are ignored, among them bit 12 of a large page.

Results:
* `pageGetAddr_eq`, `entryPtr_eq`: the kernel's walk looks at the same entries.
* `splitEntry_decode_2m`, `splitEntry_decode_4k`: the entries that `split_huge_entry`
  writes mean what the large entry meant.
-/

namespace HorizonOS.Paging

open HorizonOS.Lib HorizonOS.Lib.Radix HorizonOS.Mm

/-! ## Flags and fields -/

def pagePresent : Word := BitVec.twoPow 64 0
def pageWrite : Word := BitVec.twoPow 64 1
def pageUser : Word := BitVec.twoPow 64 2
def pagePs : Word := BitVec.twoPow 64 7
def pageNx : Word := BitVec.twoPow 64 63

/-- `CR4_PGE` (paging.h:46). -/
def cr4Pge : Word := BitVec.twoPow 64 7

/-- `PAGE_FRAME_MASK` (paging.h:52). -/
def pageFrameMask : Word := 0x000FFFFFFFFFF000

/-- `PAGE_GET_ADDR(entry)` (asm/paging.h:41), and `cr3_to_pml4_addr`
    (paging.h:209–211). -/
def pageGetAddr (e : Word) : Addr := e &&& pageFrameMask

/-- `PML4_INDEX` … `PT_INDEX` (paging.h:170–173). -/
def pml4Index (v : Addr) : Word := (v >>> 39) &&& 0x1FF
def pdptIndex (v : Addr) : Word := (v >>> 30) &&& 0x1FF
def pdIndex (v : Addr) : Word := (v >>> 21) &&& 0x1FF
def ptIndex (v : Addr) : Word := (v >>> 12) &&& 0x1FF

/-- `&table->entries[idx]`. -/
def entryPtr (table : Addr) (idx : Word) : Addr := table + 8#64 * idx

/-! ## The hardware's walk -/

/-- The number of a 4 KiB frame of physical memory below `2^52`. -/
abbrev Frame := BitVec 40

/-- A 4 KiB page: its frame and the rights that hold for it. -/
structure Page where
  frame : Frame
  writable : Bool
  user : Bool
  noExec : Bool
deriving DecidableEq

/-- The page of frame `f` with the rights of the entry `e`. -/
def leafPage (e : Word) (f : Frame) : Page :=
  ⟨f, e.getLsbD 1, e.getLsbD 2, e.getLsbD 63⟩

/-- The rights of a page found below the entry `e`: writable and user when both
    are, not executable when one is not. -/
def restrict (e : Word) (p : Page) : Page :=
  ⟨p.frame, p.writable && e.getLsbD 1, p.user && e.getLsbD 2, p.noExec || e.getLsbD 63⟩

/-- The meaning of an entry with `l` levels below it. With one or two levels below
    bit 7 makes it a large page; the indices that are left choose the frame in it. -/
def decode : (l : ℕ) → Word → Slot Frame (BitVec 9) Page
  | 0, e => if e.getLsbD 0 then .leaf fun _ => some (leafPage e (e.extractLsb' 12 40)) else .absent
  | 1, e =>
    if e.getLsbD 0 then
      if e.getLsbD 7 then
        .leaf fun
          | [i] => some (leafPage e (e.extractLsb' 21 31 ++ i))
          | _ => none
      else .table (e.extractLsb' 12 40) (restrict e)
    else .absent
  | 2, e =>
    if e.getLsbD 0 then
      if e.getLsbD 7 then
        .leaf fun
          | [i, j] => some (leafPage e (e.extractLsb' 30 22 ++ i ++ j))
          | _ => none
      else .table (e.extractLsb' 12 40) (restrict e)
    else .absent
  | _ + 3, e => if e.getLsbD 0 then .table (e.extractLsb' 12 40) (restrict e) else .absent

/-- The physical address of a frame. -/
def frameAddr (f : Frame) : Addr := (f ++ 0#12).setWidth 64

/-- Where the kernel sees entry `i` of the table in frame `f`. -/
def entryAddr (L : Layout) (f : Frame) (i : BitVec 9) : Addr :=
  physToVirt L (frameAddr f) + 8#64 * i.setWidth 64

/-- The tables in the memory `m`. -/
def treeOf (L : Layout) (m : Mem) : Tree Frame (BitVec 9) Page := fun l f i =>
  decode l (m.load (entryAddr L f i))

/-- The top-level table that `cr3` points to. -/
def rootOf (cr3 : Word) : Frame := cr3.extractLsb' 12 40

/-- The four indices of a virtual address, top level first. -/
def path (v : Addr) : List (BitVec 9) :=
  [v.extractLsb' 39 9, v.extractLsb' 30 9, v.extractLsb' 21 9, v.extractLsb' 12 9]

/-- What an address translates to. -/
structure Translation where
  phys : Addr
  writable : Bool
  user : Bool
  noExec : Bool
deriving DecidableEq

/-- The page that the hardware finds for `v` in the tables of `cr3`. -/
def lookupPage (L : Layout) (m : Mem) (cr3 : Word) (v : Addr) : Option Page :=
  lookup (treeOf L m) (rootOf cr3) (path v)

/-- The hardware's translation of `v`. -/
def translate (L : Layout) (m : Mem) (cr3 : Word) (v : Addr) : Option Translation :=
  (lookupPage L m cr3 v).map fun p =>
    ⟨(p.frame ++ v.extractLsb' 0 12).setWidth 64, p.writable, p.user, p.noExec⟩

/-! ## Fields bit by bit -/

section Bits

theorem and_twoPow_eq_zero_iff (e : Word) {k : ℕ} (hk : k < 64) :
    e &&& BitVec.twoPow 64 k = 0 ↔ e.getLsbD k = false := by
  have hne : ∀ k : Fin 64, BitVec.twoPow 64 k ≠ 0#64 := by decide
  rw [BitVec.and_twoPow]
  cases e.getLsbD k <;> simp [hne ⟨k, hk⟩]

theorem and_pagePresent_eq_zero_iff (e : Word) : e &&& pagePresent = 0 ↔ e.getLsbD 0 = false :=
  and_twoPow_eq_zero_iff e (by norm_num)

theorem and_pagePs_eq_zero_iff (e : Word) : e &&& pagePs = 0 ↔ e.getLsbD 7 = false :=
  and_twoPow_eq_zero_iff e (by norm_num)

theorem getLsbD_pageFrameMask (k : ℕ) :
    pageFrameMask.getLsbD k = decide (12 ≤ k ∧ k < 52) := by
  have h : ∀ k : Fin 64, pageFrameMask.getLsbD k = decide (12 ≤ k.val ∧ k.val < 52) := by decide
  by_cases hk : k < 64
  · exact h ⟨k, hk⟩
  · rw [BitVec.getLsbD_of_ge _ _ (by omega)]
    simp only [false_eq_decide_iff]
    omega

/-- `PAGE_GET_ADDR` is the address of the frame the entry names. -/
theorem pageGetAddr_eq (e : Word) : pageGetAddr e = frameAddr (e.extractLsb' 12 40) := by
  apply BitVec.eq_of_getLsbD_eq
  intro k hk
  rw [pageGetAddr, BitVec.getLsbD_and, getLsbD_pageFrameMask, frameAddr, BitVec.getLsbD_setWidth,
    BitVec.getLsbD_append, BitVec.getLsbD_extractLsb']
  by_cases h1 : k < 12
  · simp [h1, show ¬ 12 ≤ k by omega]
  · by_cases h2 : k < 52
    · simp [h1, h2, hk, show 12 ≤ k by omega, show 12 + (k - 12) = k by omega,
        show k - 12 < 40 by omega]
    · simp [h1, h2, show ¬ k - 12 < 40 by omega]

theorem toNat_frameAddr (f : Frame) : (frameAddr f).toNat = f.toNat * 4096 := by
  rw [frameAddr, BitVec.toNat_setWidth, BitVec.toNat_append]
  have := f.isLt
  simp only [BitVec.toNat_ofNat, Nat.zero_mod, Nat.or_zero, Nat.shiftLeft_eq]
  omega

/-- A shift and a mask of nine bits select an index. -/
theorem index_eq (v : Addr) (s : ℕ) :
    (v >>> s) &&& 0x1FF = (v.extractLsb' s 9).setWidth 64 := by
  have h : ∀ k : Fin 64, (0x1FF : Word).getLsbD k = decide (k.val < 9) := by decide
  apply BitVec.eq_of_getLsbD_eq
  intro k hk
  rw [BitVec.getLsbD_and, h ⟨k, hk⟩, BitVec.getLsbD_ushiftRight, BitVec.getLsbD_setWidth,
    BitVec.getLsbD_extractLsb']
  by_cases h9 : k < 9 <;> simp [h9, hk]

end Bits

/-! ## Entries of distinct tables do not overlap -/

section Addresses

variable {L : Layout}

/-- Where the kernel sees the table in frame `f`. -/
def tableAddr (L : Layout) (f : Frame) : Addr := physToVirt L (frameAddr f)

theorem entryPtr_eq (f : Frame) (i : BitVec 9) :
    entryPtr (tableAddr L f) (i.setWidth 64) = entryAddr L f i := rfl

theorem tableAddr_aligned (f : Frame) : (tableAddr L f).toNat % 4096 = 0 := by
  have := L.hhdm_aligned
  rw [tableAddr, physToVirt, BitVec.toNat_add, toNat_frameAddr]
  omega

theorem tableAddr_inj {f f' : Frame} (h : tableAddr L f = tableAddr L f') : f = f' := by
  rw [tableAddr, tableAddr, physToVirt, physToVirt, add_left_inj] at h
  have := congrArg BitVec.toNat h
  rw [toNat_frameAddr, toNat_frameAddr] at this
  exact BitVec.eq_of_toNat_eq (by omega)

theorem toNat_entryAddr (f : Frame) (i : BitVec 9) :
    (entryAddr L f i).toNat = (tableAddr L f).toNat + 8 * i.toNat := by
  have h1 := i.isLt
  have h2 := tableAddr_aligned (L := L) f
  have h3 := (tableAddr L f).isLt
  have h4 : (8#64 * i.setWidth 64).toNat = 8 * i.toNat := by
    rw [BitVec.toNat_mul, BitVec.toNat_setWidth]
    simp only [BitVec.toNat_ofNat]
    omega
  rw [entryAddr, ← tableAddr, BitVec.toNat_add, h4]
  omega

theorem entryAddr_aligned (f : Frame) (i : BitVec 9) : (entryAddr L f i).toNat % 8 = 0 := by
  have := tableAddr_aligned (L := L) f
  rw [toNat_entryAddr]
  omega

theorem entryAddr_inj {f f' : Frame} {i i' : BitVec 9} (h : entryAddr L f i = entryAddr L f' i') :
    f = f' ∧ i = i' := by
  have h1 := congrArg BitVec.toNat h
  have h2 := tableAddr_aligned (L := L) f
  have h3 := tableAddr_aligned (L := L) f'
  have h4 := i.isLt
  have h5 := i'.isLt
  rw [toNat_entryAddr, toNat_entryAddr] at h1
  have hf : tableAddr L f = tableAddr L f' := BitVec.eq_of_toNat_eq (by omega)
  exact ⟨tableAddr_inj hf, BitVec.eq_of_toNat_eq (by omega)⟩

/-- A write to one entry changes no other. -/
theorem load_entry_store {m : Mem} {w : Word} {f f' : Frame} {i i' : BitVec 9}
    (h : f' ≠ f ∨ i' ≠ i) :
    (m.store (entryAddr L f i) w).load (entryAddr L f' i') = m.load (entryAddr L f' i') := by
  apply Mem.load_store_of_disjoint
  refine Mem.disjoint_of_aligned (entryAddr_aligned f i) (entryAddr_aligned f' i') fun e => ?_
  obtain ⟨rfl, rfl⟩ := entryAddr_inj e
  simp at h

/-- The bytes of an entry lie in the page of its table. -/
theorem within_entry {f : Frame} {i : BitVec 9} {k : ℕ} (hk : k < 8) :
    Within (tableAddr L f) 4096 (entryAddr L f i + BitVec.ofNat 64 k) := by
  have h1 := toNat_entryAddr (L := L) f i
  have h2 := tableAddr_aligned (L := L) f
  have h3 := (tableAddr L f).isLt
  have h4 := i.isLt
  rw [within_iff (by omega), toNat_add_ofNat (by omega), h1]
  omega

/-- Two pages are disjoint or equal. -/
theorem eq_of_within_pages {a a' b : Addr} (ha : a.toNat % 4096 = 0) (ha' : a'.toNat % 4096 = 0)
    (h : Within a 4096 b) (h' : Within a' 4096 b) : a = a' := by
  have h1 := a.isLt
  have h2 := a'.isLt
  rw [within_iff (by omega)] at h h'
  exact BitVec.eq_of_toNat_eq (by omega)

/-- What is written inside one page changes the tables in no other page. -/
theorem load_entry_congr {m m' : Mem} {a : Addr} (ha : a.toNat % 4096 = 0)
    (hm : ∀ b, ¬ Within a 4096 b → m' b = m b) {f : Frame} (hf : tableAddr L f ≠ a)
    (i : BitVec 9) : m'.load (entryAddr L f i) = m.load (entryAddr L f i) := by
  apply Mem.load_congr
  intro k hk
  apply hm
  intro hw
  exact hf (eq_of_within_pages (tableAddr_aligned f) ha (within_entry hk) hw)

end Addresses

/-! ## Splitting a large entry -/

/-- Entry `i` of the table that `split_huge_entry(huge, step)` fills
    (paging.c:42–61). -/
def splitEntry (huge step : Word) (i : ℕ) : Word :=
  let flags := huge &&& ~~~pageFrameMask
  let base := pageGetAddr huge &&& ~~~(step * 512 - 1)
  let flags := if step = 4096 then flags &&& ~~~pagePs else flags
  (base + BitVec.ofNat 64 i * step) ||| flags

section Split

variable {huge : Word}

/-- The address part of a split entry: the base of the large page with the index in
    the bits the step leaves for it. The sum carries nothing, so bits can be read
    off. -/
theorem getLsbD_splitAddr (huge : Word) {s : ℕ} (h12 : 12 ≤ s) (h52 : s + 9 ≤ 52)
    (hmask : ∀ k : Fin 64,
      (~~~(BitVec.twoPow 64 s * 512 - 1)).getLsbD k = decide (s + 9 ≤ k.val))
    (i : BitVec 9) {k : ℕ} (hk : k < 64) :
    ((pageGetAddr huge &&& ~~~(BitVec.twoPow 64 s * 512 - 1)) +
        BitVec.ofNat 64 i.toNat * BitVec.twoPow 64 s).getLsbD k =
      if s + 9 ≤ k then (decide (k < 52) && huge.getLsbD k)
      else (decide (s ≤ k) && i.getLsbD (k - s)) := by
  have hi : BitVec.ofNat 64 i.toNat = i.setWidth 64 := by
    apply BitVec.eq_of_toNat_eq
    rw [BitVec.toNat_ofNat, BitVec.toNat_setWidth]
  have hbase : ∀ k < 64, (pageGetAddr huge &&& ~~~(BitVec.twoPow 64 s * 512 - 1)).getLsbD k =
      (decide (s + 9 ≤ k ∧ k < 52) && huge.getLsbD k) := by
    intro k hk
    rw [BitVec.getLsbD_and, hmask ⟨k, hk⟩, pageGetAddr, BitVec.getLsbD_and, getLsbD_pageFrameMask]
    by_cases h1 : s + 9 ≤ k
    · simp [h1, show 12 ≤ k by omega, Bool.and_comm]
    · simp [h1]
  have hidx : ∀ k < 64, (BitVec.ofNat 64 i.toNat * BitVec.twoPow 64 s).getLsbD k =
      (decide (s ≤ k ∧ k < s + 9) && i.getLsbD (k - s)) := by
    intro k hk
    rw [hi, BitVec.mul_twoPow_eq_shiftLeft, BitVec.getLsbD_shiftLeft, BitVec.getLsbD_setWidth]
    by_cases h1 : s ≤ k
    · by_cases h2 : k < s + 9
      · simp [h1, h2, hk, show ¬ k < s by omega, show k - s < 64 by omega]
      · rw [BitVec.getLsbD_of_ge i (k - s) (by omega)]
        simp
    · simp [h1, show k < s by omega]
  rw [BitVec.add_eq_or_of_and_eq_zero]
  · rw [BitVec.getLsbD_or, hbase k hk, hidx k hk]
    by_cases h1 : s + 9 ≤ k
    · simp [h1, show ¬ k < s + 9 by omega]
    · simp [h1, show k < s + 9 by omega]
  · apply BitVec.eq_of_getLsbD_eq
    intro k hk
    rw [BitVec.getLsbD_and, hbase k hk, hidx k hk, BitVec.getLsbD_zero]
    by_cases h1 : s + 9 ≤ k
    · simp [show ¬ k < s + 9 by omega]
    · simp [h1]

/-- The flags of a split entry are those of the large one, but for bit 7 of a 4 KiB
    entry. -/
theorem getLsbD_splitEntry_2m (huge : Word) (i : BitVec 9) {k : ℕ} (hk : k < 64) :
    (splitEntry huge 0x200000 i.toNat).getLsbD k =
      if k < 12 ∨ 30 ≤ k then huge.getLsbD k else (decide (21 ≤ k) && i.getLsbD (k - 21)) := by
  have hstep : (0x200000 : Word) = BitVec.twoPow 64 21 := by decide
  have haddr := getLsbD_splitAddr huge (s := 21) (by norm_num) (by norm_num) (by decide) i hk
  rw [splitEntry, if_neg (by decide), BitVec.getLsbD_or, hstep, haddr, BitVec.getLsbD_and,
    BitVec.getLsbD_not, getLsbD_pageFrameMask]
  by_cases h1 : k < 12
  · simp [h1, hk, show ¬ 21 + 9 ≤ k by omega, show ¬ 21 ≤ k by omega, show ¬ 12 ≤ k by omega]
  · by_cases h2 : 30 ≤ k
    · by_cases h3 : k < 52 <;> simp [h2, h3, hk, show 12 ≤ k by omega]
    · simp [h1, h2, show 12 ≤ k by omega, show k < 52 by omega]

theorem getLsbD_splitEntry_4k (huge : Word) (i : BitVec 9) {k : ℕ} (hk : k < 64) :
    (splitEntry huge 4096 i.toNat).getLsbD k =
      if k < 12 ∨ 21 ≤ k then (decide (k ≠ 7) && huge.getLsbD k) else i.getLsbD (k - 12) := by
  have hstep : (4096 : Word) = BitVec.twoPow 64 12 := by decide
  have haddr := getLsbD_splitAddr huge (s := 12) (by norm_num) (by norm_num) (by decide) i hk
  have hps : ∀ k : Fin 64, (~~~pagePs).getLsbD k = decide (k.val ≠ 7) := by decide
  rw [splitEntry, if_pos rfl, BitVec.getLsbD_or, hstep, haddr, BitVec.getLsbD_and,
    BitVec.getLsbD_and, BitVec.getLsbD_not, getLsbD_pageFrameMask, hps ⟨k, hk⟩]
  by_cases h1 : k < 12
  · simp [h1, hk, show ¬ 12 + 9 ≤ k by omega, show ¬ 12 ≤ k by omega, Bool.and_comm]
  · by_cases h2 : 21 ≤ k
    · by_cases h3 : k < 52 <;>
        simp [h2, h3, hk, show 12 ≤ k by omega, show k ≠ 7 by omega]
    · simp [h1, h2, show 12 ≤ k by omega, show k < 52 by omega]

/-- A 1 GiB entry splits into 2 MiB entries that mean the same. -/
theorem splitEntry_decode_2m (h0 : huge.getLsbD 0 = true) (h7 : huge.getLsbD 7 = true)
    (j : BitVec 9) :
    ∃ f, decode 1 (splitEntry huge 0x200000 j.toNat) = .leaf f ∧
      ∀ i, f [i] = some (leafPage huge (huge.extractLsb' 30 22 ++ j ++ i)) := by
  have hb : ∀ k < 64, (splitEntry huge 0x200000 j.toNat).getLsbD k =
      if k < 12 ∨ 30 ≤ k then huge.getLsbD k else (decide (21 ≤ k) && j.getLsbD (k - 21)) :=
    fun k hk => getLsbD_splitEntry_2m huge j hk
  generalize splitEntry huge 0x200000 j.toNat = e at hb
  have hframe : e.extractLsb' 21 31 = huge.extractLsb' 30 22 ++ j := by
    apply BitVec.eq_of_getLsbD_eq
    intro k hk
    rw [BitVec.getLsbD_extractLsb', hb (21 + k) (by omega), BitVec.getLsbD_append,
      BitVec.getLsbD_extractLsb']
    by_cases h9 : k < 9
    · simp [h9, hk, show ¬ 21 + k < 12 by omega, show ¬ 30 ≤ 21 + k by omega]
    · simp [h9, hk, show 30 ≤ 21 + k by omega, show 30 + (k - 9) = 21 + k by omega,
        show k - 9 < 22 by omega]
  have hleaf : ∀ f, leafPage e f = leafPage huge f := by
    intro f
    rw [leafPage, leafPage, hb 1 (by norm_num), hb 2 (by norm_num), hb 63 (by norm_num)]
    rfl
  have hp : e.getLsbD 0 = true := (hb 0 (by norm_num)).trans h0
  have hps : e.getLsbD 7 = true := (hb 7 (by norm_num)).trans h7
  refine ⟨_, by rw [decode, if_pos hp, if_pos hps], fun i => ?_⟩
  simp only [hleaf, hframe]

/-- A 2 MiB entry splits into 4 KiB entries that mean the same. -/
theorem splitEntry_decode_4k (h0 : huge.getLsbD 0 = true) (j : BitVec 9) :
    decode 0 (splitEntry huge 4096 j.toNat) =
      .leaf fun _ => some (leafPage huge (huge.extractLsb' 21 31 ++ j)) := by
  have hb : ∀ k < 64, (splitEntry huge 4096 j.toNat).getLsbD k =
      if k < 12 ∨ 21 ≤ k then (decide (k ≠ 7) && huge.getLsbD k) else j.getLsbD (k - 12) :=
    fun k hk => getLsbD_splitEntry_4k huge j hk
  generalize splitEntry huge 4096 j.toNat = e at hb
  have hframe : e.extractLsb' 12 40 = huge.extractLsb' 21 31 ++ j := by
    apply BitVec.eq_of_getLsbD_eq
    intro k hk
    rw [BitVec.getLsbD_extractLsb', hb (12 + k) (by omega), BitVec.getLsbD_append,
      BitVec.getLsbD_extractLsb']
    by_cases h9 : k < 9
    · simp [h9, hk, show ¬ 21 ≤ 12 + k by omega]
    · simp [h9, hk, show 21 ≤ 12 + k by omega, show 21 + (k - 9) = 12 + k by omega,
        show k - 9 < 31 by omega, show 12 + k ≠ 7 by omega]
  have hleaf : ∀ f, leafPage e f = leafPage huge f := by
    intro f
    rw [leafPage, leafPage, hb 1 (by norm_num), hb 2 (by norm_num), hb 63 (by norm_num)]
    rfl
  have hp : e.getLsbD 0 = true := (hb 0 (by norm_num)).trans h0
  rw [decode, if_pos hp, hleaf, hframe]

end Split

end HorizonOS.Paging
