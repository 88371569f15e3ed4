import Mathlib

/-!
# Byte-addressed memory

A flat memory of bytes with 64-bit addresses that wrap around, and the
little-endian 64-bit words read from and written to it. A word may sit at any
address; nothing here asks for alignment.

* `Mem.load_store_self`: a word just stored is read back.
* `Mem.load_store_of_disjoint`: a store changes no word it does not overlap.
* `Mem.store_apply_of_not_within`: a store changes no byte outside its word.
-/

namespace HorizonOS.Lib

abbrev Byte := BitVec 8
abbrev Word := BitVec 64
abbrev Addr := BitVec 64

/-- The contents of a memory, byte by byte. -/
abbrev Mem := Addr → Byte

/-- Byte `b` is one of the `n` bytes from `a` on, counting around the end of
    the address range. -/
def Within (a : Addr) (n : ℕ) (b : Addr) : Prop := (b - a).toNat < n

instance (a : Addr) (n : ℕ) (b : Addr) : Decidable (Within a n b) :=
  inferInstanceAs (Decidable (_ < _))

theorem within_add_right_iff {a b d : Addr} {n : ℕ} :
    Within (a + d) n (b + d) ↔ Within a n b := by
  unfold Within
  rw [add_sub_add_right_eq_sub]

/-- A range that does not run around the end is an interval. -/
theorem within_iff {a b : Addr} {n : ℕ} (h : a.toNat + n ≤ 2 ^ 64) :
    Within a n b ↔ a.toNat ≤ b.toNat ∧ b.toNat < a.toNat + n := by
  unfold Within
  rw [BitVec.toNat_sub]
  have := b.isLt
  omega

theorem toNat_add_ofNat {a : Addr} {i : ℕ} (h : a.toNat + i < 2 ^ 64) :
    (a + BitVec.ofNat 64 i).toNat = a.toNat + i := by
  rw [BitVec.toNat_add, BitVec.toNat_ofNat]
  omega

theorem within_of_within_add {a b : Addr} {k n l : ℕ} (h : Within (a + BitVec.ofNat 64 k) n b)
    (hl : k + n ≤ l) (hmax : l ≤ 2 ^ 64) : Within a l b := by
  unfold Within at *
  rw [show b - a = b - (a + BitVec.ofNat 64 k) + BitVec.ofNat 64 k by abel, BitVec.toNat_add,
    BitVec.toNat_ofNat]
  omega

theorem exists_of_within {a b : Addr} {n : ℕ} (h : Within a n b) :
    ∃ i < n, b = a + BitVec.ofNat 64 i :=
  ⟨(b - a).toNat, h, by rw [BitVec.ofNat_toNat, BitVec.setWidth_eq, add_sub_cancel]⟩

namespace Mem

/-- The little-endian word at `a`. -/
def load (m : Mem) (a : Addr) : Word :=
  m (a + 7#64) ++ m (a + 6#64) ++ m (a + 5#64) ++ m (a + 4#64) ++ m (a + 3#64) ++ m (a + 2#64) ++
    m (a + 1#64) ++ m a

/-- Write the word `w` at `a`, little-endian. -/
def store (m : Mem) (a : Addr) (w : Word) : Mem := fun b =>
  if Within a 8 b then w.extractLsb' (8 * (b - a).toNat) 8 else m b

/-- Write the half word `w` at `a`, little-endian. -/
def store32 (m : Mem) (a : Addr) (w : BitVec 32) : Mem := fun b =>
  if Within a 4 b then w.extractLsb' (8 * (b - a).toNat) 8 else m b

/-- Words with the same bytes are equal, wherever they sit. -/
theorem load_congr {m m' : Mem} {a b : Addr}
    (h : ∀ i < 8, m (a + BitVec.ofNat 64 i) = m' (b + BitVec.ofNat 64 i)) :
    m.load a = m'.load b := by
  have h0 : m a = m' b := by simpa using h 0 (by norm_num)
  unfold load
  rw [h0, h 1 (by norm_num), h 2 (by norm_num), h 3 (by norm_num), h 4 (by norm_num),
    h 5 (by norm_num), h 6 (by norm_num), h 7 (by norm_num)]

theorem store_apply_of_not_within {m : Mem} {a b : Addr} {w : Word} (h : ¬ Within a 8 b) :
    m.store a w b = m b := by
  simp [store, h]

theorem store_apply_add (m : Mem) (a : Addr) (w : Word) {i : ℕ} (hi : i < 8) :
    m.store a w (a + BitVec.ofNat 64 i) = w.extractLsb' (8 * i) 8 := by
  have hsub : (a + BitVec.ofNat 64 i - a).toNat = i := by
    bv_omega
  have hw : Within a 8 (a + BitVec.ofNat 64 i) := by unfold Within; omega
  simp only [store, if_pos hw, hsub]

/-- A word just stored is read back. -/
@[simp] theorem load_store_self (m : Mem) (a : Addr) (w : Word) : (m.store a w).load a = w := by
  have h0 : m.store a w a = w.extractLsb' 0 8 := by
    simpa using store_apply_add m a w (i := 0) (by norm_num)
  unfold load
  rw [h0, store_apply_add m a w (i := 1) (by norm_num), store_apply_add m a w (i := 2) (by norm_num),
    store_apply_add m a w (i := 3) (by norm_num), store_apply_add m a w (i := 4) (by norm_num),
    store_apply_add m a w (i := 5) (by norm_num), store_apply_add m a w (i := 6) (by norm_num),
    store_apply_add m a w (i := 7) (by norm_num)]
  ext i hi
  simp only [BitVec.getElem_append, BitVec.getElem_extractLsb']
  split_ifs <;> grind

/-- The last of two stores to a word counts. -/
theorem store_store (m : Mem) (a : Addr) (w w' : Word) : (m.store a w).store a w' = m.store a w' := by
  funext b
  by_cases h : Within a 8 b
  · simp only [store, if_pos h]
  · rw [store_apply_of_not_within h, store_apply_of_not_within h, store_apply_of_not_within h]

/-- The words at `a` and `b` share no byte. -/
def Disjoint (a b : Addr) : Prop := 8 ≤ (b - a).toNat ∧ 8 ≤ (a - b).toNat

instance (a b : Addr) : Decidable (Disjoint a b) := inferInstanceAs (Decidable (_ ∧ _))

theorem Disjoint.symm {a b : Addr} (h : Disjoint a b) : Disjoint b a := ⟨h.2, h.1⟩

/-- No byte of a word lies in a word disjoint from it. -/
theorem Disjoint.not_within {a b : Addr} (h : Disjoint a b) {i : ℕ} (hi : i < 8) :
    ¬ Within a 8 (b + BitVec.ofNat 64 i) := by
  obtain ⟨h1, h2⟩ := h
  unfold Within
  bv_omega

/-- A store changes no word it does not overlap. -/
theorem load_store_of_disjoint {m : Mem} {a b : Addr} {w : Word} (h : Disjoint a b) :
    (m.store a w).load b = m.load b := by
  apply load_congr
  intro i hi
  exact store_apply_of_not_within (h.not_within hi)

theorem disjoint_add_right_iff {a b d : Addr} : Disjoint (a + d) (b + d) ↔ Disjoint a b := by
  unfold Disjoint
  rw [add_sub_add_right_eq_sub, add_sub_add_right_eq_sub]

theorem disjoint_add_left_iff {a b d : Addr} : Disjoint (d + a) (d + b) ↔ Disjoint a b := by
  rw [add_comm d, add_comm d, disjoint_add_right_iff]

/-- Distinct aligned words are disjoint. -/
theorem disjoint_of_aligned {a b : Addr} (ha : a.toNat % 8 = 0) (hb : b.toNat % 8 = 0)
    (h : a ≠ b) : Disjoint a b := by
  have hne : a.toNat ≠ b.toNat := fun e => h (BitVec.eq_of_toNat_eq e)
  unfold Disjoint
  rw [BitVec.toNat_sub, BitVec.toNat_sub]
  have := a.isLt
  have := b.isLt
  omega

end Mem

end HorizonOS.Lib
