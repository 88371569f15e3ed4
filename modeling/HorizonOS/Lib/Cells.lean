import Mathlib.Data.List.Sort
import Mathlib.Logic.Equiv.Basic
import Mathlib.Data.Int.Interval
import Mathlib.Tactic.Ring

/-!
# Arrays of cells

An array whose cells are numbered from `lo` to `hi`. Its contents are a function of the index; an
access with any other index has no result. Programs that sort an array move its contents around:
`Permutes lo hi a b` says that `b` has the contents of `a` in some other order between `lo` and `hi`
and the same contents everywhere else.

* `int`: how an index is computed.
* `load`, `store`, `swap`: the accesses, and what they do inside the array.
* `Permutes`: an equivalence, kept by `swap`.
* `Permutes.perm_slice`: the lists of contents are permutations of one another.
* `Permutes.unique`: a sorted permutation is determined by what it permutes.
-/

namespace HorizonOS.Lib.Cells

variable {α : Type*} {lo hi : ℤ} {a b c : ℤ → α} {i j : ℤ}

/-- The value of an expression of 32 bits with sign, which wraps around. -/
def int (x : ℤ) : ℤ := x.bmod (2 ^ 32)

theorem int_eq {x : ℤ} (h : -2 ^ 31 ≤ x) (h' : x < 2 ^ 31) : int x = x :=
  Int.bmod_eq_of_le (by omega) (by omega)

/-- The array has a cell `i`. -/
abbrev Inside (lo hi i : ℤ) : Prop := lo ≤ i ∧ i ≤ hi

/-- `a[i]`. -/
def load (lo hi : ℤ) (a : ℤ → α) (i : ℤ) : Option α := if Inside lo hi i then some (a i) else none

/-- `a[i] = x`. -/
def store (lo hi : ℤ) (a : ℤ → α) (i : ℤ) (x : α) : Option (ℤ → α) :=
  if Inside lo hi i then some (Function.update a i x) else none

/-- Exchange of `a[i]` and `a[j]` through a variable. -/
def swap (lo hi : ℤ) (a : ℤ → α) (i j : ℤ) : Option (ℤ → α) := do
  let tmp ← load lo hi a i
  let x ← load lo hi a j
  let a ← store lo hi a i x
  store lo hi a j tmp

theorem load_eq (h : Inside lo hi i) : load lo hi a i = some (a i) := if_pos h

theorem store_eq (h : Inside lo hi i) (x : α) :
    store lo hi a i x = some (Function.update a i x) := if_pos h

theorem load_eq_none (h : ¬Inside lo hi i) : load lo hi a i = none := if_neg h

theorem swap_eq (h : Inside lo hi i) (h' : Inside lo hi j) :
    swap lo hi a i j = some (a ∘ Equiv.swap i j) := by
  unfold swap
  simp only [load_eq h, load_eq h', store_eq h, store_eq h', Option.bind_eq_bind, Option.bind_some]
  congr 1
  funext k
  by_cases hkj : k = j
  · subst hkj
    rw [Function.update_self, Function.comp_apply, Equiv.swap_apply_right]
  · rw [Function.update_of_ne hkj]
    by_cases hki : k = i
    · subst hki
      rw [Function.update_self, Function.comp_apply, Equiv.swap_apply_left]
    · rw [Function.update_of_ne hki, Function.comp_apply, Equiv.swap_apply_of_ne_of_ne hki hkj]

/-- A value taken out of its cell and put into the one below, whose contents move up. -/
theorem update_update_swap (a : ℤ → α) (j : ℤ) (x : α) :
    Function.update (Function.update a (j + 1) (a j)) j x =
      Function.update a (j + 1) x ∘ Equiv.swap j (j + 1) := by
  funext k
  by_cases hj : k = j
  · subst hj
    rw [Function.update_self, Function.comp_apply, Equiv.swap_apply_left, Function.update_self]
  · rw [Function.update_of_ne hj]
    by_cases hj' : k = j + 1
    · subst hj'
      rw [Function.update_self, Function.comp_apply, Equiv.swap_apply_right,
        Function.update_of_ne (by omega)]
    · rw [Function.update_of_ne hj', Function.comp_apply, Equiv.swap_apply_of_ne_of_ne hj hj',
        Function.update_of_ne hj']

/-! ## Permutations -/

/-- `b` is `a` with the cells from `lo` to `hi` in some order. -/
def Permutes (lo hi : ℤ) (a b : ℤ → α) : Prop :=
  ∃ σ : Equiv.Perm ℤ, (∀ i, ¬Inside lo hi i → σ i = i) ∧ b = a ∘ σ

/-- What fixes the cells outside moves those inside among themselves. -/
theorem inside_perm {σ : Equiv.Perm ℤ} (hσ : ∀ i, ¬Inside lo hi i → σ i = i) (i : ℤ) :
    Inside lo hi (σ i) ↔ Inside lo hi i := by
  constructor
  · intro h
    by_contra hout
    rw [hσ i hout] at h
    exact hout h
  · intro h
    by_contra hout
    have hfix : σ i = i := σ.injective (hσ _ hout)
    rw [hfix] at hout
    exact hout h

/-- What moves the cells inside to cells inside, no two to the same, reaches all of them. -/
theorem surj_inside {f : ℤ → ℤ} (hmaps : ∀ i, Inside lo hi i → Inside lo hi (f i))
    (hinj : ∀ i j, Inside lo hi i → Inside lo hi j → f i = f j → i = j) {k : ℤ}
    (hk : Inside lo hi k) : ∃ i, Inside lo hi i ∧ f i = k := by
  have hsurj : Set.SurjOn f (Finset.Icc lo hi) (Finset.Icc lo hi) := by
    refine Finset.surjOn_of_injOn_of_card_le f ?_ ?_ le_rfl
    · intro i hi'
      exact Finset.mem_coe.mpr (Finset.mem_Icc.mpr (hmaps i (Finset.mem_Icc.mp hi')))
    · intro i hi' j hj heq
      exact hinj i j (Finset.mem_Icc.mp hi') (Finset.mem_Icc.mp hj) heq
  obtain ⟨i, hi', heq⟩ := hsurj (Finset.mem_coe.mpr (Finset.mem_Icc.mpr hk))
  exact ⟨i, Finset.mem_Icc.mp hi', heq⟩

namespace Permutes

theorem refl (a : ℤ → α) : Permutes lo hi a a := ⟨Equiv.refl ℤ, fun _ _ => rfl, rfl⟩

theorem trans (h : Permutes lo hi a b) (h' : Permutes lo hi b c) : Permutes lo hi a c := by
  obtain ⟨σ, hσ, rfl⟩ := h
  obtain ⟨τ, hτ, rfl⟩ := h'
  refine ⟨τ.trans σ, fun i hi => ?_, rfl⟩
  rw [Equiv.trans_apply, hτ i hi, hσ i hi]

theorem symm (h : Permutes lo hi a b) : Permutes lo hi b a := by
  obtain ⟨σ, hσ, rfl⟩ := h
  refine ⟨σ.symm, fun i hi => ?_, ?_⟩
  · rw [Equiv.symm_apply_eq, hσ i hi]
  · funext i
    simp

theorem mono {lo' hi' : ℤ} (h : Permutes lo hi a b) (hlo : lo' ≤ lo) (hhi : hi ≤ hi') :
    Permutes lo' hi' a b := by
  obtain ⟨σ, hσ, rfl⟩ := h
  exact ⟨σ, fun i hi => hσ i (by omega), rfl⟩

theorem swap (h : Inside lo hi i) (h' : Inside lo hi j) (a : ℤ → α) :
    Permutes lo hi a (a ∘ Equiv.swap i j) := by
  refine ⟨Equiv.swap i j, fun k hk => Equiv.swap_apply_of_ne_of_ne ?_ ?_, rfl⟩
  · rintro rfl
    exact hk h
  · rintro rfl
    exact hk h'

theorem outside (h : Permutes lo hi a b) (hout : ¬Inside lo hi i) : b i = a i := by
  obtain ⟨σ, hσ, rfl⟩ := h
  rw [Function.comp_apply, hσ i hout]

/-- Every cell of the range holds what some cell of the range held. -/
theorem source (h : Permutes lo hi a b) (hin : Inside lo hi i) :
    ∃ j, Inside lo hi j ∧ b i = a j := by
  obtain ⟨σ, hσ, rfl⟩ := h
  exact ⟨σ i, (inside_perm hσ i).mpr hin, rfl⟩

/-- What holds of all contents of the range still does. -/
theorem forall_inside (h : Permutes lo hi a b) {p : α → Prop}
    (hp : ∀ i, Inside lo hi i → p (a i)) (i : ℤ) (hin : Inside lo hi i) : p (b i) := by
  obtain ⟨j, hj, hij⟩ := h.source hin
  rw [hij]
  exact hp j hj

/-- Contents moved to other cells of the range, no two to the same. -/
theorem of_injOn {f : ℤ → ℤ} (hmaps : ∀ i, Inside lo hi i → Inside lo hi (f i))
    (hinj : ∀ i j, Inside lo hi i → Inside lo hi j → f i = f j → i = j)
    (hf : ∀ i, Inside lo hi i → b (f i) = a i) (hout : ∀ i, ¬Inside lo hi i → b i = a i) :
    Permutes lo hi a b := by
  let g : ℤ → ℤ := fun i => if Inside lo hi i then f i else i
  have hg : ∀ i, Inside lo hi i → g i = f i := fun i h => if_pos h
  have hg' : ∀ i, ¬Inside lo hi i → g i = i := fun i h => if_neg h
  have hbij : Function.Bijective g := by
    constructor
    · intro i j hij
      by_cases hi' : Inside lo hi i <;> by_cases hj : Inside lo hi j
      · rw [hg i hi', hg j hj] at hij
        exact hinj i j hi' hj hij
      · rw [hg i hi', hg' j hj] at hij
        exact absurd (hij ▸ hmaps i hi') hj
      · rw [hg' i hi', hg j hj] at hij
        exact absurd (hij ▸ hmaps j hj) hi'
      · rwa [hg' i hi', hg' j hj] at hij
    · intro k
      by_cases hk : Inside lo hi k
      · obtain ⟨i, hi', rfl⟩ := surj_inside hmaps hinj hk
        exact ⟨i, hg i hi'⟩
      · exact ⟨k, hg' k hk⟩
  have hcell : ∀ i, b (g i) = a i := fun i => by
    by_cases hi' : Inside lo hi i
    · rw [hg i hi', hf i hi']
    · rw [hg' i hi', hout i hi']
  refine ⟨(Equiv.ofBijective g hbij).symm, fun i hi' => ?_, ?_⟩
  · rw [Equiv.symm_apply_eq]
    exact (hg' i hi').symm
  · funext k
    rw [Function.comp_apply, ← hcell]
    exact congrArg b (Equiv.apply_symm_apply (Equiv.ofBijective g hbij) k).symm

end Permutes

/-! ## Contents as lists -/

/-- The contents of the cells from `lo` to `hi`. -/
def slice (lo hi : ℤ) (a : ℤ → α) : List α :=
  (List.range (hi + 1 - lo).toNat).map fun k : ℕ => a (lo + k)

theorem getElem_slice {k : ℕ} (hk : k < (slice lo hi a).length) :
    (slice lo hi a)[k] = a (lo + k) := by
  simp [slice]

theorem length_slice (lo hi : ℤ) (a : ℤ → α) : (slice lo hi a).length = (hi + 1 - lo).toNat := by
  simp [slice]

theorem slice_nil (h : hi < lo) (a : ℤ → α) : slice lo hi a = [] := by
  rw [← List.length_eq_zero_iff, length_slice]
  omega

theorem slice_cons (h : lo ≤ hi) (a : ℤ → α) : slice lo hi a = a lo :: slice (lo + 1) hi a := by
  refine List.ext_getElem ?_ fun k hk hk' => ?_
  · rw [List.length_cons, length_slice, length_slice]
    omega
  · cases k with
    | zero => simp [getElem_slice]
    | succ k =>
      rw [List.getElem_cons_succ, getElem_slice, getElem_slice]
      congr 1
      push_cast
      ring

/-- A cell written in front of a slice that is written afterwards. -/
theorem slice_front {c d : ℤ} {arr arr' : ℤ → α} {x : α} {l : List α} (hcd : c ≤ d)
    (hslice : slice (c + 1) d arr' = l)
    (hframe : ∀ k, ¬Inside (c + 1) d k → arr' k = Function.update arr c x k) :
    slice c d arr' = x :: l ∧ ∀ k, ¬Inside c d k → arr' k = arr k := by
  refine ⟨?_, fun k hk => ?_⟩
  · rw [slice_cons hcd, hslice, hframe c (by omega), Function.update_self]
  · rw [hframe k (by omega), Function.update_of_ne (by omega)]

theorem slice_append {m : ℤ} (h : lo ≤ m + 1) (h' : m ≤ hi) (a : ℤ → α) :
    slice lo hi a = slice lo m a ++ slice (m + 1) hi a := by
  refine List.ext_getElem ?_ fun k hk hk' => ?_
  · rw [List.length_append, length_slice, length_slice, length_slice]
    omega
  · rw [List.getElem_append]
    split_ifs with hlt
    · rw [getElem_slice, getElem_slice]
    · rw [length_slice] at hlt
      rw [getElem_slice, getElem_slice, length_slice]
      congr 1
      omega

theorem slice_concat (h : lo ≤ hi) (a : ℤ → α) : slice lo hi a = slice lo (hi - 1) a ++ [a hi] := by
  have hlast : slice hi hi a = [a hi] := by rw [slice_cons le_rfl, slice_nil (by omega)]
  rw [slice_append (by omega : lo ≤ hi - 1 + 1) (by omega), sub_add_cancel, hlast]

theorem slice_congr (h : ∀ i, Inside lo hi i → b i = a i) : slice lo hi b = slice lo hi a := by
  refine List.map_congr_left fun k hk => h _ ?_
  rw [List.mem_range] at hk
  omega

theorem slice_eq_map (lo hi : ℤ) (a : ℤ → α) :
    slice lo hi a = (slice lo hi id).map a := by
  simp [slice]

theorem mem_slice_id : i ∈ slice lo hi id ↔ Inside lo hi i := by
  simp only [slice, List.mem_map, List.mem_range, id]
  constructor
  · rintro ⟨k, hk, rfl⟩
    omega
  · rintro ⟨h, h'⟩
    exact ⟨(i - lo).toNat, by omega, by omega⟩

theorem nodup_slice_id : (slice lo hi id).Nodup := by
  refine List.Nodup.map (fun k k' h => ?_) List.nodup_range
  simp only [id] at h
  omega

/-- The lists of contents are permutations of one another. -/
theorem Permutes.perm_slice (h : Permutes lo hi a b) : (slice lo hi b).Perm (slice lo hi a) := by
  obtain ⟨σ, hσ, rfl⟩ := h
  have hperm : ((slice lo hi id).map σ).Perm (slice lo hi id) := by
    rw [List.perm_ext_iff_of_nodup (nodup_slice_id.map σ.injective) nodup_slice_id]
    intro i
    rw [List.mem_map, mem_slice_id]
    constructor
    · rintro ⟨j, hj, rfl⟩
      exact (inside_perm hσ j).mpr (mem_slice_id.mp hj)
    · intro hin
      exact ⟨σ.symm i, mem_slice_id.mpr ((inside_perm hσ _).mp (by simpa using hin)), by simp⟩
  rw [slice_eq_map lo hi a, slice_eq_map lo hi (a ∘ σ), ← List.map_map]
  exact hperm.map a

/-! ## Order -/

/-- The contents from `lo` to `hi` stand in the order `r`. -/
def Sorted (r : α → α → Prop) (lo hi : ℤ) (a : ℤ → α) : Prop :=
  ∀ i j, lo ≤ i → i < j → j ≤ hi → r (a i) (a j)

theorem Sorted.congr {r : α → α → Prop} (h : Sorted r lo hi a)
    (heq : ∀ i, Inside lo hi i → b i = a i) : Sorted r lo hi b := by
  intro i j hi' hij hj
  rw [heq i ⟨hi', by omega⟩, heq j ⟨by omega, hj⟩]
  exact h i j hi' hij hj

/-- Two sorted parts with a cell between them. -/
theorem Sorted.join {r : α → α → Prop} [IsTrans α r] {m : ℤ} (hl : Sorted r lo (m - 1) a)
    (hr : Sorted r (m + 1) hi a) (hlm : ∀ k, Inside lo (m - 1) k → r (a k) (a m))
    (hmr : ∀ k, Inside (m + 1) hi k → r (a m) (a k)) : Sorted r lo hi a := by
  intro i j hi' hij hj
  rcases lt_trichotomy i m with him | rfl | him
  · rcases lt_trichotomy j m with hjm | rfl | hjm
    · exact hl i j hi' hij (by omega)
    · exact hlm i ⟨hi', by omega⟩
    · exact IsTrans.trans _ _ _ (hlm i ⟨hi', by omega⟩) (hmr j ⟨by omega, hj⟩)
  · exact hmr j ⟨by omega, hj⟩
  · exact hr i j (by omega) hij hj

theorem Sorted.pairwise_slice {r : α → α → Prop} (h : Sorted r lo hi a) :
    (slice lo hi a).Pairwise r := by
  rw [List.pairwise_iff_getElem]
  intro k k' hk hk' hlt
  rw [getElem_slice, getElem_slice]
  rw [length_slice] at hk'
  exact h _ _ (by omega) (by omega) (by omega)

theorem Sorted.of_pairwise_slice {r : α → α → Prop} (h : (slice lo hi a).Pairwise r) :
    Sorted r lo hi a := by
  intro i j hi' hij hj
  have hlen := length_slice lo hi a
  have hr := List.pairwise_iff_getElem.mp h (i - lo).toNat (j - lo).toNat (by omega) (by omega)
    (by omega)
  rwa [getElem_slice, getElem_slice, show lo + ((i - lo).toNat : ℤ) = i by omega,
    show lo + ((j - lo).toNat : ℤ) = j by omega] at hr

/-- A sorted permutation is determined by what it permutes. -/
theorem Permutes.unique [LinearOrder α] (hb : Permutes lo hi a b) (hc : Permutes lo hi a c)
    (hb' : Sorted (· ≤ ·) lo hi b) (hc' : Sorted (· ≤ ·) lo hi c) : b = c := by
  have hlist : slice lo hi b = slice lo hi c :=
    (hb.perm_slice.trans hc.perm_slice.symm).eq_of_pairwise'
      hb'.pairwise_slice hc'.pairwise_slice
  funext i
  by_cases hi' : Inside lo hi i
  · have hk : (i - lo).toNat < (slice lo hi b).length := by
      rw [length_slice]
      omega
    have hcell : (slice lo hi b)[(i - lo).toNat]? = (slice lo hi c)[(i - lo).toNat]? := by
      rw [hlist]
    rw [List.getElem?_eq_getElem hk, List.getElem?_eq_getElem (hlist ▸ hk), getElem_slice,
      getElem_slice, show lo + ((i - lo).toNat : ℤ) = i by omega] at hcell
    exact Option.some.inj hcell
  · rw [hb.outside hi', hc.outside hi']

end HorizonOS.Lib.Cells
