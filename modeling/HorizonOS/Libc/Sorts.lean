import HorizonOS.Lib.Cells

/-!
# Quicksort, insertion sort and selection sort

`quick_sort`, `insertion_sort` and `selection_sort` of `libc/include/algorithms/`. The array has the
cells `0 … last`; `last` is -1 for an empty one. All counters stay within `int` for arrays of up to
`INT_MAX` elements, so only the conversion of `len - 1` is written out.

* `partition_spec`: `partition` splits a range at its last element.
* `quickSort_sorts`, `insertionSort_sorts`, `selectionSort_sorts`: each of them returns the sorted
  permutation of the array, without an access outside.
-/

namespace HorizonOS.Libc

open HorizonOS.Lib.Cells

variable {α : Type} [LinearOrder α] {last : ℤ}

/-! ## `quick_sort` -/

/-- The loop of `partition` (quicksort.h:5–10) from `i` on, with `left` rounds to go: the last index
    of the small elements, and the array. -/
def partitionLoop (last : ℤ) (p : α) : (left : ℕ) → (i ei : ℤ) → (arr : ℤ → α) →
    Option (ℤ × (ℤ → α))
  | 0, _, ei, arr => some (ei, arr)
  | left + 1, i, ei, arr => do
    let x ← load 0 last arr i
    if x ≤ p then
      let arr ← swap 0 last arr (ei + 1) i
      partitionLoop last p left (i + 1) (ei + 1) arr
    else partitionLoop last p left (i + 1) ei arr

/-- `partition(arr, l, h)` (quicksort.h:1–13). -/
def partition (last : ℤ) (arr : ℤ → α) (l h : ℤ) : Option (ℤ × (ℤ → α)) := do
  let p ← load 0 last arr h
  let (ei, arr) ← partitionLoop last p (h - l).toNat l (l - 1) arr
  let arr ← swap 0 last arr (ei + 1) h
  return (ei + 1, arr)

/-- `_quick_sort(arr, l, h)` (quicksort.h:15–21), with `fuel` nested calls at most. -/
def quickSortRange (last : ℤ) : (fuel : ℕ) → (arr : ℤ → α) → (l h : ℤ) → Option (ℤ → α)
  | 0, _, _, _ => none
  | fuel + 1, arr, l, h =>
    if l < h then do
      let (pi, arr) ← partition last arr l h
      let arr ← quickSortRange last fuel arr l (pi - 1)
      quickSortRange last fuel arr (pi + 1) h
    else some arr

/-- `quick_sort(arr, len)` (quicksort.h:23–25). -/
def quickSort (arr : ℤ → α) (len : ℕ) : Option (ℤ → α) :=
  quickSortRange (len - 1) (len + 1) arr 0 (int (len - 1))

/-- What the loop of `partition` leaves between `l` and `h`: small elements up to `ei`, large ones
    behind. -/
theorem partitionLoop_spec {p : α} {l h : ℤ} (hl : 0 ≤ l) (hh : h ≤ last) {left : ℕ} {i ei : ℤ}
    {arr : ℤ → α} (hleft : i + left = h) (hei : l - 1 ≤ ei) (hi : ei < i)
    (hsmall : ∀ k, l ≤ k → k ≤ ei → arr k ≤ p) (hlarge : ∀ k, ei < k → k < i → p < arr k) :
    ∃ ei' arr', partitionLoop last p left i ei arr = some (ei', arr') ∧ l - 1 ≤ ei' ∧ ei' < h ∧
      Permutes l (h - 1) arr arr' ∧ (∀ k, l ≤ k → k ≤ ei' → arr' k ≤ p) ∧
      ∀ k, ei' < k → k < h → p < arr' k := by
  induction left generalizing i ei arr with
  | zero =>
    obtain rfl : i = h := by omega
    exact ⟨ei, arr, rfl, hei, hi, .refl arr, hsmall, hlarge⟩
  | succ left ih =>
    have hrun : partitionLoop last p (left + 1) i ei arr = if arr i ≤ p then
        partitionLoop last p left (i + 1) (ei + 1) (arr ∘ Equiv.swap (ei + 1) i)
        else partitionLoop last p left (i + 1) ei arr := by
      rw [partitionLoop, load_eq (by omega)]
      simp only [Option.bind_eq_bind, Option.bind_some, swap_eq (by omega : Inside 0 last (ei + 1))
        (by omega : Inside 0 last i)]
    rw [hrun]
    split_ifs with hle
    · obtain ⟨ei', arr', hrun', hei', hlt', hperm, hsmall', hlarge'⟩ :=
        @ih (i + 1) (ei + 1) (arr ∘ Equiv.swap (ei + 1) i) (by omega) (by omega) (by omega)
          (fun k hk hk' => by
            rcases eq_or_lt_of_le hk' with rfl | hlt
            · rwa [Function.comp_apply, Equiv.swap_apply_left]
            · rw [Function.comp_apply, Equiv.swap_apply_of_ne_of_ne (by omega) (by omega)]
              exact hsmall k hk (by omega))
          (fun k hk hk' => by
            rcases eq_or_lt_of_le (Int.le_of_lt_add_one hk') with rfl | hlt
            · rw [Function.comp_apply, Equiv.swap_apply_right]
              exact hlarge _ (by omega) (by omega)
            · rw [Function.comp_apply, Equiv.swap_apply_of_ne_of_ne (by omega) (by omega)]
              exact hlarge k (by omega) hlt)
      exact ⟨ei', arr', hrun', hei', hlt',
        (Permutes.swap (by omega) (by omega) arr).trans hperm, hsmall', hlarge'⟩
    · refine ih (by omega) hei (by omega) hsmall fun k hk hk' => ?_
      rcases eq_or_lt_of_le (Int.le_of_lt_add_one hk') with rfl | hlt
      · exact not_le.mp hle
      · exact hlarge k hk hlt

/-- `partition` splits the range at the place `pi` of its last element. -/
theorem partition_spec {l h : ℤ} (hl : 0 ≤ l) (hlh : l ≤ h) (hh : h ≤ last) (arr : ℤ → α) :
    ∃ pi arr', partition last arr l h = some (pi, arr') ∧ l ≤ pi ∧ pi ≤ h ∧
      Permutes l h arr arr' ∧ (∀ k, Inside l (pi - 1) k → arr' k ≤ arr' pi) ∧
      ∀ k, Inside (pi + 1) h k → arr' pi ≤ arr' k := by
  obtain ⟨ei, arr₁, hrun, hei, hlt, hperm, hsmall, hlarge⟩ :=
    @partitionLoop_spec α _ last (arr h) l h hl hh (h - l).toNat l (l - 1) arr (by omega) le_rfl
      (by omega) (fun k _ _ => by omega) (fun k _ _ => by omega)
  have hpivot : arr₁ h = arr h := hperm.outside (by omega)
  refine ⟨ei + 1, arr₁ ∘ Equiv.swap (ei + 1) h, ?_, by omega, by omega,
    (hperm.mono le_rfl (by omega)).trans (.swap (by omega) (by omega) arr₁),
    fun k hk => ?_, fun k hk => ?_⟩
  · rw [partition, load_eq (by omega)]
    simp only [Option.bind_eq_bind, Option.bind_some, hrun, swap_eq
      (by omega : Inside 0 last (ei + 1)) (by omega : Inside 0 last h), Option.pure_def]
  · rw [Function.comp_apply, Function.comp_apply, Equiv.swap_apply_left, hpivot,
      Equiv.swap_apply_of_ne_of_ne (by omega) (by omega)]
    exact hsmall k hk.1 (by omega)
  · rw [Function.comp_apply, Function.comp_apply, Equiv.swap_apply_left, hpivot]
    rcases eq_or_lt_of_le hk.2 with rfl | hlt'
    · rw [Equiv.swap_apply_right]
      exact (hlarge (ei + 1) (by omega) (by omega)).le
    · rw [Equiv.swap_apply_of_ne_of_ne (by omega) (by omega)]
      exact (hlarge k (by omega) hlt').le

theorem quickSortRange_spec {fuel : ℕ} {l h : ℤ} (hl : 0 ≤ l) (hh : h ≤ last) (hpos : 0 < fuel)
    (hfuel : h - l + 1 ≤ fuel) (arr : ℤ → α) :
    ∃ arr', quickSortRange last fuel arr l h = some arr' ∧
      Permutes l h arr arr' ∧ Sorted (· ≤ ·) l h arr' := by
  induction fuel generalizing l h arr with
  | zero => omega
  | succ fuel ih =>
    by_cases hlh : l < h
    · obtain ⟨pi, arr₁, hpart, hlpi, hpih, hperm₁, hsmall, hlarge⟩ :=
        partition_spec hl hlh.le hh arr
      obtain ⟨arr₂, hrun₂, hperm₂, hsorted₂⟩ :=
        @ih l (pi - 1) hl (by omega) (by omega) (by omega) arr₁
      obtain ⟨arr₃, hrun₃, hperm₃, hsorted₃⟩ :=
        @ih (pi + 1) h (by omega) hh (by omega) (by omega) arr₂
      -- the calls keep away from the pivot and from each other's range
      have hpivot : arr₃ pi = arr₁ pi := by
        rw [hperm₃.outside (by omega), hperm₂.outside (by omega)]
      have hleft : ∀ k, Inside l (pi - 1) k → arr₃ k = arr₂ k := fun k hk =>
        hperm₃.outside (by omega)
      have hright : ∀ k, Inside (pi + 1) h k → arr₂ k = arr₁ k := fun k hk =>
        hperm₂.outside (by omega)
      refine ⟨arr₃, ?_, ?_, Sorted.join (hsorted₂.congr hleft) hsorted₃ ?_ ?_⟩
      · rw [quickSortRange, if_pos hlh, hpart]
        simp only [Option.bind_eq_bind, Option.bind_some, hrun₂, hrun₃]
      · exact (hperm₁.trans (hperm₂.mono le_rfl (by omega))).trans (hperm₃.mono (by omega) le_rfl)
      · intro k hk
        rw [hpivot, hleft k hk]
        exact hperm₂.forall_inside (p := (· ≤ arr₁ pi)) hsmall k hk
      · rw [hpivot]
        refine hperm₃.forall_inside (p := (arr₁ pi ≤ ·)) fun k hk => ?_
        rw [hright k hk]
        exact hlarge k hk
    · refine ⟨arr, by rw [quickSortRange, if_neg hlh], .refl arr, fun i j hi hij hj => ?_⟩
      omega

theorem quickSort_sorts (arr : ℤ → α) {len : ℕ} (hlen : len < 2 ^ 31) :
    ∃ arr', quickSort arr len = some arr' ∧ Permutes 0 (len - 1) arr arr' ∧
      Sorted (· ≤ ·) 0 (len - 1) arr' := by
  rw [quickSort, int_eq (by omega) (by omega)]
  exact quickSortRange_spec le_rfl le_rfl (Nat.succ_pos len) (by omega) arr

/-! ## `insertion_sort` -/

/-- The inner loop of `insertion_sort` (insertion.h:5–8) with `j + 1 = place`: the place it ends at,
    and the array. -/
def shiftLoop (last : ℤ) (key : α) : (place : ℕ) → (arr : ℤ → α) → Option (ℕ × (ℤ → α))
  | 0, arr => some (0, arr)
  | j + 1, arr => do
    let x ← load 0 last arr j
    if key < x then
      let arr ← store 0 last arr (j + 1) x
      shiftLoop last key j arr
    else some (j + 1, arr)

/-- The outer loop (insertion.h:2–10) from `i` on, with `left` rounds to go. -/
def insertionLoop (last : ℤ) : (left : ℕ) → (i : ℕ) → (arr : ℤ → α) → Option (ℤ → α)
  | 0, _, arr => some arr
  | left + 1, i, arr => do
    let key ← load 0 last arr i
    let (place, arr) ← shiftLoop last key i arr
    let arr ← store 0 last arr place key
    insertionLoop last left (i + 1) arr

/-- `insertion_sort(arr, size)` (insertion.h:1–11). -/
def insertionSort (arr : ℤ → α) (size : ℕ) : Option (ℤ → α) :=
  insertionLoop (size - 1) (size - 1) 1 arr

/-- The cells up to `i` are sorted if the one at `place` is left out. -/
def SortedBut (place : ℕ) (i : ℤ) (arr : ℤ → α) : Prop :=
  ∀ k k', 0 ≤ k → k < k' → k' ≤ i → k ≠ place → k' ≠ place → arr k ≤ arr k'

/-- The key in its place among sorted cells. -/
theorem SortedBut.sorted {place : ℕ} {i : ℤ} {arr : ℤ → α} {key : α} (h : SortedBut place i arr)
    (hbelow : ∀ k : ℤ, 0 ≤ k → k < place → arr k ≤ key)
    (habove : ∀ k : ℤ, place < k → k ≤ i → key ≤ arr k) :
    Sorted (· ≤ ·) 0 i (Function.update arr place key) := by
  intro k k' hk hlt hk'
  by_cases hkp : k = place
  · subst hkp
    rw [Function.update_self, Function.update_of_ne (by omega)]
    exact habove k' hlt hk'
  · rw [Function.update_of_ne hkp]
    by_cases hkp' : k' = place
    · subst hkp'
      rw [Function.update_self]
      exact hbelow k hk hlt
    · rw [Function.update_of_ne hkp']
      exact h k k' hk hlt hk' hkp hkp'

/-- The cell before the gap moves into it, and is the gap then. -/
theorem SortedBut.shift {j : ℕ} {i : ℤ} {arr : ℤ → α} (h : SortedBut (j + 1) i arr)
    (hj : (j : ℤ) + 1 ≤ i) : SortedBut j i (Function.update arr (j + 1) (arr j)) := by
  intro k k' hk hlt hk' hne hne'
  by_cases hkj : k = j + 1
  · subst hkj
    rw [Function.update_self, Function.update_of_ne (by omega)]
    exact h j k' (by omega) (by omega) hk' (by omega) (by omega)
  · rw [Function.update_of_ne hkj]
    by_cases hkj' : k' = j + 1
    · subst hkj'
      rw [Function.update_self]
      exact h k j hk (by omega) (by omega) (by omega) (by omega)
    · rw [Function.update_of_ne hkj']
      exact h k k' hk hlt hk' (by omega) (by omega)

theorem shiftLoop_spec {key : α} {i : ℤ} (hi : i ≤ last) {place : ℕ} {arr : ℤ → α}
    (hplace : place ≤ i) (hbut : SortedBut place i arr)
    (habove : ∀ k : ℤ, place < k → k ≤ i → key ≤ arr k) :
    ∃ place' arr', shiftLoop last key place arr = some (place', arr') ∧ (place' : ℤ) ≤ i ∧
      Permutes 0 i (Function.update arr place key) (Function.update arr' place' key) ∧
      Sorted (· ≤ ·) 0 i (Function.update arr' place' key) := by
  induction place generalizing arr with
  | zero =>
    exact ⟨0, arr, rfl, hplace, .refl _, hbut.sorted (fun k _ _ => by omega) habove⟩
  | succ j ih =>
    push_cast at hplace habove
    have hrun : shiftLoop last key (j + 1) arr = if key < arr j then
        shiftLoop last key j (Function.update arr (j + 1) (arr j)) else some (j + 1, arr) := by
      rw [shiftLoop, load_eq (by omega)]
      simp only [Option.bind_eq_bind, Option.bind_some, store_eq (by omega : Inside 0 last (j + 1))]
    rw [hrun]
    split_ifs with hlt
    · obtain ⟨place', arr', hrun', hle, hperm, hsorted⟩ :=
        @ih (Function.update arr (j + 1) (arr j)) (by omega) (hbut.shift hplace) (fun k hk hk' => by
          by_cases hkj : k = j + 1
          · subst hkj
            rw [Function.update_self]
            exact hlt.le
          · rw [Function.update_of_ne hkj]
            exact habove k (by omega) hk')
      refine ⟨place', arr', hrun', hle, ?_, hsorted⟩
      rw [update_update_swap] at hperm
      exact (Permutes.swap (by omega) (by omega) _).trans hperm
    · refine ⟨j + 1, arr, rfl, hplace, .refl _, hbut.sorted (fun k hk hk' => ?_) habove⟩
      push_cast at hk'
      rcases eq_or_lt_of_le (Int.le_of_lt_add_one hk') with rfl | hkj
      · exact not_lt.mp hlt
      · exact (hbut k j hk hkj (by omega) (by omega) (by omega)).trans (not_lt.mp hlt)

theorem insertionLoop_spec {left i : ℕ} (hi : (i : ℤ) + left ≤ last + 1) {arr : ℤ → α}
    (hsorted : Sorted (· ≤ ·) 0 (i - 1) arr) :
    ∃ arr', insertionLoop last left i arr = some arr' ∧ Permutes 0 (i + left - 1) arr arr' ∧
      Sorted (· ≤ ·) 0 (i + left - 1) arr' := by
  induction left generalizing i arr with
  | zero => exact ⟨arr, rfl, .refl arr, by simpa using hsorted⟩
  | succ left ih =>
    push_cast at hi ⊢
    obtain ⟨place, arr₁, hshift, hplace, hperm, hsorted₁⟩ :=
      @shiftLoop_spec α _ last (arr i) i (by omega) i arr le_rfl
        (fun k k' hk hkk hk' hne hne' => hsorted k k' hk hkk (by omega)) (fun k hk hk' => by omega)
    rw [Function.update_eq_self] at hperm
    obtain ⟨arr', hrun, hperm', hsorted'⟩ :=
      @ih (i + 1) (by push_cast; omega) (Function.update arr₁ place (arr i))
        (by push_cast; rwa [add_sub_cancel_right])
    push_cast at hperm' hsorted'
    refine ⟨arr', ?_, ?_, ?_⟩
    · rw [insertionLoop, load_eq (by omega)]
      simp only [Option.bind_eq_bind, Option.bind_some, hshift,
        store_eq (by omega : Inside 0 last place), hrun]
    · exact ((hperm.mono le_rfl (by omega)).trans (hperm'.mono le_rfl (by omega)))
    · rwa [show (i : ℤ) + (left + 1) - 1 = i + 1 + left - 1 by ring]

theorem insertionSort_sorts (arr : ℤ → α) (size : ℕ) :
    ∃ arr', insertionSort arr size = some arr' ∧ Permutes 0 (size - 1) arr arr' ∧
      Sorted (· ≤ ·) 0 (size - 1) arr' := by
  rcases Nat.eq_zero_or_pos size with rfl | hpos
  · exact ⟨arr, rfl, .refl arr, fun i j hi hij hj => by simp at hj; omega⟩
  · obtain ⟨arr', hrun, hperm, hsorted⟩ := @insertionLoop_spec α _ (size - 1) (size - 1) 1
      (by push_cast [hpos]; omega) arr (fun i j hi hij hj => by simp at hj; omega)
    have hend : (((1 : ℕ) : ℤ) + ((size - 1 : ℕ) : ℤ) - 1) = size - 1 := by
      push_cast [hpos]
      ring
    rw [hend] at hperm hsorted
    exact ⟨arr', hrun, hperm, hsorted⟩

/-! ## `selection_sort` -/

/-- The loop of `min_index` (selection.h:3–8) from `i` on, with `left` rounds to go. -/
def minIndexLoop (last : ℤ) (arr : ℤ → α) : (left : ℕ) → (i ret : ℤ) → (val : α) → Option ℤ
  | 0, _, ret, _ => some ret
  | left + 1, i, ret, val => do
    let x ← load 0 last arr i
    if x < val then minIndexLoop last arr left (i + 1) i x
    else minIndexLoop last arr left (i + 1) ret val

/-- `min_index(arr, low, high)` (selection.h:1–11). -/
def minIndex (last : ℤ) (arr : ℤ → α) (low high : ℤ) : Option ℤ := do
  let val ← load 0 last arr low
  minIndexLoop last arr (high - low).toNat low low val

/-- The loop of `selection_sort` (selection.h:14–16) from `i` on, with `left` rounds to go. -/
def selectionLoop (size : ℕ) : (left : ℕ) → (i : ℤ) → (arr : ℤ → α) → Option (ℤ → α)
  | 0, _, arr => some arr
  | left + 1, i, arr => do
    let m ← minIndex (size - 1) arr i size
    let arr ← swap 0 (size - 1) arr i m
    selectionLoop size left (i + 1) arr

/-- `selection_sort(arr, size)` (selection.h:13–17). -/
def selectionSort (arr : ℤ → α) (size : ℕ) : Option (ℤ → α) := selectionLoop size size 0 arr

theorem minIndexLoop_spec {arr : ℤ → α} {low high : ℤ} (hlow : 0 ≤ low) (hhigh : high ≤ last + 1)
    {left : ℕ} {i ret : ℤ} (hleft : i + left = high) (hi : low ≤ i) (hret : Inside low (high - 1) ret)
    (hmin : ∀ k, low ≤ k → k < i → arr ret ≤ arr k) :
    ∃ m, minIndexLoop last arr left i ret (arr ret) = some m ∧ Inside low (high - 1) m ∧
      ∀ k, low ≤ k → k < high → arr m ≤ arr k := by
  induction left generalizing i ret with
  | zero =>
    obtain rfl : i = high := by omega
    exact ⟨ret, rfl, hret, hmin⟩
  | succ left ih =>
    have hrun : minIndexLoop last arr (left + 1) i ret (arr ret) = if arr i < arr ret then
        minIndexLoop last arr left (i + 1) i (arr i)
        else minIndexLoop last arr left (i + 1) ret (arr ret) := by
      rw [minIndexLoop, load_eq (by omega)]
      rfl
    rw [hrun]
    split_ifs with hlt
    · refine ih (by omega) (by omega) (by omega) fun k hk hk' => ?_
      rcases eq_or_lt_of_le (Int.le_of_lt_add_one hk') with rfl | hki
      · exact le_rfl
      · exact hlt.le.trans (hmin k hk hki)
    · refine ih (by omega) (by omega) hret fun k hk hk' => ?_
      rcases eq_or_lt_of_le (Int.le_of_lt_add_one hk') with rfl | hki
      · exact not_lt.mp hlt
      · exact hmin k hk hki

theorem minIndex_spec {arr : ℤ → α} {low high : ℤ} (hlow : 0 ≤ low) (hlt : low < high)
    (hhigh : high ≤ last + 1) : ∃ m, minIndex last arr low high = some m ∧
      Inside low (high - 1) m ∧ ∀ k, low ≤ k → k < high → arr m ≤ arr k := by
  rw [minIndex, load_eq (by omega)]
  exact minIndexLoop_spec hlow hhigh (by omega) le_rfl (by omega) fun k _ _ => by omega

/-- The first `i` cells are final: each is below all behind it. -/
theorem selectionLoop_spec {size left : ℕ} {i : ℤ} (hi : 0 ≤ i) (hleft : i + left = size)
    {arr : ℤ → α} (hfinal : ∀ k k', 0 ≤ k → k < i → k < k' → k' ≤ size - 1 → arr k ≤ arr k') :
    ∃ arr', selectionLoop size left i arr = some arr' ∧ Permutes 0 (size - 1) arr arr' ∧
      Sorted (· ≤ ·) 0 (size - 1) arr' := by
  induction left generalizing i arr with
  | zero => exact ⟨arr, rfl, .refl arr, fun k k' hk hkk hk' => hfinal k k' hk (by omega) hkk hk'⟩
  | succ left ih =>
    push_cast at hleft
    obtain ⟨m, hrun, hm, hmin⟩ := @minIndex_spec α _ (size - 1) arr i size hi (by omega) (by omega)
    obtain ⟨arr', hrun', hperm, hsorted⟩ := @ih (i + 1) (by omega) (by omega)
      (arr ∘ Equiv.swap i m) (fun k k' hk hki hkk hk' => by
        have hper : Permutes i (size - 1) arr (arr ∘ Equiv.swap i m) :=
          .swap (by omega) (by omega) arr
        rcases eq_or_lt_of_le (Int.le_of_lt_add_one hki) with rfl | hlt
        · rw [Function.comp_apply, Equiv.swap_apply_left]
          exact hper.forall_inside (p := (arr m ≤ ·)) (fun j hj => hmin j hj.1 (by omega)) k'
            (by omega)
        · rw [hper.outside (by omega)]
          rcases lt_or_ge k' i with hlt' | hge
          · rw [hper.outside (by omega)]
            exact hfinal k k' hk hlt hkk hk'
          · exact hper.forall_inside (p := (arr k ≤ ·))
              (fun j hj => hfinal k j hk hlt (by omega) hj.2) k' (by omega))
    refine ⟨arr', ?_, (Permutes.swap (by omega) (by omega) arr).trans hperm, hsorted⟩
    rw [selectionLoop, hrun]
    simp only [Option.bind_eq_bind, Option.bind_some,
      swap_eq (by omega : Inside 0 (size - 1) i) (by omega : Inside 0 (size - 1) m), hrun']

theorem selectionSort_sorts (arr : ℤ → α) (size : ℕ) :
    ∃ arr', selectionSort arr size = some arr' ∧ Permutes 0 (size - 1) arr arr' ∧
      Sorted (· ≤ ·) 0 (size - 1) arr' :=
  selectionLoop_spec le_rfl (by omega) fun k k' _ _ _ _ => by omega

end HorizonOS.Libc
