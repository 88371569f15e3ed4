import HorizonOS.Libc.Sorts

/-!
# Counting sort, and the agreement of the sorts

`counting_sort(arr, len, b, c, k)` of `libc/include/algorithms/counting.h`: `c` counts each value,
is summed up, and then tells from the last element on where each element goes. All sums are at most
`len` and fit an `int`; `k + 1`, from which the size of `c` is computed for `memset`, does not if `k`
is `INT_MAX`.

* `place`: where an element goes, behind all smaller ones and behind the equal ones in front of it.
* `countingSort_sorts`: `counting_sort` returns the sorted permutation.
* `sorts_agree_iff`: all four sorts return the same array; `counting_sort` exactly for
  `k < INT_MAX`.
-/

namespace HorizonOS.Libc

open HorizonOS.Lib.Cells

/-- `memset(c, 0, sizeof(int) * (k + 1))` (line 5) on the `k + 1` cells of `c`. The size in bytes is
    a `size_t` of 64 bits. -/
def clearCounts (k : ℤ) (c : ℤ → ℤ) : Option (ℤ → ℤ) :=
  let cells := 4 * int (k + 1) % 2 ^ 64 / 4
  if cells ≤ k + 1 then some fun i => if Inside 0 (cells - 1) i then 0 else c i
  else none

/-- The first loop (lines 6–8) from `i` on, with `left` rounds to go. -/
def countLoop (last k : ℤ) (arr : ℤ → ℤ) : (left : ℕ) → (i : ℤ) → (c : ℤ → ℤ) → Option (ℤ → ℤ)
  | 0, _, c => some c
  | left + 1, i, c => do
    let x ← load 0 last arr i
    let n ← load 0 k c x
    let c ← store 0 k c x (n + 1)
    countLoop last k arr left (i + 1) c

/-- The second loop (lines 10–12) from `i` on, with `left` rounds to go. -/
def sumLoop (k : ℤ) : (left : ℕ) → (i : ℤ) → (c : ℤ → ℤ) → Option (ℤ → ℤ)
  | 0, _, c => some c
  | left + 1, i, c => do
    let n ← load 0 k c i
    let below ← load 0 k c (i - 1)
    let c ← store 0 k c i (n + below)
    sumLoop k left (i + 1) c

/-- The third loop (lines 14–17), with the elements below `i` still to be placed. -/
def placeLoop (last k : ℤ) (arr : ℤ → ℤ) : (i : ℕ) → (b c : ℤ → ℤ) → Option ((ℤ → ℤ) × (ℤ → ℤ))
  | 0, b, c => some (b, c)
  | i + 1, b, c => do
    let x ← load 0 last arr i
    let n ← load 0 k c x
    let b ← store 0 last b (n - 1) x
    let c ← store 0 k c x (n - 1)
    placeLoop last k arr i b c

/-- `counting_sort(arr, len, b, c, k)` (lines 4–19): the three arrays. -/
def countingSort (arr : ℤ → ℤ) (len : ℕ) (b c : ℤ → ℤ) (k : ℤ) :
    Option ((ℤ → ℤ) × (ℤ → ℤ) × (ℤ → ℤ)) := do
  let c ← clearCounts k c
  let c ← countLoop (len - 1) k arr len 0 c
  let c ← sumLoop k k.toNat 1 c
  let (b, c) ← placeLoop (len - 1) k arr len b c
  return (fun i => if Inside 0 (len - 1) i then b i else arr i, b, c)

/-! ## Counts and places -/

/-- The first `i` indices. -/
def upTo (i : ℤ) : Finset ℤ := (Finset.range i.toNat).image fun n : ℕ => (n : ℤ)

theorem mem_upTo {i j : ℤ} : j ∈ upTo i ↔ 0 ≤ j ∧ j < i := by
  simp only [upTo, Finset.mem_image, Finset.mem_range]
  constructor
  · rintro ⟨n, hn, rfl⟩
    omega
  · rintro ⟨hj, hji⟩
    exact ⟨j.toNat, by omega, Int.toNat_of_nonneg hj⟩

theorem card_upTo (i : ℤ) : (upTo i).card = i.toNat := by
  rw [upTo, Finset.card_image_of_injective _ Nat.cast_injective, Finset.card_range]

/-- How many of the first `i` elements are equal to `x`. -/
def count (arr : ℤ → ℤ) (i x : ℤ) : ℤ := ((upTo i).filter fun j => arr j = x).card

/-- How many of the first `i` elements are smaller than `x`. -/
def less (arr : ℤ → ℤ) (i x : ℤ) : ℤ := ((upTo i).filter fun j => arr j < x).card

/-- Where element `i` goes. -/
def place (arr : ℤ → ℤ) (len i : ℤ) : ℤ := less arr len (arr i) + count arr i (arr i)

variable {arr : ℤ → ℤ}

theorem count_zero (arr : ℤ → ℤ) (x : ℤ) : count arr 0 x = 0 := by
  simp [count, upTo]

theorem count_succ {i : ℤ} (hi : 0 ≤ i) (x : ℤ) :
    count arr (i + 1) x = count arr i x + if arr i = x then 1 else 0 := by
  have hset : upTo (i + 1) = insert i (upTo i) := by
    ext j
    simp only [Finset.mem_insert, mem_upTo]
    omega
  rw [count, hset, Finset.filter_insert]
  split_ifs with hx
  · rw [Finset.card_insert_of_notMem (by simp [mem_upTo]), count]
    push_cast
    rfl
  · rw [count, add_zero]

theorem less_succ (i x : ℤ) : less arr i (x + 1) = less arr i x + count arr i x := by
  have hset : ((upTo i).filter fun j => arr j < x + 1) =
      ((upTo i).filter fun j => arr j < x) ∪ (upTo i).filter fun j => arr j = x := by
    ext j
    simp only [Finset.mem_union, Finset.mem_filter, Int.lt_add_one_iff, le_iff_lt_or_eq]
    tauto
  have hdisj : Disjoint ((upTo i).filter fun j => arr j < x)
      ((upTo i).filter fun j => arr j = x) :=
    Finset.disjoint_filter.mpr fun j _ hlt heq => by omega
  rw [less, hset, Finset.card_union_of_disjoint hdisj]
  push_cast
  rfl

/-- The elements in front of element `i`: the smaller ones, and equal ones with smaller index. -/
def inFront (arr : ℤ → ℤ) (len i : ℤ) : Finset ℤ :=
  (upTo len).filter fun j => arr j < arr i ∨ arr j = arr i ∧ j < i

theorem place_eq_card {len i : ℤ} (hi : i ≤ len) :
    place arr len i = (inFront arr len i).card := by
  have hset : (upTo i).filter (fun j => arr j = arr i) =
      (upTo len).filter fun j => arr j = arr i ∧ j < i := by
    ext j
    simp only [Finset.mem_filter, mem_upTo]
    omega
  have hdisj : Disjoint ((upTo len).filter fun j => arr j < arr i)
      ((upTo len).filter fun j => arr j = arr i ∧ j < i) :=
    Finset.disjoint_filter.mpr fun j _ hlt heq => by omega
  rw [place, less, count, inFront, hset, Finset.filter_or, Finset.card_union_of_disjoint hdisj]
  push_cast
  rfl

theorem place_inside {len i : ℤ} (hi : Inside 0 (len - 1) i) :
    Inside 0 (len - 1) (place arr len i) := by
  have hsub : inFront arr len i ⊂ upTo len := by
    refine Finset.filter_ssubset.mpr ⟨i, mem_upTo.mpr (by omega), ?_⟩
    omega
  have hcard := Finset.card_lt_card hsub
  rw [card_upTo] at hcard
  rw [place_eq_card (by omega)]
  omega

theorem place_lt {len i j : ℤ} (hi : Inside 0 (len - 1) i) (hj : Inside 0 (len - 1) j)
    (h : arr i < arr j ∨ arr i = arr j ∧ i < j) : place arr len i < place arr len j := by
  rw [place_eq_card (by omega), place_eq_card (by omega), Nat.cast_lt]
  refine Finset.card_lt_card (Finset.ssubset_iff_of_subset ?_ |>.mpr ⟨i, ?_, ?_⟩)
  · intro t ht
    simp only [inFront, Finset.mem_filter, mem_upTo] at ht ⊢
    omega
  · simp only [inFront, Finset.mem_filter, mem_upTo]
    omega
  · simp only [inFront, Finset.mem_filter]
    omega

theorem place_inj {len i j : ℤ} (hi : Inside 0 (len - 1) i) (hj : Inside 0 (len - 1) j)
    (h : place arr len i = place arr len j) : i = j := by
  by_contra hne
  rcases lt_trichotomy (arr i) (arr j) with hlt | heq | hgt
  · exact absurd h (place_lt hi hj (.inl hlt)).ne
  · rcases lt_or_gt_of_ne hne with hlt | hgt
    · exact absurd h (place_lt hi hj (.inr ⟨heq, hlt⟩)).ne
    · exact absurd h (place_lt hj hi (.inr ⟨heq.symm, hgt⟩)).ne'
  · exact absurd h (place_lt hj hi (.inl hgt)).ne'

/-! ## The loops -/

theorem clearCounts_eq {k : ℤ} (hk : 0 ≤ k) (hk' : k < 2 ^ 31 - 1) (c : ℤ → ℤ) :
    clearCounts k c = some fun i => if Inside 0 k i then 0 else c i := by
  have hcells : 4 * int (k + 1) % 2 ^ 64 / 4 = k + 1 := by
    rw [int_eq (by omega) (by omega)]
    omega
  simp only [clearCounts, hcells, le_refl, if_true, add_sub_cancel_right]

/-- For `k = INT_MAX` the number of bytes is nearly `2 ^ 64`. -/
theorem clearCounts_max (c : ℤ → ℤ) : clearCounts (2 ^ 31 - 1) c = none := by
  rfl

section Loops

variable {len : ℕ} {k : ℤ} (hvals : ∀ i, Inside 0 (len - 1 : ℤ) i → Inside 0 k (arr i))

include hvals

theorem countLoop_spec {left : ℕ} {i : ℤ} {c : ℤ → ℤ} (hi : 0 ≤ i) (hleft : i + left = len)
    (hc : ∀ x, Inside 0 k x → c x = count arr i x) :
    ∃ c', countLoop (len - 1) k arr left i c = some c' ∧
      ∀ x, Inside 0 k x → c' x = count arr len x := by
  induction left generalizing i c with
  | zero =>
    obtain rfl : i = len := by omega
    exact ⟨c, rfl, hc⟩
  | succ left ih =>
    push_cast at hleft
    have hin : Inside 0 (len - 1 : ℤ) i := by omega
    obtain ⟨c', hrun, hc'⟩ := @ih (i + 1) (Function.update c (arr i) (c (arr i) + 1)) (by omega)
      (by omega) (fun x hx => by
        rw [count_succ hi]
        by_cases hxi : arr i = x
        · subst hxi
          rw [Function.update_self, if_pos rfl, hc _ hx]
        · rw [Function.update_of_ne (Ne.symm hxi), if_neg hxi, hc x hx, add_zero])
    refine ⟨c', ?_, hc'⟩
    rw [countLoop, load_eq hin]
    simp only [Option.bind_eq_bind, Option.bind_some, load_eq (hvals i hin),
      store_eq (hvals i hin), hrun]

end Loops

theorem sumLoop_spec {len : ℤ} {k : ℤ} {left : ℕ} {i : ℤ} {c : ℤ → ℤ} (hi : 1 ≤ i)
    (hleft : i + left = k + 1) (hdone : ∀ x, 0 ≤ x → x < i → c x = less arr len (x + 1))
    (hc : ∀ x, i ≤ x → x ≤ k → c x = count arr len x) :
    ∃ c', sumLoop k left i c = some c' ∧ ∀ x, Inside 0 k x → c' x = less arr len (x + 1) := by
  induction left generalizing i c with
  | zero => exact ⟨c, rfl, fun x hx => hdone x hx.1 (by omega)⟩
  | succ left ih =>
    push_cast at hleft
    have hsum : c i + c (i - 1) = less arr len (i + 1) := by
      have hbelow := hdone (i - 1) (by omega) (by omega)
      rw [sub_add_cancel] at hbelow
      rw [hc i le_rfl (by omega), hbelow, less_succ, add_comm]
    obtain ⟨c', hrun, hc'⟩ := @ih (i + 1) (Function.update c i (c i + c (i - 1))) (by omega)
      (by omega) (fun x hx hxi => by
        rcases eq_or_lt_of_le (Int.le_of_lt_add_one hxi) with rfl | hlt
        · rw [Function.update_self, hsum]
        · rw [Function.update_of_ne hlt.ne, hdone x hx hlt])
      (fun x hx hxk => by
        rw [Function.update_of_ne (by omega), hc x (by omega) hxk])
    refine ⟨c', ?_, hc'⟩
    rw [sumLoop, load_eq (by omega)]
    simp only [Option.bind_eq_bind, Option.bind_some, load_eq (by omega : Inside 0 k (i - 1)),
      store_eq (by omega : Inside 0 k i), hrun]

section Loops

variable {len : ℕ} {k : ℤ} (hvals : ∀ i, Inside 0 (len - 1 : ℤ) i → Inside 0 k (arr i))

include hvals

/-- The elements from `i` on are in their places, and `c` holds the places of the last ones of each
    value in front of `i`. -/
theorem placeLoop_spec {i : ℕ} {b c : ℤ → ℤ} (hi : i ≤ len)
    (hc : ∀ x, Inside 0 k x → c x = less arr len x + count arr i x)
    (hb : ∀ j : ℤ, i ≤ j → j < len → b (place arr len j) = arr j) :
    ∃ b' c', placeLoop (len - 1) k arr i b c = some (b', c') ∧
      ∀ j, Inside 0 (len - 1 : ℤ) j → b' (place arr len j) = arr j := by
  induction i generalizing b c with
  | zero => exact ⟨b, c, rfl, fun j hj => hb j (by simpa using hj.1) (by omega)⟩
  | succ i ih =>
    push_cast at hc hb
    have hin : Inside 0 (len - 1 : ℤ) i := by omega
    have hx := hvals i hin
    have hplace : c (arr i) - 1 = place arr len i := by
      rw [hc _ hx, count_succ (by omega), if_pos rfl, place]
      ring
    obtain ⟨b', c', hrun, hb'⟩ := @ih (Function.update b (place arr len i) (arr i))
      (Function.update c (arr i) (place arr len i)) (by omega)
      (fun x hx' => by
        by_cases hxi : x = arr i
        · subst hxi
          rw [Function.update_self, place]
        · rw [Function.update_of_ne hxi, hc x hx', count_succ (by omega),
            if_neg (Ne.symm hxi), add_zero])
      (fun j hj hjl => by
        by_cases hji : j = i
        · subst hji
          rw [Function.update_self]
        · rw [Function.update_of_ne fun h => hji (place_inj (by omega) hin h)]
          exact hb j (by omega) hjl)
    refine ⟨b', c', ?_, hb'⟩
    rw [placeLoop, load_eq hin]
    simp only [Option.bind_eq_bind, Option.bind_some, load_eq hx, hplace,
      store_eq (place_inside hin), store_eq hx, hrun]

theorem countingSort_sorts (b c : ℤ → ℤ) (hk : 0 ≤ k) (hk' : k < 2 ^ 31 - 1) :
    ∃ arr' b' c', countingSort arr len b c k = some (arr', b', c') ∧
      Permutes 0 (len - 1) arr arr' ∧ Sorted (· ≤ ·) 0 (len - 1) arr' := by
  obtain ⟨c₁, hrun₁, hc₁⟩ := @countLoop_spec arr len k hvals len 0
    (fun i => if Inside 0 k i then 0 else c i) le_rfl (by omega)
    (fun x hx => by rw [if_pos hx, count_zero])
  have hzero : less arr len 0 = 0 := by
    rw [less, Finset.filter_false_of_mem fun j hj => ?_]
    · rfl
    · have := hvals j (by rw [mem_upTo] at hj; omega)
      omega
  obtain ⟨c₂, hrun₂, hc₂⟩ := @sumLoop_spec arr len k k.toNat 1 c₁ le_rfl (by omega)
    (fun x hx hx' => by
      obtain rfl : x = 0 := by omega
      rw [less_succ, hzero, zero_add, hc₁ 0 ⟨le_rfl, hk⟩])
    (fun x hx hxk => hc₁ x (by omega))
  obtain ⟨b', c', hrun₃, hb'⟩ := @placeLoop_spec arr len k hvals len b c₂ le_rfl
    (fun x hx => by rw [hc₂ x hx, less_succ]) (fun j hj hj' => by omega)
  have hcell : ∀ j, Inside 0 (len - 1 : ℤ) j →
      (if Inside 0 (len - 1 : ℤ) (place arr len j) then b' (place arr len j)
        else arr (place arr len j)) = arr j := fun j hj => by
    rw [if_pos (place_inside hj), hb' j hj]
  have hperm : Permutes 0 (len - 1) arr fun i => if Inside 0 (len - 1 : ℤ) i then b' i else arr i :=
    .of_injOn (fun i hi => place_inside hi) (fun i j hi hj => place_inj hi hj) hcell
      fun i hi => if_neg hi
  refine ⟨_, b', c', ?_, hperm, fun p q hp hpq hq => ?_⟩
  · rw [countingSort, clearCounts_eq hk hk']
    simp only [Option.bind_eq_bind, Option.bind_some, hrun₁, hrun₂, hrun₃, Option.pure_def]
  · obtain ⟨i, hi, rfl⟩ := surj_inside (fun i hi => @place_inside arr len i hi)
      (fun i j hi hj => place_inj hi hj) (⟨hp, by omega⟩ : Inside 0 (len - 1 : ℤ) p)
    obtain ⟨j, hj, rfl⟩ := surj_inside (fun i hi => @place_inside arr len i hi)
      (fun i j hi hj => place_inj hi hj) (⟨by omega, hq⟩ : Inside 0 (len - 1 : ℤ) q)
    simp only [hcell i hi, hcell j hj]
    by_contra hgt
    exact absurd hpq (place_lt hj hi (.inl (not_le.mp hgt))).not_gt

end Loops

/-! ## All four -/

/-- **The sorts agree.** For every array of up to `INT_MAX` elements quicksort, insertion sort and
    selection sort return one and the same array, the sorted permutation of their input, without an
    access outside; if all elements lie in `0 … k`, so does counting sort, with any contents of its
    scratch arrays, exactly for `k < INT_MAX`. -/
theorem sorts_agree_iff (arr : ℤ → ℤ) {len : ℕ} (hlen : len < 2 ^ 31) :
    ∃ sorted, Permutes 0 (len - 1) arr sorted ∧ Sorted (· ≤ ·) 0 (len - 1) sorted ∧
      quickSort arr len = some sorted ∧ insertionSort arr len = some sorted ∧
      selectionSort arr len = some sorted ∧
      ∀ k, 0 ≤ k → k < 2 ^ 31 → (∀ i, Inside 0 (len - 1 : ℤ) i → Inside 0 k (arr i)) → ∀ b c,
        ((countingSort arr len b c k).map Prod.fst = some sorted ↔ k < 2 ^ 31 - 1) := by
  obtain ⟨sorted, hquick, hperm, hsorted⟩ := quickSort_sorts arr hlen
  obtain ⟨sorted₁, hinsertion, hperm₁, hsorted₁⟩ := insertionSort_sorts arr len
  obtain ⟨sorted₂, hselection, hperm₂, hsorted₂⟩ := selectionSort_sorts arr len
  obtain rfl := hperm.unique hperm₁ hsorted hsorted₁
  obtain rfl := hperm.unique hperm₂ hsorted hsorted₂
  refine ⟨sorted, hperm, hsorted, hquick, hinsertion, hselection, fun k hk hmax hvals b c => ?_⟩
  constructor
  · intro hrun
    by_contra hge
    obtain rfl : k = 2 ^ 31 - 1 := by omega
    rw [countingSort, clearCounts_max] at hrun
    cases hrun
  · intro hlt
    obtain ⟨sorted₃, b', c', hcounting, hperm₃, hsorted₃⟩ := countingSort_sorts hvals b c hk hlt
    obtain rfl := hperm.unique hperm₃ hsorted hsorted₃
    rw [hcounting]
    rfl

/-- Five elements in `0 … 7`. -/
theorem sorts_agree_five : ∃ sorted,
    quickSort (fun i => if i % 2 = 0 then i else 7 - i) 5 = some sorted ∧
    insertionSort (fun i => if i % 2 = 0 then i else 7 - i) 5 = some sorted ∧
    (countingSort (fun i => if i % 2 = 0 then i else 7 - i) 5 (fun _ => 0) (fun _ => 9) 7).map
      Prod.fst = some sorted := by
  obtain ⟨sorted, -, -, hquick, hinsertion, -, hcounting⟩ :=
    sorts_agree_iff (fun i => if i % 2 = 0 then i else 7 - i) (by decide : 5 < 2 ^ 31)
  refine ⟨sorted, hquick, hinsertion, (hcounting 7 (by decide) (by decide) (fun i hi => ?_) _ _).mpr
    (by decide)⟩
  split_ifs <;> omega

/-- With `k = INT_MAX` counting sort clears memory far behind `c`, even for an empty array. -/
theorem countingSort_max :
    (countingSort (fun _ => 0) 0 (fun _ => 0) (fun _ => 0) (2 ^ 31 - 1)).isNone ∧
      quickSort (fun _ => (0 : ℤ)) 0 = some fun _ => 0 :=
  ⟨rfl, rfl⟩

end HorizonOS.Libc
