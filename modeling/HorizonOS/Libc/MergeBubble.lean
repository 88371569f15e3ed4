import HorizonOS.Lib.Cells

/-!
# Merge sort and bubble sort

`merge_sort` and `bubble_sort` of `libc/include/algorithms/`. `_merge_sort(arr, l, r, …)` sorts the
cells from `l` to `r` inclusively, but `merge_sort(arr, len, …)` calls it with `r = len` (merge.h:53).
`bubble_sort(arr, size)` computes its bounds as `size_t`, where `size - 1` wraps around for an empty
array. The array has the cells `0 … last`, each scratch array of merge sort as many.

* `merge_spec`: `merge` writes `List.merge` of the two halves.
* `mergeSortRange_spec`: `_merge_sort` sorts its range.
* `mergeSortRange_overrun`: with `r` behind the array it reads behind the array.
* `bubbleSort_sorts`: `bubble_sort` sorts up to 2^31 elements.
* `merge_bubble_iff`: for which lengths each of the two sorts its array.
-/

namespace HorizonOS.Libc

open HorizonOS.Lib.Cells

variable {α : Type} {last : ℤ}

/-! ## `merge_sort` -/

/-- The loops that copy a half (merge.h:7–12): `dst[i] = arr[from + i]`, with `left` rounds to
    go. -/
def copyLoop (last : ℤ) (arr : ℤ → α) (first : ℤ) : (left : ℕ) → (i : ℤ) → (dst : ℤ → α) →
    Option (ℤ → α)
  | 0, _, dst => some dst
  | left + 1, i, dst => do
    let x ← load 0 last arr (first + i)
    let dst ← store 0 last dst i x
    copyLoop last arr first left (i + 1) dst

/-- The loops that copy what is left of a half (merge.h:28–38): `arr[c] = src[i]`, with `left` rounds
    to go. -/
def drainLoop (last : ℤ) (src : ℤ → α) : (left : ℕ) → (i c : ℤ) → (arr : ℤ → α) →
    Option (ℤ × (ℤ → α))
  | 0, _, c, arr => some (c, arr)
  | left + 1, i, c, arr => do
    let x ← load 0 last src i
    let arr ← store 0 last arr c x
    drainLoop last src left (i + 1) (c + 1) arr

theorem copyLoop_spec {arr : ℤ → α} {first : ℤ} (hfirst : 0 ≤ first) {left : ℕ} {i : ℤ}
    {dst : ℤ → α} (hi : 0 ≤ i) (hlast : first + i + left ≤ last + 1) :
    ∃ dst', copyLoop last arr first left i dst = some dst' ∧
      (∀ k < i, dst' k = dst k) ∧ ∀ k, i ≤ k → k < i + left → dst' k = arr (first + k) := by
  induction left generalizing i dst with
  | zero => exact ⟨dst, rfl, fun _ _ => rfl, fun k hk hk' => by omega⟩
  | succ left ih =>
    push_cast at hlast ⊢
    obtain ⟨dst', hrun, hbelow, hcopied⟩ :=
      @ih (i + 1) (Function.update dst i (arr (first + i))) (by omega) (by omega)
    refine ⟨dst', ?_, fun k hk => ?_, fun k hk hk' => ?_⟩
    · rw [copyLoop, load_eq (by omega)]
      simp only [Option.bind_eq_bind, Option.bind_some, store_eq (by omega : Inside 0 last i), hrun]
    · rw [hbelow k (by omega), Function.update_of_ne hk.ne]
    · rcases eq_or_lt_of_le hk with rfl | hlt
      · rw [hbelow i (by omega), Function.update_self]
      · exact hcopied k (by omega) (by omega)

/-- Copying from behind the array. -/
theorem copyLoop_overrun {arr : ℤ → α} {first : ℤ} {left : ℕ} {i : ℤ} {dst : ℤ → α}
    (hpos : 0 < left) (hlast : last + 1 < first + i + left) :
    copyLoop last arr first left i dst = none := by
  induction left generalizing i dst with
  | zero => omega
  | succ left ih =>
    push_cast at hlast
    rw [copyLoop]
    by_cases hin : Inside 0 last (first + i)
    · rw [load_eq hin]
      simp only [Option.bind_eq_bind, Option.bind_some]
      cases hstore : store 0 last dst i (arr (first + i)) with
      | none => rfl
      | some dst' => exact ih (by omega) (by omega)
    · rw [load_eq_none hin]
      rfl

theorem drainLoop_spec {src : ℤ → α} {left : ℕ} {i c : ℤ} {arr : ℤ → α} (hi : 0 ≤ i) (hc : 0 ≤ c)
    (hi' : i + left ≤ last + 1) (hc' : c + left ≤ last + 1) :
    ∃ arr', drainLoop last src left i c arr = some (c + left, arr') ∧
      slice c (c + left - 1) arr' = slice i (i + left - 1) src ∧
      ∀ k, ¬Inside c (c + left - 1) k → arr' k = arr k := by
  induction left generalizing i c arr with
  | zero =>
    refine ⟨arr, by simp [drainLoop], ?_, fun _ _ => rfl⟩
    rw [slice_nil (by simp), slice_nil (by simp)]
  | succ left ih =>
    push_cast at hi' hc' ⊢
    obtain ⟨arr', hrun, hslice, hframe⟩ :=
      @ih (i + 1) (c + 1) (Function.update arr c (src i)) (by omega) (by omega) (by omega) (by omega)
    have hend : c + 1 + (left : ℤ) = c + (left + 1) := by ring
    have hend' : i + 1 + (left : ℤ) = i + (left + 1) := by ring
    rw [hend] at hrun hslice hframe
    rw [hend'] at hslice
    obtain ⟨hslice, hframe⟩ := slice_front (by omega) hslice hframe
    refine ⟨arr', ?_, by rw [hslice, slice_cons (by omega : i ≤ _)], hframe⟩
    rw [drainLoop, load_eq (by omega)]
    simp only [Option.bind_eq_bind, Option.bind_some, store_eq (by omega : Inside 0 last c), hrun]

variable [LinearOrder α]

/-- The loop that merges (merge.h:17–26), with at most `fuel` rounds: `a`, `b`, `c` and the array. -/
def mergeLoop (last : ℤ) (left right : ℤ → α) (n1 n2 : ℤ) : (fuel : ℕ) → (a b c : ℤ) →
    (arr : ℤ → α) → Option (ℤ × ℤ × ℤ × (ℤ → α))
  | 0, a, b, c, arr => some (a, b, c, arr)
  | fuel + 1, a, b, c, arr =>
    if a < n1 ∧ b < n2 then do
      let x ← load 0 last left a
      let y ← load 0 last right b
      if x ≤ y then
        let arr ← store 0 last arr c x
        mergeLoop last left right n1 n2 fuel (a + 1) b (c + 1) arr
      else
        let arr ← store 0 last arr c y
        mergeLoop last left right n1 n2 fuel a (b + 1) (c + 1) arr
    else some (a, b, c, arr)

/-- The three loops that write the array (merge.h:14–38). -/
def mergeBack (last : ℤ) (left right : ℤ → α) (n1 n2 a b c : ℤ) (arr : ℤ → α) :
    Option (ℤ → α) := do
  let (a, b, c, arr) ← mergeLoop last left right n1 n2 ((n1 - a).toNat + (n2 - b).toNat) a b c arr
  let (c, arr) ← drainLoop last left (n1 - a).toNat a c arr
  let (_, arr) ← drainLoop last right (n2 - b).toNat b c arr
  return arr

/-- The arrays of merge sort. -/
structure Halves (α : Type) where
  arr : ℤ → α
  left : ℤ → α
  right : ℤ → α

/-- `merge(arr, l, m, r, left, right)` (merge.h:1–39). -/
def merge (last : ℤ) (s : Halves α) (l m r : ℤ) : Option (Halves α) := do
  let n1 := m - l + 1
  let n2 := r - m
  let left ← copyLoop last s.arr l n1.toNat 0 s.left
  let right ← copyLoop last s.arr (m + 1) n2.toNat 0 s.right
  let arr ← mergeBack last left right n1 n2 0 0 l s.arr
  return ⟨arr, left, right⟩

/-- `_merge_sort(arr, l, r, left, right)` (merge.h:41–50), with `fuel` nested calls at most. -/
def mergeSortRange (last : ℤ) : (fuel : ℕ) → (s : Halves α) → (l r : ℤ) → Option (Halves α)
  | 0, _, _, _ => none
  | fuel + 1, s, l, r =>
    if l < r then do
      let m := l + (r - l) / 2
      let s ← mergeSortRange last fuel s l m
      let s ← mergeSortRange last fuel s (m + 1) r
      merge last s l m r
    else some s

/-- `merge_sort(arr, len, left, right)` (merge.h:52–54). -/
def mergeSort (s : Halves α) (len : ℕ) : Option (Halves α) :=
  mergeSortRange (len - 1) (len + 1) s 0 (int len)

section Merge

variable {left right : ℤ → α} {n1 n2 a b c : ℤ} {arr : ℤ → α}

theorem mergeLoop_done (h : ¬(a < n1 ∧ b < n2)) (fuel : ℕ) :
    mergeLoop last left right n1 n2 fuel a b c arr = some (a, b, c, arr) := by
  cases fuel with
  | zero => rfl
  | succ fuel => rw [mergeLoop, if_neg h]

variable (ha : 0 ≤ a) (hb : 0 ≤ b) (hc : 0 ≤ c) (hn1 : n1 ≤ last + 1) (hn2 : n2 ≤ last + 1)

include ha hb hc hn1 hn2

theorem mergeBack_step (hgo : a < n1 ∧ b < n2) (hc' : c ≤ last) :
    mergeBack last left right n1 n2 a b c arr = if left a ≤ right b then
      mergeBack last left right n1 n2 (a + 1) b (c + 1) (Function.update arr c (left a))
      else mergeBack last left right n1 n2 a (b + 1) (c + 1) (Function.update arr c (right b)) := by
  have hfuel : (n1 - a).toNat + (n2 - b).toNat = (n1 - (a + 1)).toNat + (n2 - b).toNat + 1 := by
    omega
  have hfuel' : (n1 - (a + 1)).toNat + (n2 - b).toNat = (n1 - a).toNat + (n2 - (b + 1)).toNat := by
    omega
  rw [mergeBack, hfuel, mergeLoop, if_pos hgo, load_eq (by omega), load_eq (by omega)]
  simp only [Option.bind_eq_bind, Option.bind_some, store_eq (by omega : Inside 0 last c)]
  split_ifs with hle
  · rfl
  · rw [hfuel']
    rfl

/-- One of the halves is used up. -/
theorem mergeBack_drain (ha' : a ≤ n1) (hb' : b ≤ n2) (hdone : ¬(a < n1 ∧ b < n2))
    (hend : c + (n1 - a) + (n2 - b) ≤ last + 1) :
    ∃ arr', mergeBack last left right n1 n2 a b c arr = some arr' ∧
      slice c (c + (n1 - a) + (n2 - b) - 1) arr' =
        List.merge (slice a (n1 - 1) left) (slice b (n2 - 1) right) (· ≤ ·) ∧
      ∀ k, ¬Inside c (c + (n1 - a) + (n2 - b) - 1) k → arr' k = arr k := by
  have hna : ((n1 - a).toNat : ℤ) = n1 - a := Int.toNat_of_nonneg (by omega)
  have hnb : ((n2 - b).toNat : ℤ) = n2 - b := Int.toNat_of_nonneg (by omega)
  obtain ⟨arr₁, hrun₁, hslice₁, hframe₁⟩ := @drainLoop_spec α last left (n1 - a).toNat a c arr ha hc
    (by omega) (by omega)
  obtain ⟨arr₂, hrun₂, hslice₂, hframe₂⟩ := @drainLoop_spec α last right (n2 - b).toNat b
    (c + (n1 - a).toNat) arr₁ hb (by omega) (by omega) (by omega)
  rw [hna] at hrun₁ hslice₁ hframe₁ hrun₂ hslice₂ hframe₂
  rw [hnb] at hslice₂ hframe₂
  refine ⟨arr₂, ?_, ?_, fun k hk => ?_⟩
  · rw [mergeBack, mergeLoop_done hdone]
    simp only [Option.bind_eq_bind, Option.bind_some, hrun₁, hrun₂, Option.pure_def]
  · have hkeep : slice c (c + (n1 - a) - 1) arr₂ = slice c (c + (n1 - a) - 1) arr₁ :=
      slice_congr fun k hk => hframe₂ k (by omega)
    rw [show a + (n1 - a) - 1 = n1 - 1 by ring] at hslice₁
    rw [show b + (n2 - b) - 1 = n2 - 1 by ring] at hslice₂
    rw [slice_append (m := c + (n1 - a) - 1) (by omega) (by omega), hkeep, hslice₁,
      sub_add_cancel, hslice₂]
    -- the merge with an empty list is the other list
    rcases lt_or_eq_of_le ha' with hlt | rfl
    · obtain rfl : b = n2 := by omega
      rw [slice_nil (by omega : b - 1 < b), List.append_nil, List.merge_right]
    · rw [slice_nil (by omega : a - 1 < a), List.nil_append, List.nil_merge]
  · rw [hframe₂ k (by omega), hframe₁ k (by omega)]

end Merge

/-- What is written back is the merge of what is left of the two halves. -/
theorem mergeBack_spec {left right : ℤ → α} {n1 n2 a b c : ℤ} {arr : ℤ → α} (ha : 0 ≤ a) (hb : 0 ≤ b)
    (hc : 0 ≤ c) (hn1 : n1 ≤ last + 1) (hn2 : n2 ≤ last + 1) (ha' : a ≤ n1) (hb' : b ≤ n2)
    (hend : c + (n1 - a) + (n2 - b) ≤ last + 1) :
    ∃ arr', mergeBack last left right n1 n2 a b c arr = some arr' ∧
      slice c (c + (n1 - a) + (n2 - b) - 1) arr' =
        List.merge (slice a (n1 - 1) left) (slice b (n2 - 1) right) (· ≤ ·) ∧
      ∀ k, ¬Inside c (c + (n1 - a) + (n2 - b) - 1) k → arr' k = arr k := by
  induction hN : (n1 - a).toNat + (n2 - b).toNat generalizing a b c arr with
  | zero => exact mergeBack_drain ha hb hc hn1 hn2 ha' hb' (by omega) hend
  | succ N ih =>
    by_cases hgo : a < n1 ∧ b < n2
    · rw [mergeBack_step ha hb hc hn1 hn2 hgo (by omega)]
      rw [slice_cons (by omega : a ≤ n1 - 1), slice_cons (by omega : b ≤ n2 - 1)]
      split_ifs with hle
      · obtain ⟨arr', hrun, hslice, hframe⟩ := @ih (a + 1) b (c + 1)
          (Function.update arr c (left a)) (by omega) hb (by omega) (by omega) hb' (by omega)
          (by omega)
        have hlast : c + 1 + (n1 - (a + 1)) + (n2 - b) - 1 = c + (n1 - a) + (n2 - b) - 1 := by ring
        rw [hlast] at hslice hframe
        obtain ⟨hslice, hframe⟩ := slice_front (by omega) hslice hframe
        refine ⟨arr', hrun, ?_, hframe⟩
        rw [hslice, List.cons_merge_cons_pos _ _ _ (by simpa using hle),
          slice_cons (by omega : b ≤ n2 - 1)]
      · obtain ⟨arr', hrun, hslice, hframe⟩ := @ih a (b + 1) (c + 1)
          (Function.update arr c (right b)) ha (by omega) (by omega) ha' (by omega) (by omega)
          (by omega)
        have hlast : c + 1 + (n1 - a) + (n2 - (b + 1)) - 1 = c + (n1 - a) + (n2 - b) - 1 := by ring
        rw [hlast] at hslice hframe
        obtain ⟨hslice, hframe⟩ := slice_front (by omega) hslice hframe
        refine ⟨arr', hrun, ?_, hframe⟩
        rw [hslice, List.cons_merge_cons_neg _ _ _ (by simpa using hle),
          slice_cons (by omega : a ≤ n1 - 1)]
    · exact mergeBack_drain ha hb hc hn1 hn2 ha' hb' hgo hend

/-- `merge` merges two neighbouring ranges of the array. -/
theorem merge_spec {l m r : ℤ} (hl : 0 ≤ l) (hlm : l ≤ m) (hmr : m < r) (hr : r ≤ last)
    (s : Halves α) : ∃ s', merge last s l m r = some s' ∧
      slice l r s'.arr = List.merge (slice l m s.arr) (slice (m + 1) r s.arr) (· ≤ ·) ∧
      ∀ k, ¬Inside l r k → s'.arr k = s.arr k := by
  have hn1 : ((m - l + 1).toNat : ℤ) = m - l + 1 := Int.toNat_of_nonneg (by omega)
  have hn2 : ((r - m).toNat : ℤ) = r - m := Int.toNat_of_nonneg (by omega)
  obtain ⟨left, hrun₁, -, hleft⟩ := @copyLoop_spec α last s.arr l hl (m - l + 1).toNat 0 s.left
    le_rfl (by omega)
  obtain ⟨right, hrun₂, -, hright⟩ := @copyLoop_spec α last s.arr (m + 1) (by omega) (r - m).toNat 0
    s.right le_rfl (by omega)
  obtain ⟨arr, hrun₃, hslice, hframe⟩ := @mergeBack_spec α last _ left right (m - l + 1) (r - m)
    0 0 l s.arr le_rfl le_rfl hl (by omega) (by omega) (by omega) (by omega) (by omega)
  have hshift : ∀ {dst : ℤ → α} {first n : ℤ}, (∀ k, 0 ≤ k → k < n → dst k = s.arr (first + k)) →
      slice 0 (n - 1) dst = slice first (first + n - 1) s.arr := by
    intro dst first n hdst
    refine List.ext_getElem ?_ fun k hk hk' => ?_
    · rw [length_slice, length_slice]
      omega
    · rw [length_slice] at hk
      rw [getElem_slice, getElem_slice, zero_add, hdst k (by omega) (by omega)]
  have hlast : l + (m - l + 1 - 0) + (r - m - 0) - 1 = r := by ring
  rw [hlast] at hslice hframe
  refine ⟨⟨arr, left, right⟩, ?_, ?_, hframe⟩
  · rw [merge]
    simp only [hrun₁, hrun₂, hrun₃, Option.bind_eq_bind, Option.bind_some, Option.pure_def]
  · rw [hslice, hshift fun k hk hk' => hleft k hk (by omega),
      hshift fun k hk hk' => hright k hk (by omega),
      show l + (m - l + 1) - 1 = m by ring, show m + 1 + (r - m) - 1 = r by ring]

/-- `_merge_sort` sorts the cells from `l` to `r`. -/
theorem mergeSortRange_spec {fuel : ℕ} {l r : ℤ} (hl : 0 ≤ l) (hr : r ≤ last) (hpos : 0 < fuel)
    (hfuel : r - l + 1 ≤ fuel) (s : Halves α) :
    ∃ s', mergeSortRange last fuel s l r = some s' ∧
      (slice l r s'.arr).Perm (slice l r s.arr) ∧ (slice l r s'.arr).Pairwise (· ≤ ·) ∧
      ∀ k, ¬Inside l r k → s'.arr k = s.arr k := by
  induction fuel generalizing l r s with
  | zero => omega
  | succ fuel ih =>
    by_cases hlr : l < r
    · set m := l + (r - l) / 2 with hm
      have hlm : l ≤ m ∧ m < r := by omega
      obtain ⟨s₁, hrun₁, hperm₁, hsorted₁, hframe₁⟩ :=
        @ih l m hl (by omega) (by omega) (by omega) s
      obtain ⟨s₂, hrun₂, hperm₂, hsorted₂, hframe₂⟩ :=
        @ih (m + 1) r (by omega) hr (by omega) (by omega) s₁
      obtain ⟨s₃, hrun₃, hslice, hframe₃⟩ := merge_spec hl hlm.1 hlm.2 hr s₂
      have hleft : slice l m s₂.arr = slice l m s₁.arr :=
        slice_congr fun k hk => hframe₂ k (by omega)
      have hright : slice (m + 1) r s₁.arr = slice (m + 1) r s.arr :=
        slice_congr fun k hk => hframe₁ k (by omega)
      refine ⟨s₃, ?_, ?_, ?_, fun k hk => ?_⟩
      · rw [mergeSortRange, if_pos hlr]
        simp only [← hm, Option.bind_eq_bind, hrun₁, hrun₂, hrun₃, Option.bind_some]
      · rw [hslice, hleft, slice_append (by omega : l ≤ m + 1) (by omega) s.arr]
        exact (List.merge_perm_append _).trans (hperm₁.append (hright ▸ hperm₂))
      · rw [hslice, hleft]
        exact hsorted₁.merge hsorted₂
      · rw [hframe₃ k hk, hframe₂ k (by omega), hframe₁ k (by omega)]
    · refine ⟨s, by rw [mergeSortRange, if_neg hlr], .refl _, ?_, fun _ _ => rfl⟩
      rw [List.pairwise_iff_getElem]
      intro i j hi hj hij
      rw [length_slice] at hj
      omega

/-- If `r` lies behind the array, the last merge reads `arr[r]`. -/
theorem mergeSortRange_overrun (fuel : ℕ) {l r : ℤ} (hlr : l < r) (hr : last < r) (s : Halves α) :
    mergeSortRange last fuel s l r = none := by
  cases fuel with
  | zero => rfl
  | succ fuel =>
    have hmerge : ∀ s : Halves α, merge last s l (l + (r - l) / 2) r = none := by
      intro s
      rw [merge]
      cases copyLoop last s.arr l (l + (r - l) / 2 - l + 1).toNat 0 s.left with
      | none => rfl
      | some left =>
        simp only [Option.bind_eq_bind, Option.bind_some]
        rw [copyLoop_overrun (by omega) (by omega)]
        rfl
    rw [mergeSortRange, if_pos hlr]
    exact Option.bind_eq_none_iff.mpr fun s₁ _ =>
      Option.bind_eq_none_iff.mpr fun s₂ _ => hmerge s₂

/-! ## `bubble_sort` -/

/-- A `size_t` of 64 bits. -/
def sizeT (x : ℤ) : ℤ := x % 2 ^ 64

theorem sizeT_eq {x : ℤ} (h : 0 ≤ x) (h' : x < 2 ^ 64) : sizeT x = x := Int.emod_eq_of_lt h h'

/-- The inner loop of `bubble_sort` (bubble.h:3–7) from `j` on, with at most `fuel` tests of its
    condition. -/
def bubbleInner (size : ℕ) (i : ℤ) : (fuel : ℕ) → (j : ℤ) → (arr : ℤ → α) → Option (ℤ → α)
  | 0, _, _ => none
  | fuel + 1, j, arr =>
    if sizeT j < sizeT (size - sizeT (int (i + 1))) then do
      let x ← load 0 (size - 1) arr j
      let y ← load 0 (size - 1) arr (int (j + 1))
      if y < x then
        let arr ← swap 0 (size - 1) arr j (int (j + 1))
        bubbleInner size i fuel (int (j + 1)) arr
      else bubbleInner size i fuel (int (j + 1)) arr
    else some arr

/-- The outer loop (bubble.h:2–8) from `i` on. -/
def bubbleOuter (size : ℕ) : (fuel : ℕ) → (i : ℤ) → (arr : ℤ → α) → Option (ℤ → α)
  | 0, _, _ => none
  | fuel + 1, i, arr =>
    if sizeT i < sizeT (size - 1) then do
      let arr ← bubbleInner size i (size + 1) 0 arr
      bubbleOuter size fuel (int (i + 1)) arr
    else some arr

/-- `bubble_sort(arr, size)` (bubble.h:1–9). -/
def bubbleSort (arr : ℤ → α) (size : ℕ) : Option (ℤ → α) := bubbleOuter size (size + 1) 0 arr

section Bubble

variable {size : ℕ} (hsize : (size : ℤ) ≤ 2 ^ 31)

include hsize

/-- A pass carries the largest of the first cells to the end of them. -/
theorem bubbleInner_spec {i : ℤ} (hi : 0 ≤ i) (hi' : i + 1 ≤ size - 1) {fuel : ℕ} {j : ℤ}
    {arr : ℤ → α} (hj : 0 ≤ j) (hj' : j ≤ size - (i + 1)) (hfuel : size - (i + 1) - j < fuel)
    (hmax : ∀ k, 0 ≤ k → k < j → arr k ≤ arr j) :
    ∃ arr', bubbleInner size i fuel j arr = some arr' ∧
      Permutes 0 (size - (i + 1)) arr arr' ∧
      ∀ k, 0 ≤ k → k < size - (i + 1) → arr' k ≤ arr' (size - (i + 1)) := by
  have hbound : sizeT (size - sizeT (int (i + 1))) = size - (i + 1) := by
    rw [int_eq (by omega) (by omega), sizeT_eq (x := i + 1) (by omega) (by omega),
      sizeT_eq (by omega) (by omega)]
  induction fuel generalizing j arr with
  | zero => omega
  | succ fuel ih =>
    by_cases hlt : j < size - (i + 1)
    · have hnext : int (j + 1) = j + 1 := int_eq (by omega) (by omega)
      have hrun : bubbleInner size i (fuel + 1) j arr = if arr (j + 1) < arr j then
          bubbleInner size i fuel (j + 1) (arr ∘ Equiv.swap j (j + 1))
          else bubbleInner size i fuel (j + 1) arr := by
        rw [bubbleInner, hbound, sizeT_eq hj (by omega), if_pos hlt, load_eq (by omega), hnext]
        simp only [Option.bind_eq_bind, Option.bind_some,
          load_eq (by omega : Inside 0 (size - 1 : ℤ) (j + 1)),
          swap_eq (by omega : Inside 0 (size - 1 : ℤ) j)
            (by omega : Inside 0 (size - 1 : ℤ) (j + 1))]
      rw [hrun]
      split_ifs with hswap
      · obtain ⟨arr', hrun', hperm, hmax'⟩ := @ih (j + 1) (arr ∘ Equiv.swap j (j + 1)) (by omega)
          (by omega) (by omega) (fun k hk hk' => by
            rw [Function.comp_apply, Function.comp_apply, Equiv.swap_apply_right]
            rcases eq_or_lt_of_le (Int.le_of_lt_add_one hk') with rfl | hkj
            · rw [Equiv.swap_apply_left]
              exact hswap.le
            · rw [Equiv.swap_apply_of_ne_of_ne (by omega) (by omega)]
              exact hmax k hk hkj)
        exact ⟨arr', hrun', (Permutes.swap (by omega) (by omega) arr).trans hperm, hmax'⟩
      · refine ih (by omega) (by omega) (by omega) fun k hk hk' => ?_
        rcases eq_or_lt_of_le (Int.le_of_lt_add_one hk') with rfl | hkj
        · exact not_lt.mp hswap
        · exact (hmax k hk hkj).trans (not_lt.mp hswap)
    · obtain rfl : j = size - (i + 1) := by omega
      refine ⟨arr, ?_, .refl arr, hmax⟩
      rw [bubbleInner, hbound, sizeT_eq hj (by omega), if_neg (lt_irrefl _)]

/-- After `i` passes the last `i` cells are final. -/
theorem bubbleOuter_spec (hpos : 1 ≤ size) {fuel : ℕ} {i : ℤ} {arr : ℤ → α} (hi : 0 ≤ i)
    (hi' : i ≤ size - 1) (hfuel : size - 1 - i < fuel)
    (hfinal : ∀ k k' : ℤ, 0 ≤ k → k < k' → k' ≤ size - 1 → size - i ≤ k' → arr k ≤ arr k') :
    ∃ arr', bubbleOuter size fuel i arr = some arr' ∧ Permutes 0 (size - 1) arr arr' ∧
      Sorted (· ≤ ·) 0 (size - 1) arr' := by
  have hbound : sizeT (size - 1) = size - 1 := sizeT_eq (by omega) (by omega)
  induction fuel generalizing i arr with
  | zero => omega
  | succ fuel ih =>
    by_cases hlt : i < size - 1
    · obtain ⟨arr₁, hrun₁, hperm₁, hmax₁⟩ := @bubbleInner_spec α _ size hsize i hi (by omega)
        (size + 1) 0 arr le_rfl (by omega) (by omega) (fun k _ _ => by omega)
      obtain ⟨arr', hrun', hperm', hsorted⟩ := @ih (i + 1) arr₁ (by omega) (by omega) (by omega)
        (fun k k' hk hkk hk' hlast => by
          rcases eq_or_lt_of_le hlast with rfl | hlt'
          · exact hmax₁ k hk hkk
          · -- a final cell, above everything that the pass has moved
            rw [hperm₁.outside (i := k') (by omega)]
            rcases le_or_gt k (size - (i + 1)) with hle | hgt
            · exact hperm₁.forall_inside (p := (· ≤ arr k'))
                (fun t ht => hfinal t k' ht.1 (by omega) hk' (by omega)) k ⟨hk, hle⟩
            · rw [hperm₁.outside (by omega)]
              exact hfinal k k' hk hkk hk' (by omega))
      refine ⟨arr', ?_, (hperm₁.mono le_rfl (by omega)).trans hperm', hsorted⟩
      rw [bubbleOuter, hbound, sizeT_eq hi (by omega), if_pos hlt, hrun₁]
      rw [int_eq (by omega) (by omega)]
      exact hrun'
    · obtain rfl : i = size - 1 := by omega
      refine ⟨arr, ?_, .refl arr, fun k k' hk hkk hk' => hfinal k k' hk hkk hk' (by omega)⟩
      rw [bubbleOuter, hbound, if_neg (lt_irrefl _)]

theorem bubbleSort_sorts (hpos : 1 ≤ size) (arr : ℤ → α) :
    ∃ arr', bubbleSort arr size = some arr' ∧ Permutes 0 (size - 1) arr arr' ∧
      Sorted (· ≤ ·) 0 (size - 1) arr' :=
  bubbleOuter_spec hsize hpos le_rfl (by omega) (by omega) fun k k' _ _ _ _ => by omega

end Bubble

/-- Beyond 2^31 elements the first pass gets to `arr[j + 1]` with `j = INT_MAX`. -/
theorem bubbleInner_overflow {size : ℕ} (hsize : 2 ^ 31 < (size : ℤ)) (hsize' : (size : ℤ) < 2 ^ 64)
    (fuel : ℕ) {j : ℤ} (hj : 0 ≤ j) (hj' : j < 2 ^ 31) (arr : ℤ → α) :
    bubbleInner size 0 fuel j arr = none := by
  have hbound : sizeT (size - sizeT (int (0 + 1))) = size - 1 := by
    rw [int_eq (by omega) (by omega), sizeT_eq (x := 0 + 1) (by omega) (by omega),
      sizeT_eq (by omega) (by omega), zero_add]
  induction fuel generalizing j arr with
  | zero => rfl
  | succ fuel ih =>
    rw [bubbleInner, hbound, sizeT_eq hj (by omega), if_pos (by omega), load_eq (by omega)]
    simp only [Option.bind_eq_bind, Option.bind_some]
    by_cases hmax : j = 2 ^ 31 - 1
    · subst hmax
      have hneg : ¬Inside 0 (size - 1 : ℤ) (int (2 ^ 31 - 1 + 1)) := by
        have hwrap : int (2 ^ 31 - 1 + 1) = -2 ^ 31 := by decide
        omega
      rw [load_eq_none hneg]
      rfl
    · rw [int_eq (by omega) (by omega), load_eq (by omega), Option.bind_some,
        swap_eq (by omega) (by omega)]
      split_ifs with hswap
      · exact ih (by omega) (by omega) _
      · exact ih (by omega) (by omega) _

/-! ## The lengths that are sorted -/

/-- A sort returned an array, and its first `len` cells hold the sorted permutation of those it was
    given. -/
def SortsFirst (len : ℕ) (arr : ℤ → ℤ) (result : Option (ℤ → ℤ)) : Prop :=
  ∃ arr', result = some arr' ∧ (slice 0 (len - 1) arr').Perm (slice 0 (len - 1) arr) ∧
    Sorted (· ≤ ·) 0 (len - 1) arr'

/-- One small element behind larger ones, if it stays where it is. -/
theorem not_sortsFirst_of_last {len : ℕ} (hlen : 2 ≤ len) {result : Option (ℤ → ℤ)}
    (hlast : ∀ arr', result = some arr' → arr' (len - 1) = 0) :
    ¬SortsFirst len (fun i => if i = (len : ℤ) - 1 then 0 else 1) result := by
  rintro ⟨arr', hres, hperm, hsorted⟩
  have hzero := hlast arr' hres
  have hone : (1 : ℤ) ∈ slice 0 (len - 1) arr' := by
    rw [hperm.mem_iff, slice_eq_map, List.mem_map]
    exact ⟨0, mem_slice_id.mpr (by omega), if_neg (by omega)⟩
  rw [slice_eq_map, List.mem_map] at hone
  obtain ⟨k, hk, hk1⟩ := hone
  have hkin := mem_slice_id.mp hk
  rcases eq_or_lt_of_le hkin.2 with rfl | hlt
  · omega
  · have hle := hsorted k (len - 1) hkin.1 hlt le_rfl
    omega

theorem mergeSort_sortsFirst_iff (len : ℕ) : (∀ arr left right,
    SortsFirst len arr ((mergeSort ⟨arr, left, right⟩ len).map Halves.arr)) ↔ len = 0 := by
  constructor
  · intro hsorts
    by_contra hlen
    rcases lt_or_ge (len : ℤ) (2 ^ 31) with hlt | hge
    · obtain ⟨arr', hrun, -⟩ := hsorts (fun _ => 0) (fun _ => 0) (fun _ => 0)
      rw [mergeSort, int_eq (by omega) hlt, mergeSortRange_overrun _ (by omega) (by omega)] at hrun
      cases hrun
    · -- `r` is `len` minus a multiple of 2^32, and so in front of the last cell
      have hr : int len < len - 1 := by
        have hlt := Int.bmod_lt (x := len) (m := 2 ^ 32) (by decide)
        have hmul := Int.bmod_add_bdiv len (2 ^ 32)
        unfold int
        push_cast at hlt hmul ⊢
        omega
      refine not_sortsFirst_of_last (by omega) (fun arr' hrun => ?_)
        (hsorts (fun i => if i = (len : ℤ) - 1 then 0 else 1) (fun _ => 0) fun _ => 0)
      obtain ⟨s', hrun', -, -, hframe⟩ := @mergeSortRange_spec ℤ (len - 1) _ (len + 1) 0 (int len)
        le_rfl (by omega) (by omega) (by omega)
        ⟨fun i => if i = (len : ℤ) - 1 then 0 else 1, fun _ => 0, fun _ => 0⟩
      rw [mergeSort, hrun'] at hrun
      obtain rfl := Option.some.inj hrun
      rw [hframe _ (by omega)]
      exact if_pos rfl
  · rintro rfl arr left right
    exact ⟨arr, rfl, .refl _, fun i j hi hij hj => by simp at hj; omega⟩

theorem bubbleSort_sortsFirst_iff {len : ℕ} (hlen : (len : ℤ) < 2 ^ 64) :
    (∀ arr, SortsFirst len arr (bubbleSort arr len)) ↔ 1 ≤ len ∧ (len : ℤ) ≤ 2 ^ 31 := by
  constructor
  · intro hsorts
    obtain ⟨arr', hrun, -⟩ := hsorts fun _ => 0
    by_contra hno
    rcases Nat.eq_zero_or_pos len with rfl | hpos
    · cases hrun
    · have hbound : sizeT (len - 1) = len - 1 := sizeT_eq (by omega) (by omega)
      rw [bubbleSort, bubbleOuter, hbound, sizeT_eq le_rfl (by decide), if_pos (by omega),
        bubbleInner_overflow (by omega) hlen _ le_rfl (by decide)] at hrun
      cases hrun
  · rintro ⟨hpos, hmax⟩ arr
    obtain ⟨arr', hrun, hperm, hsorted⟩ := bubbleSort_sorts hmax hpos arr
    exact ⟨arr', hrun, hperm.perm_slice, hsorted⟩

/-- **Which arrays merge sort and bubble sort sort.** `merge_sort(arr, len, …)` sorts every array
    of `len` elements without an access outside exactly for `len = 0`, while `_merge_sort` from 0 to
    `len - 1` does for all lengths that are `int`s; `bubble_sort(arr, len)` does exactly for
    `1 ≤ len ≤ 2^31`. -/
theorem merge_bubble_iff {len : ℕ} (hlen : (len : ℤ) < 2 ^ 64) :
    ((∀ arr left right, SortsFirst len arr ((mergeSort ⟨arr, left, right⟩ len).map Halves.arr)) ↔
      len = 0) ∧
    ((len : ℤ) < 2 ^ 31 → ∀ arr left right, SortsFirst len arr
      ((mergeSortRange (len - 1) (len + 1) ⟨arr, left, right⟩ 0 (len - 1)).map Halves.arr)) ∧
    ((∀ arr, SortsFirst len arr (bubbleSort arr len)) ↔ 1 ≤ len ∧ (len : ℤ) ≤ 2 ^ 31) := by
  refine ⟨mergeSort_sortsFirst_iff len, fun _ arr left right => ?_, bubbleSort_sortsFirst_iff hlen⟩
  obtain ⟨s', hrun, hperm, hsorted, -⟩ := @mergeSortRange_spec ℤ (len - 1) _ (len + 1) 0 (len - 1)
    le_rfl le_rfl (by omega) (by omega) ⟨arr, left, right⟩
  exact ⟨s'.arr, by rw [hrun]; rfl, hperm, .of_pairwise_slice hsorted⟩

/-- Lengths of three, and of none. -/
theorem merge_bubble_three :
    (∀ arr, SortsFirst 3 arr (bubbleSort arr 3)) ∧
    ∀ arr left right, SortsFirst 0 arr ((mergeSort ⟨arr, left, right⟩ 0).map Halves.arr) :=
  ⟨(merge_bubble_iff (by decide : ((3 : ℕ) : ℤ) < 2 ^ 64)).2.2.mpr (by decide),
    (merge_bubble_iff (by decide : ((0 : ℕ) : ℤ) < 2 ^ 64)).1.mpr rfl⟩

/-- Merge sort of one element reads the one behind it, and bubble sort of none reads the first. -/
theorem merge_bubble_overrun :
    (mergeSort (⟨fun _ => 0, fun _ => 0, fun _ => 0⟩ : Halves ℤ) 1).isNone ∧
    (bubbleSort (fun _ => (0 : ℤ)) 0).isNone := by
  decide +kernel

end HorizonOS.Libc
