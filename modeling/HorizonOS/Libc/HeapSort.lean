import HorizonOS.Lib.BinaryHeap
import HorizonOS.Lib.Cells

/-!
# The binary heap of ints, and heapsort

`libc/datastructures/trees/heap/heap.c`: `percolateDown`, `_percolateDown`, `build_heap` and
`heapsort`. The array has the cells `1 … last`, where `last` is `arr_len`. Indices are `int`s: `left`
wraps around from 2^30 on, and `heap_size = arr_len` converts a `size_t`.

The two functions that move an element down differ in the sense in which they ask the comparator;
`sift` is what they have in common.

* `best_spec`, `sift_spec`: a sift restores the order it asks for.
* `heapsort_spec`: `heapsort` sorts as many cells as fit the conversion.
* `heapsort_sorts_iff`: so it sorts arrays of less than 2^30 elements, and no others.
-/

namespace HorizonOS.Libc.Heap

open HorizonOS.Lib.Cells HorizonOS.Lib.BinaryHeap

variable {α : Type}

/-- `left(i)` (lines 17–19). -/
def left (i : ℤ) : ℤ := int (2 * i)

/-- `right(i)` (lines 21–23). -/
def right (i : ℤ) : ℤ := int (2 * i + 1)

/-- The choice of a child (lines 36–42 and 52–57): `child` in place of `swapi`, if the heap has it
    and the comparison says so. -/
def pick (last : ℤ) (swaps : α → α → Bool) (heapSize : ℤ) (arr : ℤ → α) (swapi child : ℤ) :
    Option ℤ :=
  if child ≤ heapSize then do
    let x ← load 1 last arr swapi
    let y ← load 1 last arr child
    return if swaps x y then child else swapi
  else some swapi

/-- Both choices: `swapi`. -/
def best (last : ℤ) (swaps : α → α → Bool) (heapSize : ℤ) (arr : ℤ → α) (i : ℤ) : Option ℤ := do
  let swapi ← pick last swaps heapSize arr i (left i)
  pick last swaps heapSize arr swapi (right i)

/-- What `percolateDown` and `_percolateDown` have in common, with `fuel` nested calls at most;
    `swaps x y` tells whether a parent `x` changes places with a child `y`. -/
def sift (last : ℤ) (swaps : α → α → Bool) (heapSize : ℤ) :
    (fuel : ℕ) → (arr : ℤ → α) → (i : ℤ) → Option (ℤ → α)
  | 0, _, _ => none
  | fuel + 1, arr, i => do
    let swapi ← best last swaps heapSize arr i
    if swapi ≠ i then
      let arr ← swap 1 last arr i swapi
      sift last swaps heapSize fuel arr swapi
    else return arr

/-- `percolateDown(arr, hctx, i)` (lines 34–48). -/
def percolateDown (last : ℤ) (comp : α → α → Bool) (heapSize : ℤ) (arr : ℤ → α) (i : ℤ) :
    Option (ℤ → α) :=
  sift last (fun x y => !comp x y) heapSize (last.toNat + 1) arr i

/-- The loop of `build_heap` (lines 96–98), with the cells up to `i` to go. -/
def buildLoop (last : ℤ) (comp : α → α → Bool) (heapSize : ℤ) : (i : ℕ) → (arr : ℤ → α) →
    Option (ℤ → α)
  | 0, arr => some arr
  | i + 1, arr => do
    let arr ← percolateDown last comp heapSize arr (i + 1)
    buildLoop last comp heapSize i arr

/-- `build_heap(arr, hctx)` (lines 94–99): the array; `heap_size` becomes `arr_len` as an `int`. -/
def buildHeap (arrLen : ℕ) (comp : α → α → Bool) (arr : ℤ → α) : Option (ℤ → α) :=
  buildLoop arrLen comp (int arrLen) (int arrLen).toNat arr

/-- The loop of `heapsort` (lines 104–108), with the cells up to `i` to go. -/
def heapsortLoop (last : ℤ) (comp : α → α → Bool) : (i : ℕ) → (heapSize : ℤ) → (arr : ℤ → α) →
    Option (ℤ → α)
  | 0, _, arr => some arr
  | i + 1, heapSize, arr => do
    let arr ← swap 1 last arr (i + 1) 1
    let heapSize := int (heapSize - 1)
    let arr ← percolateDown last comp heapSize arr 1
    heapsortLoop last comp i heapSize arr

/-- `heapsort(arr, hctx)` (lines 102–109). -/
def heapsort (arrLen : ℕ) (comp : α → α → Bool) (arr : ℤ → α) : Option (ℤ → α) := do
  let arr ← buildHeap arrLen comp arr
  heapsortLoop arrLen comp (int arrLen).toNat (int arrLen) arr

/-! ## Sifting down -/

/-- The comparison and the order it establishes: a parent that keeps its place stands in the
    relation to the child, one that does not stands in it the other way round. -/
structure Decides (swaps : α → α → Bool) (r : α → α → Prop) : Prop where
  keep : ∀ x y, swaps x y = false → r x y
  swap : ∀ x y, swaps x y = true → r y x

section Sift

variable {swaps : α → α → Bool} {r : α → α → Prop} [Std.Refl r] [IsTrans α r]
  (hd : Decides swaps r) {last n : ℤ} (hlast : n ≤ last) {i : ℤ} {arr : ℤ → α}

theorem pick_eq {swapi child : ℤ} (hin : Inside 1 last swapi) (hin' : child ≤ n → Inside 1 last child) :
    pick last swaps n arr swapi child =
      some (if child ≤ n ∧ swaps (arr swapi) (arr child) = true then child else swapi) := by
  unfold pick
  by_cases hc : child ≤ n
  · rw [if_pos hc, load_eq hin]
    simp only [Option.bind_eq_bind, Option.bind_some, load_eq (hin' hc), hc, true_and,
      Option.pure_def]
  · rw [if_neg hc, if_neg fun h => hc h.1]

include hd hlast

/-- The choice is `i` itself if it stands in the relation to its children, and otherwise a child
    that stands in it to `i` and to the other one. -/
theorem best_spec (hi : 1 ≤ i) (hil : i ≤ last) (hi' : i < 2 ^ 30) :
    ∃ c, best last swaps n arr i = some c ∧
      (c = i ∧ (∀ k, k / 2 = i → k ≤ n → r (arr i) (arr k)) ∨
        c / 2 = i ∧ c ≤ n ∧ (∀ k, k / 2 = i → k ≤ n → r (arr c) (arr k)) ∧ r (arr c) (arr i)) := by
  have hleft : left i = 2 * i := int_eq (by omega) (by omega)
  have hright : right i = 2 * i + 1 := int_eq (by omega) (by omega)
  have hchild : ∀ k, k / 2 = i → k = 2 * i ∨ k = 2 * i + 1 := fun k hk => by omega
  rw [best, hleft, hright, pick_eq ⟨hi, hil⟩ (by omega)]
  simp only [Option.bind_eq_bind, Option.bind_some]
  by_cases hl : 2 * i ≤ n ∧ swaps (arr i) (arr (2 * i)) = true
  · -- the left child is better than `i`
    have hli := hd.swap _ _ hl.2
    rw [if_pos hl, pick_eq (by omega) (by omega)]
    refine ⟨_, rfl, .inr ?_⟩
    by_cases hr : 2 * i + 1 ≤ n ∧ swaps (arr (2 * i)) (arr (2 * i + 1)) = true
    · have hrl := hd.swap _ _ hr.2
      rw [if_pos hr]
      refine ⟨by omega, hr.1, fun k hk hkn => ?_, IsTrans.trans _ _ _ hrl hli⟩
      rcases hchild k hk with rfl | rfl
      · exact hrl
      · exact Std.Refl.refl _
    · rw [if_neg hr]
      refine ⟨by omega, hl.1, fun k hk hkn => ?_, hli⟩
      rcases hchild k hk with rfl | rfl
      · exact Std.Refl.refl _
      · exact hd.keep _ _ (Bool.eq_false_iff.mpr fun h => hr ⟨hkn, h⟩)
  · have hil' : 2 * i ≤ n → r (arr i) (arr (2 * i)) := fun h =>
      hd.keep _ _ (Bool.eq_false_iff.mpr fun h' => hl ⟨h, h'⟩)
    rw [if_neg hl, pick_eq ⟨hi, hil⟩ (by omega)]
    refine ⟨_, rfl, ?_⟩
    by_cases hr : 2 * i + 1 ≤ n ∧ swaps (arr i) (arr (2 * i + 1)) = true
    · have hri := hd.swap _ _ hr.2
      rw [if_pos hr]
      refine .inr ⟨by omega, hr.1, fun k hk hkn => ?_, hri⟩
      rcases hchild k hk with rfl | rfl
      · exact IsTrans.trans _ _ _ hri (hil' hkn)
      · exact Std.Refl.refl _
    · rw [if_neg hr]
      refine .inl ⟨rfl, fun k hk hkn => ?_⟩
      rcases hchild k hk with rfl | rfl
      · exact hil' hkn
      · exact hd.keep _ _ (Bool.eq_false_iff.mpr fun h => hr ⟨hkn, h⟩)

/-- A sift moves the element down to its place. -/
theorem sift_spec {fuel : ℕ} {j : ℤ} (hj : 1 ≤ j) (hji : j ≤ i) (hil : i ≤ last) (hi : i < 2 ^ 30)
    (hn : n < 2 ^ 30) (hpos : 0 < fuel) (hfuel : n - i < fuel) (h : Down r j n i arr) :
    ∃ arr', sift last swaps n fuel arr i = some arr' ∧ IsHeap r j n arr' ∧
      Permutes i n arr arr' := by
  induction fuel generalizing i arr with
  | zero => omega
  | succ fuel ih =>
    obtain ⟨c, hbest, ⟨rfl, hdone⟩ | ⟨hc, hcn, hbetter, hci⟩⟩ :
        ∃ c, best last swaps n arr i = some c ∧ _ := best_spec hd hlast (by omega) hil hi
    · refine ⟨arr, ?_, h.done hdone, .refl arr⟩
      rw [sift, hbest]
      simp
    · have hne : c ≠ i := by omega
      obtain ⟨arr', hrun, hheap, hperm⟩ := @ih c (arr ∘ Equiv.swap i c) (by omega) (by omega)
        (by omega) (by omega) (by omega) (h.swap hj hji hc hcn hbetter hci)
      refine ⟨arr', ?_, hheap, (Permutes.swap (by omega) (by omega) arr).trans
        (hperm.mono (by omega) le_rfl)⟩
      rw [sift, hbest]
      simp only [Option.bind_eq_bind, Option.bind_some, if_pos hne,
        swap_eq (by omega : Inside 1 last i) (by omega : Inside 1 last c), hrun]

end Sift

/-! ## `heapsort` -/

/-- A comparator of the form "not smaller than". -/
structure NotSmaller (comp : α → α → Bool) : Prop where
  total : ∀ x y, comp x y = true ∨ comp y x = true
  trans : ∀ x y z, comp x y = true → comp y z = true → comp x z = true

section Sorting

variable {comp : α → α → Bool} (hcomp : NotSmaller comp) {last n : ℤ}

/-- The comparator as a relation. -/
abbrev Comp (comp : α → α → Bool) (x y : α) : Prop := comp x y = true

include hcomp in
theorem NotSmaller.refl : Std.Refl (Comp comp) := ⟨fun x => (hcomp.total x x).elim id id⟩

include hcomp in
theorem NotSmaller.isTrans : IsTrans α (Comp comp) := ⟨hcomp.trans⟩

include hcomp in
/-- `percolateDown` puts elements that are not smaller above the others. -/
theorem NotSmaller.decides : Decides (fun x y => !comp x y) (Comp comp) where
  keep x y h := by simpa using h
  swap x y h := (hcomp.total x y).resolve_left (by simpa using h)

include hcomp

theorem percolateDown_spec (hlast : n ≤ last) (hn : n < 2 ^ 30) {i j : ℤ} (hj : 1 ≤ j)
    (hji : j ≤ i) (hil : i ≤ last) (hi : i < 2 ^ 30) {arr : ℤ → α}
    (h : Down (Comp comp) j n i arr) : ∃ arr', percolateDown last comp n arr i = some arr' ∧
      IsHeap (Comp comp) j n arr' ∧ Permutes i n arr arr' := by
  have := hcomp.refl
  have := hcomp.isTrans
  exact sift_spec hcomp.decides hlast hj hji hil hi hn (Nat.succ_pos _) (by omega) h

theorem buildLoop_spec (hlast : n ≤ last) (hn : n < 2 ^ 30) {i : ℕ} (hi : (i : ℤ) ≤ n)
    {arr : ℤ → α} (h : IsHeap (Comp comp) (i + 1) n arr) :
    ∃ arr', buildLoop last comp n i arr = some arr' ∧ IsHeap (Comp comp) 1 n arr' ∧
      Permutes 1 n arr arr' := by
  induction i generalizing arr with
  | zero => exact ⟨arr, rfl, by simpa using h, .refl arr⟩
  | succ i ih =>
    push_cast at hi h
    obtain ⟨arr₁, hrun₁, hheap₁, hperm₁⟩ := percolateDown_spec hcomp hlast hn (by omega) le_rfl
      (by omega) (by omega) (h.down (by omega))
    obtain ⟨arr', hrun', hheap', hperm'⟩ := ih (by omega) hheap₁
    refine ⟨arr', ?_, hheap', (hperm₁.mono (by omega) le_rfl).trans hperm'⟩
    rw [buildLoop, hrun₁]
    exact hrun'

/-- `build_heap` orders the cells up to `n`. -/
theorem buildHeap_spec {arrLen : ℕ} (hn : int arrLen < 2 ^ 30) (hle : int arrLen ≤ arrLen)
    (arr : ℤ → α) : ∃ arr', buildHeap arrLen comp arr = some arr' ∧
      IsHeap (Comp comp) 1 (int arrLen) arr' ∧ Permutes 1 (int arrLen) arr arr' := by
  rcases le_or_gt (int arrLen) 0 with hneg | hpos
  · refine ⟨arr, ?_, fun k hk hkn => by omega, .refl arr⟩
    rw [buildHeap, Int.toNat_of_nonpos hneg, buildLoop]
  · exact buildLoop_spec hcomp hle hn (by omega) fun k hk hkn hle' => by omega

omit hcomp in
/-- The root of a heap, put behind the others, is final together with the cells behind it. -/
theorem final_cons {i : ℤ} {arr arr' : ℤ → α} (hheap : IsHeap (Comp comp) 1 (i + 1) arr)
    [Std.Refl (Comp comp)] [IsTrans α (Comp comp)] (hperm : Permutes 1 (i + 1) arr arr')
    (hroot : arr' (i + 1) = arr 1)
    (hfinal : ∀ k k', 1 ≤ k → k < k' → i + 1 < k' → k' ≤ n → Comp comp (arr k') (arr k)) {k k' : ℤ}
    (hk : 1 ≤ k) (hkk : k < k') (hik : i < k') (hk' : k' ≤ n) : Comp comp (arr' k') (arr' k) := by
  rcases eq_or_lt_of_le (show i + 1 ≤ k' by omega) with rfl | hlt
  · rw [hroot]
    exact hperm.forall_inside (p := Comp comp (arr 1)) (fun t ht => hheap.root ht.1 ht.2) k
      ⟨hk, by omega⟩
  · rw [hperm.outside (i := k') (by omega)]
    rcases le_or_gt k (i + 1) with hle | hgt
    · exact hperm.forall_inside (p := Comp comp (arr k'))
        (fun t ht => hfinal t k' ht.1 (by omega) hlt hk') k ⟨hk, hle⟩
    · rw [hperm.outside (by omega)]
      exact hfinal k k' hk hkk hlt hk'

/-- The cells behind `i` are final, and those up to `i` a heap. -/
theorem heapsortLoop_spec (hlast : n ≤ last) (hn : n < 2 ^ 30) {i : ℕ} (hi : (i : ℤ) ≤ n)
    {arr : ℤ → α} (hheap : IsHeap (Comp comp) 1 i arr)
    (hfinal : ∀ k k', 1 ≤ k → k < k' → (i : ℤ) < k' → k' ≤ n → Comp comp (arr k') (arr k)) :
    ∃ arr', heapsortLoop last comp i i arr = some arr' ∧ Permutes 1 n arr arr' ∧
      Sorted (fun x y => Comp comp y x) 1 n arr' := by
  have := hcomp.refl
  have := hcomp.isTrans
  induction i generalizing arr with
  | zero =>
    exact ⟨arr, rfl, .refl arr, fun k k' hk hkk hk' =>
      hfinal k k' hk hkk (by push_cast; omega) hk'⟩
  | succ i ih =>
    push_cast at hi hheap hfinal
    have hdown := hheap.down_swap
    rw [add_sub_cancel_right] at hdown
    obtain ⟨arr₁, hrun₁, hheap₁, hperm₁⟩ := percolateDown_spec hcomp (by omega : (i : ℤ) ≤ last)
      (by omega) le_rfl le_rfl (by omega) (by decide) hdown
    have hswap : Permutes 1 (i + 1) arr (arr ∘ Equiv.swap 1 (i + 1 : ℤ)) :=
      .swap (by omega) (by omega) arr
    have hperm : Permutes 1 (i + 1) arr arr₁ := hswap.trans (hperm₁.mono le_rfl (by omega))
    have hlastcell : arr₁ (i + 1) = arr 1 := by
      rw [hperm₁.outside (by omega), Function.comp_apply, Equiv.swap_apply_right]
    obtain ⟨arr', hrun', hperm', hsorted⟩ := ih (by omega) hheap₁
      fun k k' => final_cons hheap hperm hlastcell hfinal
    refine ⟨arr', ?_, (hperm.mono le_rfl (by omega)).trans hperm', hsorted⟩
    have hsize : int (((i + 1 : ℕ) : ℤ) - 1) = i := by
      rw [int_eq (by omega) (by omega)]
      push_cast
      ring
    rw [heapsortLoop, swap_eq (by omega) (by omega), Equiv.swap_comm]
    simp only [Option.bind_eq_bind, Option.bind_some, hsize, hrun₁]
    exact hrun'

/-- `heapsort` sorts the cells up to `arr_len` as an `int`. -/
theorem heapsort_spec {arrLen : ℕ} (hn : int arrLen < 2 ^ 30) (hle : int arrLen ≤ arrLen)
    (arr : ℤ → α) : ∃ arr', heapsort arrLen comp arr = some arr' ∧
      Permutes 1 (int arrLen) arr arr' ∧
      Sorted (fun x y => Comp comp y x) 1 (int arrLen) arr' := by
  obtain ⟨arr₁, hrun₁, hheap, hperm₁⟩ := buildHeap_spec hcomp hn hle arr
  rcases le_or_gt (int arrLen) 0 with hneg | hpos
  · refine ⟨arr₁, ?_, hperm₁, fun k k' hk hkk hk' => by omega⟩
    rw [heapsort, hrun₁, Int.toNat_of_nonpos hneg]
    simp only [Option.bind_eq_bind, Option.bind_some, heapsortLoop]
  · have hnat : ((int arrLen).toNat : ℤ) = int arrLen := Int.toNat_of_nonneg hpos.le
    obtain ⟨arr', hrun', hperm', hsorted⟩ := heapsortLoop_spec hcomp hle hn hnat.le
      (by rwa [hnat]) (fun k k' hk hkk hik hk' => by omega)
    refine ⟨arr', ?_, hperm₁.trans hperm', hsorted⟩
    rw [hnat] at hrun'
    rw [heapsort, hrun₁, Option.bind_eq_bind, Option.bind_some, hrun']

end Sorting

/-! ## Lengths -/

/-- The comparator of the tests. -/
theorem notSmaller_ge : NotSmaller fun x y : ℤ => decide (y ≤ x) :=
  ⟨fun x y => by simpa using le_total y x, fun x y z => by simpa using fun h h' => h'.trans h⟩

/-- What `heapsort` is for: it returns the array in ascending order. -/
def HeapSorts (arrLen : ℕ) (comp : α → α → Bool) (arr : ℤ → α) : Prop :=
  ∃ arr', heapsort arrLen comp arr = some arr' ∧ Permutes 1 arrLen arr arr' ∧
    Sorted (fun x y => Comp comp y x) 1 arrLen arr'

/-- The first sift of a heap of 2^30 elements or more looks for a child in front of the array. -/
theorem buildHeap_overflow {arrLen : ℕ} (h : 2 ^ 30 ≤ int arrLen) (comp : α → α → Bool)
    (arr : ℤ → α) : buildHeap arrLen comp arr = none := by
  obtain ⟨i, hi⟩ : ∃ i : ℕ, int arrLen = i + 1 := ⟨(int arrLen - 1).toNat, by omega⟩
  have hmax : int arrLen < 2 ^ 31 := by
    have hlt := Int.bmod_lt (x := arrLen) (m := 2 ^ 32) (by decide)
    unfold int
    push_cast at hlt ⊢
    omega
  have hneg : left (i + 1) = 2 * (i + 1) - 2 ^ 32 := by
    unfold left int
    rw [← Int.sub_mul_bmod_self_right (2 * (i + 1 : ℤ)) 1]
    exact Int.bmod_eq_of_le (by omega) (by omega)
  have hpick : ∀ swaps, pick arrLen swaps (i + 1) arr (i + 1) (left (i + 1)) = none := by
    intro swaps
    unfold pick
    rw [if_pos (by omega)]
    refine Option.bind_eq_none_iff.mpr fun x _ => ?_
    rw [load_eq_none (by omega)]
    rfl
  rw [buildHeap, hi, show (i + 1 : ℤ).toNat = i + 1 by omega, buildLoop, percolateDown, sift, best,
    hpick]
  rfl

/-- **Heapsort sorts arrays of less than 2^30 elements.** With every comparator of the form "not
    smaller than" and every contents it returns the array in ascending order, without an access
    outside, exactly if the array has less than 2^30 elements. -/
theorem heapsort_sorts_iff (arrLen : ℕ) :
    (∀ comp : ℤ → ℤ → Bool, NotSmaller comp → ∀ arr, HeapSorts arrLen comp arr) ↔
      arrLen < 2 ^ 30 := by
  constructor
  · intro hsorts
    by_contra hge
    obtain ⟨arr', hrun, -, hsorted⟩ := hsorts _ notSmaller_ge fun i => if i = (arrLen : ℤ) then 0 else 1
    rcases lt_or_ge (int arrLen) (2 ^ 30) with hlt | hlarge
    · -- only the cells up to `arr_len` as an `int` are sorted, not the last one
      have hlast : int arrLen < arrLen := by
        have hmul := Int.bmod_add_bdiv arrLen (2 ^ 32)
        unfold int at hlt ⊢
        push_cast at hlt hmul ⊢
        omega
      obtain ⟨arr₁, hrun₁, hperm, -⟩ := heapsort_spec notSmaller_ge hlt hlast.le
        fun i => if i = (arrLen : ℤ) then 0 else 1
      obtain rfl := Option.some.inj (hrun.symm.trans hrun₁)
      have hend : arr' arrLen = 0 := by
        rw [hperm.outside (by omega), if_pos rfl]
      have hfirst : arr' 1 = 1 := by
        by_cases hin : Inside 1 (int arrLen) 1
        · obtain ⟨j, hj, hval⟩ := hperm.source hin
          rw [hval, if_neg (by omega)]
        · rw [hperm.outside hin, if_neg (by omega)]
      have hle := hsorted 1 arrLen le_rfl (by omega) le_rfl
      rw [hend, hfirst] at hle
      exact absurd hle (by decide)
    · rw [heapsort, buildHeap_overflow hlarge] at hrun
      cases hrun
  · intro hlt comp hcomp arr
    have hint : int arrLen = arrLen := int_eq (by omega) (by omega)
    have hspec := heapsort_spec hcomp (by omega) hint.le arr
    rwa [hint] at hspec

/-- Four elements, in ascending order behind the sort. -/
example : (heapsort 4 (fun x y : ℤ => decide (y ≤ x)) fun i => 7 * i % 5).map (slice 1 4) =
    some [1, 2, 3, 4] := by
  decide +kernel

/-- With 2^30 elements the first sift has no child to look at. -/
theorem heapsort_overflow :
    heapsort (2 ^ 30) (fun x y : ℤ => decide (y ≤ x)) (fun _ => 0) = none := by
  rw [heapsort, buildHeap_overflow (by decide)]
  rfl

end HorizonOS.Libc.Heap
