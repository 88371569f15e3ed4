import Mathlib.Logic.Equiv.Basic
import Mathlib.Order.Defs.Unbundled
import Mathlib.Data.Int.Basic

/-!
# Binary heaps

Cells numbered from 1 in which `k / 2` is the parent of `k`. Every parent stands in a relation `r` to
its children; `r` is total and transitive. An element that is not in its place is moved by exchanges
with its parent or with the better one of its children; `Up` and `Down` say what holds meanwhile.

* `IsHeap.root`: the root stands in the relation to all.
* `Down.swap`, `Down.done`: the element moves down, and has arrived.
* `Up.swap`, `Up.done`: the element moves up, and has arrived.
-/

namespace HorizonOS.Lib.BinaryHeap

variable {α : Type*} {r : α → α → Prop} {j n i : ℤ} {arr : ℤ → α}

/-- The parents from `j` on stand in the relation to their children among the first `n` cells. -/
def IsHeap (r : α → α → Prop) (j n : ℤ) (arr : ℤ → α) : Prop :=
  ∀ k, 2 ≤ k → k ≤ n → j ≤ k / 2 → r (arr (k / 2)) (arr k)

/-- A heap but for the children of `i`. -/
structure Down (r : α → α → Prop) (j n i : ℤ) (arr : ℤ → α) : Prop where
  heap : ∀ k, 2 ≤ k → k ≤ n → j ≤ k / 2 → k / 2 ≠ i → r (arr (k / 2)) (arr k)
  grand : ∀ k, k / 2 = i → k ≤ n → j ≤ i / 2 → r (arr (i / 2)) (arr k)

/-- A heap but for the parent of `i`. -/
structure Up (r : α → α → Prop) (n i : ℤ) (arr : ℤ → α) : Prop where
  heap : ∀ k, 2 ≤ k → k ≤ n → k ≠ i → r (arr (k / 2)) (arr k)
  grand : ∀ k, k / 2 = i → k ≤ n → 2 ≤ i → r (arr (i / 2)) (arr k)

/-- The root stands in the relation to all. -/
theorem IsHeap.root [Std.Refl r] [IsTrans α r] (h : IsHeap r 1 n arr) {k : ℤ} (hk : 1 ≤ k)
    (hn : k ≤ n) : r (arr 1) (arr k) := by
  induction hm : k.toNat using Nat.strongRecOn generalizing k with
  | ind m ih =>
    by_cases hroot : k = 1
    · rw [hroot]
      exact Std.Refl.refl _
    · exact IsTrans.trans _ _ _ (ih (k / 2).toNat (by omega) (by omega) (by omega) rfl)
        (h k (by omega) hn (by omega))

/-! ## Down -/

/-- Exchange with the better child `c`. -/
theorem Down.swap (h : Down r j n i arr) (hj : 1 ≤ j) (hji : j ≤ i) {c : ℤ} (hc : c / 2 = i)
    (hcn : c ≤ n) (hbest : ∀ k, k / 2 = i → k ≤ n → r (arr c) (arr k)) (hci : r (arr c) (arr i)) :
    Down r j n c (arr ∘ Equiv.swap i c) := by
  have hother : ∀ k, k ≠ i → k ≠ c → (arr ∘ Equiv.swap i c) k = arr k := fun k hki hkc => by
    rw [Function.comp_apply, Equiv.swap_apply_of_ne_of_ne hki hkc]
  have hati : (arr ∘ Equiv.swap i c) i = arr c := by
    rw [Function.comp_apply, Equiv.swap_apply_left]
  have hatc : (arr ∘ Equiv.swap i c) c = arr i := by
    rw [Function.comp_apply, Equiv.swap_apply_right]
  constructor
  · intro k hk hkn hjk hkc
    by_cases hk1 : k = c
    · rwa [hk1, hc, hati, hatc]
    · by_cases hk2 : k = i
      · rw [hk2, hati, hother (i / 2) (by omega) (by omega)]
        exact h.grand c hc hcn (by omega)
      · rw [hother k hk2 hk1]
        by_cases hk3 : k / 2 = i
        · rw [hk3, hati]
          exact hbest k hk3 hkn
        · rw [hother (k / 2) hk3 hkc]
          exact h.heap k hk hkn hjk hk3
  · intro k hk hkn _
    rw [hc, hati, hother k (by omega) (by omega)]
    have hedge := h.heap k (by omega) hkn (by omega) (by omega)
    rwa [hk] at hedge

/-- The element has arrived. -/
theorem Down.done (h : Down r j n i arr) (hi : ∀ k, k / 2 = i → k ≤ n → r (arr i) (arr k)) :
    IsHeap r j n arr := by
  intro k hk hkn hjk
  by_cases hki : k / 2 = i
  · rw [hki]
    exact hi k hki hkn
  · exact h.heap k hk hkn hjk hki

/-- The next parent of a heap that is built from its end. -/
theorem IsHeap.down (h : IsHeap r (i + 1) n arr) (hi : 1 ≤ i) : Down r i n i arr where
  heap k hk hkn hik hne := h k hk hkn (by omega)
  grand k hk hkn hle := by omega

/-- The root exchanged with the last cell, which leaves the heap. -/
theorem IsHeap.down_swap (h : IsHeap r 1 n arr) : Down r 1 (n - 1) 1 (arr ∘ Equiv.swap 1 n) where
  heap k hk hkn _ hne := by
    rw [Function.comp_apply, Function.comp_apply,
      Equiv.swap_apply_of_ne_of_ne (by omega) (by omega),
      Equiv.swap_apply_of_ne_of_ne (by omega) (by omega)]
    exact h k hk (by omega) (by omega)
  grand k hk hkn hle := by omega

/-! ## Up -/

/-- Exchange with the parent. -/
theorem Up.swap [IsTrans α r] (h : Up r n i arr) (hi : 2 ≤ i) (hin : i ≤ n)
    (hup : r (arr i) (arr (i / 2))) : Up r n (i / 2) (arr ∘ Equiv.swap i (i / 2)) := by
  have hother : ∀ k, k ≠ i → k ≠ i / 2 → (arr ∘ Equiv.swap i (i / 2)) k = arr k :=
    fun k hki hkp => by rw [Function.comp_apply, Equiv.swap_apply_of_ne_of_ne hki hkp]
  have hati : (arr ∘ Equiv.swap i (i / 2)) i = arr (i / 2) := by
    rw [Function.comp_apply, Equiv.swap_apply_left]
  have hatp : (arr ∘ Equiv.swap i (i / 2)) (i / 2) = arr i := by
    rw [Function.comp_apply, Equiv.swap_apply_right]
  constructor
  · intro k hk hkn hkp
    by_cases hk1 : k = i
    · rwa [hk1, hati, hatp]
    · rw [hother k hk1 hkp]
      by_cases hk2 : k / 2 = i
      · rw [hk2, hati]
        exact h.grand k hk2 hkn hi
      · by_cases hk3 : k / 2 = i / 2
        · -- the sibling
          rw [hk3, hatp]
          exact IsTrans.trans _ _ _ hup (hk3 ▸ h.heap k hk hkn hk1)
        · rw [hother (k / 2) hk2 hk3]
          exact h.heap k hk hkn hk1
  · intro k hk hkn hle
    have hparent := h.heap (i / 2) hle (by omega) (by omega)
    rw [hother (i / 2 / 2) (by omega) (by omega)]
    by_cases hk1 : k = i
    · rwa [hk1, hati]
    · rw [hother k hk1 (by omega)]
      exact IsTrans.trans _ _ _ hparent (hk ▸ h.heap k (by omega) hkn hk1)

/-- The element has arrived. -/
theorem Up.done (h : Up r n i arr) (hi : 2 ≤ i → r (arr (i / 2)) (arr i)) : IsHeap r 1 n arr := by
  intro k hk hkn _
  by_cases hki : k = i
  · rw [hki] at hk ⊢
    exact hi hk
  · exact h.heap k hk hkn hki

/-- A new element behind the last one. -/
theorem IsHeap.up (h : IsHeap r 1 n arr) (x : α) :
    Up r (n + 1) (n + 1) (Function.update arr (n + 1) x) where
  heap k hk hkn hne := by
    rw [Function.update_of_ne hne, Function.update_of_ne (by omega)]
    exact h k hk (by omega) (by omega)
  grand k hk hkn hle := by omega

end HorizonOS.Lib.BinaryHeap
