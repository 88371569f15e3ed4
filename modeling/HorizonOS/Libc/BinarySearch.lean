import HorizonOS.Lib.Cells
import HorizonOS.Lib.Loop

/-!
# Binary search

Model of `binary_search` (`libc/include/algorithms/binary.c`). The search keeps the half-open
interval from `low` to `high`. Where the element in the middle is too small it goes on with
`low = mid`, not with `mid + 1`, so an interval of one such element is searched for ever.

* `searchBody_eq`: one round of the loop.
* `keeps_search`: what an invariant of the search has to satisfy.
* `returns_of_mem`, `returns_of_lt`, `not_returns_of_gap`: the search for an element of the array,
  for one below all of them, and for any other one.
* `binary_search_iff`: for which elements the search is right.
-/

namespace HorizonOS.Libc

open HorizonOS.Lib.Cells HorizonOS.Lib

variable {α : Type} [LinearOrder α]

/-! ## Model -/

/-- `low` and `high`. -/
structure Bounds where
  low : ℤ
  high : ℤ

/-- One round of the loop of `binary_search` (binary.c:4–15), on the cells `0 … last`. -/
def searchBody (last : ℤ) (arr : ℤ → α) (elem : α) (b : Bounds) : Option (ℤ ⊕ Bounds) :=
  if b.low < b.high then do
    let mid := (int (b.low + b.high)).tdiv 2
    let x ← load 0 last arr mid
    if x = elem then return .inl mid
    else if x < elem then return .inr { b with low := mid }
    else if x > elem then return .inr { b with high := mid }
    else return .inr b
  else return .inl (-1)

/-- `binary_search(arr, n, elem)` (binary.c:2–16) for `fuel` rounds: what it returns, or the
    interval it has come to; `none` if it reads outside the array. -/
def binarySearch (fuel : ℕ) (arr : ℤ → α) (n : ℕ) (elem : α) : Option (ℤ ⊕ Bounds) :=
  Loop.run (searchBody (n - 1) arr elem) fuel ⟨0, n⟩

/-! ## One round -/

/-- The interval lies in the array. -/
def InArray (n : ℕ) (b : Bounds) : Prop := 0 ≤ b.low ∧ b.high ≤ n

variable {arr : ℤ → α} {n : ℕ} {elem : α} {b : Bounds}

/-- The middle of an interval is in it, and above its lower end if there are two elements. -/
theorem searchBody_eq (hn : n ≤ (2 ^ 31 - 1) / 2) (hb : InArray n b) (hlt : b.low < b.high) :
    ∃ mid, b.low ≤ mid ∧ mid < b.high ∧ (b.low + 1 < b.high → b.low < mid) ∧
      searchBody (n - 1) arr elem b = some (if arr mid = elem then .inl mid
        else if arr mid < elem then .inr ⟨mid, b.high⟩ else .inr ⟨b.low, mid⟩) := by
  obtain ⟨hlow, hhigh⟩ := hb
  have hmid : (int (b.low + b.high)).tdiv 2 = (b.low + b.high) / 2 := by
    rw [int_eq (by omega) (by omega), Int.tdiv_eq_ediv_of_nonneg (by omega)]
  refine ⟨(b.low + b.high) / 2, by omega, by omega, by omega, ?_⟩
  rw [searchBody, if_pos hlt]
  simp only [hmid, load_eq (by omega : Inside 0 (n - 1 : ℤ) ((b.low + b.high) / 2)),
    Option.bind_eq_bind, Option.bind_some, Option.pure_def]
  split_ifs with heq hless hmore
  · rfl
  · rfl
  · rfl
  · exact absurd (le_antisymm (not_lt.mp hmore) (not_lt.mp hless)) heq

/-- A property `P` of the interval is an invariant if both ways to shrink the interval keep it. -/
theorem keeps_search {P : Bounds → Prop} {Q : ℤ → Prop} (hn : n ≤ (2 ^ 31 - 1) / 2)
    (hend : ∀ b, P b → ¬b.low < b.high → Q (-1))
    (hhit : ∀ b i, P b → Inside 0 (n - 1) i → arr i = elem → Q i)
    (hup : ∀ b i, P b → i < b.high → Inside 0 (n - 1) i → arr i < elem → P ⟨i, b.high⟩)
    (hdown : ∀ b i, P b → b.low ≤ i → Inside 0 (n - 1) i → elem < arr i → P ⟨b.low, i⟩) :
    Loop.Keeps (searchBody (n - 1) arr elem) (fun b => InArray n b ∧ P b) Q := by
  rintro b ⟨hb, hP⟩
  by_cases hlt : b.low < b.high
  · obtain ⟨mid, hlow, hhigh, -, hbody⟩ := @searchBody_eq α _ arr n elem b hn hb hlt
    obtain ⟨hzero, hmax⟩ := hb
    refine ⟨_, hbody, ?_⟩
    split_ifs with heq hless
    · exact hhit b mid hP (by omega) heq
    · exact ⟨⟨by dsimp only; omega, hmax⟩, hup b mid hP hhigh (by omega) hless⟩
    · exact ⟨⟨hzero, by dsimp only; omega⟩, hdown b mid hP hlow (by omega)
        (lt_of_le_of_ne (not_lt.mp hless) (Ne.symm heq))⟩
  · exact ⟨.inl (-1), if_neg hlt, hend b hP hlt⟩

/-- The interval shrinks unless it has one element only, which is too small. -/
theorem width_lt (hn : n ≤ (2 ^ 31 - 1) / 2) (hb : InArray n b) {b' : Bounds}
    (hbody : searchBody (n - 1) arr elem b = some (.inr b'))
    (hone : b.low + 1 = b.high → ¬arr b.low < elem) :
    (b'.high - b'.low).toNat < (b.high - b.low).toNat := by
  by_cases hlt : b.low < b.high
  · obtain ⟨mid, hlow, hhigh, hmid, hbody'⟩ := @searchBody_eq α _ arr n elem b hn hb hlt
    rw [hbody', Option.some_inj] at hbody
    split_ifs at hbody with heq hless
    · cases hbody
      rcases eq_or_lt_of_le (Int.add_one_le_of_lt hlt) with htwo | htwo
      · obtain rfl : mid = b.low := by omega
        exact absurd hless (hone htwo)
      · have := hmid htwo
        dsimp only
        omega
    · cases hbody
      dsimp only
      omega
  · rw [searchBody, if_neg hlt] at hbody
    cases hbody

/-! ## The search -/

section Search

variable (hn : n ≤ (2 ^ 31 - 1) / 2)

theorem inArray_start : InArray n ⟨0, n⟩ := ⟨le_rfl, le_rfl⟩

/-- In a sorted array a smaller element stands in front. -/
theorem lt_of_arr_lt (hsorted : Sorted (· ≤ ·) 0 (n - 1) arr) {i j : ℤ} (hi : Inside 0 (n - 1) i)
    (hj : Inside 0 (n - 1) j) (hlt : arr i < arr j) : i < j := by
  by_contra hge
  rcases eq_or_lt_of_le (not_lt.mp hge) with rfl | hji
  · exact lt_irrefl _ hlt
  · exact hlt.not_ge (hsorted j i hj.1 hji hi.2)

include hn

/-- The interval never leaves the array, and so no access does. -/
theorem binarySearch_ne_none (arr : ℤ → α) (elem : α) (fuel : ℕ) :
    binarySearch fuel arr n elem ≠ none := by
  have hkeeps : Loop.Keeps (searchBody (n - 1) arr elem) (fun b => InArray n b ∧ True)
      fun _ => True :=
    keeps_search hn (fun _ _ _ => trivial) (fun _ _ _ _ _ => trivial) (fun _ _ _ _ _ _ => trivial)
      (fun _ _ _ _ _ _ => trivial)
  obtain ⟨out, hrun, -⟩ := hkeeps.run ⟨inArray_start, trivial⟩ fuel
  rw [binarySearch, hrun]
  exact Option.some_ne_none out

/-- An element of the array stays in the interval until it is found. -/
theorem returns_of_mem (hsorted : Sorted (· ≤ ·) 0 (n - 1) arr)
    (hmem : ∃ i, Inside 0 (n - 1 : ℤ) i ∧ arr i = elem) :
    ∃ r, Loop.Returns (searchBody (n - 1) arr elem) ⟨0, n⟩ r ∧
      Inside 0 (n - 1) r ∧ arr r = elem := by
  have hkeeps : Loop.Keeps (searchBody (n - 1) arr elem)
      (fun b => InArray n b ∧ ∃ i, b.low ≤ i ∧ i < b.high ∧ Inside 0 (n - 1) i ∧ arr i = elem)
      fun r => Inside 0 (n - 1) r ∧ arr r = elem := by
    refine keeps_search hn ?_ (fun _ i _ hi heq => ⟨hi, heq⟩) ?_ ?_
    · rintro b ⟨i, hlow, hhigh, -⟩ hend
      omega
    · rintro b j ⟨i, hlow, hhigh, hi, rfl⟩ - hj hlt
      exact ⟨i, (lt_of_arr_lt hsorted hj hi hlt).le, hhigh, hi, rfl⟩
    · rintro b j ⟨i, hlow, hhigh, hi, rfl⟩ - hj hlt
      exact ⟨i, hlow, lt_of_arr_lt hsorted hi hj hlt, hi, rfl⟩
  obtain ⟨i, hi, heq⟩ := hmem
  refine hkeeps.returns (fun b => (b.high - b.low).toNat) ?_
    ⟨inArray_start, i, hi.1, by dsimp only; omega, hi, heq⟩
  rintro b b' ⟨hb, j, hlow, hhigh, -, rfl⟩ hbody
  refine width_lt hn hb hbody fun hone => ?_
  obtain rfl : j = b.low := by omega
  exact lt_irrefl _

/-- Below all elements the upper end comes down to the start of the array. -/
theorem returns_of_lt (hless : ∀ i, Inside 0 (n - 1 : ℤ) i → elem < arr i) :
    ∃ r, Loop.Returns (searchBody (n - 1) arr elem) ⟨0, n⟩ r ∧ r = -1 := by
  have hkeeps : Loop.Keeps (searchBody (n - 1) arr elem) (fun b => InArray n b ∧ True)
      fun r => r = -1 :=
    keeps_search hn (fun _ _ _ => rfl) (fun _ i _ hi heq => absurd heq (hless i hi).ne')
      (fun _ _ _ _ _ _ => trivial) (fun _ _ _ _ _ _ => trivial)
  refine hkeeps.returns (fun b => (b.high - b.low).toNat) ?_ ⟨inArray_start, trivial⟩
  rintro b b' ⟨hb, -⟩ hbody
  obtain ⟨hlow, hhigh⟩ := hb
  exact width_lt hn ⟨hlow, hhigh⟩ hbody fun hone => (hless b.low (by omega)).le.not_gt

/-- An element that is missing, with a smaller one in the array: the interval always has a smaller
    one in it, so it never gets empty. -/
theorem not_returns_of_gap (hsorted : Sorted (· ≤ ·) 0 (n - 1) arr)
    (hmiss : ∀ i, Inside 0 (n - 1 : ℤ) i → arr i ≠ elem)
    (hless : ∃ i, Inside 0 (n - 1 : ℤ) i ∧ arr i < elem) (r : ℤ) :
    ¬Loop.Returns (searchBody (n - 1) arr elem) ⟨0, n⟩ r := by
  have hkeeps : Loop.Keeps (searchBody (n - 1) arr elem)
      (fun b => InArray n b ∧ ∃ i, b.low ≤ i ∧ i < b.high ∧ Inside 0 (n - 1) i ∧ arr i < elem)
      fun _ => False := by
    refine keeps_search hn ?_ (fun _ i _ hi heq => hmiss i hi heq) ?_ ?_
    · rintro b ⟨i, hlow, hhigh, -⟩ hend
      omega
    · rintro b j - hhigh hj hlt
      exact ⟨j, le_rfl, hhigh, hj, hlt⟩
    · rintro b j ⟨i, hlow, -, hi, hlt⟩ - hj hgt
      exact ⟨i, hlow, lt_of_arr_lt hsorted hi hj (hlt.trans hgt), hi, hlt⟩
  obtain ⟨i, hi, hlt⟩ := hless
  exact hkeeps.not_returns ⟨inArray_start, i, hi.1, by dsimp only; omega, hi, hlt⟩ r

end Search

/-- What `binary_search` has to return: an index of `elem` if there is one, and `-1` if there is
    none. -/
def Answers (arr : ℤ → α) (n : ℕ) (elem : α) (r : ℤ) : Prop :=
  Inside 0 (n - 1) r ∧ arr r = elem ∨ r = -1 ∧ ∀ i, Inside 0 (n - 1) i → arr i ≠ elem

/-- What `binary_search` is for: it reads the array only, ends, and returns the right answer. -/
def Searches (arr : ℤ → α) (n : ℕ) (elem : α) : Prop :=
  (∀ fuel, binarySearch fuel arr n elem ≠ none) ∧
  ∃ fuel r, binarySearch fuel arr n elem = some (.inl r) ∧ Answers arr n elem r

section Searches

variable (hn : n ≤ (2 ^ 31 - 1) / 2) (hsorted : Sorted (· ≤ ·) 0 (n - 1) arr)
include hn hsorted

theorem mem_or_lt_of_returns {fuel : ℕ} {r : ℤ}
    (hrun : binarySearch fuel arr n elem = some (.inl r)) :
    (∃ i, Inside 0 (n - 1 : ℤ) i ∧ arr i = elem) ∨ ∀ i, Inside 0 (n - 1 : ℤ) i → elem < arr i := by
  by_contra hgap
  push Not at hgap
  obtain ⟨hmiss, i, hi, hle⟩ := hgap
  have hless : arr i < elem := lt_of_le_of_ne hle (hmiss i hi)
  exact not_returns_of_gap hn hsorted hmiss ⟨i, hi, hless⟩ r ⟨fuel, hrun⟩

theorem searches_of_mem_or_lt (h : (∃ i, Inside 0 (n - 1 : ℤ) i ∧ arr i = elem) ∨
    ∀ i, Inside 0 (n - 1 : ℤ) i → elem < arr i) : Searches arr n elem := by
  refine ⟨binarySearch_ne_none hn arr elem, ?_⟩
  rcases h with hmem | hless
  · obtain ⟨r, ⟨fuel, hrun⟩, hr⟩ := returns_of_mem hn hsorted hmem
    exact ⟨fuel, r, hrun, .inl hr⟩
  · obtain ⟨r, ⟨fuel, hrun⟩, hr⟩ := returns_of_lt hn hless
    exact ⟨fuel, r, hrun, .inr ⟨hr, fun i hi => (hless i hi).ne'⟩⟩

end Searches

/-- **Which elements `binary_search` can be asked for**: those of the array, and those below all of
    them. For every other one it runs for ever. It never reads outside the array, and what it
    returns is right. -/
theorem binary_search_iff (arr : ℤ → α) (n : ℕ) (hn : n ≤ (2 ^ 31 - 1) / 2)
    (hsorted : Sorted (· ≤ ·) 0 (n - 1) arr) (elem : α) :
    (Searches arr n elem ↔ (∃ i, Inside 0 (n - 1 : ℤ) i ∧ arr i = elem) ∨
      ∀ i, Inside 0 (n - 1 : ℤ) i → elem < arr i) ∧
    ∀ fuel, binarySearch fuel arr n elem ≠ none ∧
      ∀ r, binarySearch fuel arr n elem = some (.inl r) → Answers arr n elem r := by
  refine ⟨⟨fun h => ?_, searches_of_mem_or_lt hn hsorted⟩,
    fun fuel => ⟨binarySearch_ne_none hn arr elem fuel, fun r hrun => ?_⟩⟩
  · obtain ⟨-, fuel, r, hrun, -⟩ := h
    exact mem_or_lt_of_returns hn hsorted hrun
  · -- the loop returns one value only, however many rounds it is given
    obtain ⟨-, fuel', r', hrun', hr'⟩ :=
      searches_of_mem_or_lt hn hsorted (mem_or_lt_of_returns hn hsorted hrun)
    obtain rfl := Loop.Returns.unique ⟨fuel', hrun'⟩ ⟨fuel, hrun⟩
    exact hr'

/-- The searches for 7 and for 0 in `{1, 4, 7, 10}`. -/
theorem binary_search_four :
    Searches (fun i => 3 * i + 1) 4 7 ∧ Searches (fun i => 3 * i + 1) 4 0 := by
  have hsorted : Sorted (· ≤ ·) 0 ((4 : ℕ) - 1) fun i : ℤ => 3 * i + 1 := fun i j _ hij _ => by
    dsimp only
    omega
  exact ⟨(binary_search_iff _ 4 (by decide) hsorted 7).1.mpr (.inl ⟨2, by decide, by decide⟩),
    (binary_search_iff _ 4 (by decide) hsorted 0).1.mpr (.inr fun i hi => by omega)⟩

/-- The search for 2 in `{1}` stays at its first interval. -/
theorem binary_search_stalls : (∀ fuel, binarySearch fuel (fun _ => (1 : ℤ)) 1 2 =
    some (.inr ⟨0, 1⟩)) ∧ ¬Searches (fun _ => (1 : ℤ)) 1 2 := by
  have hstall : ∀ fuel, binarySearch fuel (fun _ => (1 : ℤ)) 1 2 = some (.inr ⟨0, 1⟩) := by
    intro fuel
    induction fuel with
    | zero => rfl
    | succ fuel ih => exact ih
  refine ⟨hstall, ?_⟩
  rintro ⟨-, fuel, r, hrun, -⟩
  cases (hstall fuel).symm.trans hrun

end HorizonOS.Libc
