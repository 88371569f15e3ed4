import HorizonOS.Libc.HeapSort
import Mathlib.Data.Multiset.AddSub

/-!
# The heap as a priority queue

`heap_insert`, `heap_pop` and `build_heap` of `libc/datastructures/trees/heap/heap.c` on one
`struct heap`. `percolateUp` and `_percolateDown` put the element to the root that all others are not
smaller than (with `>=` as comparator: the least one), `percolateDown` puts the one there that is not
smaller than all others. So an array that went through `build_heap` is ordered the wrong way for
`heap_pop`, unless all its elements are equal.

* `percolateUp_spec`: an inserted element gets to its place.
* `insert_serves`, `pop_serves`, `build_serves`: one operation.
* `heap_serves`: every run in which no heap out of `build_heap` is popped is one of a priority queue,
  and, below 2^30 elements, no other run is.
-/

namespace HorizonOS.Libc.Heap

open HorizonOS.Lib.Cells HorizonOS.Lib.BinaryHeap

variable {α : Type}

/-- `parent(i)` (lines 13–15), for the positive indices it is called with. -/
def parent (i : ℤ) : ℤ := i / 2

/-- `percolateUp(arr, hctx, i)` (lines 26–31), with at most `fuel` tests of its condition. -/
def percolateUp (last : ℤ) (comp : α → α → Bool) : (fuel : ℕ) → (arr : ℤ → α) → (i : ℤ) →
    Option (ℤ → α)
  | 0, _, _ => none
  | fuel + 1, arr, i =>
    if i ≠ 1 then do
      let x ← load 1 last arr i
      let y ← load 1 last arr (parent i)
      if !comp x y then
        let arr ← swap 1 last arr i (parent i)
        percolateUp last comp fuel arr (parent i)
      else return arr
    else some arr

/-- `_percolateDown(arr, hp, i)` (lines 50–62), which asks the comparator in the other sense. -/
def percolateDownPop (last : ℤ) (comp : α → α → Bool) (heapSize : ℤ) (arr : ℤ → α) (i : ℤ) :
    Option (ℤ → α) :=
  sift last comp heapSize (last.toNat + 1) arr i

/-- The array and `heap_size`; `arr_len` and the comparator do not change. -/
structure Queue (α : Type) where
  arr : ℤ → α
  heapSize : ℤ

/-- `heap_insert(arr, hctx, val)` (lines 65–74). -/
def heapInsert (arrLen : ℕ) (comp : α → α → Bool) (q : Queue α) (val : α) : Option (Queue α) :=
  if q.heapSize % 2 ^ 64 = arrLen then some q
  else do
    let heapSize := int (q.heapSize + 1)
    let arr ← store 1 arrLen q.arr heapSize val
    let arr ← percolateUp arrLen comp (arrLen + 1) arr heapSize
    return ⟨arr, heapSize⟩

/-- `heap_pop(arr, hctx)` (lines 77–91): what it returns, `none` standing for its -1, and the heap. -/
def heapPop (arrLen : ℕ) (comp : α → α → Bool) (q : Queue α) : Option (Option α × Queue α) :=
  if q.heapSize = 0 then some (none, q)
  else do
    let ret ← load 1 arrLen q.arr 1
    let arr ← swap 1 arrLen q.arr 1 q.heapSize
    let heapSize := int (q.heapSize - 1)
    let arr ← percolateDownPop arrLen comp heapSize arr 1
    return (some ret, ⟨arr, heapSize⟩)

/-- The operations; `build_heap` is given an array with any contents. -/
inductive Op (α : Type)
  | build (arr : ℤ → α)
  | insert (val : α)
  | pop

/-- One operation: what it returns, and the heap. -/
def step (arrLen : ℕ) (comp : α → α → Bool) (q : Queue α) : Op α → Option (Option α × Queue α)
  | .build arr => (buildHeap arrLen comp arr).map fun arr => (none, ⟨arr, int arrLen⟩)
  | .insert val => (heapInsert arrLen comp q val).map fun q => (none, q)
  | .pop => heapPop arrLen comp q

/-! ## What a priority queue does -/

/-- The elements of the heap. -/
def contents (q : Queue α) : Multiset α := slice 1 q.heapSize q.arr

/-- An operation has the effect it has on a bag of elements, and `heap_pop` returns the one all
    others are not smaller than. -/
def Served (arrLen : ℕ) (comp : α → α → Bool) (q : Queue α) (ret : Option α) (q' : Queue α) :
    Op α → Prop
  | .build arr => contents q' = (slice 1 arrLen arr : Multiset α)
  | .insert val => contents q' =
      if q.heapSize = arrLen then contents q else val ::ₘ contents q
  | .pop => if q.heapSize = 0 then ret = none ∧ contents q' = contents q
      else ∃ v, ret = some v ∧ (∀ w ∈ contents q, Comp comp w v) ∧ contents q = v ::ₘ contents q'

/-- All operations of a run do, without an access outside `1 … arr_len`. -/
def Serves (arrLen : ℕ) (comp : α → α → Bool) (q : Queue α) : List (Op α) → Prop
  | [] => True
  | op :: ops => ∃ ret q', step arrLen comp q op = some (ret, q') ∧
    Served arrLen comp q ret q' op ∧ Serves arrLen comp q' ops

/-- The elements of an array do not differ. -/
def AllEqual (arrLen : ℕ) (comp : α → α → Bool) (arr : ℤ → α) : Prop :=
  ∀ k k', Inside 1 arrLen k → Inside 1 arrLen k' → Comp comp (arr k) (arr k')

/-- Whether the array of the last `build_heap`, if there was one, had elements that do not differ. -/
def uniformAfter (arrLen : ℕ) (comp : α → α → Bool) (uniform : Prop) : Op α → Prop
  | .build arr => AllEqual arrLen comp arr
  | _ => uniform

/-- What an operation needs: an index it computes is an `int`, and a heap that is popped has not
    been built from different elements. -/
def Permitted (arrLen : ℕ) (q : Queue α) (uniform : Prop) : Op α → Prop
  | .build _ => arrLen < 2 ^ 30
  | .insert _ => q.heapSize < 2 ^ 31 - 1
  | .pop => q.heapSize ≤ 2 ^ 30 ∧ uniform

/-- All operations of a run meet this. -/
def Meets (arrLen : ℕ) (comp : α → α → Bool) (q : Queue α) (uniform : Prop) : List (Op α) → Prop
  | [] => True
  | op :: ops => Permitted arrLen q uniform op ∧ ∀ ret q', step arrLen comp q op = some (ret, q') →
    Meets arrLen comp q' (uniformAfter arrLen comp uniform op) ops

/-! ## Sifting up -/

/-- The order of `heap_insert` and `heap_pop`. -/
abbrev Least (comp : α → α → Bool) (x y : α) : Prop := Comp comp y x

section Orders

variable {comp : α → α → Bool} (hcomp : NotSmaller comp)

include hcomp

theorem NotSmaller.least_refl : Std.Refl (Least comp) :=
  ⟨fun x => (hcomp.total x x).elim id id⟩

theorem NotSmaller.least_isTrans : IsTrans α (Least comp) :=
  ⟨fun x y z h h' => hcomp.trans z y x h' h⟩

theorem NotSmaller.least_decides : Decides comp (Least comp) where
  keep x y h := (hcomp.total x y).resolve_left (by simp [h])
  swap _ _ h := h

theorem percolateUp_spec {last n : ℤ} (hlast : n ≤ last) {fuel : ℕ} {i : ℤ} (hi : 1 ≤ i)
    (hin : i ≤ n) (hfuel : i ≤ fuel) {arr : ℤ → α} (h : Up (Least comp) n i arr) :
    ∃ arr', percolateUp last comp fuel arr i = some arr' ∧ IsHeap (Least comp) 1 n arr' ∧
      Permutes 1 n arr arr' := by
  have := hcomp.least_isTrans
  induction fuel generalizing i arr with
  | zero => omega
  | succ fuel ih =>
    by_cases hroot : i = 1
    · refine ⟨arr, by rw [percolateUp, if_neg (not_not.mpr hroot)], h.done fun h2 => ?_, .refl arr⟩
      omega
    · have hp : parent i = i / 2 := rfl
      have hrun : percolateUp last comp (fuel + 1) arr i = if !comp (arr i) (arr (i / 2)) then
          percolateUp last comp fuel (arr ∘ Equiv.swap i (i / 2)) (i / 2) else some arr := by
        rw [percolateUp, if_pos hroot, load_eq (by omega), hp]
        simp only [Option.bind_eq_bind, Option.bind_some,
          load_eq (by omega : Inside 1 last (i / 2)),
          swap_eq (by omega : Inside 1 last i) (by omega : Inside 1 last (i / 2)), Option.pure_def]
      rw [hrun]
      split_ifs with hup
      · have hle : Least comp (arr i) (arr (i / 2)) :=
          (hcomp.total _ _).resolve_left (by simpa using hup)
        obtain ⟨arr', hrun', hheap, hperm⟩ := ih (by omega) (by omega) (by omega)
          (h.swap (by omega) hin hle)
        exact ⟨arr', hrun', hheap, (Permutes.swap (by omega) (by omega) arr).trans hperm⟩
      · exact ⟨arr, rfl, h.done fun _ => by simpa using hup, .refl arr⟩

end Orders

/-! ## The operations -/

/-- What holds between operations. A heap out of `build_heap` is full, so that nothing is inserted
    before the first pop. -/
structure Inv (arrLen : ℕ) (comp : α → α → Bool) (q : Queue α) (uniform : Prop) : Prop where
  nonneg : 0 ≤ q.heapSize
  le : q.heapSize ≤ arrLen
  ordered : uniform → IsHeap (Least comp) 1 q.heapSize q.arr
  built : ¬uniform → q.heapSize = arrLen ∧ IsHeap (Comp comp) 1 arrLen q.arr ∧
    ¬AllEqual arrLen comp q.arr

theorem mem_contents {q : Queue α} {x : α} :
    x ∈ contents q ↔ ∃ k, Inside 1 q.heapSize k ∧ q.arr k = x := by
  rw [contents, Multiset.mem_coe, slice_eq_map, List.mem_map]
  simp only [mem_slice_id]

section Ops

variable {arrLen : ℕ} {comp : α → α → Bool} (hcomp : NotSmaller comp) {q : Queue α}
  {uniform : Prop}

include hcomp

theorem insert_serves (h : Inv arrLen comp q uniform) (hmax : q.heapSize < 2 ^ 31 - 1) (val : α) :
    ∃ q', heapInsert arrLen comp q val = some q' ∧ Served arrLen comp q none q' (.insert val) ∧
      Inv arrLen comp q' uniform := by
  have hnonneg := h.nonneg
  have hle := h.le
  have hsize : q.heapSize % 2 ^ 64 = q.heapSize := Int.emod_eq_of_lt hnonneg (by omega)
  by_cases hfull : q.heapSize = arrLen
  · exact ⟨q, by rw [heapInsert, if_pos (hsize.trans hfull)], by rw [Served, if_pos hfull], h⟩
  · have huniform : uniform := by
      by_contra hno
      exact hfull (h.built hno).1
    have hint : int (q.heapSize + 1) = q.heapSize + 1 := int_eq (by omega) (by omega)
    obtain ⟨arr', hrun, hheap, hperm⟩ := percolateUp_spec hcomp
      (by omega : q.heapSize + 1 ≤ arrLen) (by omega) le_rfl
      (by push_cast; omega : q.heapSize + 1 ≤ ((arrLen + 1 : ℕ) : ℤ)) ((h.ordered huniform).up val)
    refine ⟨⟨arr', q.heapSize + 1⟩, ?_, ?_, ⟨by show 0 ≤ q.heapSize + 1; omega,
      by show q.heapSize + 1 ≤ arrLen; omega, fun _ => hheap, fun hno => absurd huniform hno⟩⟩
    · rw [heapInsert, if_neg (by omega), hint]
      simp only [store_eq (by omega : Inside 1 (arrLen : ℤ) (q.heapSize + 1)), Option.bind_eq_bind,
        Option.bind_some, hrun, Option.pure_def]
    · have hkeep : slice 1 q.heapSize (Function.update q.arr (q.heapSize + 1) val) =
          slice 1 q.heapSize q.arr :=
        slice_congr fun k hk => Function.update_of_ne (by omega) _ _
      rw [Served, if_neg hfull, contents, contents, Multiset.coe_eq_coe.mpr hperm.perm_slice,
        slice_concat (by omega), add_sub_cancel_right, hkeep, Function.update_self,
        Multiset.cons_coe, Multiset.coe_eq_coe]
      exact List.perm_append_singleton val _

theorem pop_serves (h : Inv arrLen comp q uniform) (hmax : q.heapSize ≤ 2 ^ 30)
    (huniform : uniform) : ∃ ret q', heapPop arrLen comp q = some (ret, q') ∧
      Served arrLen comp q ret q' .pop ∧ Inv arrLen comp q' uniform := by
  have := hcomp.least_refl
  have := hcomp.least_isTrans
  have hnonneg := h.nonneg
  have hle := h.le
  by_cases hempty : q.heapSize = 0
  · exact ⟨none, q, by rw [heapPop, if_pos hempty], by simp [Served, hempty], h⟩
  · have hint : int (q.heapSize - 1) = q.heapSize - 1 := int_eq (by omega) (by omega)
    have hheap := h.ordered huniform
    obtain ⟨arr', hrun, hheap', hperm⟩ := sift_spec hcomp.least_decides
      (by omega : q.heapSize - 1 ≤ arrLen) le_rfl le_rfl (by omega) (by decide) (by omega)
      (Nat.succ_pos (arrLen : ℤ).toNat) (by omega) hheap.down_swap
    refine ⟨some (q.arr 1), ⟨arr', q.heapSize - 1⟩, ?_, ?_, ⟨by show 0 ≤ q.heapSize - 1; omega,
      by show q.heapSize - 1 ≤ arrLen; omega, fun _ => hheap', fun hno => absurd huniform hno⟩⟩
    · rw [heapPop, if_neg hempty, hint, load_eq (by omega)]
      simp only [Option.bind_eq_bind, Option.bind_some,
        swap_eq (by omega : Inside 1 (arrLen : ℤ) 1) (by omega : Inside 1 (arrLen : ℤ) q.heapSize),
        percolateDownPop, hrun, Option.pure_def]
    · rw [Served, if_neg hempty]
      refine ⟨q.arr 1, rfl, fun w hw => ?_, ?_⟩
      · obtain ⟨k, hk, rfl⟩ := mem_contents.mp hw
        exact hheap.root hk.1 hk.2
      · have hswap : (slice 1 q.heapSize (q.arr ∘ Equiv.swap 1 q.heapSize)).Perm
            (slice 1 q.heapSize q.arr) :=
          (Permutes.swap (by omega) (by omega) q.arr).perm_slice
        rw [slice_concat (by omega), Function.comp_apply, Equiv.swap_apply_right] at hswap
        rw [contents, contents, Multiset.coe_eq_coe.mpr hperm.perm_slice, Multiset.cons_coe,
          Multiset.coe_eq_coe]
        exact hswap.symm.trans (List.perm_append_singleton _ _)

theorem build_serves (hlen : arrLen < 2 ^ 30) (arr : ℤ → α) :
    ∃ arr', buildHeap arrLen comp arr = some arr' ∧
      Served arrLen comp q none ⟨arr', int arrLen⟩ (.build arr) ∧
      Inv arrLen comp ⟨arr', int arrLen⟩ (AllEqual arrLen comp arr) := by
  have hint : int arrLen = arrLen := int_eq (by omega) (by omega)
  obtain ⟨arr', hrun, hheap, hperm⟩ := buildHeap_spec hcomp (by omega) hint.le arr
  rw [hint] at hheap hperm ⊢
  refine ⟨arr', hrun, Multiset.coe_eq_coe.mpr hperm.perm_slice, ⟨by show (0 : ℤ) ≤ arrLen; omega,
    le_rfl, fun hall => ?_, fun hno => ⟨rfl, hheap, ?_⟩⟩⟩
  · -- equal elements are ordered either way
    intro k hk hkn _
    have hkn : k ≤ arrLen := hkn
    obtain ⟨j, hj, hjk⟩ := hperm.source (i := k) ⟨by omega, hkn⟩
    obtain ⟨j', hj', hjk'⟩ := hperm.source (i := k / 2) ⟨by omega, by omega⟩
    show Comp comp (arr' k) (arr' (k / 2))
    rw [hjk, hjk']
    exact hall j j' hj hj'
  · intro hall
    refine hno fun k k' hk hk' => ?_
    obtain ⟨j, hj, hjk⟩ := hperm.symm.source hk
    obtain ⟨j', hj', hjk'⟩ := hperm.symm.source hk'
    rw [hjk, hjk']
    exact hall j j' hj hj'

/-- A permitted operation is one of a priority queue. -/
theorem step_serves (h : Inv arrLen comp q uniform) {op : Op α}
    (hok : Permitted arrLen q uniform op) : ∃ ret q', step arrLen comp q op = some (ret, q') ∧
      Served arrLen comp q ret q' op ∧ Inv arrLen comp q' (uniformAfter arrLen comp uniform op) := by
  cases op with
  | build arr =>
    obtain ⟨arr', hrun, hserved, hinv⟩ := build_serves hcomp (q := q) hok arr
    exact ⟨none, _, by rw [step, hrun]; rfl, hserved, hinv⟩
  | insert val =>
    obtain ⟨q', hrun, hserved, hinv⟩ := insert_serves hcomp h hok val
    exact ⟨none, q', by rw [step, hrun]; rfl, hserved, hinv⟩
  | pop => exact pop_serves hcomp h hok.1 hok.2

/-- The first pop of a heap that was built from different elements returns the wrong one. -/
theorem pop_built (h : Inv arrLen comp q uniform) (huniform : ¬uniform) {ret : Option α}
    {q' : Queue α} (hpop : heapPop arrLen comp q = some (ret, q')) :
    ¬Served arrLen comp q ret q' .pop := by
  have := hcomp.refl
  have := hcomp.isTrans
  obtain ⟨hfull, hheap, hdiffer⟩ := h.built huniform
  have hsize : q.heapSize ≠ 0 := by
    intro h0
    refine hdiffer fun k k' hk hk' => ?_
    omega
  rw [heapPop, if_neg hsize, load_eq (by have := h.nonneg; omega), Option.bind_eq_bind,
    Option.bind_some] at hpop
  obtain ⟨arr₁, -, hpop⟩ := Option.bind_eq_some_iff.mp hpop
  obtain ⟨arr₂, -, hpop⟩ := Option.bind_eq_some_iff.mp hpop
  obtain ⟨rfl, -⟩ := Prod.mk.inj (Option.some.inj hpop)
  rw [Served, if_neg hsize]
  rintro ⟨v, hv, hleast, -⟩
  obtain rfl : q.arr 1 = v := Option.some.inj hv
  refine hdiffer fun k k' hk hk' => ?_
  have hk1 : Comp comp (q.arr k) (q.arr 1) :=
    hleast _ (mem_contents.mpr ⟨k, by rwa [hfull], rfl⟩)
  exact hcomp.trans _ _ _ hk1 (hheap.root hk'.1 hk'.2)

theorem serves_of_meets (h : Inv arrLen comp q uniform) {ops : List (Op α)}
    (hmeets : Meets arrLen comp q uniform ops) : Serves arrLen comp q ops := by
  induction ops generalizing q uniform with
  | nil => trivial
  | cons op ops ih =>
    obtain ⟨ret, q', hstep, hserved, hinv⟩ := step_serves hcomp h hmeets.1
    exact ⟨ret, q', hstep, hserved, ih hinv (hmeets.2 ret q' hstep)⟩

theorem meets_cons (hlen : arrLen < 2 ^ 30) (h : Inv arrLen comp q uniform) {op : Op α}
    {ops : List (Op α)} (hpop : op = .pop → uniform)
    (hrest : ∀ ret q', step arrLen comp q op = some (ret, q') →
      Inv arrLen comp q' (uniformAfter arrLen comp uniform op) →
      Meets arrLen comp q' (uniformAfter arrLen comp uniform op) ops) :
    Meets arrLen comp q uniform (op :: ops) := by
  have hle := h.le
  have hok : Permitted arrLen q uniform op := by
    cases op with
    | build arr => exact hlen
    | insert val =>
      show q.heapSize < 2 ^ 31 - 1
      omega
    | pop => exact ⟨by omega, hpop rfl⟩
  obtain ⟨ret₁, q₁, hstep₁, -, hinv⟩ := step_serves hcomp h hok
  refine ⟨hok, fun ret q' hstep => ?_⟩
  obtain ⟨rfl, rfl⟩ := Prod.mk.inj (Option.some.inj (hstep₁.symm.trans hstep))
  exact hrest _ _ hstep hinv

theorem meets_of_serves (hlen : arrLen < 2 ^ 30) (h : Inv arrLen comp q uniform)
    {ops : List (Op α)} (hserves : Serves arrLen comp q ops) :
    Meets arrLen comp q uniform ops := by
  induction ops generalizing q uniform with
  | nil => trivial
  | cons op ops ih =>
    obtain ⟨ret, q', hstep, hserved, hrest⟩ := hserves
    refine meets_cons hcomp hlen h (fun hop => ?_) fun ret₁ q₁ hstep₁ hinv => ?_
    · subst hop
      by_contra hno
      exact pop_built hcomp h hno hstep hserved
    · obtain ⟨rfl, rfl⟩ := Prod.mk.inj (Option.some.inj (hstep.symm.trans hstep₁))
      exact ih hinv hrest

/-- Without `build_heap` nothing else is asked for. -/
theorem meets_of_not_build (hlen : arrLen < 2 ^ 30) (h : Inv arrLen comp q True)
    {ops : List (Op α)} (hops : ∀ arr, Op.build arr ∉ ops) : Meets arrLen comp q True ops := by
  induction ops generalizing q with
  | nil => trivial
  | cons op ops ih =>
    have huniform : uniformAfter arrLen comp True op = True := by
      cases op with
      | build arr => exact absurd (List.mem_cons_self ..) (hops arr)
      | insert val => rfl
      | pop => rfl
    refine meets_cons hcomp hlen h (fun _ => trivial) fun ret q' _ hinv => ?_
    rw [huniform] at hinv ⊢
    exact ih hinv fun arr hmem => hops arr (List.mem_cons_of_mem _ hmem)

end Ops

/-- The empty heap. -/
theorem inv_empty (arrLen : ℕ) (comp : α → α → Bool) (arr : ℤ → α) :
    Inv arrLen comp ⟨arr, 0⟩ True :=
  ⟨le_rfl, by show (0 : ℤ) ≤ arrLen; omega, fun _ k hk hkn => by have hkn : k ≤ 0 := hkn; omega,
    fun hno => absurd trivial hno⟩

/-- **The heap is a priority queue for what was inserted.** From an empty heap, with a comparator
    `>=` or `<=` or any other total one, every run in which the elements of the array that
    `build_heap` got last do not differ whenever `heap_pop` is called, and in which all indices are
    `int`s, is a run of a priority queue: each `heap_pop` returns the element that all others are
    not smaller than, the contents change by the element inserted or popped only, and no index
    outside `1 … arr_len` is used. For arrays of less than 2^30 elements these are all such runs. -/
theorem heap_serves {arrLen : ℕ} {comp : α → α → Bool} (hcomp : NotSmaller comp) (arr : ℤ → α)
    (ops : List (Op α)) :
    (Meets arrLen comp ⟨arr, 0⟩ True ops → Serves arrLen comp ⟨arr, 0⟩ ops) ∧
    (arrLen < 2 ^ 30 → (Serves arrLen comp ⟨arr, 0⟩ ops ↔ Meets arrLen comp ⟨arr, 0⟩ True ops)) := by
  have hinit := inv_empty arrLen comp arr
  exact ⟨serves_of_meets hcomp hinit,
    fun hlen => ⟨meets_of_serves hcomp hlen hinit, serves_of_meets hcomp hinit⟩⟩

/-- Two elements inserted and popped. -/
theorem heap_serves_two : Serves 4 (fun x y : ℤ => decide (y ≤ x)) ⟨fun _ => 0, 0⟩
    [.insert 5, .insert 3, .pop, .pop] :=
  (heap_serves notSmaller_ge (fun _ => 0) _).1
    (meets_of_not_build notSmaller_ge (by decide) (inv_empty _ _ _) (by simp))

/-- Three different elements out of `build_heap`: the greatest one is popped first, and then the
    least. -/
theorem heap_pop_ends : ((step 3 (fun x y : ℤ => decide (y ≤ x)) ⟨fun _ => 0, 0⟩
      (.build fun i => 4 - i)).bind fun (_, q) =>
    (step 3 (fun x y : ℤ => decide (y ≤ x)) q .pop).bind fun (first, q) =>
    (step 3 (fun x y : ℤ => decide (y ≤ x)) q .pop).map fun (second, _) => (first, second)) =
      some (some 3, some 1) := by
  decide +kernel

end HorizonOS.Libc.Heap
