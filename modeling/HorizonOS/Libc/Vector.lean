import HorizonOS.Lib.Cells
import Mathlib.Data.List.GetD

/-!
# The growable vector

`libc/datastructures/linear/vector/vector.c`. A vector is a block of slots; a full one is grown to
twice its capacity before an element is added, one that is a quarter full is shrunk to half of it.
`realloc` may fail. `vector_resize` then leaves the vector as it is, and `vector_add` stores the
element behind the block all the same (lines 41–46).

* `Op`, `step`: the four operations, with what `realloc` does in each of them.
* `Holds`: the vector holds a list.
* `add_holds`, `set_holds`, `rm_holds`: what the operations do with it.
* `vector_refines_iff`: the vector is that list as long as every growth succeeds.
-/

namespace HorizonOS.Libc.Vector

open HorizonOS.Lib.Cells

/-- A `void *`. -/
abbrev Ptr := BitVec 64

/-- `struct vector` (vector.h:7–11), and the number of slots of the block `items` points to. -/
structure Vec where
  items : ℤ → Ptr
  slots : ℤ
  capacity : ℤ
  size : ℤ

def vectorInitCapacity : ℤ := 10

/-- `vector_new()` (lines 9–15), with any contents of the fresh block. -/
def vectorNew (fresh : ℤ → Ptr) : Vec where
  items := fresh
  slots := vectorInitCapacity
  capacity := vectorInitCapacity
  size := 0

/-- What `realloc` returns: `NULL`, or a block whose slots behind the old ones hold anything. -/
abbrev Realloc := Option (ℤ → Ptr)

/-- `vector_resize(v, capacity)` (lines 32–38). The size in bytes is a `size_t`. -/
def vectorResize (v : Vec) (capacity : ℤ) : Realloc → Vec
  | none => v
  | some fresh =>
    { v with
      items := fun i => if i < v.slots then v.items i else fresh i
      slots := 8 * capacity % 2 ^ 64 / 8
      capacity }

/-- `v->items[v->size++] = elem` (line 45). -/
def push (v : Vec) (elem : Ptr) : Option Vec := do
  let items ← store 0 (v.slots - 1) v.items v.size elem
  return { v with items, size := int (v.size + 1) }

/-- `vector_add(v, elem)` (lines 41–46). -/
def vectorAdd (v : Vec) (elem : Ptr) (realloc : Realloc) : Option Vec :=
  push (if v.capacity = v.size then vectorResize v (int (v.capacity * 2)) realloc else v) elem

/-- `vector_set(v, index, item)` (lines 49–53). -/
def vectorSet (v : Vec) (index : ℤ) (item : Ptr) : Option Vec :=
  if 0 ≤ index ∧ index < v.size then do
    let items ← store 0 (v.slots - 1) v.items index item
    return { v with items }
  else some v

/-- `vector_get(v, index)` (lines 56–61). -/
def vectorGet (v : Vec) (index : ℤ) : Option Ptr :=
  if 0 ≤ index ∧ index < v.size then load 0 (v.slots - 1) v.items index
  else some 0

/-- The loop of `vector_rm` (lines 72–75) from `i` on, with `left` rounds to go. -/
def rmLoop (slots : ℤ) : (left : ℕ) → (i : ℤ) → (items : ℤ → Ptr) → Option (ℤ → Ptr)
  | 0, _, items => some items
  | left + 1, i, items => do
    let next ← load 0 (slots - 1) items (i + 1)
    let items ← store 0 (slots - 1) items i next
    let items ← store 0 (slots - 1) items (i + 1) 0
    rmLoop slots left (i + 1) items

/-- `vector_rm(v, index)` (lines 64–82). -/
def vectorRm (v : Vec) (index : ℤ) (realloc : Realloc) : Option Vec :=
  if index < 0 ∨ v.size ≤ index then some v
  else do
    let items ← store 0 (v.slots - 1) v.items index 0
    let items ← rmLoop v.slots (v.size - 1 - index).toNat index items
    let v := { v with items, size := v.size - 1 }
    if 0 < v.size ∧ v.size = v.capacity.tdiv 4 then
      return vectorResize v (v.capacity.tdiv 2) realloc
    else return v

/-- The operations, with the outcome of `realloc` where one may be called. -/
inductive Op
  | add (elem : Ptr) (realloc : Realloc)
  | set (index : ℤ) (item : Ptr)
  | get (index : ℤ)
  | rm (index : ℤ) (realloc : Realloc)

/-- One operation: the pointer it returns, if it returns one, and the vector after it. `none` is an
    access outside the block. -/
def step (v : Vec) : Op → Option (Option Ptr × Vec)
  | .add elem realloc => (vectorAdd v elem realloc).map fun v => (none, v)
  | .set index item => (vectorSet v index item).map fun v => (none, v)
  | .get index => (vectorGet v index).map fun p => (some p, v)
  | .rm index realloc => (vectorRm v index realloc).map fun v => (none, v)

/-! ## The list -/

/-- The index of an element. -/
def InRange (l : List Ptr) (index : ℤ) : Prop := 0 ≤ index ∧ index < l.length

instance (l : List Ptr) (index : ℤ) : Decidable (InRange l index) :=
  inferInstanceAs (Decidable (_ ∧ _))

/-- The same operation on a list. An element that finds a full vector which cannot grow is not
    added. -/
def specStep (v : Vec) (l : List Ptr) : Op → List Ptr
  | .add elem realloc => if v.capacity = v.size ∧ realloc.isNone then l else l ++ [elem]
  | .set index item => if InRange l index then l.set index.toNat item else l
  | .get _ => l
  | .rm index _ => if InRange l index then l.eraseIdx index.toNat else l

def specAnswer (l : List Ptr) : Op → Option Ptr
  | .get index => some (if InRange l index then l.getD index.toNat 0 else 0)
  | _ => none

/-- An operation whose index is not that of an element and that changes elements. -/
def OutOfRange (l : List Ptr) : Op → Prop
  | .set index _ => ¬InRange l index
  | .rm index _ => ¬InRange l index
  | _ => False

/-- The vector holds the list, within a block of `capacity` slots. -/
structure Holds (v : Vec) (l : List Ptr) : Prop where
  size : v.size = l.length
  le : v.size ≤ v.capacity
  slots : v.slots = v.capacity
  items : ∀ (k : ℕ) x, l[k]? = some x → v.items k = x

/-- The operations have the effects and the answers of those on the list, before and after each of
    them the vector holds the list, and those out of range change nothing. -/
def Refines (v : Vec) (l : List Ptr) : List Op → Prop
  | [] => Holds v l
  | op :: ops => Holds v l ∧ ∃ answer v', step v op = some (answer, v') ∧
    answer = specAnswer l op ∧ (OutOfRange l op → v' = v) ∧ Refines v' (specStep v l op) ops

/-- A full vector can grow: `realloc` succeeds and twice the capacity is an `int`. -/
def CanGrow (v : Vec) : Op → Prop
  | .add _ realloc => v.capacity = v.size → realloc.isSome ∧ v.capacity < 2 ^ 30
  | _ => True

/-- It can whenever it has to. -/
def Grows (v : Vec) : List Op → Prop
  | [] => True
  | op :: ops => CanGrow v op ∧ ∀ answer v', step v op = some (answer, v') → Grows v' ops

/-! ## What the operations do -/

/-- The capacities that occur: `int`s, and never so small that a full vector would not grow. -/
def Sound (v : Vec) : Prop := 2 ≤ v.capacity ∧ v.capacity < 2 ^ 31

theorem slots_eq {capacity : ℤ} (h : 0 ≤ capacity) (h' : capacity < 2 ^ 31) :
    8 * capacity % 2 ^ 64 / 8 = capacity := by
  omega

section Ops

variable {v : Vec} {l : List Ptr} (h : Holds v l)

include h

/-- A resize to a capacity that still holds the list. -/
theorem resize_holds {capacity : ℤ} (hle : v.size ≤ capacity) (hint : capacity < 2 ^ 31)
    (realloc : Realloc) : Holds (vectorResize v capacity realloc) l := by
  cases realloc with
  | none => exact h
  | some fresh =>
    have hsize := h.size
    refine ⟨h.size, hle, slots_eq (by omega) hint, fun k x hk => ?_⟩
    have hlt : k < l.length := (List.getElem?_eq_some_iff.mp hk).1
    have hslots : (k : ℤ) < v.slots := by
      have := h.le
      rw [h.slots]
      omega
    simp only [vectorResize, if_pos hslots]
    exact h.items k x hk

theorem set_holds (index : ℤ) (item : Ptr) : ∃ v', vectorSet v index item = some v' ∧
    Holds v' (if InRange l index then l.set index.toNat item else l) ∧
    v'.capacity = v.capacity ∧ (¬InRange l index → v' = v) := by
  by_cases hin : InRange l index
  · obtain ⟨h0, hlt⟩ := id hin
    have hsize := h.size
    have hle := h.le
    have hslots := h.slots
    refine ⟨{ v with items := Function.update v.items index item }, ?_, ?_, rfl,
      fun hout => absurd hin hout⟩
    · rw [vectorSet, if_pos ⟨h0, by omega⟩, store_eq (by omega)]
      rfl
    · rw [if_pos hin]
      refine ⟨by simpa using h.size, hle, hslots, fun k x hk => ?_⟩
      show Function.update v.items index item k = x
      rw [List.getElem?_set] at hk
      split_ifs at hk with hkey hlen
      · obtain rfl := Option.some.inj hk
        rw [show (k : ℤ) = index by omega, Function.update_self]
      · rw [Function.update_of_ne (by omega)]
        exact h.items k x hk
  · refine ⟨v, ?_, by rwa [if_neg hin], rfl, fun _ => rfl⟩
    rw [vectorSet, if_neg]
    rw [h.size]
    exact hin

theorem get_holds (index : ℤ) : vectorGet v index =
    some (if InRange l index then l.getD index.toNat 0 else 0) := by
  have hsize := h.size
  have hle := h.le
  have hslots := h.slots
  by_cases hin : InRange l index
  · obtain ⟨h0, hlt⟩ := id hin
    have hk : index.toNat < l.length := by omega
    have hitem := h.items index.toNat _ (List.getElem?_eq_getElem hk)
    rw [vectorGet, if_pos ⟨h0, by omega⟩, load_eq (by omega), if_pos hin,
      List.getD_eq_getElem _ _ hk, ← hitem, Int.toNat_of_nonneg h0]
  · rw [vectorGet, if_neg (by rw [h.size]; exact hin), if_neg hin]

end Ops

/-- The loop of `vector_rm` moves `left` elements one slot down and clears the last one's slot. -/
theorem rmLoop_eq {slots : ℤ} {left : ℕ} {i : ℤ} {items : ℤ → Ptr} (hi : 0 ≤ i)
    (hslots : i + left < slots) : ∃ items', rmLoop slots left i items = some items' ∧
      (∀ k < i, items' k = items k) ∧ ∀ k, i ≤ k → k < i + left → items' k = items (k + 1) := by
  induction left generalizing i items with
  | zero => exact ⟨items, rfl, fun _ _ => rfl, fun k hk hk' => by omega⟩
  | succ left ih =>
    obtain ⟨items', hrun, hbelow, hmoved⟩ := @ih (i + 1)
      (Function.update (Function.update items i (items (i + 1))) (i + 1) 0) (by omega) (by omega)
    refine ⟨items', ?_, fun k hk => ?_, fun k hk hk' => ?_⟩
    · rw [rmLoop, load_eq (by omega)]
      simp only [Option.bind_eq_bind, Option.bind_some]
      rw [store_eq (by omega), Option.bind_some, store_eq (by omega), Option.bind_some, hrun]
    · rw [hbelow k (by omega), Function.update_of_ne (by omega), Function.update_of_ne (by omega)]
    · rcases eq_or_lt_of_le hk with rfl | hlt
      · rw [hbelow i (by omega), Function.update_of_ne (by omega), Function.update_self]
      · rw [hmoved k (by omega) (by omega), Function.update_of_ne (by omega),
          Function.update_of_ne (by omega)]

section Ops

variable {v : Vec} {l : List Ptr} (h : Holds v l) (hs : Sound v)

include h hs

/-- An element stored in a free slot. -/
theorem push_holds (hfree : v.size < v.capacity) (elem : Ptr) :
    ∃ v', push v elem = some v' ∧ Holds v' (l ++ [elem]) ∧ v'.capacity = v.capacity := by
  have hsize := h.size
  have hslots := h.slots
  obtain ⟨-, hmax⟩ := hs
  have hint : int (v.size + 1) = v.size + 1 := int_eq (by omega) (by omega)
  refine ⟨{ v with items := Function.update v.items v.size elem, size := v.size + 1 }, ?_,
    ⟨by simp [hsize], by show v.size + 1 ≤ v.capacity; omega, hslots, fun k x hk => ?_⟩, rfl⟩
  · rw [push, store_eq (by omega), hint]
    rfl
  · show Function.update v.items v.size elem k = x
    rcases Nat.lt_trichotomy k l.length with hlt | rfl | hgt
    · rw [Function.update_of_ne (by omega)]
      rw [List.getElem?_append_left hlt] at hk
      exact h.items k x hk
    · rw [List.getElem?_concat_length] at hk
      rw [← hsize, Function.update_self]
      exact Option.some.inj hk
    · rw [List.getElem?_eq_none (by simp; omega)] at hk
      cases hk

theorem add_holds {elem : Ptr} {realloc : Realloc} (hgrow : CanGrow v (.add elem realloc)) :
    ∃ v', vectorAdd v elem realloc = some v' ∧
      Holds v' (specStep v l (.add elem realloc)) ∧ Sound v' := by
  obtain ⟨hmin, hmax⟩ := id hs
  by_cases hfull : v.capacity = v.size
  · obtain ⟨hsome, hlt⟩ := hgrow hfull
    obtain ⟨fresh, rfl⟩ := Option.isSome_iff_exists.mp hsome
    have hint : int (v.capacity * 2) = v.capacity * 2 := int_eq (by omega) (by omega)
    have hlarge : Holds (vectorResize v (v.capacity * 2) (some fresh)) l :=
      resize_holds h (by omega) (by omega) (some fresh)
    have hsound : Sound (vectorResize v (v.capacity * 2) (some fresh)) :=
      ⟨by show 2 ≤ v.capacity * 2; omega, by show v.capacity * 2 < 2 ^ 31; omega⟩
    obtain ⟨v', hpush, hholds, hcap⟩ := push_holds hlarge hsound
      (by show v.size < v.capacity * 2; omega) elem
    refine ⟨v', by rw [vectorAdd, if_pos hfull, hint, hpush], ?_, by rwa [Sound, hcap]⟩
    rw [specStep, if_neg (by simp)]
    exact hholds
  · obtain ⟨v', hpush, hholds, hcap⟩ :=
      push_holds h hs (lt_of_le_of_ne h.le (Ne.symm hfull)) elem
    refine ⟨v', by rw [vectorAdd, if_neg hfull, hpush], ?_, by rwa [Sound, hcap]⟩
    rw [specStep, if_neg fun hno => hfull hno.1]
    exact hholds

/-- A full vector that cannot grow: the element goes behind the block, or the capacity becomes
    negative. -/
theorem add_breaks {elem : Ptr} {realloc : Realloc} (hgrow : ¬CanGrow v (.add elem realloc))
    {v' : Vec} (hadd : vectorAdd v elem realloc = some v') : v'.capacity < 0 := by
  obtain ⟨hfull, hno⟩ := Classical.not_imp.mp hgrow
  obtain ⟨hmin, hmax⟩ := hs
  have hslots := h.slots
  cases realloc with
  | none =>
    rw [vectorAdd, if_pos hfull, vectorResize, push, store, if_neg (by omega)] at hadd
    cases hadd
  | some fresh =>
    have hge : 2 ^ 30 ≤ v.capacity := by
      by_contra hlt
      exact hno ⟨rfl, by omega⟩
    have hneg : int (v.capacity * 2) = v.capacity * 2 - 2 ^ 32 := by
      unfold int
      rw [← Int.sub_mul_bmod_self_right (v.capacity * 2) 1]
      exact Int.bmod_eq_of_le (by omega) (by omega)
    rw [vectorAdd, if_pos hfull, hneg, vectorResize, push] at hadd
    simp only at hadd
    rw [store_eq (by omega)] at hadd
    obtain rfl := Option.some.inj hadd
    show v.capacity * 2 - 2 ^ 32 < 0
    omega

omit hs in
/-- The elements behind `index` have moved one place down. -/
theorem removed_holds {index : ℤ} (hin : InRange l index) {items : ℤ → Ptr}
    (hbelow : ∀ k < index, items k = v.items k)
    (hmoved : ∀ k, index ≤ k → k < v.size - 1 → items k = v.items (k + 1)) :
    Holds { v with items, size := v.size - 1 } (l.eraseIdx index.toNat) := by
  have hsize := h.size
  have hle := h.le
  obtain ⟨h0, hlt⟩ := hin
  refine ⟨?_, by show v.size - 1 ≤ v.capacity; omega, h.slots, fun k x hk => ?_⟩
  · rw [List.length_eraseIdx_of_lt (by omega)]
    show v.size - 1 = _
    omega
  · show items k = x
    have hklt := (List.getElem?_eq_some_iff.mp hk).1
    rw [List.length_eraseIdx_of_lt (by omega)] at hklt
    rw [List.getElem?_eraseIdx] at hk
    split_ifs at hk with hki
    · rw [hbelow k (by omega)]
      exact h.items k x hk
    · rw [hmoved k (by omega) (by omega)]
      exact h.items (k + 1) x hk

theorem rm_holds (index : ℤ) (realloc : Realloc) : ∃ v', vectorRm v index realloc = some v' ∧
    Holds v' (if InRange l index then l.eraseIdx index.toNat else l) ∧ Sound v' ∧
    (¬InRange l index → v' = v) := by
  have hsize := h.size
  have hle := h.le
  have hslots := h.slots
  obtain ⟨hmin, hmax⟩ := id hs
  by_cases hin : InRange l index
  swap
  · refine ⟨v, ?_, by rwa [if_neg hin], hs, fun _ => rfl⟩
    rw [vectorRm, if_pos]
    by_contra hno
    exact hin ⟨by omega, by omega⟩
  · obtain ⟨h0, hlt⟩ := id hin
    obtain ⟨items, hrun, hbelow, hmoved⟩ := @rmLoop_eq v.slots (v.size - 1 - index).toNat index
      (Function.update v.items index 0) h0 (by omega)
    have hremoved : Holds { v with items, size := v.size - 1 } (l.eraseIdx index.toNat) :=
      removed_holds h hin
        (fun k hk => by rw [hbelow k hk, Function.update_of_ne (by omega)])
        fun k hk hk' => by rw [hmoved k hk (by omega), Function.update_of_ne (by omega)]
    have hquarter : v.capacity.tdiv 4 = v.capacity / 4 := Int.tdiv_eq_ediv_of_nonneg (by omega)
    have hhalf : v.capacity.tdiv 2 = v.capacity / 2 := Int.tdiv_eq_ediv_of_nonneg (by omega)
    have hprogram : vectorRm v index realloc =
        if 0 < v.size - 1 ∧ v.size - 1 = v.capacity.tdiv 4 then
          some (vectorResize { v with items, size := v.size - 1 } (v.capacity.tdiv 2) realloc)
        else some { v with items, size := v.size - 1 } := by
      rw [vectorRm, if_neg (by omega), store_eq (by omega)]
      simp only [hrun, Option.bind_eq_bind, Option.bind_some, Option.pure_def]
    rw [hprogram, if_pos hin]
    split_ifs with hshrink
    · refine ⟨_, rfl, resize_holds hremoved (by show v.size - 1 ≤ _; omega) (by omega) realloc, ?_,
        fun hout => absurd hin hout⟩
      cases realloc with
      | none => exact hs
      | some fresh => exact ⟨by show 2 ≤ v.capacity.tdiv 2; omega, by
          show v.capacity.tdiv 2 < 2 ^ 31; omega⟩
    · exact ⟨_, rfl, hremoved, hs, fun hout => absurd hin hout⟩

/-- One operation of a vector that can grow if it has to. -/
theorem step_refines {op : Op} (hgrow : CanGrow v op) : ∃ answer v',
    step v op = some (answer, v') ∧ answer = specAnswer l op ∧ (OutOfRange l op → v' = v) ∧
    Holds v' (specStep v l op) ∧ Sound v' := by
  cases op with
  | add elem realloc =>
    obtain ⟨v', hrun, hholds, hsound⟩ := add_holds h hs hgrow
    exact ⟨none, v', by rw [step, hrun]; rfl, rfl, False.elim, hholds, hsound⟩
  | set index item =>
    obtain ⟨v', hrun, hholds, hcap, hout⟩ := set_holds h index item
    refine ⟨none, v', by rw [step, hrun]; rfl, rfl, hout, hholds, ?_⟩
    rwa [Sound, hcap]
  | get index =>
    exact ⟨_, v, by rw [step, get_holds h index]; rfl, rfl, False.elim, h, hs⟩
  | rm index realloc =>
    obtain ⟨v', hrun, hholds, hsound, hout⟩ := rm_holds h hs index realloc
    exact ⟨none, v', by rw [step, hrun]; rfl, rfl, hout, hholds, hsound⟩

/-- And of one that cannot. -/
theorem step_breaks {op : Op} (hgrow : ¬CanGrow v op) {answer : Option Ptr} {v' : Vec}
    (hstep : step v op = some (answer, v')) : v'.capacity < 0 := by
  cases op with
  | add elem realloc =>
    obtain ⟨v₁, hadd, heq⟩ := Option.map_eq_some_iff.mp hstep
    obtain rfl : v₁ = v' := (Prod.mk.inj heq).2
    exact add_breaks h hs hgrow hadd
  | set | get | rm => exact absurd trivial hgrow

end Ops

theorem Refines.holds {v : Vec} {l : List Ptr} {ops : List Op} (h : Refines v l ops) :
    Holds v l := by
  cases ops with
  | nil => exact h
  | cons op ops => exact h.1

theorem refines_iff {v : Vec} {l : List Ptr} (h : Holds v l) (hs : Sound v) (ops : List Op) :
    Refines v l ops ↔ Grows v ops := by
  induction ops generalizing v l with
  | nil => exact ⟨fun _ => trivial, fun _ => h⟩
  | cons op ops ih =>
    by_cases hgrow : CanGrow v op
    · obtain ⟨answer, v', hstep, hans, hout, h', hs'⟩ := step_refines h hs hgrow
      constructor
      · rintro ⟨-, answer₁, v₁, hstep₁, -, -, hrest⟩
        obtain ⟨rfl, rfl⟩ := Prod.mk.inj (Option.some.inj (hstep.symm.trans hstep₁))
        refine ⟨hgrow, fun answer₂ v₂ hstep₂ => ?_⟩
        obtain ⟨rfl, rfl⟩ := Prod.mk.inj (Option.some.inj (hstep.symm.trans hstep₂))
        exact (ih h' hs').mp hrest
      · rintro ⟨-, hrest⟩
        exact ⟨h, answer, v', hstep, hans, hout, (ih h' hs').mpr (hrest answer v' hstep)⟩
    · refine iff_of_false ?_ fun hgrows => hgrow hgrows.1
      rintro ⟨-, answer, v', hstep, -, -, hrest⟩
      have hneg := step_breaks h hs hgrow hstep
      have hle := hrest.holds.le
      have hsize := hrest.holds.size
      omega

/-- **The vector is a list as long as it can grow.** A sequence of operations from `vector_new`
    accesses only slots below the capacity, keeps the size within it and has the effects and answers
    of the same operations on a list, exactly if each `vector_add` that finds the vector full gets
    its block from `realloc` for a capacity that is an `int`. -/
theorem vector_refines_iff (fresh : ℤ → Ptr) (ops : List Op) :
    Refines (vectorNew fresh) [] ops ↔ Grows (vectorNew fresh) ops := by
  have hcap : (vectorNew fresh).capacity = 10 := rfl
  have hholds : Holds (vectorNew fresh) [] :=
    ⟨rfl, by show (0 : ℤ) ≤ 10; decide, rfl, fun k x hk => by simp at hk⟩
  exact refines_iff hholds ⟨by omega, by omega⟩ ops

/-- Eleven elements with a `realloc` that fails: the last one goes behind the block. -/
theorem vector_add_unchecked : (((List.replicate 10 (Op.add 1 none)).foldlM
      (fun v op => (step v op).map Prod.snd) (vectorNew fun _ => 0)).bind fun v =>
    some (v.capacity, v.size, (step v (Op.add 1 none)).isNone)) = some (10, 10, true) := by
  decide +kernel

end HorizonOS.Libc.Vector
