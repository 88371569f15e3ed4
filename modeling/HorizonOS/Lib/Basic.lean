import Mathlib

/-!
# Masks, buffers and scans

* `toNat_and_mask`: clearing the low bits of a word rounds it down.
* `map_range_update`, `map_range_reverse`: a buffer that is filled upwards and read backwards.
* `findSome?_range_congr`, `findSome?_range_eq_some`: what a scan over the first numbers finds.
-/

namespace HorizonOS.Lib

/-- Clearing the low `k` bits rounds down to a multiple of `2 ^ k`. -/
theorem toNat_and_mask {w k : ℕ} {mask : BitVec w} (hmask : mask = BitVec.allOnes w <<< k)
    (x : BitVec w) : (x &&& mask).toNat = x.toNat / 2 ^ k * 2 ^ k := by
  rw [hmask, ← BitVec.shiftLeft_ushiftRight, BitVec.toNat_shiftLeft, BitVec.toNat_ushiftRight,
    Nat.shiftLeft_eq, Nat.shiftRight_eq_div_pow]
  exact Nat.mod_eq_of_lt ((Nat.div_mul_le_self _ _).trans_lt x.isLt)

variable {α : Type*} {n : ℕ}

/-- Writing behind what is there appends. -/
theorem map_range_update (buf : ℕ → α) (i : ℕ) (a : α) :
    (List.range (i + 1)).map (Function.update buf i a) = (List.range i).map buf ++ [a] := by
  rw [List.range_succ, List.map_append, List.map_singleton, Function.update_self]
  congr 1
  apply List.map_congr_left
  intro j hj
  exact Function.update_of_ne (List.mem_range.mp hj).ne _ _

theorem map_range_reverse (buf : ℕ → α) (n : ℕ) :
    (List.range n).map (fun k => buf (n - 1 - k)) = ((List.range n).map buf).reverse := by
  rw [← List.map_reverse, List.range_eq_range' (n := n), List.reverse_range', List.map_map,
    ← List.range_eq_range', Nat.zero_add]
  rfl

/-- Two scans that differ only behind a place where the second finds something. -/
theorem findSome?_range_congr {f g : ℕ → Option α} (h : ∀ i < n, f i ≠ g i → ∃ j < i, g j ≠ none) :
    (List.range n).findSome? f = (List.range n).findSome? g := by
  induction n with
  | zero => rfl
  | succ n ih =>
    rw [List.range_succ, List.findSome?_append, List.findSome?_append,
      ih fun i hi => h i (hi.trans n.lt_succ_self)]
    cases hfind : (List.range n).findSome? g with
    | some a => rfl
    | none =>
      have hnone : ∀ j < n, g j = none := fun j hj =>
        List.findSome?_eq_none_iff.mp hfind j (List.mem_range.mpr hj)
      have heq : f n = g n := by
        by_contra hne
        obtain ⟨j, hj, hg⟩ := h n n.lt_succ_self hne
        exact hg (hnone j hj)
      rw [List.findSome?_cons, List.findSome?_cons, heq]
      rfl

/-- A scan finds what is at the first place where there is something. -/
theorem findSome?_range_eq_some {g : ℕ → Option α} {a : α} {i : ℕ} (hi : i < n)
    (ha : g i = some a) (hbefore : ∀ j < i, g j = none) : (List.range n).findSome? g = some a := by
  obtain ⟨k, rfl⟩ := Nat.exists_eq_add_of_lt hi
  rw [List.range_eq_range', List.findSome?_eq_some_iff]
  refine ⟨List.range' 0 i, i, List.range' (i + 1) k, ?_, ha, fun j hj => ?_⟩
  · have happend : List.range' 0 i ++ List.range' (0 + i) (k + 1) = List.range' 0 (i + (k + 1)) :=
      List.range'_append_1
    rw [← List.range'_succ, Nat.add_assoc, ← happend, Nat.zero_add]
  · have := List.mem_range'_1.mp hj
    exact hbefore j (by omega)

end HorizonOS.Lib
