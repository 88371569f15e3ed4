import Mathlib

/-!
# Xorshift maps

The step of an xorshift generator: three times a word is combined with itself shifted, to the left,
to the right and to the left again. The width of the words is arbitrary, and so are the distances
as long as they are not zero.

* `xor_shiftLeft_injective`, `xor_ushiftRight_injective`: one shift loses nothing.
* `step_bijective`: the three of them permute the words.
* `step_eq_zero_iff`: only zero leads to zero.
-/

namespace HorizonOS.Lib.Xorshift

variable {w : ℕ}

/-- A word that is its own shift has no bit set: the lowest one would need a lower one. -/
theorem eq_zero_of_eq_shiftLeft {k : ℕ} (hk : 0 < k) {d : BitVec w} (h : d = d <<< k) :
    d = 0 := by
  have hbit : ∀ i, d.getLsbD i = false := by
    intro i
    induction i using Nat.strong_induction_on with
    | _ i ih =>
      rw [h, BitVec.getLsbD_shiftLeft]
      rcases Nat.lt_or_ge i k with hlt | hge
      · simp [hlt]
      · rw [ih (i - k) (by omega), Bool.and_false]
  exact BitVec.eq_of_getLsbD_eq fun i _ => by simp [hbit i]

/-- For the other direction, the highest one would need a higher one. -/
theorem eq_zero_of_eq_ushiftRight {k : ℕ} (hk : 0 < k) {d : BitVec w} (h : d = d >>> k) :
    d = 0 := by
  have hbit : ∀ n i, w ≤ i + n → d.getLsbD i = false := by
    intro n
    induction n with
    | zero => exact fun i hi => BitVec.getLsbD_of_ge d i (by omega)
    | succ n ih =>
      intro i hi
      rw [h, BitVec.getLsbD_ushiftRight]
      exact ih (k + i) (by omega)
  exact BitVec.eq_of_getLsbD_eq fun i _ => by simp [hbit w i (by omega)]

theorem xor_swap {a b c d : BitVec w} (h : a ^^^ b = c ^^^ d) : a ^^^ c = b ^^^ d := by
  calc a ^^^ c = a ^^^ (c ^^^ d) ^^^ d := by
        rw [BitVec.xor_assoc, BitVec.xor_assoc, BitVec.xor_self, BitVec.xor_zero]
    _ = a ^^^ (a ^^^ b) ^^^ d := by rw [h]
    _ = b ^^^ d := by rw [← BitVec.xor_assoc, BitVec.xor_self, BitVec.zero_xor]

theorem xor_shiftLeft_injective {k : ℕ} (hk : 0 < k) :
    Function.Injective fun x : BitVec w => x ^^^ x <<< k := by
  intro x y h
  have hd : x ^^^ y = (x ^^^ y) <<< k := by
    rw [BitVec.shiftLeft_xor_distrib]
    exact xor_swap h
  exact BitVec.xor_eq_zero_iff.mp (eq_zero_of_eq_shiftLeft hk hd)

theorem xor_ushiftRight_injective {k : ℕ} (hk : 0 < k) :
    Function.Injective fun x : BitVec w => x ^^^ x >>> k := by
  intro x y h
  have hd : x ^^^ y = (x ^^^ y) >>> k := by
    rw [BitVec.ushiftRight_xor_distrib]
    exact xor_swap h
  exact BitVec.xor_eq_zero_iff.mp (eq_zero_of_eq_ushiftRight hk hd)

/-- The step with the shifts `a`, `b` and `c`. -/
def step (a b c : ℕ) (x : BitVec w) : BitVec w :=
  let x := x ^^^ x <<< a
  let x := x ^^^ x >>> b
  x ^^^ x <<< c

section Step

variable {a b c : ℕ} (ha : 0 < a) (hb : 0 < b) (hc : 0 < c)

@[simp] theorem step_zero : step a b c (0 : BitVec w) = 0 := by
  simp [step]

include ha hb hc

theorem step_bijective : Function.Bijective (step a b c : BitVec w → BitVec w) := by
  have hinj : Function.Injective (step a b c : BitVec w → BitVec w) :=
    (xor_shiftLeft_injective hc).comp
      ((xor_ushiftRight_injective hb).comp (xor_shiftLeft_injective ha))
  exact Finite.injective_iff_bijective.mp hinj

theorem step_eq_zero_iff {x : BitVec w} : step a b c x = 0 ↔ x = 0 := by
  constructor
  · intro h
    exact (step_bijective ha hb hc).injective (h.trans step_zero.symm)
  · rintro rfl
    exact step_zero

end Step

end HorizonOS.Lib.Xorshift
