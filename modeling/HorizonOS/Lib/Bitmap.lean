import Mathlib

/-!
# Bitmaps

A set of numbers kept as words of `w` bits: number `n` is bit `n % w` of word `n / w`.

* `get_set`, `get_clear`: what setting and clearing a bit does to every bit.
* `clear_set`: clearing a bit that was just set restores the words.
* `firstZero_eq_some`, `firstZero_eq_none`: the search for a clear bit, word by word.
-/

namespace HorizonOS.Lib.Bitmap

variable {w : ℕ}

/-- Bit `n`. -/
def get (words : ℕ → BitVec w) (n : ℕ) : Bool := (words (n / w)).getLsbD (n % w)

def set (words : ℕ → BitVec w) (n : ℕ) : ℕ → BitVec w :=
  Function.update words (n / w) (words (n / w) ||| 1#w <<< (n % w))

def clear (words : ℕ → BitVec w) (n : ℕ) : ℕ → BitVec w :=
  Function.update words (n / w) (words (n / w) &&& ~~~(1#w <<< (n % w)))

/-- The first clear bit of a word. -/
def firstZeroBit (x : BitVec w) : Option ℕ :=
  if x = BitVec.allOnes w then none else (List.range w).find? fun j => x &&& 1#w <<< j = 0#w

/-- The first clear bit of the `k` words from word `i` on; full words are skipped. -/
def firstZeroFrom (words : ℕ → BitVec w) : ℕ → ℕ → Option ℕ
  | 0, _ => none
  | k + 1, i =>
    match firstZeroBit (words i) with
    | some j => some (i * w + j)
    | none => firstZeroFrom words k (i + 1)

/-- The first clear bit of the first `k` words. -/
def firstZero (words : ℕ → BitVec w) (k : ℕ) : Option ℕ := firstZeroFrom words k 0

theorem getLsbD_one_shiftLeft {i j : ℕ} (hi : i < w) :
    (1#w <<< i).getLsbD j = decide (i = j) := by
  have h := BitVec.getLsbD_twoPow (w := w) i j
  rw [decide_eq_true hi, Bool.true_and] at h
  exact h

theorem eq_iff_div_mod {m n : ℕ} : m = n ↔ m / w = n / w ∧ m % w = n % w := by
  constructor
  · rintro rfl
    exact ⟨rfl, rfl⟩
  · rintro ⟨hdiv, hmod⟩
    rw [← Nat.div_add_mod m w, ← Nat.div_add_mod n w, hdiv, hmod]

/-- A change of the word of `n` that changes bit `n % w` to `b` and keeps the others. -/
theorem get_update {words : ℕ → BitVec w} {n : ℕ} {x : BitVec w} {b : Bool}
    (hx : ∀ j < w, x.getLsbD j = if j = n % w then b else (words (n / w)).getLsbD j)
    (hw : 0 < w) (m : ℕ) :
    get (Function.update words (n / w) x) m = if m = n then b else get words m := by
  unfold get
  by_cases hdiv : m / w = n / w
  · rw [hdiv, Function.update_self, hx _ (Nat.mod_lt _ hw)]
    by_cases hmod : m % w = n % w
    · rw [if_pos hmod, if_pos (eq_iff_div_mod.mpr ⟨hdiv, hmod⟩)]
    · rw [if_neg hmod, if_neg fun h => hmod (eq_iff_div_mod.mp h).2]
  · rw [Function.update_of_ne hdiv, if_neg fun h => hdiv (eq_iff_div_mod.mp h).1]

theorem get_set (hw : 0 < w) (words : ℕ → BitVec w) (n m : ℕ) :
    get (set words n) m = if m = n then true else get words m := by
  refine get_update ?_ hw m
  intro j hj
  rw [BitVec.getLsbD_or, getLsbD_one_shiftLeft (Nat.mod_lt _ hw)]
  by_cases h : n % w = j
  · simp [h]
  · simp [h, Ne.symm h]

theorem get_clear (hw : 0 < w) (words : ℕ → BitVec w) (n m : ℕ) :
    get (clear words n) m = if m = n then false else get words m := by
  refine get_update ?_ hw m
  intro j hj
  rw [BitVec.getLsbD_and, BitVec.getLsbD_not, getLsbD_one_shiftLeft (Nat.mod_lt _ hw)]
  by_cases h : n % w = j
  · simp [h]
  · simp [h, hj, Ne.symm h]

theorem get_mul_add {words : ℕ → BitVec w} {i j : ℕ} (hj : j < w) :
    get words (i * w + j) = (words i).getLsbD j := by
  rw [get, Nat.mul_comm, Nat.mul_add_div (by omega), Nat.div_eq_of_lt hj, Nat.add_zero,
    Nat.mul_add_mod, Nat.mod_eq_of_lt hj]

/-- Words with the same bits are the same. -/
theorem ext_get {a b : ℕ → BitVec w} (h : ∀ n, get a n = get b n) : a = b := by
  funext i
  apply BitVec.eq_of_getLsbD_eq
  intro j hj
  rw [← get_mul_add hj, ← get_mul_add hj, h]

theorem clear_set (hw : 0 < w) {words : ℕ → BitVec w} {n : ℕ} (h : get words n = false) :
    clear (set words n) n = words := by
  refine ext_get fun m => ?_
  rw [get_clear hw, get_set hw]
  split_ifs with hm
  · rw [hm, h]
  · rfl

theorem and_one_shiftLeft_eq_zero {x : BitVec w} {j : ℕ} (hj : j < w) :
    x &&& 1#w <<< j = 0#w ↔ x.getLsbD j = false := by
  constructor
  · intro h
    have hbit := congrArg (fun y => y.getLsbD j) h
    simpa [getLsbD_one_shiftLeft hj] using hbit
  · intro h
    apply BitVec.eq_of_getLsbD_eq
    intro i hi
    rw [BitVec.getLsbD_and, getLsbD_one_shiftLeft hj, BitVec.getLsbD_zero]
    by_cases hij : j = i
    · rw [← hij, h, Bool.false_and]
    · simp [hij]

theorem firstZeroBit_eq_some {x : BitVec w} {j : ℕ} (h : firstZeroBit x = some j) :
    j < w ∧ x.getLsbD j = false ∧ ∀ i < j, x.getLsbD i = true := by
  unfold firstZeroBit at h
  split_ifs at h
  rw [List.find?_range_eq_some] at h
  obtain ⟨hzero, hmem, hfirst⟩ := h
  have hj : j < w := List.mem_range.mp hmem
  rw [decide_eq_true_iff, and_one_shiftLeft_eq_zero hj] at hzero
  refine ⟨hj, hzero, ?_⟩
  intro i hi
  have hne := hfirst i hi
  rw [Bool.not_eq_true', decide_eq_false_iff_not,
    and_one_shiftLeft_eq_zero (hi.trans hj)] at hne
  simpa using hne

theorem firstZeroBit_eq_none {x : BitVec w} (h : firstZeroBit x = none) {j : ℕ} (hj : j < w) :
    x.getLsbD j = true := by
  unfold firstZeroBit at h
  split_ifs at h with hfull
  · rw [hfull, BitVec.getLsbD_allOnes, decide_eq_true hj]
  · have hne := List.find?_eq_none.mp h j (List.mem_range.mpr hj)
    rw [decide_eq_true_iff, and_one_shiftLeft_eq_zero hj] at hne
    simpa using hne

/-- Before the bit found every bit from word `i` on is set. -/
theorem firstZeroFrom_eq_some {words : ℕ → BitVec w} {k i n : ℕ}
    (h : firstZeroFrom words k i = some n) :
    n < (i + k) * w ∧ get words n = false ∧ ∀ m, i * w ≤ m → m < n → get words m = true := by
  induction k generalizing i with
  | zero => cases h
  | succ k ih =>
    rw [firstZeroFrom] at h
    split at h
    · rename_i j hj
      obtain ⟨hjw, hzero, hones⟩ := firstZeroBit_eq_some hj
      obtain rfl := Option.some.inj h
      refine ⟨?_, by rw [get_mul_add hjw, hzero], ?_⟩
      · calc i * w + j < i * w + w := by omega
          _ = (i + 1) * w := (Nat.succ_mul i w).symm
          _ ≤ (i + (k + 1)) * w := Nat.mul_le_mul_right w (by omega)
      · intro m hm hlt
        obtain ⟨b, rfl⟩ := Nat.exists_eq_add_of_le hm
        rw [get_mul_add (by omega)]
        exact hones b (by omega)
    · rename_i hnone
      obtain ⟨hlt, hzero, hones⟩ := ih h
      refine ⟨by rwa [Nat.add_right_comm] at hlt, hzero, ?_⟩
      intro m hm hmn
      rcases Nat.lt_or_ge m ((i + 1) * w) with hword | hword
      · rw [Nat.succ_mul] at hword
        obtain ⟨b, rfl⟩ := Nat.exists_eq_add_of_le hm
        rw [get_mul_add (by omega)]
        exact firstZeroBit_eq_none hnone (by omega)
      · exact hones m hword hmn

theorem firstZeroFrom_eq_none {words : ℕ → BitVec w} {k i : ℕ}
    (h : firstZeroFrom words k i = none) {m : ℕ} (hm : i * w ≤ m) (hlt : m < (i + k) * w) :
    get words m = true := by
  induction k generalizing i with
  | zero =>
    rw [Nat.add_zero] at hlt
    omega
  | succ k ih =>
    rw [firstZeroFrom] at h
    split at h
    · cases h
    · rename_i hnone
      rcases Nat.lt_or_ge m ((i + 1) * w) with hword | hword
      · rw [Nat.succ_mul] at hword
        obtain ⟨b, rfl⟩ := Nat.exists_eq_add_of_le hm
        rw [get_mul_add (by omega)]
        exact firstZeroBit_eq_none hnone (by omega)
      · exact ih h hword (by rwa [Nat.add_right_comm])

theorem firstZero_eq_some {words : ℕ → BitVec w} {k n : ℕ} (h : firstZero words k = some n) :
    n < k * w ∧ get words n = false ∧ ∀ m < n, get words m = true := by
  obtain ⟨hlt, hzero, hones⟩ := firstZeroFrom_eq_some h
  exact ⟨by rwa [Nat.zero_add] at hlt, hzero, fun m hm => hones m (by omega) hm⟩

theorem firstZero_eq_none {words : ℕ → BitVec w} {k : ℕ} (h : firstZero words k = none) {n : ℕ}
    (hn : n < k * w) : get words n = true :=
  firstZeroFrom_eq_none h (by omega) (by rwa [Nat.zero_add])

end HorizonOS.Lib.Bitmap
