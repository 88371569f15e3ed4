import Mathlib

/-!
# Raster buffers

A buffer of words that remembers which of them were written, and the loops that paint it.

* `Painted`: one buffer is another with a set of words given one value. `Painted.trans` and
  `Painted.foldl` compose it, so that a loop nest is described by the union of what its body paints.
* `copyDown_cells`: the ascending copy of a block to a lower, possibly overlapping, address.
* `index_inj`: the row-major index determines row and column.
* `scroll_cells`: the rows move up and blank ones follow.
-/

namespace HorizonOS.Lib.Raster

variable {α ι : Type*}

/-- The words, and the indices written so far, the last one first. -/
structure Buffer (α : Type*) where
  cells : ℕ → α
  written : List ℕ

def Buffer.store (b : Buffer α) (i : ℕ) (v : α) : Buffer α :=
  { cells := Function.update b.cells i v, written := i :: b.written }

/-- The words from `base` on are set to `v`, in ascending order. -/
def Buffer.fill (b : Buffer α) (base n : ℕ) (v : α) : Buffer α :=
  (List.range n).foldl (fun b i => b.store (base + i) v) b

/-- `n` words are copied from `d` to 0, in ascending order. -/
def Buffer.copyDown (b : Buffer α) (d n : ℕ) : Buffer α :=
  (List.range n).foldl (fun b i => b.store i (b.cells (d + i))) b

/-! ## Painting -/

/-- `b'` is `b` with the words in `P` set to `v`, and nothing else written. -/
structure Painted (v : α) (P : ℕ → Prop) (b b' : Buffer α) : Prop where
  inside : ∀ j, P j → b'.cells j = v
  outside : ∀ j, ¬ P j → b'.cells j = b.cells j
  writes : ∀ j ∈ b'.written, j ∈ b.written ∨ P j

variable {v : α} {P Q : ℕ → Prop} {b b' b'' : Buffer α}

theorem Painted.refl (v : α) (b : Buffer α) : Painted v (fun _ => False) b b where
  inside _ hj := hj.elim
  outside _ _ := rfl
  writes _ hj := .inl hj

theorem Painted.store (v : α) (i : ℕ) (b : Buffer α) : Painted v (fun j => j = i) b (b.store i v) where
  inside j hj := by
    subst hj
    exact Function.update_self _ _ _
  outside j hj := Function.update_of_ne hj _ _
  writes j hj := (List.mem_cons.mp hj).symm

theorem Painted.congr (h : Painted v P b b') (hpq : ∀ j, P j ↔ Q j) : Painted v Q b b' where
  inside j hj := h.inside j ((hpq j).mpr hj)
  outside j hj := h.outside j (fun hp => hj ((hpq j).mp hp))
  writes j hj := (h.writes j hj).imp_right (hpq j).mp

theorem Painted.trans (h : Painted v P b b') (h' : Painted v Q b' b'') :
    Painted v (fun j => P j ∨ Q j) b b'' where
  inside j hj := by
    by_cases hq : Q j
    · exact h'.inside j hq
    · rw [h'.outside j hq]
      exact h.inside j (hj.resolve_right hq)
  outside j hj := by
    rw [h'.outside j (fun hq => hj (.inr hq)), h.outside j (fun hp => hj (.inl hp))]
  writes j hj := by
    rcases h'.writes j hj with hw | hq
    · exact (h.writes j hw).imp_right .inl
    · exact .inr (.inr hq)

/-- A loop paints what its iterations paint. -/
theorem Painted.foldl {f : Buffer α → ι → Buffer α} {P : ι → ℕ → Prop} (l : List ι)
    (h : ∀ b, ∀ a ∈ l, Painted v (P a) b (f b a)) (b : Buffer α) :
    Painted v (fun j => ∃ a ∈ l, P a j) b (l.foldl f b) := by
  induction l generalizing b with
  | nil => exact (Painted.refl v b).congr (by simp)
  | cons a l ih =>
    have hhead := h b a List.mem_cons_self
    have htail := ih (fun b a ha => h b a (List.mem_cons_of_mem _ ha)) (f b a)
    exact (hhead.trans htail).congr (by simp)

theorem painted_fill (b : Buffer α) (base n : ℕ) (v : α) :
    Painted v (fun j => base ≤ j ∧ j < base + n) b (b.fill base n v) := by
  refine (Painted.foldl (List.range n) (fun b i _ => Painted.store v (base + i) b) b).congr ?_
  intro j
  constructor
  · rintro ⟨i, hi, rfl⟩
    have := List.mem_range.mp hi
    omega
  · rintro ⟨hle, hlt⟩
    exact ⟨j - base, List.mem_range.mpr (by omega), by omega⟩

/-! ## Copying -/

theorem copyDown_succ (b : Buffer α) (d n : ℕ) :
    b.copyDown d (n + 1) = (b.copyDown d n).store n ((b.copyDown d n).cells (d + n)) := by
  unfold Buffer.copyDown
  rw [List.range_succ, List.foldl_append]
  rfl

/-- The source of each word is read before the copy reaches it. -/
theorem copyDown_cells (b : Buffer α) (d n j : ℕ) :
    (b.copyDown d n).cells j = if j < n then b.cells (d + j) else b.cells j := by
  induction n generalizing j with
  | zero => rfl
  | succ n ih =>
    rw [copyDown_succ]
    by_cases hj : j = n
    · subst hj
      rw [if_pos (Nat.lt_succ_self _)]
      refine (Function.update_self _ _ _).trans ?_
      rw [ih, if_neg (by omega)]
    · refine (Function.update_of_ne hj _ _).trans ?_
      rw [ih]
      by_cases hlt : j < n
      · rw [if_pos hlt, if_pos (by omega)]
      · rw [if_neg hlt, if_neg (by omega)]

theorem copyDown_writes (b : Buffer α) (d n : ℕ) :
    ∀ j ∈ (b.copyDown d n).written, j ∈ b.written ∨ j < n := by
  induction n with
  | zero => exact fun j hj => .inl hj
  | succ n ih =>
    rw [copyDown_succ]
    intro j hj
    rcases List.mem_cons.mp hj with rfl | hj
    · exact .inr (Nat.lt_succ_self _)
    · exact (ih j hj).imp_right Nat.lt_succ_of_lt

/-! ## Row-major indices -/

theorem index_inj {stride x x' y y' : ℕ} (hx : x < stride) (hx' : x' < stride) :
    y * stride + x = y' * stride + x' ↔ y = y' ∧ x = x' := by
  constructor
  · intro h
    have hy : y = y' := by
      have hdiv := congrArg (· / stride) h
      simpa [Nat.mul_comm _ stride, Nat.mul_add_div (by omega : 0 < stride),
        Nat.div_eq_of_lt hx, Nat.div_eq_of_lt hx'] using hdiv
    subst hy
    exact ⟨rfl, Nat.add_left_cancel h⟩
  · rintro ⟨rfl, rfl⟩
    rfl

theorem index_lt {stride x y n : ℕ} (hx : x < stride) (hy : y < n) :
    y * stride + x < stride * n := by
  have hmul : (y + 1) * stride ≤ n * stride := Nat.mul_le_mul_right _ hy
  rw [Nat.add_mul, Nat.one_mul] at hmul
  rw [Nat.mul_comm stride n]
  omega

/-! ## Scrolling -/

/-- `height` rows of `stride` words move up by `d` rows; the last `d` rows are set to `v`. -/
def Buffer.scroll (b : Buffer α) (stride height d : ℕ) (v : α) : Buffer α :=
  (b.copyDown (d * stride) (stride * (height - d))).fill (stride * (height - d)) (d * stride) v

/-- The two blocks of words that a scroll writes are the whole raster. -/
theorem scroll_blocks (stride : ℕ) {height d : ℕ} (hd : d ≤ height) :
    stride * (height - d) + d * stride = stride * height := by
  rw [Nat.mul_comm d, ← Nat.mul_add, Nat.sub_add_cancel hd]

theorem scroll_cells {stride height d x y : ℕ} (b : Buffer α) (v : α) (hd : d ≤ height)
    (hx : x < stride) (hy : y < height) :
    (b.scroll stride height d v).cells (y * stride + x) =
      if y + d < height then b.cells ((y + d) * stride + x) else v := by
  have hpaint := painted_fill (b.copyDown (d * stride) (stride * (height - d)))
    (stride * (height - d)) (d * stride) v
  unfold Buffer.scroll
  by_cases hlow : y + d < height
  · have hindex : y * stride + x < stride * (height - d) := index_lt hx (by omega)
    have hsource : d * stride + (y * stride + x) = (y + d) * stride + x := by ring
    rw [hpaint.outside _ (by omega), copyDown_cells, if_pos hindex, if_pos hlow, hsource]
  · have hindex : y * stride + x < stride * height := index_lt hx hy
    have hbase : stride * (height - d) ≤ y * stride := by
      rw [Nat.mul_comm]
      exact Nat.mul_le_mul_right _ (by omega)
    rw [if_neg hlow]
    refine hpaint.inside _ ⟨by omega, ?_⟩
    rw [scroll_blocks stride hd]
    exact hindex

end HorizonOS.Lib.Raster
