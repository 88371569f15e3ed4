import Mathlib

/-!
# Ring buffers as windows of a stream

A ring of `N` slots with a write index `head` and a read index `tail` is read
against the stream of everything ever written: the element written `i`-th sits in
slot `i % N` until `N` further elements are written. One slot stays free, so that
`head = tail` means empty.

* `View`: the ring holds the stream from position `t` on.
* `View.push`, `View.advance`: writing an element, and moving the read position.
* `View.contents_eq`: what the ring holds, computed from its indices.
* `Occupied`: the slots of the positions from `c` up to `v`, for rings that use every slot.
-/

namespace HorizonOS.Lib.Ring

variable {α : Type*} {N : ℕ}

/-- What the ring holds, oldest first. -/
def contents (N : ℕ) (slots : ℕ → α) (head tail : ℕ) : List α :=
  (List.range ((head + N - tail) % N)).map fun i => slots ((tail + i) % N)

/-- The last `N` elements of the stream `P` are in their slots. -/
def Window (N : ℕ) (slots : ℕ → α) (P : List α) : Prop :=
  ∀ i a, P[i]? = some a → P.length ≤ i + N → slots (i % N) = a

/-- The ring holds the stream `P` from position `t` on. -/
structure View (N : ℕ) (slots : ℕ → α) (head tail : ℕ) (P : List α) (t : ℕ) : Prop where
  head_eq : head = P.length % N
  tail_eq : tail = t % N
  le_length : t ≤ P.length
  length_lt : P.length < t + N
  window : Window N slots P

/-- Positions less than `N` apart have different slots. -/
theorem eq_of_mod_eq {i j : ℕ} (h : i % N = j % N) (h1 : i ≤ j) (h2 : j < i + N) : i = j := by
  have hsub : (j - i) % N = 0 := Nat.sub_mod_eq_zero_of_mod_eq h.symm
  rw [Nat.mod_eq_of_lt (by omega)] at hsub
  omega

theorem Window.push {slots : ℕ → α} {P : List α} (h : Window N slots P) (a : α) :
    Window N (Function.update slots (P.length % N) a) (P ++ [a]) := by
  intro i b hi hlen
  rw [List.length_append, List.length_singleton] at hlen
  rw [List.getElem?_append] at hi
  split_ifs at hi with hlt
  · -- an older element that is still in the window has another slot
    have hne : i % N ≠ P.length % N := by
      intro he
      have := eq_of_mod_eq he (by omega) (by omega)
      omega
    rw [Function.update_of_ne hne]
    exact h i b hi (by omega)
  · have hi0 : i = P.length := by
      have := (List.getElem?_eq_some_iff.mp hi).1
      rw [List.length_singleton] at this
      omega
    subst hi0
    rw [Nat.sub_self, List.getElem?_singleton] at hi
    simp only [if_true, Option.some.injEq] at hi
    rw [Function.update_self, hi]

namespace View

variable {slots : ℕ → α} {head tail t : ℕ} {P : List α}

theorem pos (h : View N slots head tail P t) : 0 < N := by
  have h1 := h.le_length
  have h2 := h.length_lt
  omega

theorem head_lt (h : View N slots head tail P t) : head < N := by
  rw [h.head_eq]
  exact Nat.mod_lt _ h.pos

theorem tail_lt (h : View N slots head tail P t) : tail < N := by
  rw [h.tail_eq]
  exact Nat.mod_lt _ h.pos

/-- The indices agree when nothing is left. -/
theorem tail_eq_head_iff (h : View N slots head tail P t) : tail = head ↔ t = P.length := by
  rw [h.head_eq, h.tail_eq]
  constructor
  · intro he
    exact eq_of_mod_eq he h.le_length h.length_lt
  · intro he
    rw [he]

/-- The next write index meets the read index when one slot is free. -/
theorem next_eq_tail_iff (h : View N slots head tail P t) :
    (head + 1) % N = tail ↔ P.length + 1 = t + N := by
  have h1 := h.le_length
  have h2 := h.length_lt
  rw [h.head_eq, h.tail_eq, Nat.mod_add_mod]
  constructor
  · intro he
    have he' : (P.length + 1) % N = (t + N) % N := by rw [he, Nat.add_mod_right]
    exact eq_of_mod_eq he' (by omega) (by omega)
  · intro he
    rw [he, Nat.add_mod_right]

/-- Write an element and move the write index on. -/
theorem push (h : View N slots head tail P t) (a : α) (hroom : P.length + 1 < t + N) :
    View N (Function.update slots head a) ((head + 1) % N) tail (P ++ [a]) t := by
  have hlen : (P ++ [a]).length = P.length + 1 := by simp
  refine ⟨?_, h.tail_eq, ?_, ?_, ?_⟩
  · rw [hlen, h.head_eq, Nat.mod_add_mod]
  · rw [hlen]
    exact h.le_length.trans (Nat.le_succ _)
  · rw [hlen]
    exact hroom
  · rw [h.head_eq]
    exact h.window.push a

/-- Move the read index on by one. -/
theorem advance (h : View N slots head tail P t) (hlt : t < P.length) :
    View N slots head ((tail + 1) % N) P (t + 1) := by
  have h2 := h.length_lt
  refine ⟨h.head_eq, ?_, hlt, by omega, h.window⟩
  rw [h.tail_eq, Nat.mod_add_mod]

/-- The slot at the read index holds the oldest element. -/
theorem oldest (h : View N slots head tail P t) {a : α} (ha : P[t]? = some a) : slots tail = a := by
  rw [h.tail_eq]
  exact h.window t a ha (by have := h.length_lt; omega)

/-- What the ring holds is the stream from `t` on. -/
theorem contents_eq (h : View N slots head tail P t) : contents N slots head tail = P.drop t := by
  have h1 := h.le_length
  have h2 := h.length_lt
  have hcount : (head + N - tail) % N = P.length - t := by
    have hmod : (head + N - tail) % N = (P.length - t) % N := by
      have htail := h.tail_lt
      apply Nat.ModEq.add_right_cancel' tail
      show (head + N - tail + tail) % N = (P.length - t + tail) % N
      rw [show head + N - tail + tail = head + N by omega, Nat.add_mod_right, h.head_eq, h.tail_eq,
        Nat.add_mod_mod, Nat.mod_mod, Nat.sub_add_cancel h1]
    rw [hmod, Nat.mod_eq_of_lt (by omega)]
  apply List.ext_getElem
  · rw [contents, hcount]
    simp
  · intro i hi1 hi2
    rw [List.length_drop] at hi2
    simp only [contents, List.getElem_map, List.getElem_range, List.getElem_drop]
    rw [h.tail_eq, Nat.mod_add_mod]
    exact h.window (t + i) _ (List.getElem?_eq_getElem (by omega)) (by omega)

end View

/-- A ring whose indices agree holds nothing, whatever its slots. -/
theorem view_empty (hN : 0 < N) (slots : ℕ → α) : View N slots 0 0 [] 0 :=
  ⟨by simp, by simp, le_rfl, by simpa using hN, by intro i a hi; simp at hi⟩

/-! ## Occupied slots -/

/-- Slot `j` holds one of the positions `c .. v - 1`. -/
def Occupied (N c v j : ℕ) : Prop := ∃ n, c ≤ n ∧ n < v ∧ n % N = j

theorem occupied_retire {c v j : ℕ} (hle : v ≤ c + N) :
    Occupied N (c + 1) v j ↔ j ≠ c % N ∧ Occupied N c v j := by
  constructor
  · rintro ⟨n, hn, hv, rfl⟩
    refine ⟨?_, n, by omega, hv, rfl⟩
    intro he
    have := eq_of_mod_eq he.symm (by omega) (by omega)
    omega
  · rintro ⟨hne, n, hn, hv, rfl⟩
    have hnc : n ≠ c := fun he => hne (by rw [he])
    exact ⟨n, by omega, hv, rfl⟩

theorem occupied_push {c v j : ℕ} (hle : c ≤ v) :
    Occupied N c (v + 1) j ↔ j = v % N ∨ Occupied N c v j := by
  constructor
  · rintro ⟨n, hn, hv, rfl⟩
    rcases Nat.lt_succ_iff_lt_or_eq.mp hv with hv | rfl
    · exact .inr ⟨n, hn, hv, rfl⟩
    · exact .inl rfl
  · rintro (rfl | ⟨n, hn, hv, rfl⟩)
    · exact ⟨v, hle, by omega, rfl⟩
    · exact ⟨n, hn, by omega, rfl⟩

/-- With fewer than `N` positions in use the next slot is free. -/
theorem not_occupied_next {c v : ℕ} (h : v < c + N) : ¬ Occupied N c v (v % N) := by
  rintro ⟨n, hn, hv, hmod⟩
  have := eq_of_mod_eq hmod (by omega) (by omega)
  omega

end HorizonOS.Lib.Ring
