import Mathlib.Data.List.TakeWhile

/-!
# Words

The words of a list are its longest pieces without a separator. A scanner that skips the separators,
copies what is in front of the next one and goes on from there meets them in order.

* `splitWords_cases`: what is behind the leading separators is nothing, or a word and the rest.
-/

namespace HorizonOS.Lib

variable {α : Type*} (sep : α → Bool)

/-- The words of a list. -/
def splitWords (l : List α) : List (List α) := (l.splitOnP sep).filter (!·.isEmpty)

@[simp] theorem splitWords_nil : splitWords sep [] = [] := rfl

variable {sep}

theorem splitWords_cons_of_sep {a : α} (ha : sep a) (l : List α) :
    splitWords sep (a :: l) = splitWords sep l := by
  simp [splitWords, List.splitOnP_cons_eq_if_modifyHead, ha]

theorem splitWords_dropWhile (l : List α) :
    splitWords sep (l.dropWhile sep) = splitWords sep l := by
  induction l with
  | nil => rfl
  | cons a l ih =>
    by_cases ha : sep a
    · rw [List.dropWhile_cons_of_pos ha, ih, splitWords_cons_of_sep ha]
    · rw [List.dropWhile_cons_of_neg ha]

/-- A word in front of a separator, or of the end. -/
theorem splitWords_append {w l : List α} (hne : w ≠ []) (hw : ∀ a ∈ w, sep a = false)
    (hl : ∀ a ∈ l.head?, sep a) : splitWords sep (w ++ l) = w :: splitWords sep l := by
  cases l with
  | nil =>
    rw [List.append_nil, splitWords, List.splitOnP_eq_singleton hw]
    simp [hne]
  | cons a l =>
    have ha : sep a := hl a rfl
    rw [splitWords_cons_of_sep ha, splitWords, List.splitOnP_append_cons_of_forall_mem hw a ha]
    simp [splitWords, hne]

variable (sep) in
theorem splitWords_cases (l : List α) :
    (l.dropWhile sep = [] ∧ splitWords sep l = []) ∨
    ∃ w rest, l.dropWhile sep = w ++ rest ∧ w ≠ [] ∧ (∀ a ∈ w, sep a = false) ∧
      (∀ a ∈ rest.head?, sep a) ∧ splitWords sep l = w :: splitWords sep rest := by
  rcases hl : l.dropWhile sep with _ | ⟨a, t⟩
  · left
    rw [← splitWords_dropWhile, hl]
    exact ⟨rfl, rfl⟩
  · right
    have ha : sep a = false := by
      have hhead := List.head_dropWhile_not sep (l := l) (by simp [hl])
      simpa [hl] using hhead
    have hw : ∀ b ∈ (a :: t).takeWhile (!sep ·), sep b = false := fun b hb => by
      simpa using List.mem_takeWhile_imp hb
    have hrest : ∀ b ∈ ((a :: t).dropWhile (!sep ·)).head?, sep b := fun b hb => by
      have hnot := List.head?_dropWhile_not (fun a => !sep a) (a :: t)
      rw [Option.mem_def.mp hb] at hnot
      simpa using hnot
    have hne : (a :: t).takeWhile (!sep ·) ≠ [] := by simp [ha]
    refine ⟨_, _, List.takeWhile_append_dropWhile.symm, hne, hw, hrest, ?_⟩
    rw [← splitWords_append hne hw hrest, List.takeWhile_append_dropWhile, ← hl,
      splitWords_dropWhile]

end HorizonOS.Lib
