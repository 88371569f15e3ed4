import Mathlib

/-!
# Scrolling terminals

The layout of a text as lines of at most `cols` cells, independent of any screen, and the window
of its last `rows` lines.

* `line_length_put`: no line grows past the right edge.
* `cell_newline_of_lt`, `cell_newline_of_le`: what a new line does to the window, before and after
  the screen is full.
* `cell_pad`, `cell_append`: what a tab and a character do to it.
-/

namespace HorizonOS.Lib.Terminal

variable {α : Type*}

/-- What a terminal distinguishes in its input. -/
inductive Key (α : Type*) where
  | newline
  | tab
  | glyph (a : α)

/-- A cell is blank or holds a character. -/
abbrev Line (α : Type*) := List (Option α)

/-- The finished lines, oldest first, and the line being written. -/
structure Layout (α : Type*) where
  above : List (Line α)
  line : Line α

namespace Layout

def empty : Layout α := { above := [], line := [] }

def newline (L : Layout α) : Layout α := { above := L.above ++ [L.line], line := [] }

/-- The first multiple of `tab` past the end of the line. -/
def tabStop (tab : ℕ) (L : Layout α) : ℕ := (L.line.length + tab) / tab * tab

/-- The line is padded with blanks up to column `n`. -/
def pad (n : ℕ) (L : Layout α) : Layout α :=
  { L with line := L.line ++ List.replicate (n - L.line.length) none }

def append (a : α) (L : Layout α) : Layout α := { L with line := L.line ++ [some a] }

/-- A tab that reaches the right edge breaks the line; a character that finds the line full breaks
    it first. -/
def put (cols tab : ℕ) (L : Layout α) : Key α → Layout α
  | .newline => L.newline
  | .tab => if cols ≤ L.tabStop tab then L.newline else L.pad (L.tabStop tab)
  | .glyph a => if cols ≤ L.line.length then L.newline.append a else L.append a

def lines (L : Layout α) : List (Line α) := L.above ++ [L.line]

/-- The last `rows` lines. -/
def shown (rows : ℕ) (L : Layout α) : List (Line α) := L.lines.drop (L.lines.length - rows)

/-- The cell in column `k` of row `r` of the window. -/
def cell (rows : ℕ) (L : Layout α) (r k : ℕ) : Option α :=
  (((L.shown rows)[r]?.getD [])[k]?).join

/-- The row of the line being written. -/
def row (rows : ℕ) (L : Layout α) : ℕ := min L.lines.length rows - 1

end Layout

open Layout

variable {L : Layout α} {rows r : ℕ}

theorem lines_newline (L : Layout α) : L.newline.lines = L.lines ++ [[]] := rfl

theorem length_lines (L : Layout α) : L.lines.length = L.above.length + 1 := by simp [lines]

theorem cell_eq (rows : ℕ) (L : Layout α) (r k : ℕ) :
    L.cell rows r k = ((L.lines[L.lines.length - rows + r]?.getD [])[k]?).join := by
  unfold cell shown
  rw [List.getElem?_drop]

/-- An empty line at the end reads as no line. -/
theorem getElem?_append_nil (ls : List (Line α)) (i : ℕ) :
    (ls ++ [[]])[i]?.getD [] = ls[i]?.getD [] := by
  rcases lt_trichotomy i ls.length with h | h | h
  · rw [List.getElem?_append_left h]
  · subst h
    simp
  · rw [List.getElem?_eq_none (by simp; omega), List.getElem?_eq_none (by omega)]

theorem cell_newline_of_lt (h : L.lines.length < rows) (r k : ℕ) :
    L.newline.cell rows r k = L.cell rows r k := by
  rw [cell_eq, cell_eq, lines_newline, getElem?_append_nil, List.length_append,
    List.length_singleton, Nat.sub_eq_zero_of_le (by omega), Nat.sub_eq_zero_of_le (by omega)]

theorem cell_newline_of_le (h : rows ≤ L.lines.length) (r k : ℕ) :
    L.newline.cell rows r k = L.cell rows (r + 1) k := by
  have hindex : L.lines.length + 1 - rows + r = L.lines.length - rows + (r + 1) := by omega
  rw [cell_eq, cell_eq, lines_newline, getElem?_append_nil, List.length_append,
    List.length_singleton, hindex]

theorem cell_of_rows_le (h : rows ≤ r) (k : ℕ) : L.cell rows r k = none := by
  have hnone : L.lines[L.lines.length - rows + r]? = none :=
    List.getElem?_eq_none (by omega)
  rw [cell_eq, hnone]
  rfl

theorem cell_empty (rows r k : ℕ) : (empty : Layout α).cell rows r k = none := by
  have hlines : (empty : Layout α).lines = [] ++ [[]] := rfl
  rw [cell_eq, hlines, getElem?_append_nil]
  rfl

/-- Replacing the line being written changes its own row only. -/
theorem cell_line (hrows : 0 < rows) (l : Line α) (r k : ℕ) :
    ({ L with line := l } : Layout α).cell rows r k =
      if r = L.row rows then (l[k]?).join else L.cell rows r k := by
  have hlen := length_lines L
  have hlen' := length_lines ({ L with line := l } : Layout α)
  rw [cell_eq, cell_eq, hlen, hlen']
  unfold row lines
  rw [List.length_append, List.length_singleton]
  by_cases hr : r = min (L.above.length + 1) rows - 1
  · have hindex : L.above.length + 1 - rows + r = L.above.length := by omega
    rw [if_pos hr, hindex, List.getElem?_concat_length, Option.getD_some]
  · rw [if_neg hr]
    rcases lt_trichotomy (L.above.length + 1 - rows + r) L.above.length with h | h | h
    · rw [List.getElem?_append_left h, List.getElem?_append_left h]
    · omega
    · have hnone (l : Line α) : (L.above ++ [l])[L.above.length + 1 - rows + r]? = none :=
        List.getElem?_eq_none (by rw [List.length_append, List.length_singleton]; omega)
      rw [hnone, hnone]

theorem cell_row (hrows : 0 < rows) (k : ℕ) : L.cell rows (L.row rows) k = (L.line[k]?).join := by
  have h := cell_line (L := L) hrows L.line (L.row rows) k
  rwa [if_pos rfl] at h

theorem cell_pad (hrows : 0 < rows) (n r k : ℕ) : (L.pad n).cell rows r k = L.cell rows r k := by
  unfold pad
  rw [cell_line hrows]
  split_ifs with hr
  · subst hr
    rw [cell_row hrows]
    by_cases hk : k < L.line.length
    · rw [List.getElem?_append_left hk]
    · rw [List.getElem?_append_right (by omega), List.getElem?_eq_none (by omega : L.line.length ≤ k),
        List.getElem?_replicate]
      split_ifs <;> rfl
  · rfl

theorem cell_append (hrows : 0 < rows) (a : α) (r k : ℕ) :
    (L.append a).cell rows r k =
      if r = L.row rows ∧ k = L.line.length then some a else L.cell rows r k := by
  unfold append
  rw [cell_line hrows]
  by_cases hr : r = L.row rows
  · subst hr
    rw [if_pos rfl, cell_row hrows]
    by_cases hk : k = L.line.length
    · subst hk
      rw [if_pos ⟨rfl, rfl⟩, List.getElem?_concat_length]
      rfl
    · rw [if_neg (fun h => hk h.2)]
      rcases Nat.lt_or_ge k L.line.length with hlt | hge
      · rw [List.getElem?_append_left hlt]
      · rw [List.getElem?_eq_none (by simp; omega), List.getElem?_eq_none hge]
  · rw [if_neg hr, if_neg (fun h => hr h.1)]

/-! ## The cursor -/

theorem row_newline_of_lt (h : L.lines.length < rows) : L.newline.row rows = L.row rows + 1 := by
  have hlen := length_lines L
  unfold row
  rw [lines_newline, List.length_append, List.length_singleton]
  omega

theorem row_newline_of_le (h : rows ≤ L.lines.length) : L.newline.row rows = rows - 1 := by
  unfold row
  rw [lines_newline, List.length_append, List.length_singleton]
  omega

theorem row_succ_lt_iff (hrows : 0 < rows) :
    L.row rows + 1 < rows ↔ L.lines.length < rows := by
  have hlen := length_lines L
  unfold row
  omega

theorem row_lt (hrows : 0 < rows) : L.row rows < rows := by
  unfold row
  omega

theorem row_line (l : Line α) : ({ L with line := l } : Layout α).row rows = L.row rows := by
  unfold row
  rw [length_lines, length_lines]

theorem line_length_pad {n : ℕ} (h : L.line.length ≤ n) : (L.pad n).line.length = n := by
  unfold pad
  rw [List.length_append, List.length_replicate]
  omega

theorem lt_tabStop {tab : ℕ} (htab : 0 < tab) : L.line.length < L.tabStop tab := by
  have hmod := Nat.mod_lt (L.line.length + tab) htab
  have hdiv := Nat.div_add_mod' (L.line.length + tab) tab
  unfold tabStop
  omega

theorem line_length_put {cols tab : ℕ} (hcols : 0 < cols) (htab : 0 < tab) (key : Key α) :
    (L.put cols tab key).line.length ≤ cols := by
  cases key with
  | newline => exact Nat.zero_le _
  | tab =>
    simp only [put]
    split_ifs with hstop
    · exact Nat.zero_le _
    · rw [line_length_pad (lt_tabStop htab).le]
      omega
  | glyph a =>
    simp only [put]
    split_ifs with hfull
    · exact hcols
    · simp only [append, List.length_append, List.length_singleton]
      omega

end HorizonOS.Lib.Terminal
