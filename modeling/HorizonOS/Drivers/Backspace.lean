import HorizonOS.Drivers.ArgonLight
import HorizonOS.Drivers.Console

/-!
# Erasing what was printed

`console_backspace` (include/kernel/console.c:110–124) against `console_putchar`, as `readline` uses
them for its echo. The cursor behind the last column and the cursor in front of the next row are the
same place, so places are numbered in reading order: row times the number of columns plus column.

The screen is seen as a window on a sheet of paper that `scroll_up` moves up: the sheet has the
pixels of the screen and blank ones below, and a cell of the sheet keeps its number when the window
moves.

* `Typed.putchar`: what `n` characters change on the sheet.
* `Erased.backspace`: what as many calls of `console_backspace` change.
* `backspace_undoes_putchar`: together they blank the `n` cells.
-/

namespace HorizonOS.Drivers

open Lib.Raster

/-! ## States of the console -/

/-- The console after `console_init` and calls of the functions of `console.c`. -/
inductive Reachable (fb : Framebuffer) (pixels : ℕ → BitVec 32) : Console → Prop
  | init : Reachable fb pixels (consoleInit (gfxInit fb pixels) argonLight)
  | putchar {c : Console} (ch : BitVec 8) :
      Reachable fb pixels c → Reachable fb pixels (consolePutchar c ch)
  | backspace {c : Console} : Reachable fb pixels c → Reachable fb pixels (consoleBackspace c)
  | setFg {c : Console} (color : BitVec 32) :
      Reachable fb pixels c → Reachable fb pixels (consoleSetFg c color)
  | setBg {c : Console} (color : BitVec 32) :
      Reachable fb pixels c → Reachable fb pixels (consoleSetBg c color)
  | clear {c : Console} : Reachable fb pixels c → Reachable fb pixels (consoleClear c)

/-- The number of the cell that the next character goes to, from the top left of the screen. -/
def cursorCell (c : Console) : ℕ := (c.cursorRow * c.maxCols + c.cursorCol).toNat

/-- How often `console_putchar` scrolls while it prints characters other than `\n` and `\t`. -/
def scrollCount (c : Console) : List (BitVec 8) → ℕ
  | [] => 0
  | ch :: s =>
    (if c.maxCols ≤ c.cursorCol ∧ c.maxRows ≤ c.cursorRow + 1 then 1 else 0) +
      scrollCount (consolePutchar c ch) s

/-- What holds of the fixed part of a console on a screen whose words have 32-bit indices. -/
structure Grid (c : Console) (cols rows : ℕ) : Prop where
  target : c.gfx.target = .framebuffer
  words : c.gfx.fb.stride * c.gfx.fb.height ≤ 2 ^ 32
  height_lt : c.gfx.fb.height < 2 ^ 31
  maxCols : c.maxCols = cols
  maxRows : c.maxRows = rows
  cols_pos : 0 < cols
  two_le_rows : 2 ≤ rows
  cellW_pos : 0 < c.cellW
  cellH_pos : 0 < c.cellH
  right : cols * c.cellW ≤ c.gfx.fb.width
  bottom : rows * c.cellH ≤ c.gfx.fb.height
  screenH : c.screenH = c.gfx.fb.height
  cellH : c.cellH = c.consoleFont.glyphHeight.toNat
  glyph : ∀ ch row col, c.consoleFont.glyph ch row col → col < c.cellW

/-- The cursor is in a row of the grid, in one of its columns or behind the last one. -/
def OnGrid (c : Console) (cols rows row col : ℕ) : Prop :=
  c.cursorRow = row ∧ c.cursorCol = col ∧ row < rows ∧ col ≤ cols

section Steps

variable {c c' : Console} {cols rows row col : ℕ}

theorem Grid.place (h : Grid c cols rows) (b : Buffer (BitVec 32)) (x y : ℤ) :
    Grid (place c b x y) cols rows :=
  ⟨h.target, h.words, h.height_lt, h.maxCols, h.maxRows, h.cols_pos, h.two_le_rows, h.cellW_pos,
    h.cellH_pos, h.right, h.bottom, h.screenH, h.cellH, h.glyph⟩

theorem Grid.cellFits (h : Grid c cols rows) (hrow : row < rows) (hcol : col < cols) :
    CellFits c row col where
  target := h.target
  words := h.words
  height_lt := h.height_lt
  cellW_pos := h.cellW_pos
  cellH_pos := h.cellH_pos
  right := (interval_le hcol).trans h.right
  bottom := (interval_le hrow).trans h.bottom

theorem Grid.cellH_le (h : Grid c cols rows) : c.cellH + c.cellH ≤ c.gfx.fb.height := by
  have htwo := Nat.mul_le_mul_right c.cellH h.two_le_rows
  rw [Nat.two_mul] at htwo
  exact htwo.trans h.bottom

theorem Grid.scrollUp (h : Grid c cols rows) :
    scrollUp c = Drivers.place c
      (c.gfx.screen.scroll c.gfx.fb.stride c.gfx.fb.height c.cellH c.bgColor) c.cursorCol
        ((rows - 1 : ℕ) : ℤ) := by
  have hle := h.cellH_le
  have hpos := h.cellH_pos
  have hwords := h.words
  have hblocks := scroll_blocks c.gfx.fb.stride (show c.cellH ≤ c.gfx.fb.height by omega)
  have hstride : 0 < c.gfx.fb.stride := by
    have hwidth := Nat.mul_pos h.cols_pos h.cellW_pos
    exact hwidth.trans_le (h.right.trans c.gfx.fb.width_le_stride)
  have hrow : 0 < c.cellH * c.gfx.fb.stride := Nat.mul_pos hpos hstride
  have hrest : 0 < c.gfx.fb.stride * (c.gfx.fb.height - c.cellH) :=
    Nat.mul_pos hstride (by omega)
  have hrows : c.maxRows - 1 = ((rows - 1 : ℕ) : ℤ) := by
    have := h.two_le_rows
    rw [h.maxRows]
    omega
  rw [scrollUp_eq h.screenH (by omega) (by omega) (by omega), hrows]

/-- A word of the screen that is in no cell under the cursor keeps its value. -/
theorem Grid.drawCell (h : Grid c cols rows) (hon : OnGrid c cols rows row col) (hcol : col < cols)
    (ch : BitVec 8) :
    ∃ b, drawCell c ch = Drivers.place c b ((col + 1 : ℕ) : ℤ) row ∧
      ∀ y < c.gfx.fb.height, ∀ x < c.gfx.fb.stride, ¬(y / c.cellH = row ∧ x / c.cellW = col) →
        b.cells (y * c.gfx.fb.stride + x) = c.gfx.screen.cells (y * c.gfx.fb.stride + x) := by
  have hcell := h.cellFits hon.2.2.1 hcol
  obtain ⟨b₁, b, hstate, hfill, hdraw⟩ := hcell.drawCell hon.1 hon.2.1 ch
  refine ⟨b, by rw [hstate, Nat.cast_add, Nat.cast_one], ?_⟩
  intro y hy x hx hout
  rw [hdraw.outside, hfill.outside]
  · rintro ⟨i, hi, k, hk, hj⟩
    have hk' : col * c.cellW + k < c.gfx.fb.stride :=
      ((Nat.add_lt_add_left hk _).trans_le hcell.right).trans_le c.gfx.fb.width_le_stride
    obtain ⟨hyrow, hxcol⟩ := (index_inj hx hk').mp hj
    exact hout ⟨(mem_cell_iff h.cellH_pos).mp ⟨i, hi, hyrow⟩,
      (mem_cell_iff h.cellW_pos).mp ⟨k, hk, hxcol⟩⟩
  · rintro ⟨i, k, hg, hw, -, hj⟩
    obtain ⟨hyrow, hxcol⟩ := (index_inj hx (hw.trans_le c.gfx.fb.width_le_stride)).mp hj
    have hi : i < c.cellH := h.cellH ▸ hg.2.2.1
    exact hout ⟨(mem_cell_iff h.cellH_pos).mp ⟨i, hi, hyrow⟩,
      (mem_cell_iff h.cellW_pos).mp ⟨k, h.glyph ch i k hg, hxcol⟩⟩

theorem Grid.newline (h : Grid c cols rows) (hrow : c.cursorRow = row) :
    newline c =
      if rows ≤ row + 1 then
        Drivers.place c (c.gfx.screen.scroll c.gfx.fb.stride c.gfx.fb.height c.cellH c.bgColor) 0
          ((rows - 1 : ℕ) : ℤ)
      else Drivers.place c c.gfx.screen 0 ((row + 1 : ℕ) : ℤ) := by
  have hstep : Drivers.newline c =
      if c.maxRows ≤ c.cursorRow + 1 then
        Drivers.scrollUp (Drivers.place c c.gfx.screen 0 (c.cursorRow + 1))
      else Drivers.place c c.gfx.screen 0 (c.cursorRow + 1) := rfl
  rw [hstep, (h.place c.gfx.screen 0 (c.cursorRow + 1)).scrollUp, h.maxRows, hrow]
  have hiff : (rows : ℤ) ≤ row + 1 ↔ rows ≤ row + 1 := by omega
  simp only [hiff]
  split_ifs
  · rfl
  · rw [Nat.cast_add, Nat.cast_one]

/-- `console_backspace` up to the fill (lines 111–119), when the cursor is not at the top left. -/
def stepBack (c : Console) : Console :=
  if c.cursorCol = 0 then { c with cursorRow := c.cursorRow - 1, cursorCol := c.maxCols - 1 }
  else { c with cursorCol := c.cursorCol - 1 }

/-- The fill of `console_backspace` (lines 120–123). -/
def eraseCell (c : Console) : Console :=
  let px := c.cursorCol * c.cellW
  let py := c.cursorRow * c.cellH
  { c with gfx := gfxFillRect c.gfx px py (px + c.cellW - 1) (py + c.cellH - 1) c.bgColor }

theorem consoleBackspace_eq (hne : ¬(c.cursorCol = 0 ∧ c.cursorRow = 0)) :
    consoleBackspace c = eraseCell (stepBack c) := by
  unfold consoleBackspace
  rw [if_neg hne]
  rfl

theorem Grid.stepBack (h : Grid c cols rows) (hon : OnGrid c cols rows row col) {n : ℕ}
    (hn : row * cols + col = n + 1) :
    ∃ row' col' : ℕ, stepBack c = Drivers.place c c.gfx.screen col' row' ∧ row' < rows ∧
      col' < cols ∧ row' * cols + col' = n := by
  obtain ⟨hrow, hcol, hrowLt, hcolLe⟩ := hon
  have hpos := h.cols_pos
  unfold Drivers.stepBack Drivers.place
  by_cases hzero : col = 0
  · subst hzero
    obtain ⟨r, rfl⟩ : ∃ r, row = r + 1 := Nat.exists_eq_succ_of_ne_zero fun h0 => by
      rw [h0, Nat.zero_mul] at hn
      omega
    rw [Nat.succ_mul] at hn
    have hup : c.cursorRow - 1 = (r : ℤ) := by omega
    have hlast : c.maxCols - 1 = ((cols - 1 : ℕ) : ℤ) := by
      have := h.maxCols
      omega
    refine ⟨r, cols - 1, ?_, by omega, by omega, by omega⟩
    rw [if_pos (show c.cursorCol = 0 from hcol), hup, hlast]
  · have hleft : c.cursorCol - 1 = ((col - 1 : ℕ) : ℤ) := by omega
    refine ⟨row, col - 1, ?_, hrowLt, by omega, by omega⟩
    rw [if_neg (by omega), hleft, hrow]

theorem Grid.eraseCell (h : Grid c cols rows) (hon : OnGrid c cols rows row col)
    (hcol : col < cols) :
    ∃ b, eraseCell c = Drivers.place c b col row ∧
      ∀ y < c.gfx.fb.height, ∀ x < c.gfx.fb.stride,
        b.cells (y * c.gfx.fb.stride + x) =
          if y / c.cellH = row ∧ x / c.cellW = col then c.bgColor
          else c.gfx.screen.cells (y * c.gfx.fb.stride + x) := by
  have hcell := h.cellFits hon.2.2.1 hcol
  have hfill := hcell.fill c.bgColor
  generalize hg : gfxFillRect c.gfx _ _ _ _ c.bgColor = g at hfill
  refine ⟨g.screen, ?_, ?_⟩
  · unfold Drivers.eraseCell Drivers.place
    simp only [hon.1, hon.2.1, hg]
    rw [← hfill.frame]
  intro y hy x hx
  split_ifs with hin
  · refine hfill.painted.inside _ ⟨y % c.cellH, Nat.mod_lt _ h.cellH_pos, x % c.cellW,
      Nat.mod_lt _ h.cellW_pos, ?_⟩
    rw [← hin.1, ← hin.2, Nat.div_add_mod', Nat.div_add_mod']
  · refine hfill.painted.outside _ ?_
    rintro ⟨i, hi, k, hk, hj⟩
    have hk' : col * c.cellW + k < c.gfx.fb.stride :=
      ((Nat.add_lt_add_left hk _).trans_le hcell.right).trans_le c.gfx.fb.width_le_stride
    obtain ⟨hyrow, hxcol⟩ := (index_inj hx hk').mp hj
    exact hin ⟨(mem_cell_iff h.cellH_pos).mp ⟨i, hi, hyrow⟩,
      (mem_cell_iff h.cellW_pos).mp ⟨k, hk, hxcol⟩⟩

/-- The cursor goes back by one place, to a cell that is blank then. -/
theorem Grid.backspace (h : Grid c cols rows) (hon : OnGrid c cols rows row col) {n : ℕ}
    (hn : row * cols + col = n + 1) :
    ∃ (b : Buffer (BitVec 32)) (row' col' : ℕ), consoleBackspace c = Drivers.place c b col' row' ∧
      row' < rows ∧ col' < cols ∧ row' * cols + col' = n ∧
      ∀ y < c.gfx.fb.height, ∀ x < c.gfx.fb.stride,
        b.cells (y * c.gfx.fb.stride + x) =
          if y / c.cellH = row' ∧ x / c.cellW = col' then c.bgColor
          else c.gfx.screen.cells (y * c.gfx.fb.stride + x) := by
  obtain ⟨row', col', hback, hrow', hcol', hprev⟩ := h.stepBack hon hn
  have hon' : OnGrid (Drivers.place c c.gfx.screen col' row') cols rows row' col' :=
    ⟨rfl, rfl, hrow', hcol'.le⟩
  obtain ⟨b, herase, hcells⟩ := (h.place c.gfx.screen col' row').eraseCell hon' hcol'
  refine ⟨b, row', col', ?_, hrow', hcol', hprev, hcells⟩
  have hne : ¬(c.cursorCol = 0 ∧ c.cursorRow = 0) := by
    rintro ⟨hc0, hr0⟩
    have hr0 : row = 0 := by
      have := hon.1
      omega
    have hc0 : col = 0 := by
      have := hon.2.1
      omega
    rw [hr0, hc0, Nat.zero_mul] at hn
    omega
  rw [consoleBackspace_eq hne, hback, herase]
  rfl

/-! ## The sheet -/

/-- The pixels of the screen, and blank ones below. -/
def paper (c : Console) (x y : ℕ) : BitVec 32 :=
  if y < c.gfx.fb.height then c.gfx.pixel x y else c.bgColor

/-- The pixel of the screen in column `x` and row `y` lies in one of the cells `p`, …, `p + n - 1`
    of the sheet when the window is `k` text rows down. -/
def InCells (c : Console) (cols p n k x y : ℕ) : Prop :=
  x / c.cellW < cols ∧ p ≤ (y / c.cellH + k) * cols + x / c.cellW ∧
    (y / c.cellH + k) * cols + x / c.cellW < p + n

/-- Scrolling moves the window. -/
theorem Grid.scrollUp_iterate (h : Grid c cols rows) (k : ℕ) :
    ∃ b row', Drivers.scrollUp^[k] c = Drivers.place c b c.cursorCol row' ∧
      ∀ y < c.gfx.fb.height, ∀ x < c.gfx.fb.stride,
        b.cells (y * c.gfx.fb.stride + x) = paper c x (y + k * c.cellH) := by
  induction k with
  | zero =>
    refine ⟨c.gfx.screen, c.cursorRow, rfl, ?_⟩
    intro y hy x _
    rw [Nat.zero_mul, Nat.add_zero, paper, if_pos hy]
    rfl
  | succ k ih =>
    obtain ⟨b, row', hstate, hcells⟩ := ih
    have hle := h.cellH_le
    rw [Function.iterate_succ_apply', hstate, (h.place b c.cursorCol row').scrollUp]
    refine ⟨_, _, rfl, ?_⟩
    intro y hy x hx
    have hscroll := scroll_cells b c.bgColor (show c.cellH ≤ c.gfx.fb.height by omega) hx hy
    refine hscroll.trans ?_
    rw [Nat.succ_mul, ← Nat.add_assoc, Nat.add_right_comm]
    split_ifs with hlow
    · exact hcells _ hlow x hx
    · rw [paper, if_neg (by omega)]

/-- `c'` is the console `c` after `n` characters, the first of them in cell `p` of the sheet, and
    `k` scrolls: the other cells are those of the sheet. -/
def Typed (c : Console) (cols rows p n k : ℕ) (c' : Console) : Prop :=
  ∃ (b : Buffer (BitVec 32)) (row col : ℕ), c' = Drivers.place c b col row ∧ row < rows ∧
    col ≤ cols ∧ (row + k) * cols + col = p + n ∧
    ∀ y < c.gfx.fb.height, ∀ x < c.gfx.fb.stride, ¬InCells c cols p n k x y →
      b.cells (y * c.gfx.fb.stride + x) = paper c x (y + k * c.cellH)

theorem OnGrid.typed (hon : OnGrid c cols rows row col) :
    Typed c cols rows (row * cols + col) 0 0 c := by
  refine ⟨c.gfx.screen, row, col, ?_, hon.2.2.1, hon.2.2.2, rfl, ?_⟩
  · rw [Drivers.place, ← hon.1, ← hon.2.1]
  · intro y hy x _ _
    rw [Nat.zero_mul, Nat.add_zero, paper, if_pos hy]
    rfl

/-- The wrap in front of a character, if there is one, leaves the sheet as it is. -/
theorem Typed.wrap (h : Grid c cols rows) {p n k : ℕ} (ht : Typed c cols rows p n k c') :
    ∃ (b : Buffer (BitVec 32)) (row col : ℕ),
      (if c'.maxCols ≤ c'.cursorCol then Drivers.newline c' else c') = Drivers.place c b col row ∧
      row < rows ∧ col < cols ∧
      (row + (k + if c'.maxCols ≤ c'.cursorCol ∧ c'.maxRows ≤ c'.cursorRow + 1 then 1 else 0)) * cols
        + col = p + n ∧
      ∀ y < c.gfx.fb.height, ∀ x < c.gfx.fb.stride,
        ¬InCells c cols p n
          (k + if c'.maxCols ≤ c'.cursorCol ∧ c'.maxRows ≤ c'.cursorRow + 1 then 1 else 0) x y →
        b.cells (y * c.gfx.fb.stride + x) = paper c x (y +
          (k + if c'.maxCols ≤ c'.cursorCol ∧ c'.maxRows ≤ c'.cursorRow + 1 then 1 else 0) *
            c.cellH) := by
  obtain ⟨b, row, col, rfl, hrow, hcol, hplace, hcells⟩ := ht
  have hmaxCols : (Drivers.place c b col row).maxCols ≤ (Drivers.place c b col row).cursorCol ↔
      cols ≤ col := by
    show c.maxCols ≤ (col : ℤ) ↔ _
    rw [h.maxCols, Nat.cast_le]
  have hmaxRows : (Drivers.place c b col row).maxRows ≤ (Drivers.place c b col row).cursorRow + 1 ↔
      rows ≤ row + 1 := by
    show c.maxRows ≤ (row : ℤ) + 1 ↔ _
    rw [h.maxRows]
    omega
  have hcursor : (Drivers.place c b col row).cursorRow = (row : ℤ) := rfl
  have hnewline := (h.place b col row).newline hcursor
  have hpos := h.cols_pos
  simp only [hmaxCols, hmaxRows]
  by_cases hwrap : cols ≤ col
  · have hlast : col = cols := le_antisymm hcol hwrap
    rw [if_pos hwrap, hnewline]
    by_cases hscroll : rows ≤ row + 1
    · have hrowEq : row = rows - 1 := by omega
      rw [if_pos hscroll, if_pos ⟨hwrap, hscroll⟩]
      refine ⟨_, rows - 1, 0, rfl, by omega, hpos, ?_, ?_⟩
      · rw [← hplace, hlast, ← hrowEq, ← Nat.add_assoc, Nat.succ_mul, Nat.add_zero]
      · intro y hy x hx hout
        have hle := h.cellH_le
        have hcopy := scroll_cells b c.bgColor (show c.cellH ≤ c.gfx.fb.height by omega) hx hy
        have hdiv : (y + c.cellH) / c.cellH + k = y / c.cellH + (k + 1) := by
          rw [Nat.add_div_right _ h.cellH_pos]
          omega
        refine hcopy.trans ?_
        rw [Nat.succ_mul, Nat.add_comm (k * c.cellH), ← Nat.add_assoc]
        split_ifs with hlow
        · refine hcells _ hlow x hx ?_
          unfold InCells at hout ⊢
          rwa [hdiv]
        · rw [paper, if_neg (by omega)]
    · rw [if_neg hscroll, if_neg (fun hboth => hscroll hboth.2)]
      refine ⟨b, row + 1, 0, rfl, by omega, hpos, ?_, hcells⟩
      rw [← hplace, hlast, Nat.add_zero, Nat.add_right_comm, Nat.succ_mul, Nat.add_zero]
  · rw [if_neg hwrap, if_neg (fun hboth => hwrap hboth.1)]
    exact ⟨b, row, col, rfl, hrow, by omega, hplace, hcells⟩

theorem Typed.putchar (h : Grid c cols rows) {p n k : ℕ} (ht : Typed c cols rows p n k c')
    {ch : BitVec 8} (hnl : ch ≠ 10) (htab : ch ≠ 9) :
    Typed c cols rows p (n + 1)
      (k + if c'.maxCols ≤ c'.cursorCol ∧ c'.maxRows ≤ c'.cursorRow + 1 then 1 else 0)
      (consolePutchar c' ch) := by
  obtain ⟨b, row, col, hwrap, hrow, hcol, hplace, hcells⟩ := ht.wrap h
  generalize k + (if c'.maxCols ≤ c'.cursorCol ∧ c'.maxRows ≤ c'.cursorRow + 1 then 1 else 0) = k'
    at hplace hcells ⊢
  have hon : OnGrid (Drivers.place c b col row) cols rows row col := ⟨rfl, rfl, hrow, hcol.le⟩
  obtain ⟨b', hdraw, hkeep⟩ := (h.place b col row).drawCell hon hcol ch
  refine ⟨b', row, col + 1, ?_, hrow, hcol, ?_, ?_⟩
  · rw [consolePutchar_glyph c' hnl htab, hwrap, hdraw]
    rfl
  · rw [← Nat.add_assoc, hplace, Nat.add_assoc]
  · intro y hy x hx hout
    -- the cell drawn is number `p + n`
    have hcell : ¬(y / c.cellH = row ∧ x / c.cellW = col) := by
      rintro ⟨rfl, rfl⟩
      exact hout ⟨hcol, by omega, by omega⟩
    refine (hkeep y hy x hx hcell).trans (hcells y hy x hx ?_)
    rintro ⟨hin, hlo, hhi⟩
    exact hout ⟨hin, hlo, by omega⟩

theorem Typed.run (h : Grid c cols rows) {p n k : ℕ} (ht : Typed c cols rows p n k c')
    {s : List (BitVec 8)} (hs : ∀ ch ∈ s, ch ≠ 10 ∧ ch ≠ 9) :
    Typed c cols rows p (n + s.length) (k + scrollCount c' s) (s.foldl consolePutchar c') := by
  induction s generalizing n k c' with
  | nil => exact ht
  | cons ch s ih =>
    have hch := hs ch List.mem_cons_self
    have hrun := ih (ht.putchar h hch.1 hch.2) fun ch' hch' => hs ch' (List.mem_cons_of_mem _ hch')
    rw [List.length_cons, Nat.add_comm s.length, ← Nat.add_assoc, scrollCount, ← Nat.add_assoc]
    exact hrun

/-- `c'` is the console `c` after `n` characters, `k` scrolls and `m` calls of
    `console_backspace`. -/
def Erased (c : Console) (cols rows p n k m : ℕ) (c' : Console) : Prop :=
  ∃ (b : Buffer (BitVec 32)) (row col : ℕ), c' = Drivers.place c b col row ∧ row < rows ∧
    col ≤ cols ∧ (0 < m → col < cols) ∧ (row + k) * cols + col + m = p + n ∧
    ∀ y < c.gfx.fb.height, ∀ x < c.gfx.fb.stride,
      (¬InCells c cols p n k x y →
        b.cells (y * c.gfx.fb.stride + x) = paper c x (y + k * c.cellH)) ∧
      (InCells c cols (p + n - m) m k x y → b.cells (y * c.gfx.fb.stride + x) = c.bgColor)

theorem Typed.erased {p n k : ℕ} (ht : Typed c cols rows p n k c') :
    Erased c cols rows p n k 0 c' := by
  obtain ⟨b, row, col, hstate, hrow, hcol, hplace, hcells⟩ := ht
  refine ⟨b, row, col, hstate, hrow, hcol, fun h0 => absurd h0 (lt_irrefl 0), hplace, ?_⟩
  intro y hy x hx
  refine ⟨hcells y hy x hx, ?_⟩
  rintro ⟨-, hlo, hhi⟩
  omega

theorem Erased.backspace (h : Grid c cols rows) {p n k m : ℕ} (hkept : k * cols ≤ p) (hm : m < n)
    (he : Erased c cols rows p n k m c') :
    Erased c cols rows p n k (m + 1) (consoleBackspace c') := by
  obtain ⟨b, row, col, rfl, hrow, hcol, -, hplace, hcells⟩ := he
  rw [Nat.add_mul] at hplace
  have hon : OnGrid (Drivers.place c b col row) cols rows row col := ⟨rfl, rfl, hrow, hcol⟩
  obtain ⟨b', row', col', hstate, hrow', hcol', hprev, hcells'⟩ :=
    (h.place b col row).backspace hon (n := p + n - m - 1 - k * cols) (by omega)
  have hplace' : (row' + k) * cols + col' + (m + 1) = p + n := by
    rw [Nat.add_mul]
    omega
  refine ⟨b', row', col', hstate, hrow', hcol'.le, fun _ => hcol', hplace', ?_⟩
  intro y hy x hx
  have hpixel : b'.cells (y * c.gfx.fb.stride + x) =
      if y / c.cellH = row' ∧ x / c.cellW = col' then c.bgColor
      else b.cells (y * c.gfx.fb.stride + x) := hcells' y hy x hx
  rw [hpixel]
  split_ifs with hcell
  · refine ⟨fun hout => ?_, fun _ => rfl⟩
    obtain ⟨rfl, rfl⟩ := hcell
    exact absurd ⟨hcol', by omega, by omega⟩ hout
  · refine ⟨(hcells y hy x hx).1, ?_⟩
    rintro ⟨hin, hlo, hhi⟩
    refine (hcells y hy x hx).2 ⟨hin, ?_, by omega⟩
    -- a cell with the number of the one just erased is that cell
    by_contra hlt
    have hnumber : (y / c.cellH + k) * cols + x / c.cellW = (row' + k) * cols + col' := by omega
    obtain ⟨hrowEq, hcolEq⟩ := (index_inj hin hcol').mp hnumber
    exact hcell ⟨by omega, hcolEq⟩

theorem Erased.run (h : Grid c cols rows) {p n k : ℕ} (hkept : k * cols ≤ p)
    (he : Erased c cols rows p n k 0 c') {m : ℕ} (hm : m ≤ n) :
    Erased c cols rows p n k m (consoleBackspace^[m] c') := by
  induction m with
  | zero => exact he
  | succ m ih =>
    rw [Function.iterate_succ_apply']
    exact (ih (by omega)).backspace h hkept hm

/-- Printing and erasing, for a cursor in a known place. -/
theorem Grid.undone (h : Grid c cols rows) (hon : OnGrid c cols rows row col)
    {s : List (BitVec 8)} (hs : ∀ ch ∈ s, ch ≠ 10 ∧ ch ≠ 9)
    (hkept : scrollCount c s * cols ≤ row * cols + col) :
    let first := row * cols + col - scrollCount c s * cols
    let c' := consoleBackspace^[s.length] (s.foldl consolePutchar c)
    (∀ r k : ℕ, r < rows → k < cols → ∀ y < c.cellH, ∀ x < c.cellW,
      c'.gfx.pixel (k * c.cellW + x) (r * c.cellH + y) =
        if first ≤ r * cols + k ∧ r * cols + k < first + s.length then c.bgColor
        else (Drivers.scrollUp^[scrollCount c s] c).gfx.pixel (k * c.cellW + x) (r * c.cellH + y)) ∧
    first + s.length ≤ rows * cols ∧
    (s ≠ [] → c'.cursorRow = (first / cols : ℕ) ∧ c'.cursorCol = (first % cols : ℕ)) := by
  intro first c'
  have htyped := hon.typed.run h hs
  rw [Nat.zero_add, Nat.zero_add] at htyped
  obtain ⟨_, rowEnd, colEnd, -, hrowEnd, hcolEnd, hend, -⟩ := id htyped
  obtain ⟨b, row', col', hstate, hrow', -, hcol', hplace, hcells⟩ :=
    htyped.erased.run h hkept le_rfl
  have hstate : c' = Drivers.place c b col' row' := hstate
  obtain ⟨bScroll, _, hscroll, hpaper⟩ := h.scrollUp_iterate (scrollCount c s)
  rw [Nat.add_mul] at hend hplace
  refine ⟨?_, ?_, ?_⟩
  · intro r k hr hk y hy x hx
    have hX : k * c.cellW + x < c.gfx.fb.stride :=
      ((Nat.add_lt_add_left hx _).trans_le ((interval_le hk).trans h.right)).trans_le
        c.gfx.fb.width_le_stride
    have hY : r * c.cellH + y < c.gfx.fb.height :=
      (Nat.add_lt_add_left hy _).trans_le ((interval_le hr).trans h.bottom)
    have hdivX : (k * c.cellW + x) / c.cellW = k := (mem_cell_iff h.cellW_pos).mp ⟨x, hx, rfl⟩
    have hdivY : (r * c.cellH + y) / c.cellH = r := (mem_cell_iff h.cellH_pos).mp ⟨y, hy, rfl⟩
    have hpixel : c'.gfx.pixel (k * c.cellW + x) (r * c.cellH + y) =
        b.cells ((r * c.cellH + y) * c.gfx.fb.stride + (k * c.cellW + x)) := by
      rw [hstate]
      rfl
    have hsheet : (Drivers.scrollUp^[scrollCount c s] c).gfx.pixel (k * c.cellW + x)
        (r * c.cellH + y) =
          paper c (k * c.cellW + x) (r * c.cellH + y + scrollCount c s * c.cellH) := by
      rw [hscroll, ← hpaper _ hY _ hX]
      rfl
    obtain ⟨hother, hblank⟩ := hcells _ hY _ hX
    unfold InCells at hother hblank
    rw [hdivX, hdivY, Nat.add_mul] at hother hblank
    rw [hpixel, hsheet]
    split_ifs with hin
    · exact hblank ⟨hk, by omega, by omega⟩
    · refine hother fun hcells => hin ?_
      omega
  · have hbound : rowEnd * cols + cols ≤ rows * cols := interval_le hrowEnd
    omega
  · intro hne
    have hcol' := hcol' (List.length_pos_of_ne_nil hne)
    have hfirst : first = row' * cols + col' := by omega
    have hdiv : (row' * cols + col') / cols = row' :=
      (mem_cell_iff h.cols_pos).mp ⟨col', hcol', rfl⟩
    have hmod : (row' * cols + col') % cols = col' := by
      rw [Nat.mul_add_mod', Nat.mod_eq_of_lt hcol']
    rw [hfirst, hdiv, hmod, hstate]
    exact ⟨rfl, rfl⟩

end Steps

/-! ## Every state of the console -/

section Reachable

variable {fb : Framebuffer} {pixels : ℕ → BitVec 32} {c : Console} {cols rows : ℕ}

theorem newline_size (c : Console) :
    (newline c).maxCols = c.maxCols ∧ (newline c).maxRows = c.maxRows := by
  unfold newline
  dsimp only
  split_ifs
  · exact ⟨rfl, rfl⟩
  · exact ⟨rfl, rfl⟩

theorem consolePutchar_size (c : Console) (ch : BitVec 8) :
    (consolePutchar c ch).maxCols = c.maxCols ∧ (consolePutchar c ch).maxRows = c.maxRows := by
  by_cases hnl : ch = 10
  · subst hnl
    exact newline_size c
  by_cases htab : ch = 9
  · subst htab
    rw [show consolePutchar c 9 = _ from
      consolePutchar_tab c c.gfx.screen c.cursorCol c.cursorRow]
    split_ifs
    · exact newline_size _
    · exact ⟨rfl, rfl⟩
  · rw [consolePutchar_glyph c hnl htab]
    have hdraw : ∀ c : Console, (drawCell c ch).maxCols = c.maxCols ∧
        (drawCell c ch).maxRows = c.maxRows := fun c => ⟨rfl, rfl⟩
    split_ifs
    · exact ⟨(hdraw _).1.trans (newline_size c).1, (hdraw _).2.trans (newline_size c).2⟩
    · exact hdraw c

theorem consoleBackspace_size (c : Console) :
    (consoleBackspace c).maxCols = c.maxCols ∧ (consoleBackspace c).maxRows = c.maxRows := by
  by_cases hzero : c.cursorCol = 0 ∧ c.cursorRow = 0
  · rw [consoleBackspace, if_pos hzero]
    exact ⟨rfl, rfl⟩
  · rw [consoleBackspace_eq hzero]
    show (stepBack c).maxCols = _ ∧ (stepBack c).maxRows = _
    unfold stepBack
    split_ifs
    · exact ⟨rfl, rfl⟩
    · exact ⟨rfl, rfl⟩

theorem argonLight_widthOf : argonLight.widthOf 0 = 10 := by decide

theorem argonLight_glyphHeight : argonLight.glyphHeight.toNat = 20 := by decide

theorem consoleInit_size (fb : Framebuffer) (pixels : ℕ → BitVec 32) :
    (consoleInit (gfxInit fb pixels) argonLight).maxCols = int32 (fb.width / 10) ∧
    (consoleInit (gfxInit fb pixels) argonLight).maxRows = int32 (fb.height / 20) := by
  simp only [consoleInit, gfxInit, argonLight_widthOf, argonLight_glyphHeight, and_self]

/-- The size of the grid never changes. -/
theorem Reachable.size (h : Reachable fb pixels c) :
    c.maxCols = int32 (fb.width / 10) ∧ c.maxRows = int32 (fb.height / 20) := by
  induction h with
  | init => exact consoleInit_size fb pixels
  | @putchar c ch _ ih =>
    have hsize := consolePutchar_size c ch
    exact ⟨hsize.1.trans ih.1, hsize.2.trans ih.2⟩
  | @backspace c _ ih =>
    have hsize := consoleBackspace_size c
    exact ⟨hsize.1.trans ih.1, hsize.2.trans ih.2⟩
  | setFg _ _ ih => exact ih
  | setBg _ _ ih => exact ih
  | clear _ ih => exact ih

/-- The console is on its grid. -/
def Steady (c : Console) (cols rows : ℕ) : Prop :=
  Grid c cols rows ∧ ∃ row col, OnGrid c cols rows row col

theorem Grid.steady_place (h : Grid c cols rows) {row col : ℕ} (hrow : row < rows)
    (hcol : col ≤ cols) (b : Buffer (BitVec 32)) : Steady (Drivers.place c b col row) cols rows :=
  ⟨h.place b col row, row, col, rfl, rfl, hrow, hcol⟩

theorem Grid.steady_newline (h : Grid c cols rows) {row : ℕ} (hrow : c.cursorRow = row) :
    Steady (Drivers.newline c) cols rows := by
  have htwo := h.two_le_rows
  rw [h.newline hrow]
  split_ifs with hscroll
  · have hlast : rows - 1 < rows := by omega
    exact h.steady_place hlast (Nat.zero_le _) _
  · have hnext : row + 1 < rows := by omega
    exact h.steady_place hnext (Nat.zero_le _) _

theorem Steady.putchar (h : Steady c cols rows) (ch : BitVec 8) :
    Steady (consolePutchar c ch) cols rows := by
  obtain ⟨hgrid, row, col, hon⟩ := h
  by_cases hnl : ch = 10
  · subst hnl
    exact hgrid.steady_newline hon.1
  by_cases htab : ch = 9
  · subst htab
    have hstop : (c.cursorCol + 4) / 4 * 4 = (((col + 4) / 4 * 4 : ℕ) : ℤ) := by
      rw [hon.2.1]
      omega
    have hstep : consolePutchar c 9 =
        if c.maxCols ≤ (c.cursorCol + 4) / 4 * 4 then
          Drivers.newline (place c c.gfx.screen ((c.cursorCol + 4) / 4 * 4) c.cursorRow)
        else place c c.gfx.screen ((c.cursorCol + 4) / 4 * 4) c.cursorRow :=
      consolePutchar_tab c c.gfx.screen c.cursorCol c.cursorRow
    rw [hstep, hstop, hgrid.maxCols, hon.1]
    split_ifs with hwrap
    · exact (hgrid.place _ _ _).steady_newline rfl
    · have hfit : (col + 4) / 4 * 4 ≤ cols := by
        rw [not_le, Nat.cast_lt] at hwrap
        exact hwrap.le
      exact hgrid.steady_place hon.2.2.1 hfit _
  · obtain ⟨b, row', col', hstate, hrow', hcol', -⟩ := hon.typed.putchar hgrid hnl htab
    rw [hstate]
    exact hgrid.steady_place hrow' hcol' b

theorem Steady.backspace (h : Steady c cols rows) : Steady (consoleBackspace c) cols rows := by
  obtain ⟨hgrid, row, col, hon⟩ := h
  rcases Nat.eq_zero_or_eq_succ_pred (row * cols + col) with hzero | hsucc
  · have hat : c.cursorCol = 0 ∧ c.cursorRow = 0 := by
      have hrow : row * cols = 0 := by omega
      have hcol : col = 0 := by omega
      have hpos := hgrid.cols_pos
      rw [hon.1, hon.2.1, hcol, (Nat.mul_eq_zero.mp hrow).resolve_right (by omega)]
      exact ⟨rfl, rfl⟩
    unfold consoleBackspace
    rw [if_pos hat]
    exact ⟨hgrid, row, col, hon⟩
  · obtain ⟨b, row', col', hstate, hrow', hcol', -⟩ := hgrid.backspace hon hsucc
    rw [hstate]
    exact hgrid.steady_place hrow' hcol'.le b

theorem Steady.clear (h : Steady c cols rows) : Steady (consoleClear c) cols rows := by
  obtain ⟨hgrid, row, col, hon⟩ := h
  have hframe := (gfxClearScreen_drawn hgrid.target).frame
  have hstate : consoleClear c = place c (gfxClearScreen c.gfx).screen 0 0 := by
    unfold consoleClear place
    rw [← hframe]
  have hrows : 0 < rows := Nat.lt_of_lt_of_le Nat.zero_lt_two hgrid.two_le_rows
  rw [hstate]
  exact hgrid.steady_place hrows (Nat.zero_le _) _

theorem Steady.recolor (h : Steady c cols rows) (fgColor bgColor : BitVec 32) :
    Steady { c with fgColor := fgColor, bgColor := bgColor } cols rows := by
  obtain ⟨h, row, col, hon⟩ := h
  exact ⟨⟨h.target, h.words, h.height_lt, h.maxCols, h.maxRows, h.cols_pos, h.two_le_rows,
    h.cellW_pos, h.cellH_pos, h.right, h.bottom, h.screenH, h.cellH, h.glyph⟩, row, col, hon⟩

theorem grid_consoleInit (hwords : fb.stride * fb.height ≤ 2 ^ 32) (hcols : 1 ≤ fb.width / 10)
    (hrows : 2 ≤ fb.height / 20) :
    Grid (consoleInit (gfxInit fb pixels) argonLight) (fb.width / 10) (fb.height / 20) := by
  have hpitch := fb.pitch_lt
  have hfits := fb.width_fits
  have hheight := fb.height_lt
  have hstride : 10 ≤ fb.stride := by
    have := fb.width_le_stride
    omega
  have hmul : 10 * fb.height ≤ fb.stride * fb.height := Nat.mul_le_mul_right _ hstride
  have hcellW : (consoleInit (gfxInit fb pixels) argonLight).cellW = 10 := argonLight_widthOf
  have hcellH : (consoleInit (gfxInit fb pixels) argonLight).cellH = 20 := argonLight_glyphHeight
  exact {
    target := rfl
    words := hwords
    height_lt := by
      show fb.height < 2 ^ 31
      omega
    maxCols := (consoleInit_size fb pixels).1.trans (int32_of_lt (by omega))
    maxRows := (consoleInit_size fb pixels).2.trans (int32_of_lt (by omega))
    cols_pos := hcols
    two_le_rows := hrows
    cellW_pos := hcellW ▸ Nat.succ_pos 9
    cellH_pos := hcellH ▸ Nat.succ_pos 19
    right := by
      rw [hcellW]
      exact Nat.div_mul_le_self _ _
    bottom := by
      rw [hcellH]
      exact Nat.div_mul_le_self _ _
    screenH := rfl
    cellH := rfl
    glyph := fun ch row col hg => hcellW ▸ argonLight_glyph ch row col hg }

theorem Reachable.steady (hwords : fb.stride * fb.height ≤ 2 ^ 32) (hcols : 1 ≤ fb.width / 10)
    (hrows : 2 ≤ fb.height / 20) (h : Reachable fb pixels c) :
    Steady c (fb.width / 10) (fb.height / 20) := by
  induction h with
  | init =>
    exact ⟨grid_consoleInit hwords hcols hrows, 0, 0, rfl, rfl, by omega, Nat.zero_le _⟩
  | putchar ch _ ih => exact ih.putchar ch
  | backspace _ ih => exact ih.backspace
  | setFg color _ ih => exact ih.recolor color _
  | setBg color _ ih => exact ih.recolor _ color
  | clear _ ih => exact ih.clear

/-- **Backspace undoes printing.** On a screen of at most `2 ^ 32` words, printing characters other
    than `\n` and `\t` and calling `console_backspace` as often blanks the cells of these characters
    and leaves every other cell as the scrolls alone would have left it, provided that the first of
    the cells is not scrolled off. The cursor is then in front of the first of them, within the row,
    so the next character goes there. -/
theorem backspace_undoes_putchar (hwords : fb.stride * fb.height ≤ 2 ^ 32)
    (hreach : Reachable fb pixels c) (hcols : 1 ≤ c.maxCols) (hrows : 2 ≤ c.maxRows)
    {s : List (BitVec 8)} (hs : ∀ ch ∈ s, ch ≠ 10 ∧ ch ≠ 9)
    (hkept : scrollCount c s * c.maxCols.toNat ≤ cursorCell c) :
    let cols := c.maxCols.toNat
    let first := cursorCell c - scrollCount c s * cols
    let c' := consoleBackspace^[s.length] (s.foldl consolePutchar c)
    (∀ r k : ℕ, (r : ℤ) < c.maxRows → k < cols → ∀ y < c.cellH, ∀ x < c.cellW,
      c'.gfx.pixel (k * c.cellW + x) (r * c.cellH + y) =
        if first ≤ r * cols + k ∧ r * cols + k < first + s.length then c.bgColor
        else (scrollUp^[scrollCount c s] c).gfx.pixel (k * c.cellW + x) (r * c.cellH + y)) ∧
    first + s.length ≤ c.maxRows.toNat * cols ∧
    (s ≠ [] → c'.cursorRow = (first / cols : ℕ) ∧ c'.cursorCol = (first % cols : ℕ)) := by
  have hsize := hreach.size
  have hpitch := fb.pitch_lt
  have hfits := fb.width_fits
  have hheight := fb.height_lt
  have hmaxCols : c.maxCols = (fb.width / 10 : ℕ) := hsize.1.trans (int32_of_lt (by omega))
  have hmaxRows : c.maxRows = (fb.height / 20 : ℕ) := hsize.2.trans (int32_of_lt (by omega))
  obtain ⟨hgrid, row, col, hon⟩ :=
    hreach.steady hwords (by omega) (by omega)
  rw [hmaxCols, Int.toNat_natCast] at hkept
  rw [hmaxCols, hmaxRows, Int.toNat_natCast, Int.toNat_natCast]
  have hcell : cursorCell c = row * (fb.width / 10) + col := by
    rw [cursorCell, hon.1, hon.2.1, hmaxCols]
    norm_cast
  rw [hcell] at hkept ⊢
  have hundone := hgrid.undone hon hs hkept
  refine ⟨?_, hundone.2⟩
  intro r k hr
  exact hundone.1 r k (Nat.cast_lt.mp hr)

end Reachable

/-- Two text rows of two columns. -/
def twoByTwo : Framebuffer where
  pitch := 80
  width := 20
  height := 40
  pitch_lt := by decide
  height_lt := by decide
  width_fits := by decide

/-- Three characters on this screen, the third one after a wrap, and three times back. -/
theorem backspace_undoes_putchar_wrap :
    let c := consoleInit (gfxInit twoByTwo fun _ => 0xFFFFFF) argonLight
    let c' := consoleBackspace^[3] ([65#8, 66#8, 67#8].foldl consolePutchar c)
    scrollCount c [65#8, 66#8, 67#8] = 0 ∧ cursorCell c = 0 ∧ c'.cursorRow = 0 ∧
      c'.cursorCol = 0 := by
  intro c c'
  have hcount : scrollCount c [65#8, 66#8, 67#8] = 0 := by decide +kernel
  have hcell : cursorCell c = 0 := by decide +kernel
  have hreach : Reachable twoByTwo (fun _ => 0xFFFFFF) c := .init
  have hs : ∀ ch ∈ [65#8, 66#8, 67#8], ch ≠ 10 ∧ ch ≠ 9 := by decide
  have hkept : scrollCount c [65#8, 66#8, 67#8] * c.maxCols.toNat ≤ cursorCell c := by
    rw [hcount, Nat.zero_mul]
    exact Nat.zero_le _
  obtain ⟨-, -, hcursor⟩ := backspace_undoes_putchar (by decide) hreach (by decide +kernel)
    (by decide +kernel) hs hkept
  rw [hcount, hcell, Nat.zero_mul, Nat.sub_zero, Nat.zero_div, Nat.zero_mod] at hcursor
  exact ⟨hcount, hcell, hcursor (List.cons_ne_nil _ _)⟩

/-- A screen with rows of 2 GiB: the word 0 of its pixel row 8 has the index `2 ^ 32`. -/
def wideScreen : Framebuffer where
  pitch := 0x80000000
  width := 20
  height := 60
  pitch_lt := by decide
  height_lt := by decide
  width_fits := by decide

/-- A character and a backspace in the second text row of this screen leave the cell as it was and
    paint over the first text row instead. -/
theorem backspace_wide_screen :
    let c := consolePutchar (consoleInit (gfxInit wideScreen fun _ => 0xFFFFFF) argonLight) 10
    let c' := consoleBackspace (consolePutchar c 65)
    Reachable wideScreen (fun _ => 0xFFFFFF) c ∧ 1 ≤ c.maxCols ∧ 2 ≤ c.maxRows ∧
      scrollCount c [65] = 0 ∧ cursorCell c = 2 ∧
      c'.gfx.pixel 0 20 ≠ c.bgColor ∧ c'.gfx.pixel 0 0 ≠ c.gfx.pixel 0 0 := by
  intro c c'
  exact ⟨.putchar 10 .init, by decide +kernel, by decide +kernel, by decide +kernel,
    by decide +kernel, by decide +kernel, by decide +kernel⟩

end HorizonOS.Drivers
