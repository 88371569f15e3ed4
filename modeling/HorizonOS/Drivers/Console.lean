import HorizonOS.Drivers.Graphics
import HorizonOS.Lib.Terminal

/-!
# The framebuffer console

`include/kernel/console.c`: a text cursor over the framebuffer, with scrolling by whole text rows.

* `Refines`: the console shows the last lines of a layout, pixel by pixel, also in the band below
  the last text row, which a later scroll moves into the text grid.
* `Refines.newline`, `Refines.tab`, `Refines.glyph`: each kind of character keeps it.
* `console_refines_terminal`: so does every string from `console_clear` on, on every screen whose
  size in bytes fits in 32 bits.
-/

namespace HorizonOS.Drivers

open Lib.Raster Lib.Terminal

/-! ## Model -/

/-- The variables of `console.c`, lines 8–20. -/
structure Console where
  gfx : Gfx
  consoleFont : FontStyle
  fgColor : BitVec 32
  bgColor : BitVec 32
  cursorCol : ℤ
  cursorRow : ℤ
  maxCols : ℤ
  maxRows : ℤ
  cellW : ℕ
  cellH : ℕ
  screenW : ℕ
  screenH : ℕ

/-- `console_init` (lines 22–44), with the font as a parameter. -/
def consoleInit (gfx : Gfx) (font : FontStyle) : Console where
  gfx := gfxSetTarget gfx .framebuffer
  consoleFont := font
  fgColor := rgb 0xCC 0xCC 0xCC
  bgColor := rgb 0x00 0x00 0x00
  cursorCol := 0
  cursorRow := 0
  maxCols := int32 (gfx.fb.width / font.widthOf 0)
  maxRows := int32 (gfx.fb.height / font.glyphHeight.toNat)
  cellW := font.widthOf 0
  cellH := font.glyphHeight.toNat
  screenW := gfx.fb.width
  screenH := gfx.fb.height

/-- `scroll_up` (lines 46–67); it writes to the framebuffer whatever the target is. -/
def scrollUp (c : Console) : Console :=
  let stride := c.gfx.fb.stride
  let rowPixels := u32 (c.cellH * stride)
  let copyCount := u32 (stride * u32 (c.screenH - c.cellH))
  let copied := c.gfx.screen.copyDown rowPixels copyCount
  { c with
    gfx := { c.gfx with screen := copied.fill copyCount rowPixels c.bgColor }
    cursorRow := c.maxRows - 1 }

/-- `newline` (lines 69–75). -/
def newline (c : Console) : Console :=
  let c := { c with cursorCol := 0, cursorRow := c.cursorRow + 1 }
  if c.maxRows ≤ c.cursorRow then scrollUp c else c

/-- `console_putchar` (lines 77–108). -/
def consolePutchar (c : Console) (ch : BitVec 8) : Console :=
  if ch = 10 then newline c
  else if ch = 9 then
    -- `(cursor_col + 4) & ~3`
    let c := { c with cursorCol := (c.cursorCol + 4) / 4 * 4 }
    if c.maxCols ≤ c.cursorCol then newline c else c
  else
    let c := if c.maxCols ≤ c.cursorCol then newline c else c
    let px := c.cursorCol * c.cellW
    let py := c.cursorRow * c.cellH
    let gfx := gfxFillRect c.gfx px py (px + c.cellW - 1) (py + c.cellH - 1) c.bgColor
    { c with
      gfx := (fontDrawChar gfx c.consoleFont ch px py c.fgColor).1
      cursorCol := c.cursorCol + 1 }

/-- `console_backspace` (lines 110–124). -/
def consoleBackspace (c : Console) : Console :=
  if c.cursorCol = 0 ∧ c.cursorRow = 0 then c
  else
    let c : Console :=
      if c.cursorCol = 0 then
        { c with cursorRow := c.cursorRow - 1, cursorCol := c.maxCols - 1 }
      else { c with cursorCol := c.cursorCol - 1 }
    let px := c.cursorCol * c.cellW
    let py := c.cursorRow * c.cellH
    { c with gfx := gfxFillRect c.gfx px py (px + c.cellW - 1) (py + c.cellH - 1) c.bgColor }

/-- `console_set_fg` (lines 228–230). -/
def consoleSetFg (c : Console) (color : BitVec 32) : Console := { c with fgColor := color }

/-- `console_set_bg` (lines 231–233). -/
def consoleSetBg (c : Console) (color : BitVec 32) : Console := { c with bgColor := color }

/-- `console_clear` (lines 235–239). -/
def consoleClear (c : Console) : Console :=
  { c with gfx := gfxClearScreen c.gfx, cursorCol := 0, cursorRow := 0 }

/-! ## The terminal it implements -/

/-- How the console reads a character. -/
def keyOf (ch : BitVec 8) : Key (BitVec 8) :=
  if ch = 10 then .newline else if ch = 9 then .tab else .glyph ch

/-- The reference layout of a string on lines of `cols` cells, with tab stops every 4 cells. -/
def layout (cols : ℕ) (s : List (BitVec 8)) : Layout (BitVec 8) :=
  s.foldl (fun L ch => L.put cols 4 (keyOf ch)) Layout.empty

/-- The pixel in column `x` and row `y` of a text cell, on black. -/
def render (font : FontStyle) (fg : BitVec 32) (cell : Option (BitVec 8)) (x y : ℕ) : BitVec 32 :=
  match cell with
  | some ch => if font.glyph ch y x then fg else 0
  | none => 0

/-- What holds of the fixed part of a console on a screen below 4 GiB, black in the background, with
    glyphs no wider than a cell. -/
structure Fits (c : Console) (cols rows : ℕ) : Prop where
  target : c.gfx.target = .framebuffer
  size : c.gfx.fb.pitch * c.gfx.fb.height < 2 ^ 32
  bg : c.bgColor = 0
  maxCols : c.maxCols = cols
  maxRows : c.maxRows = rows
  cols_pos : 0 < cols
  rows_pos : 0 < rows
  cellW_pos : 0 < c.cellW
  cellH_pos : 0 < c.cellH
  right : cols * c.cellW ≤ c.gfx.fb.width
  bottom : rows * c.cellH ≤ c.gfx.fb.height
  screenH : c.screenH = c.gfx.fb.height
  cellH : c.cellH = c.consoleFont.glyphHeight.toNat
  glyph : ∀ ch row col, c.consoleFont.glyph ch row col → col < c.cellW

/-- The console `c` with other pixels and another cursor. -/
def place (c : Console) (b : Buffer (BitVec 32)) (col row : ℤ) : Console :=
  { c with
    gfx := { c.gfx with screen := b }
    cursorCol := col
    cursorRow := row }

/-- Every pixel above the right margin is that of the layout's cell; below the last text row there
    is no cell, and the pixels are black. -/
def Shows (c : Console) (cols rows : ℕ) (L : Layout (BitVec 8)) (b : Buffer (BitVec 32)) : Prop :=
  ∀ y < c.gfx.fb.height, ∀ x < cols * c.cellW,
    b.cells (y * c.gfx.fb.stride + x) =
      render c.consoleFont c.fgColor (L.cell rows (y / c.cellH) (x / c.cellW))
        (x % c.cellW) (y % c.cellH)

/-- Every word written lies in the framebuffer. -/
def Within (fb : Framebuffer) (b : Buffer (BitVec 32)) : Prop :=
  ∀ j ∈ b.written, 4 * (j + 1) ≤ fb.pitch * fb.height

/-- `c'` is a state of the console `c` that shows the layout `L`, with the cursor at its end. -/
def Refines (c : Console) (cols rows : ℕ) (L : Layout (BitVec 8)) (c' : Console) : Prop :=
  ∃ b, c' = place c b L.line.length (L.row rows) ∧ Shows c cols rows L b ∧ Within c.gfx.fb b

section Steps

variable {c c' : Console} {cols rows : ℕ} {L : Layout (BitVec 8)} {b b' : Buffer (BitVec 32)}

theorem Fits.stride_pos (h : Fits c cols rows) : cols * c.cellW ≤ c.gfx.fb.stride ∧
    0 < cols * c.cellW :=
  ⟨h.right.trans c.gfx.fb.width_le_stride, Nat.mul_pos h.cols_pos h.cellW_pos⟩

theorem Shows.congr {L' : Layout (BitVec 8)} (h : Shows c cols rows L b)
    (hcell : ∀ r k, L'.cell rows r k = L.cell rows r k) : Shows c cols rows L' b := by
  intro y hy x hx
  rw [hcell]
  exact h y hy x hx

theorem Within.of_painted {v : BitVec 32} {P : ℕ → Prop} (h : Within c.gfx.fb b)
    (hp : Painted v P b b') (hin : ∀ j, P j → 4 * (j + 1) ≤ c.gfx.fb.pitch * c.gfx.fb.height) :
    Within c.gfx.fb b' := by
  intro j hj
  rcases hp.writes j hj with hj | hj
  · exact h j hj
  · exact hin j hj

/-! ### Scrolling -/

/-- The pixels after `scroll_up`. -/
def scrolled (c : Console) (b : Buffer (BitVec 32)) : Buffer (BitVec 32) :=
  b.scroll c.gfx.fb.stride c.gfx.fb.height c.cellH 0

theorem Fits.cellH_le (h : Fits c cols rows) : c.cellH ≤ c.gfx.fb.height :=
  (Nat.le_mul_of_pos_left _ h.rows_pos).trans h.bottom

/-- No count that `scroll_up` computes wraps. -/
theorem scrollUp_eq (hscreen : c.screenH = c.gfx.fb.height) (hle : c.cellH ≤ c.gfx.fb.height)
    (hrow : c.cellH * c.gfx.fb.stride < 2 ^ 32)
    (hcopy : c.gfx.fb.stride * (c.gfx.fb.height - c.cellH) < 2 ^ 32) :
    scrollUp c =
      place c (c.gfx.screen.scroll c.gfx.fb.stride c.gfx.fb.height c.cellH c.bgColor) c.cursorCol
        (c.maxRows - 1) := by
  have hrowPixels : u32 ((c.cellH : ℤ) * c.gfx.fb.stride) = c.cellH * c.gfx.fb.stride :=
    u32_eq (by push_cast; rfl) hrow
  have hrest : u32 ((c.gfx.fb.height : ℤ) - c.cellH) = c.gfx.fb.height - c.cellH :=
    u32_eq (Nat.cast_sub hle).symm ((Nat.sub_le _ _).trans_lt c.gfx.fb.height_lt)
  have hcount : u32 ((c.gfx.fb.stride : ℤ) * ((c.gfx.fb.height - c.cellH : ℕ) : ℤ)) =
      c.gfx.fb.stride * (c.gfx.fb.height - c.cellH) :=
    u32_eq (Nat.cast_mul _ _).symm hcopy
  unfold scrollUp Buffer.scroll place
  simp only [hscreen, hrowPixels, hrest, hcount]

theorem scrollUp_place (h : Fits c cols rows) (b : Buffer (BitVec 32)) (col row : ℤ) :
    scrollUp (place c b col row) = place c (scrolled c b) col (c.maxRows - 1) := by
  have hblocks := scroll_blocks c.gfx.fb.stride h.cellH_le
  have hwords := c.gfx.fb.stride_mul_le
  have hsize := h.size
  rw [scrollUp_eq (c := place c b col row) h.screenH h.cellH_le]
  · unfold scrolled place
    simp only [h.bg]
  · show c.cellH * c.gfx.fb.stride < 2 ^ 32
    omega
  · show c.gfx.fb.stride * (c.gfx.fb.height - c.cellH) < 2 ^ 32
    omega

theorem scrolled_cells (h : Fits c cols rows) {x y : ℕ} (hx : x < c.gfx.fb.stride)
    (hy : y < c.gfx.fb.height) :
    (scrolled c b).cells (y * c.gfx.fb.stride + x) =
      if y + c.cellH < c.gfx.fb.height then b.cells ((y + c.cellH) * c.gfx.fb.stride + x)
      else 0 :=
  scroll_cells b 0 h.cellH_le hx hy

/-- The band below the last text row is black, so the row that enters the grid is blank even where
    the cleared block does not reach it. -/
theorem Shows.scrolled (h : Fits c cols rows) (hs : Shows c cols rows L b)
    (hfull : rows ≤ L.lines.length) : Shows c cols rows L.newline (scrolled c b) := by
  intro y hy x hx
  have hxs : x < c.gfx.fb.stride := hx.trans_le h.stride_pos.1
  have hdiv : (y + c.cellH) / c.cellH = y / c.cellH + 1 := Nat.add_div_right _ h.cellH_pos
  rw [scrolled_cells h hxs hy, cell_newline_of_le hfull]
  split_ifs with hlow
  · rw [hs _ hlow x hx, hdiv, Nat.add_mod_right]
  · have hrow : rows ≤ y / c.cellH + 1 := by
      rw [← hdiv, Nat.le_div_iff_mul_le h.cellH_pos]
      exact h.bottom.trans (by omega)
    rw [cell_of_rows_le hrow]
    rfl

theorem Within.scrolled (h : Fits c cols rows) (hw : Within c.gfx.fb b) :
    Within c.gfx.fb (scrolled c b) := by
  have hblocks := scroll_blocks c.gfx.fb.stride h.cellH_le
  have hwords := c.gfx.fb.stride_mul_le
  have hcopy : Within c.gfx.fb (b.copyDown (c.cellH * c.gfx.fb.stride)
      (c.gfx.fb.stride * (c.gfx.fb.height - c.cellH))) := by
    intro j hj
    rcases copyDown_writes _ _ _ j hj with hj | hj
    · exact hw j hj
    · omega
  refine hcopy.of_painted (painted_fill _ _ _ _) ?_
  intro j hj
  omega

/-! ### The characters -/

theorem newline_place (h : Fits c cols rows) (b : Buffer (BitVec 32)) (col row : ℤ) :
    newline (place c b col row) =
      if (rows : ℤ) ≤ row + 1 then place c (scrolled c b) 0 (rows - 1)
      else place c b 0 (row + 1) := by
  have hstep : newline (place c b col row) =
      if c.maxRows ≤ row + 1 then scrollUp (place c b 0 (row + 1))
      else place c b 0 (row + 1) := rfl
  rw [hstep, scrollUp_place h, h.maxRows]

/-- A new line starts at column 0 wherever the cursor was. -/
theorem refines_newline (h : Fits c cols rows) (hs : Shows c cols rows L b)
    (hw : Within c.gfx.fb b) (col : ℤ) :
    Refines c cols rows L.newline (newline (place c b col (L.row rows))) := by
  have hrow := row_succ_lt_iff (L := L) h.rows_pos
  rw [newline_place h]
  by_cases hfull : rows ≤ L.lines.length
  · have hlast : ((L.newline.row rows : ℕ) : ℤ) = rows - 1 := by
      have := h.rows_pos
      rw [row_newline_of_le hfull]
      omega
    rw [if_pos (by omega)]
    exact ⟨scrolled c b, by rw [hlast]; rfl, hs.scrolled h hfull, hw.scrolled h⟩
  · have hnext : ((L.newline.row rows : ℕ) : ℤ) = L.row rows + 1 := by
      rw [row_newline_of_lt (by omega), Nat.cast_add, Nat.cast_one]
    rw [if_neg (by omega)]
    exact ⟨b, by rw [hnext]; rfl, hs.congr (cell_newline_of_lt (by omega)), hw⟩

theorem Refines.newline (h : Fits c cols rows) (hr : Refines c cols rows L c') :
    Refines c cols rows L.newline (newline c') := by
  obtain ⟨b, rfl, hs, hw⟩ := hr
  exact refines_newline h hs hw _

theorem tabStop_cast (L : Layout (BitVec 8)) :
    ((L.line.length : ℤ) + 4) / 4 * 4 = (L.tabStop 4 : ℕ) := by
  unfold Layout.tabStop
  omega

theorem consolePutchar_tab (c : Console) (b : Buffer (BitVec 32)) (col row : ℤ) :
    consolePutchar (place c b col row) 9 =
      if c.maxCols ≤ (col + 4) / 4 * 4 then newline (place c b ((col + 4) / 4 * 4) row)
      else place c b ((col + 4) / 4 * 4) row := by
  unfold consolePutchar
  rw [if_neg (by decide), if_pos rfl]
  rfl

theorem Refines.tab (h : Fits c cols rows) (hr : Refines c cols rows L c') :
    Refines c cols rows (L.put cols 4 .tab) (consolePutchar c' 9) := by
  obtain ⟨b, rfl, hs, hw⟩ := hr
  rw [consolePutchar_tab, tabStop_cast, h.maxCols]
  simp only [Nat.cast_le, Layout.put]
  by_cases hstop : cols ≤ L.tabStop 4
  · rw [if_pos hstop, if_pos hstop]
    exact refines_newline h hs hw _
  · rw [if_neg hstop, if_neg hstop]
    have hlen : (L.pad (L.tabStop 4)).line.length = L.tabStop 4 :=
      line_length_pad (lt_tabStop (by decide)).le
    have hrow : (L.pad (L.tabStop 4)).row rows = L.row rows := row_line _
    exact ⟨b, by rw [hlen, hrow], hs.congr (cell_pad h.rows_pos _), hw⟩

/-- A pixel of the grid lies in the cell of text row `r` and column `k`. -/
theorem mem_cell_iff {w x k : ℕ} (hw : 0 < w) : (∃ i < w, x = k * w + i) ↔ x / w = k := by
  constructor
  · rintro ⟨i, hi, rfl⟩
    rw [Nat.mul_comm, Nat.mul_add_div hw, Nat.div_eq_of_lt hi, Nat.add_zero]
  · rintro rfl
    exact ⟨x % w, Nat.mod_lt _ hw, (Nat.div_add_mod' x w).symm⟩

/-- The words of the cell in text row `row` and column `col`. -/
def cellWords (c : Console) (row col j : ℕ) : Prop :=
  ∃ i < c.cellH, ∃ k < c.cellW, j = (row * c.cellH + i) * c.gfx.fb.stride + (col * c.cellW + k)

/-- The words of the character `ch` drawn in text row `row` and column `col`. -/
def glyphWords (c : Console) (ch : BitVec 8) (row col j : ℕ) : Prop :=
  ∃ y x, c.consoleFont.glyph ch y x ∧ col * c.cellW + x < c.gfx.fb.width ∧
    row * c.cellH + y < c.gfx.fb.height ∧
    j = (row * c.cellH + y) * c.gfx.fb.stride + (col * c.cellW + x)

/-- The cell at the end of the line is blanked and the glyph drawn over it. -/
theorem Shows.append (h : Fits c cols rows) (hs : Shows c cols rows L b) {ch : BitVec 8}
    (hcol : L.line.length < cols) {b₁ b₂ : Buffer (BitVec 32)}
    (hfill : Painted 0 (cellWords c (L.row rows) L.line.length) b b₁)
    (hdraw : Painted c.fgColor (glyphWords c ch (L.row rows) L.line.length) b₁ b₂) :
    Shows c cols rows (L.append ch) b₂ := by
  intro y hy x hx
  have hxs : x < c.gfx.fb.stride := hx.trans_le h.stride_pos.1
  have hedge : L.line.length * c.cellW + c.cellW ≤ cols * c.cellW := by
    have hmul := Nat.mul_le_mul_right c.cellW (Nat.succ_le_of_lt hcol)
    rwa [Nat.succ_mul] at hmul
  have hright := h.right
  have hstride := h.stride_pos.1
  rw [cell_append h.rows_pos]
  by_cases hcell : y / c.cellH = L.row rows ∧ x / c.cellW = L.line.length
  · rw [if_pos hcell]
    obtain ⟨hyr, hxk⟩ := hcell
    have hyd : y = L.row rows * c.cellH + y % c.cellH := by
      rw [← hyr]
      exact (Nat.div_add_mod' y c.cellH).symm
    have hxd : x = L.line.length * c.cellW + x % c.cellW := by
      rw [← hxk]
      exact (Nat.div_add_mod' x c.cellW).symm
    simp only [render]
    split_ifs with hbit
    · exact hdraw.inside _ ⟨y % c.cellH, x % c.cellW, hbit, by omega, by omega, by rw [← hyd, ← hxd]⟩
    · rw [hdraw.outside _ ?_]
      · exact hfill.inside _ ⟨y % c.cellH, Nat.mod_lt _ h.cellH_pos, x % c.cellW,
          Nat.mod_lt _ h.cellW_pos, by rw [← hyd, ← hxd]⟩
      · rintro ⟨row, col, hg, hw, hh, hj⟩
        obtain ⟨hy', hx'⟩ := (index_inj hxs (hw.trans_le c.gfx.fb.width_le_stride)).mp hj
        have hrow : row = y % c.cellH := by omega
        have hcol' : col = x % c.cellW := by omega
        exact hbit (hrow ▸ hcol' ▸ hg)
  · rw [if_neg hcell, ← hs y hy x hx]
    rw [hdraw.outside _ ?_, hfill.outside _ ?_]
    · rintro ⟨i, hi, k, hk, hj⟩
      have hk' : L.line.length * c.cellW + k < c.gfx.fb.stride := by omega
      obtain ⟨hy', hx'⟩ := (index_inj hxs hk').mp hj
      exact hcell ⟨(mem_cell_iff h.cellH_pos).mp ⟨i, hi, hy'⟩,
        (mem_cell_iff h.cellW_pos).mp ⟨k, hk, hx'⟩⟩
    · rintro ⟨row, col, hg, hw, hh, hj⟩
      obtain ⟨hy', hx'⟩ := (index_inj hxs (hw.trans_le c.gfx.fb.width_le_stride)).mp hj
      have hrow : row < c.cellH := h.cellH ▸ hg.2.2.1
      exact hcell ⟨(mem_cell_iff h.cellH_pos).mp ⟨row, hrow, hy'⟩,
        (mem_cell_iff h.cellW_pos).mp ⟨col, h.glyph ch row col hg, hx'⟩⟩

/-- The part of `console_putchar` after the wrap (lines 99–104). -/
def drawCell (c : Console) (ch : BitVec 8) : Console :=
  let px := c.cursorCol * c.cellW
  let py := c.cursorRow * c.cellH
  let gfx := gfxFillRect c.gfx px py (px + c.cellW - 1) (py + c.cellH - 1) c.bgColor
  { c with
    gfx := (fontDrawChar gfx c.consoleFont ch px py c.fgColor).1
    cursorCol := c.cursorCol + 1 }

theorem consolePutchar_glyph (c : Console) {ch : BitVec 8} (hnl : ch ≠ 10) (htab : ch ≠ 9) :
    consolePutchar c ch = drawCell (if c.maxCols ≤ c.cursorCol then newline c else c) ch := by
  unfold consolePutchar
  rw [if_neg hnl, if_neg htab]
  rfl

/-- The cell in text row `row` and column `col` is on the screen, and the words of the screen have
    32-bit indices. -/
structure CellFits (c : Console) (row col : ℕ) : Prop where
  target : c.gfx.target = .framebuffer
  words : c.gfx.fb.stride * c.gfx.fb.height ≤ 2 ^ 32
  height_lt : c.gfx.fb.height < 2 ^ 31
  cellW_pos : 0 < c.cellW
  cellH_pos : 0 < c.cellH
  right : col * c.cellW + c.cellW ≤ c.gfx.fb.width
  bottom : row * c.cellH + c.cellH ≤ c.gfx.fb.height

theorem CellFits.fill {row col : ℕ} (h : CellFits c row col) (v : BitVec 32) :
    Drawn v (cellWords c row col) c.gfx
      (gfxFillRect c.gfx (col * c.cellW) (row * c.cellH) (col * c.cellW + c.cellW - 1)
        (row * c.cellH + c.cellH - 1) v) := by
  have hfill := gfxFillRect_drawn h.target h.words h.height_lt h.cellW_pos h.cellH_pos h.right
    h.bottom v
  push_cast at hfill
  exact hfill

/-- The cell under the cursor is blanked and the glyph drawn over it. -/
theorem CellFits.drawCell {row col : ℕ} (h : CellFits c row col) (hrow : c.cursorRow = row)
    (hcol : c.cursorCol = col) (ch : BitVec 8) :
    ∃ b₁ b₂, drawCell c ch = place c b₂ (col + 1) row ∧
      Painted c.bgColor (cellWords c row col) c.gfx.screen b₁ ∧
      Painted c.fgColor (glyphWords c ch row col) b₁ b₂ := by
  have hpitch := c.gfx.fb.pitch_lt
  have hwidth := c.gfx.fb.width_fits
  have hheight := h.height_lt
  have hright := h.right
  have hbottom := h.bottom
  have hx : col * c.cellW < 2 ^ 31 := by omega
  have hy : row * c.cellH < 2 ^ 31 := by omega
  have hfill := h.fill c.bgColor
  have hdraw := fontDrawChar_drawn (hfill.target_eq.trans h.target)
    (by rw [hfill.fb_eq]; exact h.words) c.consoleFont ch hx hy c.fgColor
  rw [hfill.fb_eq] at hdraw
  push_cast at hdraw
  generalize hg₁ : gfxFillRect c.gfx _ _ _ _ c.bgColor = g₁ at hfill hdraw
  generalize hg₂ : (fontDrawChar g₁ _ _ _ _ _).1 = g₂ at hdraw
  refine ⟨g₁.screen, g₂.screen, ?_, hfill.painted, hdraw.painted⟩
  have hframe : g₂ = { c.gfx with screen := g₂.screen } := by rw [hdraw.frame, hfill.frame]
  have hcell : Drivers.drawCell c ch = { c with gfx := g₂, cursorCol := (col : ℤ) + 1 } := by
    unfold Drivers.drawCell
    simp only [hrow, hcol, ← hg₂, ← hg₁]
  rw [hcell, hframe, place, ← hrow]

theorem Fits.width_lt (h : Fits c cols rows) :
    c.gfx.fb.width < 2 ^ 30 ∧ c.gfx.fb.height < 2 ^ 30 := by
  have hsize := h.size
  have hwords := c.gfx.fb.stride_mul_le
  have hstride := c.gfx.fb.width_le_stride
  have hpos := h.stride_pos
  have hheight : 0 < c.gfx.fb.height := h.cellH_pos.trans_le h.cellH_le
  have hw : c.gfx.fb.stride ≤ c.gfx.fb.stride * c.gfx.fb.height := Nat.le_mul_of_pos_right _ hheight
  have hh : c.gfx.fb.height ≤ c.gfx.fb.stride * c.gfx.fb.height :=
    Nat.le_mul_of_pos_left _ (by omega)
  omega

/-- The `k`-th of `n` intervals of length `w` ends within the `n` intervals. -/
theorem interval_le {k n w : ℕ} (hk : k < n) : k * w + w ≤ n * w := by
  rw [← Nat.succ_mul]
  exact Nat.mul_le_mul_right w hk

theorem Fits.cellFits (h : Fits c cols rows) {row col : ℕ} (hrow : row < rows) (hcol : col < cols)
    (b : Buffer (BitVec 32)) (x y : ℤ) : CellFits (place c b x y) row col where
  target := h.target
  words := by
    have hsize := h.size
    have hwords := c.gfx.fb.stride_mul_le
    show c.gfx.fb.stride * c.gfx.fb.height ≤ 2 ^ 32
    omega
  height_lt := h.width_lt.2.trans (by norm_num)
  cellW_pos := h.cellW_pos
  cellH_pos := h.cellH_pos
  right := (interval_le hcol).trans h.right
  bottom := (interval_le hrow).trans h.bottom

theorem Refines.drawCell (h : Fits c cols rows) (hr : Refines c cols rows L c') (ch : BitVec 8)
    (hcol : L.line.length < cols) : Refines c cols rows (L.append ch) (drawCell c' ch) := by
  obtain ⟨b, rfl, hs, hw⟩ := hr
  have hrowLt : L.row rows < rows := row_lt h.rows_pos
  have hcell := h.cellFits hrowLt hcol b L.line.length (L.row rows)
  have hright : L.line.length * c.cellW + c.cellW ≤ c.gfx.fb.width := hcell.right
  have hbottom : L.row rows * c.cellH + c.cellH ≤ c.gfx.fb.height := hcell.bottom
  obtain ⟨b₁, b₂, hstate, hfill, hdraw⟩ := hcell.drawCell rfl rfl ch
  have hbg : (place c b L.line.length (L.row rows)).bgColor = 0 := h.bg
  rw [hbg] at hfill
  have hrow : (L.append ch).row rows = L.row rows := row_line _
  have hlen : ((L.append ch).line.length : ℤ) = L.line.length + 1 := by
    simp [Layout.append]
  refine ⟨b₂, ?_, hs.append h hcol hfill hdraw, ?_⟩
  · rw [hstate, hrow, hlen]
    rfl
  · refine (hw.of_painted hfill ?_).of_painted hdraw ?_
    · rintro j ⟨i, hi, k, hk, rfl⟩
      have hx : L.line.length * c.cellW + k < c.gfx.fb.width :=
        (Nat.add_lt_add_left hk _).trans_le hright
      have hy : L.row rows * c.cellH + i < c.gfx.fb.height :=
        (Nat.add_lt_add_left hi _).trans_le hbottom
      exact c.gfx.fb.index_lt (hx.trans_le c.gfx.fb.width_le_stride) hy
    · rintro j ⟨row, col, -, hx, hy, rfl⟩
      exact c.gfx.fb.index_lt (lt_of_lt_of_le hx c.gfx.fb.width_le_stride) hy

theorem Refines.putchar (h : Fits c cols rows) (hr : Refines c cols rows L c') (ch : BitVec 8) :
    Refines c cols rows (L.put cols 4 (keyOf ch)) (consolePutchar c' ch) := by
  unfold keyOf
  by_cases hnl : ch = 10
  · subst hnl
    exact hr.newline h
  by_cases htab : ch = 9
  · subst htab
    exact hr.tab h
  · rw [if_neg hnl, if_neg htab, consolePutchar_glyph c' hnl htab]
    have hcursor : c'.maxCols ≤ c'.cursorCol ↔ cols ≤ L.line.length := by
      obtain ⟨b, rfl, -⟩ := hr
      have hmax : (place c b L.line.length (L.row rows)).maxCols = cols := h.maxCols
      rw [hmax]
      exact Nat.cast_le
    simp only [Layout.put, hcursor]
    by_cases hfull : cols ≤ L.line.length
    · rw [if_pos hfull, if_pos hfull]
      exact (hr.newline h).drawCell h ch h.cols_pos
    · rw [if_neg hfull, if_neg hfull]
      exact hr.drawCell h ch (by omega)

/-! ### Whole strings -/

theorem layout_concat (cols : ℕ) (s : List (BitVec 8)) (ch : BitVec 8) :
    layout cols (s ++ [ch]) = (layout cols s).put cols 4 (keyOf ch) := by
  unfold layout
  rw [List.foldl_append]
  rfl

theorem layout_line_length (hcols : 0 < cols) (s : List (BitVec 8)) :
    (layout cols s).line.length ≤ cols := by
  induction s using List.reverseRecOn with
  | nil => exact Nat.zero_le _
  | append_singleton s ch ih =>
    rw [layout_concat]
    exact line_length_put hcols (by decide) _

theorem Refines.run (h : Fits c cols rows) (hr : Refines c cols rows Layout.empty c')
    (s : List (BitVec 8)) : Refines c cols rows (layout cols s) (s.foldl consolePutchar c') := by
  induction s using List.reverseRecOn with
  | nil => exact hr
  | append_singleton s ch ih =>
    rw [List.foldl_append, layout_concat]
    exact ih.putchar h ch

/-- What a state that shows `L` looks like from outside. -/
theorem Refines.spec (h : Fits c cols rows) (hr : Refines c cols rows L c')
    (hlen : L.line.length ≤ cols) :
    c'.maxCols = cols ∧ c'.maxRows = rows ∧
    (0 ≤ c'.cursorRow ∧ c'.cursorRow < c'.maxRows) ∧
    (0 ≤ c'.cursorCol ∧ c'.cursorCol ≤ c'.maxCols) ∧
    (∀ j ∈ c'.gfx.screen.written, 4 * (j + 1) ≤ c.gfx.fb.pitch * c.gfx.fb.height) ∧
    c'.gfx.backbuffer = c.gfx.backbuffer ∧
    ∀ r < rows, ∀ k < cols, ∀ y < c'.cellH, ∀ x < c'.cellW,
      c'.gfx.pixel (k * c'.cellW + x) (r * c'.cellH + y) =
        render c.consoleFont c.fgColor (L.cell rows r k) x y := by
  obtain ⟨b, rfl, hs, hw⟩ := hr
  have hrow := row_lt (L := L) h.rows_pos
  have hmaxCols : (place c b L.line.length (L.row rows)).maxCols = cols := h.maxCols
  have hmaxRows : (place c b L.line.length (L.row rows)).maxRows = rows := h.maxRows
  rw [hmaxCols, hmaxRows]
  refine ⟨rfl, rfl, ⟨Int.natCast_nonneg _, Nat.cast_lt.mpr hrow⟩,
    ⟨Int.natCast_nonneg _, Nat.cast_le.mpr hlen⟩, hw, rfl, ?_⟩
  intro r hr k hk y hy x hx
  have hy : y < c.cellH := hy
  have hx : x < c.cellW := hx
  have hyr : r * c.cellH + y < c.gfx.fb.height :=
    (Nat.add_lt_add_left hy _).trans_le ((interval_le hr).trans h.bottom)
  have hxk : k * c.cellW + x < cols * c.cellW :=
    (Nat.add_lt_add_left hx _).trans_le (interval_le hk)
  have hpixel := hs _ hyr _ hxk
  rw [(mem_cell_iff h.cellH_pos).mp ⟨y, hy, rfl⟩, (mem_cell_iff h.cellW_pos).mp ⟨x, hx, rfl⟩,
    Nat.mul_add_mod', Nat.mod_eq_of_lt hx, Nat.mul_add_mod', Nat.mod_eq_of_lt hy] at hpixel
  exact hpixel

end Steps

/-! ## From `console_clear` on -/

section Run

variable {fb : Framebuffer} {pixels : ℕ → BitVec 32} {font : FontStyle} {fg : BitVec 32}

theorem rgb_black : rgb 0x00 0x00 0x00 = 0 := by decide

theorem fits_consoleInit (hsize : fb.pitch * fb.height < 2 ^ 32)
    (hglyph : ∀ ch row col, font.glyph ch row col → col < font.fixedWidth.toNat)
    (hcols : 1 ≤ (consoleInit (gfxInit fb pixels) font).maxCols)
    (hrows : 1 ≤ (consoleInit (gfxInit fb pixels) font).maxRows) :
    Fits (consoleSetFg (consoleInit (gfxInit fb pixels) font) fg)
      (fb.width / font.widthOf 0) (fb.height / font.glyphHeight.toNat) := by
  simp only [consoleInit, gfxInit] at hcols hrows
  have hpitch := fb.pitch_lt
  have hfits := fb.width_fits
  have hdivw := Nat.div_le_self fb.width (font.widthOf 0)
  have hmaxCols : int32 (fb.width / font.widthOf 0) = (fb.width / font.widthOf 0 : ℕ) :=
    int32_of_lt (by omega)
  have hcolsPos : 0 < fb.width / font.widthOf 0 := by omega
  have hmul : 4 * fb.height ≤ fb.pitch * fb.height := Nat.mul_le_mul_right _ (by omega)
  have hdivh := Nat.div_le_self fb.height font.glyphHeight.toNat
  have hmaxRows : int32 (fb.height / font.glyphHeight.toNat) =
      (fb.height / font.glyphHeight.toNat : ℕ) := int32_of_lt (by omega)
  have hrowsPos : 0 < fb.height / font.glyphHeight.toNat := by omega
  refine
    { target := rfl, size := hsize, bg := rgb_black,
      maxCols := by simp only [consoleSetFg, consoleInit, gfxInit, hmaxCols]
      maxRows := by simp only [consoleSetFg, consoleInit, gfxInit, hmaxRows]
      cols_pos := hcolsPos, rows_pos := hrowsPos,
      cellW_pos := Nat.pos_of_ne_zero fun h0 => ?_, cellH_pos := Nat.pos_of_ne_zero fun h0 => ?_,
      right := Nat.div_mul_le_self _ _, bottom := Nat.div_mul_le_self _ _, screenH := rfl,
      cellH := rfl, glyph := fun ch row col hg => ?_ }
  · have h0' : font.widthOf 0 = 0 := h0
    rw [h0', Nat.div_zero] at hcolsPos
    exact hcolsPos.false
  · have h0' : font.glyphHeight.toNat = 0 := h0
    rw [h0', Nat.div_zero] at hrowsPos
    exact hrowsPos.false
  · have hcol := hglyph ch row col hg
    have hfixed : font.fixedWidth ≠ 0 := by
      intro h0
      rw [h0] at hcol
      exact Nat.not_lt_zero _ hcol
    have hwidth : font.widthOf 0 = font.fixedWidth.toNat := if_pos hfixed
    exact hcol.trans_eq hwidth.symm

/-- With a size below 4 GiB `console_clear` clears every word of the framebuffer. -/
theorem refines_consoleClear {cols rows : ℕ}
    (h : Fits (consoleSetFg (consoleInit (gfxInit fb pixels) font) fg) cols rows) :
    Refines (consoleSetFg (consoleInit (gfxInit fb pixels) font) fg) cols rows Layout.empty
      (consoleClear (consoleSetFg (consoleInit (gfxInit fb pixels) font) fg)) := by
  have hsize : fb.pitch * fb.height < 2 ^ 32 := h.size
  have hscreen : u32 ((fb.pitch : ℤ) * fb.height) = fb.pitch * fb.height :=
    u32_eq (Nat.cast_mul _ _).symm hsize
  have hclear := gfxClearScreen_drawn
    (g := (consoleSetFg (consoleInit (gfxInit fb pixels) font) fg).gfx) rfl
  have hcount : (consoleSetFg (consoleInit (gfxInit fb pixels) font) fg).gfx.screenSize =
      fb.pitch * fb.height := hscreen
  rw [hcount] at hclear
  generalize hg : gfxClearScreen _ = g at hclear
  refine ⟨g.screen, ?_, ?_, ?_⟩
  · have hrow : (Layout.empty : Layout (BitVec 8)).row rows = 0 := by
      have := h.rows_pos
      simp only [Layout.row, Layout.lines, Layout.empty, List.nil_append, List.length_singleton]
      omega
    unfold consoleClear place
    rw [hg, hrow, ← hclear.frame]
    rfl
  · intro y hy x hx
    have hindex := fb.index_lt (hx.trans_le h.stride_pos.1) hy
    rw [cell_empty]
    exact hclear.painted.inside _ (by
      show y * fb.stride + x < fb.pitch * fb.height / 4
      omega)
  · intro j hj
    rcases hclear.painted.writes j hj with hj | hj
    · cases hj
    · show 4 * (j + 1) ≤ fb.pitch * fb.height
      omega

/-- After every string the cursor is inside the text grid, every word written lies in the
    framebuffer, and the grid shows the last lines of the layout of the whole string. -/
theorem console_refines_terminal (fb : Framebuffer) (pixels : ℕ → BitVec 32) (font : FontStyle)
    (fg : BitVec 32) (hsize : fb.pitch * fb.height < 2 ^ 32)
    (hglyph : ∀ ch row col, font.glyph ch row col → col < font.fixedWidth.toNat)
    (hcols : 1 ≤ (consoleInit (gfxInit fb pixels) font).maxCols)
    (hrows : 1 ≤ (consoleInit (gfxInit fb pixels) font).maxRows) (s : List (BitVec 8)) :
    let c := s.foldl consolePutchar
      (consoleClear (consoleSetFg (consoleInit (gfxInit fb pixels) font) fg))
    (0 ≤ c.cursorRow ∧ c.cursorRow < c.maxRows) ∧
    (0 ≤ c.cursorCol ∧ c.cursorCol ≤ c.maxCols) ∧
    (∀ j ∈ c.gfx.screen.written, 4 * (j + 1) ≤ fb.pitch * fb.height) ∧
    c.gfx.backbuffer.written = [] ∧
    ∀ r k : ℕ, (r : ℤ) < c.maxRows → (k : ℤ) < c.maxCols → ∀ y < c.cellH, ∀ x < c.cellW,
      c.gfx.pixel (k * c.cellW + x) (r * c.cellH + y) =
        render font fg ((layout c.maxCols.toNat s).cell c.maxRows.toNat r k) x y := by
  have h : Fits (consoleSetFg (consoleInit (gfxInit fb pixels) font) fg) _ _ :=
    fits_consoleInit hsize hglyph hcols hrows
  intro c
  obtain ⟨hmc, hmr, hrow, hcol, hwithin, hback, hpixel⟩ :=
    ((refines_consoleClear h).run h s).spec h (layout_line_length h.cols_pos s)
  have hmc : c.maxCols = _ := hmc
  have hmr : c.maxRows = _ := hmr
  refine ⟨hrow, hcol, hwithin, congrArg Buffer.written hback, ?_⟩
  intro r k hr hk y hy x hx
  rw [hmr, Nat.cast_lt] at hr
  rw [hmc, Nat.cast_lt] at hk
  rw [hmc, hmr, Int.toNat_natCast, Int.toNat_natCast]
  exact hpixel r hr k hk y hy x hx

end Run

/-! ## Two screens -/

/-- A font of one-pixel characters. -/
def dotFont : FontStyle where
  glyphCount := 95
  firstAsciiCode := 32
  glyphBytesWidth := 1
  glyphHeight := 1
  fixedWidth := 1
  glyphWidth := none
  glyphBitmaps := fun _ => 0x80

theorem dotFont_glyph (ch : BitVec 8) (row col : ℕ) (h : dotFont.glyph ch row col) :
    col < dotFont.fixedWidth.toNat := by
  obtain ⟨-, -, -, hcol, hbit⟩ := h
  have hcol : col < 8 := hcol
  have hbit : (0x80#8 &&& 0x80#8 >>> (col % 8) != 0) = true := hbit
  show col < 1
  interval_cases col <;> revert hbit <;> decide

/-- Three text rows and one padding word in each row of the memory. -/
def smallScreen : Framebuffer where
  pitch := 20
  width := 4
  height := 3
  pitch_lt := by decide
  height_lt := by decide
  width_fits := by decide

theorem console_refines_terminal_small :
    let c := [65#8, 10#8, 9#8, 66#8, 10#8, 10#8].foldl consolePutchar
      (consoleClear (consoleSetFg
        (consoleInit (gfxInit smallScreen fun _ => 0xFFFFFF) dotFont) 0xCCCCCC))
    (0 ≤ c.cursorRow ∧ c.cursorRow < c.maxRows) ∧
    (0 ≤ c.cursorCol ∧ c.cursorCol ≤ c.maxCols) ∧
    ∀ j ∈ c.gfx.screen.written, 4 * (j + 1) ≤ 20 * 3 := by
  obtain ⟨hrow, hcol, hwithin, -⟩ := console_refines_terminal smallScreen (fun _ => 0xFFFFFF)
    dotFont 0xCCCCCC (by decide) dotFont_glyph (by decide +kernel) (by decide +kernel)
    [65#8, 10#8, 9#8, 66#8, 10#8, 10#8]
  exact ⟨hrow, hcol, hwithin⟩

/-- A screen of 4 GiB. -/
def largeScreen : Framebuffer where
  pitch := 131072
  width := 32768
  height := 32768
  pitch_lt := by decide
  height_lt := by decide
  width_fits := by decide

/-- The size of this screen is 0 modulo 2^32, so `console_clear` clears nothing and the pixels the
    boot loader left stay in the text grid. -/
theorem console_not_cleared :
    let c₀ := consoleInit (gfxInit largeScreen fun _ => 0xFFFFFF) dotFont
    let c := consolePutchar (consoleClear c₀) 10
    1 ≤ c₀.maxCols ∧ 1 ≤ c₀.maxRows ∧
    (∀ ch row col, dotFont.glyph ch row col → col < dotFont.fixedWidth.toNat) ∧
    c.gfx.pixel 0 0 ≠
      render dotFont c.fgColor ((layout c.maxCols.toNat [10]).cell c.maxRows.toNat 0 0) 0 0 := by
  refine ⟨by decide +kernel, by decide +kernel, dotFont_glyph, by decide +kernel⟩

end HorizonOS.Drivers
