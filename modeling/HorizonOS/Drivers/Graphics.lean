import HorizonOS.Lib.Raster

/-!
# The framebuffer driver and the bitmap fonts

`drivers/graphics.c` and `kernel/fonts/font.c`. Sizes and pixel indices are `uint32_t` in the
source and are reduced modulo 2^32 where it computes them; `int` values are integers.

* `gfxFillRect_drawn`, `fontDrawChar_drawn`: the words that a rectangle and a character paint.
* `gfxClearScreen_drawn`: the words cleared, fewer than the screen has when its size in bytes does
  not fit in 32 bits.
-/

namespace HorizonOS.Drivers

open Lib.Raster

/-- Conversion to `uint32_t`. -/
def u32 (z : ℤ) : ℕ := (z % 2 ^ 32).toNat

/-- Conversion of a `uint32_t` to `int`. -/
def int32 (n : ℕ) : ℤ := Int.bmod n (2 ^ 32)

/-! ## Model -/

/-- `gfx_framebuffer_t` (`graphics.h`, lines 6–12); a row of pixels fits in a row of the memory. -/
structure Framebuffer where
  pitch : ℕ
  width : ℕ
  height : ℕ
  pitch_lt : pitch < 2 ^ 32
  height_lt : height < 2 ^ 32
  width_fits : 4 * width ≤ pitch

/-- Words in a row of the memory, `fb.pitch / 4`. -/
def Framebuffer.stride (fb : Framebuffer) : ℕ := fb.pitch / 4

/-- `enum gfx_target`. -/
inductive GfxTarget where
  | backbuffer
  | framebuffer
  deriving DecidableEq, Repr

/-- The variables of `graphics.c`, lines 7–11. -/
structure Gfx where
  fb : Framebuffer
  screen : Buffer (BitVec 32)
  backbuffer : Buffer (BitVec 32)
  screenSize : ℕ
  target : GfxTarget

/-- The pixel that `gfx_put_pixel` addresses as `(x, y)`. -/
def Gfx.pixel (g : Gfx) (x y : ℕ) : BitVec 32 := g.screen.cells (y * g.fb.stride + x)

/-- `gfx_init` (lines 28–35): the framebuffer keeps the pixels the boot loader left. -/
def gfxInit (fb : Framebuffer) (pixels : ℕ → BitVec 32) : Gfx where
  fb := fb
  screen := { cells := pixels, written := [] }
  backbuffer := { cells := fun _ => 0, written := [] }
  screenSize := u32 (fb.pitch * fb.height)
  target := .backbuffer

/-- `gfx_set_target` (lines 17–19). -/
def gfxSetTarget (g : Gfx) (t : GfxTarget) : Gfx := { g with target := t }

/-- A change of `draw_buffer()` (lines 24–26). -/
def Gfx.draw (g : Gfx) (f : Buffer (BitVec 32) → Buffer (BitVec 32)) : Gfx :=
  match g.target with
  | .framebuffer => { g with screen := f g.screen }
  | .backbuffer => { g with backbuffer := f g.backbuffer }

/-- `rgb` (lines 37–39). -/
def rgb (r g b : BitVec 8) : BitVec 32 :=
  r.setWidth 32 <<< 16 ||| g.setWidth 32 <<< 8 ||| b.setWidth 32

/-- `gfx_put_pixel` (lines 41–46). -/
def gfxPutPixel (g : Gfx) (x y : ℕ) (val : BitVec 32) : Gfx :=
  if g.fb.width ≤ x ∨ g.fb.height ≤ y then g
  else g.draw fun buf => buf.store (u32 (y * g.fb.stride + x)) val

/-- `gfx_fill_rect` (lines 64–90). -/
def gfxFillRect (g : Gfx) (x0 y0 x1 y1 : ℤ) (val : BitVec 32) : Gfx :=
  let x0 := if x0 < 0 then 0 else x0
  let y0 := if y0 < 0 then 0 else y0
  let x1 := if int32 g.fb.width ≤ x1 then int32 g.fb.width - 1 else x1
  let y1 := if int32 g.fb.height ≤ y1 then int32 g.fb.height - 1 else y1
  if x1 < x0 ∨ y1 < y0 then g
  else
    g.draw fun buf => (List.range (y1 - y0 + 1).toNat).foldl
      (fun buf (i : ℕ) =>
        buf.fill (u32 ((y0 + i) * g.fb.stride) + x0.toNat) (x1 - x0 + 1).toNat val) buf

/-- `gfx_clear_screen` (lines 92–101). -/
def gfxClearScreen (g : Gfx) : Gfx := g.draw fun buf => buf.fill 0 (g.screenSize / 4) 0

/-- `fontStyle_t` (`fontlibrary.h`, lines 11–20). -/
structure FontStyle where
  glyphCount : BitVec 8
  firstAsciiCode : BitVec 8
  glyphBytesWidth : BitVec 8
  glyphHeight : BitVec 8
  fixedWidth : BitVec 8
  glyphWidth : Option (ℕ → BitVec 8)
  glyphBitmaps : ℕ → BitVec 8

/-- `FixedWidth ? FixedWidth : GlyphWidth[i]`, with 0 for a font that has neither. -/
def FontStyle.widthOf (font : FontStyle) (i : ℕ) : ℕ :=
  if font.fixedWidth ≠ 0 then font.fixedWidth.toNat
  else (font.glyphWidth.map fun widths => (widths i).toNat).getD 0

/-- The test of `font.c`, line 28: `row_data[col >> 3] & (0x80 >> (col & 7))`. -/
def FontStyle.bit (font : FontStyle) (idx row col : ℕ) : Bool :=
  let glyphSize := font.glyphBytesWidth.toNat * font.glyphHeight.toNat
  font.glyphBitmaps (idx * glyphSize + row * font.glyphBytesWidth.toNat + col / 8)
    &&& 0x80#8 >>> (col % 8) != 0

/-- `font_draw_char` (`font.c`, lines 7–35). -/
def fontDrawChar (g : Gfx) (font : FontStyle) (c : BitVec 8) (x y : ℤ) (color : BitVec 32) :
    Gfx × ℕ :=
  if c.toNat < font.firstAsciiCode.toNat ∨
      font.firstAsciiCode.toNat + font.glyphCount.toNat ≤ c.toNat then
    (g, font.widthOf 0)
  else
    let idx := c.toNat - font.firstAsciiCode.toNat
    ((List.range font.glyphHeight.toNat).foldl
      (fun g (row : ℕ) => (List.range (font.glyphBytesWidth.toNat * 8)).foldl
        (fun g (col : ℕ) =>
          if font.bit idx row col then gfxPutPixel g (u32 (x + col)) (u32 (y + row)) color
          else g) g) g,
      font.widthOf idx)

/-! ## What is drawn -/

/-- The pixel in column `col` and row `row` of the glyph of `c` is set. -/
def FontStyle.glyph (font : FontStyle) (c : BitVec 8) (row col : ℕ) : Prop :=
  font.firstAsciiCode.toNat ≤ c.toNat ∧
  c.toNat < font.firstAsciiCode.toNat + font.glyphCount.toNat ∧
  row < font.glyphHeight.toNat ∧ col < font.glyphBytesWidth.toNat * 8 ∧
  font.bit (c.toNat - font.firstAsciiCode.toNat) row col

instance (font : FontStyle) (c : BitVec 8) (row col : ℕ) : Decidable (font.glyph c row col) := by
  unfold FontStyle.glyph
  infer_instance

/-- `g'` is `g` with the words in `P` of the framebuffer set to `v`. -/
structure Drawn (v : BitVec 32) (P : ℕ → Prop) (g g' : Gfx) : Prop where
  frame : g' = { g with screen := g'.screen }
  painted : Painted v P g.screen g'.screen

section Drawn

variable {v : BitVec 32} {P Q : ℕ → Prop} {g g' g'' : Gfx} {ι : Type*}

theorem u32_eq {z : ℤ} {n : ℕ} (hz : z = n) (h : n < 2 ^ 32) : u32 z = n := by
  unfold u32
  rw [hz]
  omega

theorem int32_of_lt {n : ℕ} (h : n < 2 ^ 31) : int32 n = n := by
  unfold int32
  rw [Int.bmod_def]
  omega

theorem Drawn.refl (v : BitVec 32) (g : Gfx) : Drawn v (fun _ => False) g g :=
  ⟨rfl, Painted.refl v _⟩

theorem Drawn.congr (h : Drawn v P g g') (hpq : ∀ j, P j ↔ Q j) : Drawn v Q g g' :=
  ⟨h.frame, h.painted.congr hpq⟩

theorem Drawn.trans (h : Drawn v P g g') (h' : Drawn v Q g' g'') :
    Drawn v (fun j => P j ∨ Q j) g g'' := by
  refine ⟨?_, h.painted.trans h'.painted⟩
  rw [h'.frame, h.frame]

theorem Drawn.fb_eq (h : Drawn v P g g') : g'.fb = g.fb := by rw [h.frame]

theorem Drawn.target_eq (h : Drawn v P g g') : g'.target = g.target := by rw [h.frame]

theorem Drawn.of_draw {f : Buffer (BitVec 32) → Buffer (BitVec 32)}
    (htarget : g.target = .framebuffer) (h : Painted v P g.screen (f g.screen)) :
    Drawn v P g (g.draw f) := by
  have hdraw : g.draw f = { g with screen := f g.screen } := by
    unfold Gfx.draw
    rw [htarget]
  rw [hdraw]
  exact ⟨rfl, h⟩

/-- A loop of drawing calls; the framebuffer and the target stay the same throughout. -/
theorem Drawn.foldl {f : Gfx → ι → Gfx} {P : ι → ℕ → Prop} {fb : Framebuffer} (l : List ι)
    (h : ∀ g, g.fb = fb → g.target = .framebuffer → ∀ a ∈ l, Drawn v (P a) g (f g a))
    (hfb : g.fb = fb) (htarget : g.target = .framebuffer) :
    Drawn v (fun j => ∃ a ∈ l, P a j) g (l.foldl f g) := by
  induction l generalizing g with
  | nil => exact (Drawn.refl v g).congr (by simp)
  | cons a l ih =>
    have hhead := h g hfb htarget a List.mem_cons_self
    have htail := ih (fun g h1 h2 a ha => h g h1 h2 a (List.mem_cons_of_mem _ ha))
      (hhead.fb_eq.trans hfb) (hhead.target_eq.trans htarget)
    exact (hhead.trans htail).congr (by simp)

end Drawn

section Spec

variable {g : Gfx}

theorem Framebuffer.width_le_stride (fb : Framebuffer) : fb.width ≤ fb.stride := by
  have := fb.width_fits
  unfold Framebuffer.stride
  omega

/-- The words of the framebuffer. -/
theorem Framebuffer.stride_mul_le (fb : Framebuffer) :
    4 * (fb.stride * fb.height) ≤ fb.pitch * fb.height := by
  rw [← Nat.mul_assoc]
  exact Nat.mul_le_mul_right _ (Nat.mul_div_le _ _)

theorem Framebuffer.index_lt (fb : Framebuffer) {x y : ℕ} (hx : x < fb.stride)
    (hy : y < fb.height) : 4 * (y * fb.stride + x + 1) ≤ fb.pitch * fb.height := by
  have hindex := Lib.Raster.index_lt hx hy
  have hwords := fb.stride_mul_le
  omega

theorem gfxPutPixel_drawn (htarget : g.target = .framebuffer)
    (hwords : g.fb.stride * g.fb.height ≤ 2 ^ 32) (x y : ℕ) (v : BitVec 32) :
    Drawn v (fun j => x < g.fb.width ∧ y < g.fb.height ∧ j = y * g.fb.stride + x) g
      (gfxPutPixel g x y v) := by
  unfold gfxPutPixel
  by_cases hin : g.fb.width ≤ x ∨ g.fb.height ≤ y
  · rw [if_pos hin]
    refine (Drawn.refl v g).congr ?_
    intro j
    refine ⟨False.elim, ?_⟩
    rintro ⟨hx, hy, -⟩
    omega
  · rw [if_neg hin]
    have hx : x < g.fb.width := by omega
    have hy : y < g.fb.height := by omega
    have hindex := Lib.Raster.index_lt (hx.trans_le g.fb.width_le_stride) hy
    have hu : u32 (y * g.fb.stride + x) = y * g.fb.stride + x :=
      u32_eq (by push_cast; rfl) (hindex.trans_le hwords)
    refine (Drawn.of_draw htarget (Painted.store v _ _)).congr ?_
    intro j
    rw [hu]
    exact ⟨fun hj => ⟨hx, hy, hj⟩, fun hj => hj.2.2⟩

theorem gfxClearScreen_drawn (htarget : g.target = .framebuffer) :
    Drawn 0 (fun j => j < g.screenSize / 4) g (gfxClearScreen g) :=
  (Drawn.of_draw htarget (painted_fill _ _ _ _)).congr (by simp)

/-- The last of `len` coordinates from `a` on is not clipped. -/
theorem not_clipped {a len n : ℕ} (hlen : 0 < len) (h : a + len ≤ n) :
    ¬ (n : ℤ) ≤ a + len - 1 ∧ ¬ (a : ℤ) + len - 1 < a ∧ ((a : ℤ) + len - 1 - a + 1).toNat = len := by
  omega

/-- A rectangle inside the screen. -/
theorem gfxFillRect_drawn (htarget : g.target = .framebuffer)
    (hwords : g.fb.stride * g.fb.height ≤ 2 ^ 32) (hheight : g.fb.height < 2 ^ 31) {x y w h : ℕ}
    (hw : 0 < w) (hh : 0 < h) (hx : x + w ≤ g.fb.width) (hy : y + h ≤ g.fb.height)
    (v : BitVec 32) :
    Drawn v (fun j => ∃ i < h, ∃ k < w, j = (y + i) * g.fb.stride + (x + k)) g
      (gfxFillRect g x y (x + w - 1) (y + h - 1) v) := by
  have hstride := g.fb.width_le_stride
  have hpitch := g.fb.pitch_lt
  have hfits := g.fb.width_fits
  have hiw : int32 g.fb.width = g.fb.width := int32_of_lt (by omega)
  have hih : int32 g.fb.height = g.fb.height := int32_of_lt hheight
  obtain ⟨hx1, hx01, hcols⟩ := not_clipped hw hx
  obtain ⟨hy1, hy01, hrows⟩ := not_clipped hh hy
  unfold gfxFillRect
  simp only [hiw, hih]
  rw [if_neg (Int.natCast_nonneg x).not_gt, if_neg (Int.natCast_nonneg y).not_gt, if_neg hx1,
    if_neg hy1, if_neg (not_or.mpr ⟨hx01, hy01⟩), hcols, hrows]
  refine Drawn.congr (Drawn.of_draw htarget (Painted.foldl (List.range h)
    (fun b i _ => painted_fill b _ _ _) _)) ?_
  intro j
  have hrow : ∀ i < h, u32 (((y : ℤ) + (i : ℕ)) * g.fb.stride) = (y + i) * g.fb.stride := by
    intro i hi
    have hpos : 0 < g.fb.stride := by omega
    have hlt : (y + i) * g.fb.stride + 0 < g.fb.stride * g.fb.height :=
      Lib.Raster.index_lt hpos ((Nat.add_lt_add_left hi y).trans_le hy)
    exact u32_eq (by push_cast; rfl) (by omega)
  constructor
  · rintro ⟨i, hi, hle, hlt⟩
    have hi := List.mem_range.mp hi
    rw [hrow i hi, Int.toNat_natCast] at hle hlt
    exact ⟨i, hi, j - ((y + i) * g.fb.stride + x), by omega, by omega⟩
  · rintro ⟨i, hi, k, hk, rfl⟩
    refine ⟨i, List.mem_range.mpr hi, ?_⟩
    rw [hrow i hi, Int.toNat_natCast]
    omega

theorem fontDrawChar_drawn (htarget : g.target = .framebuffer)
    (hwords : g.fb.stride * g.fb.height ≤ 2 ^ 32) (font : FontStyle) (c : BitVec 8) {x y : ℕ}
    (hx : x < 2 ^ 31) (hy : y < 2 ^ 31) (v : BitVec 32) :
    Drawn v (fun j => ∃ row col, font.glyph c row col ∧ x + col < g.fb.width ∧
        y + row < g.fb.height ∧ j = (y + row) * g.fb.stride + (x + col)) g
      (fontDrawChar g font c x y v).1 := by
  unfold fontDrawChar
  by_cases hrange : c.toNat < font.firstAsciiCode.toNat ∨
      font.firstAsciiCode.toNat + font.glyphCount.toNat ≤ c.toNat
  · rw [if_pos hrange]
    refine (Drawn.refl v g).congr ?_
    intro j
    refine ⟨False.elim, ?_⟩
    rintro ⟨row, col, ⟨h1, h2, -⟩, -⟩
    omega
  · rw [if_neg hrange]
    have hheight := font.glyphHeight.isLt
    have hbytes := font.glyphBytesWidth.isLt
    -- one iteration of the inner loop
    have hbody (row col : ℕ) (hrow : row < font.glyphHeight.toNat)
        (hcol : col < font.glyphBytesWidth.toNat * 8) (g' : Gfx) (hfb : g'.fb = g.fb)
        (ht : g'.target = .framebuffer) :
        Drawn v (fun j => font.bit (c.toNat - font.firstAsciiCode.toNat) row col ∧
            x + col < g.fb.width ∧ y + row < g.fb.height ∧
            j = (y + row) * g.fb.stride + (x + col)) g'
          (if font.bit (c.toNat - font.firstAsciiCode.toNat) row col then
            gfxPutPixel g' (u32 (x + col)) (u32 (y + row)) v else g') := by
      have hux : u32 ((x : ℤ) + (col : ℕ)) = x + col := u32_eq (by push_cast; rfl) (by omega)
      have huy : u32 ((y : ℤ) + (row : ℕ)) = y + row := u32_eq (by push_cast; rfl) (by omega)
      by_cases hbit : font.bit (c.toNat - font.firstAsciiCode.toNat) row col = true
      · rw [if_pos hbit, hux, huy]
        refine (gfxPutPixel_drawn ht (hfb ▸ hwords) _ _ v).congr ?_
        intro j
        rw [hfb]
        exact ⟨fun hj => ⟨hbit, hj⟩, fun hj => hj.2⟩
      · rw [if_neg hbit]
        exact (Drawn.refl v g').congr (fun j => ⟨False.elim, fun hj => hbit hj.1⟩)
    have hloop := Drawn.foldl (List.range font.glyphHeight.toNat)
      (fun g' hfb ht row hrow => Drawn.foldl (List.range (font.glyphBytesWidth.toNat * 8))
        (fun g'' hfb' ht' col hcol => hbody row col (List.mem_range.mp hrow)
          (List.mem_range.mp hcol) g'' hfb' ht') hfb ht)
      (rfl : g.fb = g.fb) htarget
    refine hloop.congr ?_
    intro j
    constructor
    · rintro ⟨row, hrow, col, hcol, hbit, hin⟩
      exact ⟨row, col, ⟨by omega, by omega, List.mem_range.mp hrow, List.mem_range.mp hcol, hbit⟩,
        hin⟩
    · rintro ⟨row, col, ⟨-, -, hrow, hcol, hbit⟩, hin⟩
      exact ⟨row, List.mem_range.mpr hrow, col, List.mem_range.mpr hcol, hbit, hin⟩

end Spec

end HorizonOS.Drivers
