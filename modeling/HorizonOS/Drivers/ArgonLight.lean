import HorizonOS.Drivers.Graphics

/-!
# The console's font

`FontStyle_MonaspaceArgonLight` (kernel/fonts/fontlibrary.c:9–2111): 95 characters from the blank on,
each of 20 rows of two bytes.

* `argonLight_glyph`: no character sets a pixel at or behind the fixed width of 10.
-/

namespace HorizonOS.Drivers

/-- `MonaspaceArgonLight_Bitmaps` (fontlibrary.c:9–2100), one number for the 40 bytes of each
    character, the first byte the highest. -/
def argonLightBitmaps : List ℕ := [
  0x00000000000000000000000000000000000000000000000000000000000000000000000000000000,
  0x0000000000000c000c000c000c000c000c000c000c00000000000c000c000c000000000000000000,
  0x00000000000033003300330033003300330000000000000000000000000000000000000000000000,
  0x00000000000009000900090009003fc019001100110013007f801200120012001200000000000000,
  0x0c000c000c003e007f006d006c006c003c001e000f000d004d804d006f003e000c000c000c000000,
  0x0000000000003080790079007a0032000400040008000b800ac016c012c023800000000000000000,
  0x0000000000001e00330031003000300018001cc02c8066806380618073803ec00000000000000000,
  0x0000000000000c000c000c000c000c000c0000000000000000000000000000000000000000000000,
  0x000000000300060004000c000800180018001800180018001800180008000c000400060003000000,
  0x0000000020001000180008000c0004000400060006000600040004000c0008001800100020000000,
  0x0000000000000000000000000c000c000c807f801e001c0036003300000000000000000000000000,
  0x0000000000000000000000000c000c000c007f800c000c000c000c00000000000000000000000000,
  0x00000000000000000000000000000000000000000000000000003800380038000800100030000000,
  0x0000000000000000000000000000000000003e000000000000000000000000000000000000000000,
  0x00000000000000000000000000000000000000000000000000001c001c001c000000000000000000,
  0x0000000000000100030002000600060004000c000800180018001000300020006000000000000000,
  0x0000000000001e0033002100618061806d806d806d8061806180210033001e000000000000000000,
  0x0000000000003800f8001800180018001800180018001800180018001800ff000000000000000000,
  0x0000000000003e0063000100018001000100030006000c000c00180030003f800000000000000000,
  0x000000000000fe0006000c000800100030001c0006000300030002000c00f8000000000000000000,
  0x00000000000006000e001e0016002600660046008600ff0006000600060006000000000000000000,
  0x0000000000003f0020002000200020003c001e00030001800100030006007c000000000000000000,
  0x00000000000007001c002000200060006f007380618061806180218033001e000000000000000000,
  0x0000000000007f800180010003000200060004000c000c0008001800180010000000000000000000,
  0x0000000000001f0033802180618031803b000e003380618060c0608031801e000000000000000000,
  0x0000000000001e00330061006180618063803d8001800180010003000e0038000000000000000000,
  0x0000000000000000000000001c001c001c0000000000000000001c001c001c000000000000000000,
  0x00000000000000000000000038003800380000000000000000003800380038000800100030000000,
  0x00000000000000000000000007000c00180070006000300018000e00030000000000000000000000,
  0x00000000000000000000000000007f0000000000000000007f000000000000000000000000000000,
  0x00000000000000000000000038000c00060003800180030006001c00300000000000000000000000,
  0x0000000000001e00330021800180010007000c000c00000000000c000c000c000000000000000000,
  0x0000000000001f0031802080608066c06dc06cc06cc06cc06cc06cc06dc066c0200038801f800000,
  0x0000000000000c000c001e001e0012001200330023003f0061006180418040800000000000000000,
  0x0000000000007e0063006300630062006c007e00630061006180610063007e000000000000000000,
  0x0000000000000f80188020006000600060006000600060006000300018800f800000000000000000,
  0x0000000000007c00660063006100610061806180618061006100630066007c000000000000000000,
  0x0000000000003f80300030003000300030003f00300030003000300030003f800000000000000000,
  0x0000000000003f80300030003000300030003f003000300030003000300030000000000000000000,
  0x0000000000000f80180020006000600060006780618061806180318039800f800000000000000000,
  0x0000000000006300630063006300630063007f006300630063006300630063000000000000000000,
  0x0000000000007f800c000c000c000c000c000c000c000c000c000c000c007f800000000000000000,
  0x000000000000fe0006000600060006000600060006000600060004008c00f8000000000000000000,
  0x000000000000610063006300660064006c0078006c00660066006300610061800000000000000000,
  0x0000000000003000300030003000300030003000300030003000300030003f800000000000000000,
  0x000000000000618063807380738075807d806d806d80698061806180618061800000000000000000,
  0x000000000000630063007300730073006b006b006b00670067006700630063000000000000000000,
  0x0000000000001e00330021006180618061806180618061806180210033001e000000000000000000,
  0x0000000000007e006300610061806100630066007c00600060006000600060000000000000000000,
  0x0000000000001e0033002180618061806180618061806100230036001c000e000780008000000000,
  0x0000000000007e00630063006300630066006c0078006c0064006600630063000000000000000000,
  0x0000000000001f00300060006000600038001e00070003000180010063007e000000000000000000,
  0x000000000000ff001800180018001800180018001800180018001800180018000000000000000000,
  0x0000000000006180618061806180618061806180618061806180610033001e000000000000000000,
  0x000000000000c300c300c300c3004200420066006600240024003c00180018000000000000000000,
  0x00000000000040404040644064c064c06ac02ac02a802a803a803380118011000000000000000000,
  0x000000000000c3004200660024003c001800180038002c0064006600c300c3000000000000000000,
  0x000000000000418061806100230032001e000c000c000c000c000c000c000c000000000000000000,
  0x0000000000007f0003000300060006000c000c00180018003000300060007f800000000000000000,
  0x00001f001800180018001800180018001800180018001800180018001800180018001f0000000000,
  0x000000000000400060002000300030001000180008000c000c000400060006000300000000000000,
  0x00003f000300030003000300030003000300030003000300030003000300030003003f0000000000,
  0x000000000000180018003c0064004600c30081000000000000000000000000000000000000000000,
  0x000000000000000000000000000000000000000000000000000000000000000000007f8000000000,
  0x000020003000180008000c0000000000000000000000000000000000000000000000000000000000,
  0x00000000000000000000000000003f006300018001801f807180618063803d800000000000000000,
  0x00000000000060006000600060007e0073006100618061806100610063007c000000000000000000,
  0x00000000000000000000000000001f0030006000600060006000600038001f000000000000000000,
  0x00000000000001800180018001801f8031806180618061806180618033801e800000000000000000,
  0x00000000000000000000000000001e00330061807f8060006000600031001f000000000000000000,
  0x000003c004000c000c000c007f800c000c000c000c000c000c000c003f0000000000000000000000,
  0x00000000000000000000000000001e802300618021003f00100010001f80218060c061803f000000,
  0x00000000000060006000600060006e00730063006300630063006300630063000000000000000000,
  0x0000000000001800180000000000780018001800180018001800180009000f000000000000000000,
  0x0000000000000c000c0000000000fc000c000c000c000c000c000c000c000c000c000800f0000000,
  0x00000000000060006000600060006100630066006c0078006c006600630061800000000000000000,
  0x0000000000007c000c000c000c000c000c000c000c000c000c000c000c0007000000000000000000,
  0x00000000000000000000000000005b006d806d806d806d806d806d806d806d800000000000000000,
  0x00000000000000000000000000004e00730063006300630063006300630063000000000000000000,
  0x00000000000000000000000000001e0033006180618061806180618033001e000000000000000000,
  0x00000000000000000000000000005e0073006100618061806100610063007c006000600060000000,
  0x00000000000000000000000000001f8033806180618061806180618033803d800180018001800000,
  0x000000000000000000000000e7002c00300030003000300030003000fc0000000000000000000000,
  0x00000000000000000000000000001f006100600070003e000700030043007c000000000000000000,
  0x00000000000000000000180038007f0018001800180018001800180019000f000000000000000000,
  0x00000000000000000000000000006300630063006300630063006300670039000000000000000000,
  0x0000000000000000000000000000c300c300c2004200660024003c00380018000000000000000000,
  0x0000000000000000000000000000c0c0ccc04c804c804c8073807300330023000000000000000000,
  0x0000000000000000000000000000c300660024003c0018003c0024004600c3000000000000000000,
  0x00000000000000000000000000004080618021002100330012001e000c000c000800b80060000000,
  0x00000000000000000000000000007f000300060004000c001800300030007f800000000000000000,
  0x000007800c000c000c000c000c000c001800700018000c000c000c000c000c000c00078000000000,
  0x000000000c000c000c000c000c000c000c000c000c000c000c000c000c000c000c000c000c000000,
  0x000078000c000c000c000c000c000c000600038006000c000c000c000c000c000c00780000000000,
  0x0000000000000000000000000000000038806d804700000000000000000000000000000000000000]

/-- Byte `i` of `MonaspaceArgonLight_Bitmaps`. -/
def argonLightByte (i : ℕ) : BitVec 8 :=
  BitVec.ofNat 8 ((argonLightBitmaps[i / 40]?.getD 0) >>> (8 * (39 - i % 40)))

/-- `FontStyle_MonaspaceArgonLight` (fontlibrary.c:2102–2111). -/
def argonLight : FontStyle where
  glyphCount := 95
  firstAsciiCode := 32
  glyphBytesWidth := 2
  glyphHeight := 20
  fixedWidth := 10
  glyphWidth := none
  glyphBitmaps := argonLightByte

/-- The second byte of a row uses its two highest bits at most. -/
theorem argonLightByte_odd :
    ∀ idx < 95, ∀ row < 20, argonLightByte (idx * 40 + row * 2 + 1) &&& 0x3F#8 = 0#8 := by
  decide +kernel

theorem argonLight_glyph (ch : BitVec 8) (row col : ℕ) (h : argonLight.glyph ch row col) :
    col < argonLight.fixedWidth.toNat := by
  obtain ⟨hlo, hhi, hrow, hcol, hbit⟩ := h
  have hlo : 32 ≤ ch.toNat := hlo
  have hhi : ch.toNat < 32 + 95 := hhi
  have hrow : row < 20 := hrow
  have hcol : col < 16 := hcol
  show col < 10
  by_contra hcontra
  have hwide : 10 ≤ col := Nat.le_of_not_lt hcontra
  -- from column 10 on the bit lies among the six lowest of the second byte
  have hbyte := argonLightByte_odd (ch.toNat - 32) (by omega) row hrow
  have hindex : (ch.toNat - 32) * 40 + row * 2 + col / 8 = (ch.toNat - 32) * 40 + row * 2 + 1 := by
    omega
  have hbit : (argonLightByte ((ch.toNat - 32) * 40 + row * 2 + col / 8) &&&
      0x80#8 >>> (col % 8) != 0#8) = true := hbit
  rw [hindex] at hbit
  generalize argonLightByte ((ch.toNat - 32) * 40 + row * 2 + 1) = byte at hbyte hbit
  have hmask : 0x80#8 >>> (col % 8) = 0x3F#8 &&& 0x80#8 >>> (col % 8) := by
    interval_cases col <;> rfl
  rw [hmask, ← BitVec.and_assoc, hbyte, BitVec.zero_and] at hbit
  exact absurd hbit (by decide)

end HorizonOS.Drivers
