import HorizonOS.Kernel.Peek
import HorizonOS.Libc.Printf

/-!
# Hexadecimal numbers read back

`parse_hex` of the x86_64 shell (arch/x86_64/include/shell.c:31–56) against the three places that
write hexadecimal numbers: `%lx` and `%p` of the console, which go through `console_write_uint`
(include/kernel/console.c:132–150), and `itoa_hex` (libc/string/string.c:113–137). All of them write
`numeral 16`, the last one from a loop of eight digits.

* `numText_itoaHex`: what `itoa_hex` writes.
* `parseHex_numeral`: `parse_hex` reads a numeral and stops behind its digits.
* `hex_reads_back`: so every number written is read back.
-/

namespace HorizonOS.Kernel

open HorizonOS.Lib HorizonOS.Libc

/-! ## `itoa_hex` -/

theorem itoaHex_digit : ∀ d < 16, (if d < 10 then BitVec.ofNat 8 d + ascii '0'
    else BitVec.ofNat 8 (d - 10) + ascii 'a') = digitChar d := by
  decide

theorem itoaHexLoop_digits {left n : ℕ} (hn : n < 16 ^ left) (stack : ℕ → Byte) (i : ℕ) :
    ∃ stack', itoaHexLoop left n stack i = (stack', i + (Nat.digits 16 n).length) ∧
      (List.range (i + (Nat.digits 16 n).length)).map stack' =
        (List.range i).map stack ++ (Nat.digits 16 n).map digitChar := by
  induction left generalizing n stack i with
  | zero =>
    obtain rfl : n = 0 := by simpa using hn
    exact ⟨stack, by simp [itoaHexLoop], by simp⟩
  | succ left ih =>
    rcases Nat.eq_zero_or_pos n with rfl | hpos
    · exact ⟨stack, by simp [itoaHexLoop], by simp⟩
    · have hlt : n / 16 < 16 ^ left := by
        rw [Nat.div_lt_iff_lt_mul (by decide), ← pow_succ]
        exact hn
      have hdigits : Nat.digits 16 n = n % 16 :: Nat.digits 16 (n / 16) :=
        Nat.digits_def' (by decide) hpos
      obtain ⟨stack', hrun, hnew⟩ := ih hlt (Function.update stack i (digitChar (n % 16))) (i + 1)
      rw [hdigits, List.length_cons, Nat.add_comm (List.length _) 1, ← Nat.add_assoc]
      refine ⟨stack', ?_, ?_⟩
      · rw [itoaHexLoop, if_pos hpos]
        simp only [itoaHex_digit _ (Nat.mod_lt n (by decide : 0 < 16))]
        exact hrun
      · rw [hnew, map_range_update, List.map_cons, List.append_assoc, List.singleton_append]

theorem numeral_digits_ne_zero {n : ℕ} {c : Byte} (hc : c ∈ (Nat.digits 16 n).map digitChar) :
    c ≠ 0 := by
  obtain ⟨d, hd, rfl⟩ := List.mem_map.mp hc
  exact digitChar_ne_zero d (Nat.digits_lt_base (by decide) hd)

/-- A number of 32 bits has at most eight digits. -/
theorem length_numeral_le (num : BitVec 32) : (numeral 16 num.toNat).length ≤ 8 := by
  unfold numeral
  split_ifs with h0
  · simp
  · rw [List.length_reverse, List.length_map, Nat.digits_length_le_iff (by decide)]
    exact lt_of_lt_of_le num.isLt (by decide)

/-- `itoa_hex` writes a numeral with its terminator and nothing behind it. -/
theorem numText_itoaHex (dest : ℕ → Byte) (num : BitVec 32) :
    numText 9 (itoaHex dest num) = some (numeral 16 num.toNat) ∧
    ∀ k, (numeral 16 num.toNat).length < k → itoaHex dest num k = dest k := by
  by_cases hnum : num = 0
  · subst hnum
    refine ⟨by rfl, fun k hk => ?_⟩
    have hk : 1 < k := hk
    rw [itoaHex, if_pos rfl, if_neg (by omega), if_neg (by omega)]
  · have hne : num.toNat ≠ 0 := fun h => hnum (BitVec.eq_of_toNat_eq h)
    have hlen := length_numeral_le num
    have hlt : num.toNat < 16 ^ 8 := lt_of_lt_of_le num.isLt (by decide)
    obtain ⟨stack, hrun, hdigits⟩ := itoaHexLoop_digits hlt (fun _ => 0) 0
    rw [numeral, if_neg hne] at hlen ⊢
    rw [List.length_reverse, List.length_map] at hlen ⊢
    rw [Nat.zero_add] at hrun hdigits
    have hitoa : ∀ k, itoaHex dest num k = if k < (Nat.digits 16 num.toNat).length then
        stack ((Nat.digits 16 num.toNat).length - 1 - k)
        else if k = (Nat.digits 16 num.toNat).length then 0 else dest k := by
      intro k
      rw [itoaHex, if_neg hnum, hrun]
    have htext : (List.range (Nat.digits 16 num.toNat).length).map (itoaHex dest num) =
        ((Nat.digits 16 num.toNat).map digitChar).reverse := by
      rw [← hdigits.trans (List.nil_append _), ← map_range_reverse]
      exact List.map_congr_left fun k hk => (hitoa k).trans (if_pos (List.mem_range.mp hk))
    have hchars : ∀ k < (Nat.digits 16 num.toNat).length, itoaHex dest num k ≠ 0 := by
      intro k hk
      have hmem : itoaHex dest num k ∈ ((Nat.digits 16 num.toNat).map digitChar).reverse := by
        rw [← htext]
        exact List.mem_map_of_mem (List.mem_range.mpr hk)
      exact numeral_digits_ne_zero (List.mem_reverse.mp hmem)
    have hnul : itoaHex dest num (Nat.digits 16 num.toNat).length = 0 := by
      rw [hitoa, if_neg (lt_irrefl _), if_pos rfl]
    refine ⟨?_, fun k hk => ?_⟩
    · rw [numText, strlen_eq hchars hnul (Nat.zero_le _) (by omega), Option.map_some, htext]
    · rw [hitoa, if_neg (by omega), if_neg (by omega)]

/-! ## `parse_hex` -/

/-- What follows a number: nothing, or a space and any text. -/
def Follows (rest : List Byte) : Prop := rest = [] ∨ ∃ text, rest = ascii ' ' :: text

theorem digitChar_not_mark : ∀ d < 16, digitChar d ≠ ascii 'x' ∧ digitChar d ≠ ascii 'X' := by
  decide

theorem numeral_not_mark {n : ℕ} {c : Byte} (hc : c ∈ numeral 16 n) :
    c ≠ ascii 'x' ∧ c ≠ ascii 'X' := by
  unfold numeral at hc
  split_ifs at hc with h0
  · rw [List.mem_singleton.mp hc]
    decide
  · obtain ⟨d, hd, rfl⟩ := List.mem_map.mp (List.mem_reverse.mp hc)
    exact digitChar_not_mark d (Nat.digits_lt_base (by decide) hd)

/-- Without the mark of a hexadecimal number all characters are digits. -/
theorem parseHex_unmarked {w : ℕ} {s : List Byte}
    (hs : ∀ c ∈ s[1]?, c ≠ ascii 'x' ∧ c ≠ ascii 'X') : parseHex w s = parseHexLoop s 0 := by
  match s with
  | [] => rfl
  | [c] => rfl
  | c :: c' :: rest =>
    obtain ⟨hx, hX⟩ := hs c' rfl
    rw [parseHex, if_neg]
    rintro ⟨-, h | h⟩
    · exact hx h
    · exact hX h

section Rest

variable {w : ℕ} {rest : List Byte} (hrest : Follows rest)

include hrest

theorem parseHexLoop_rest (val : BitVec w) : parseHexLoop rest val = (val, rest) := by
  obtain rfl | ⟨text, rfl⟩ := hrest
  · rfl
  · rfl

theorem parseHexLoop_numeral (n : ℕ) :
    parseHexLoop (numeral 16 n ++ rest) 0 = (BitVec.ofNat w n, rest) := by
  unfold numeral
  split_ifs with h0
  · subst h0
    have hzero : (0 : BitVec w) <<< 4 ||| (0 : Byte).setWidth w = 0 := by simp
    have hnibble : nibble (ascii '0') = some 0 := by decide
    rw [List.singleton_append, parseHexLoop, hnibble]
    simp only [hzero]
    exact parseHexLoop_rest hrest 0
  · rw [parseHexLoop_digits, parseHexLoop_rest hrest]

/-- `parse_hex` reads a numeral and leaves `*endp` behind its digits. -/
theorem parseHex_numeral (n : ℕ) :
    parseHex w (numeral 16 n ++ rest) = (BitVec.ofNat w n, rest) := by
  have hmark : ∀ c ∈ (numeral 16 n ++ rest)[1]?, c ≠ ascii 'x' ∧ c ≠ ascii 'X' := by
    intro c hc
    rcases Nat.lt_or_ge 1 (numeral 16 n).length with hlt | hge
    · rw [List.getElem?_append_left hlt] at hc
      exact numeral_not_mark (List.mem_of_getElem? hc)
    · -- the second character is the first of the rest, a space
      rw [List.getElem?_append_right hge] at hc
      have hpos : 0 < (numeral 16 n).length := by
        unfold numeral
        split_ifs with h0
        · simp
        · rw [List.length_reverse, List.length_map]
          exact List.length_pos_of_ne_nil (Nat.digits_ne_nil_iff_ne_zero.mpr h0)
      rw [show 1 - (numeral 16 n).length = 0 by omega] at hc
      obtain rfl | ⟨text, rfl⟩ := hrest
      · cases hc
      · obtain rfl : ascii ' ' = c := by simpa using hc
        decide
  rw [parseHex_unmarked hmark, parseHexLoop_numeral hrest]

/-- With the mark too. -/
theorem parseHex_marked (n : ℕ) :
    parseHex w (ascii '0' :: ascii 'x' :: (numeral 16 n ++ rest)) = (BitVec.ofNat w n, rest) := by
  rw [parseHex, if_pos (by decide), parseHexLoop_numeral hrest]

end Rest

/-! ## Round trips -/

theorem consoleVprintf_lx (v : BitVec 64) :
    consoleVprintf [ascii '%', ascii 'l', ascii 'x'] [.long v] = some (numeral 16 v.toNat) := by
  have hlong : consoleLong (ascii 'x') [.long v] = some (numeral 16 v.toNat, []) := by
    rw [consoleLong, if_neg (by decide), if_neg (by decide), if_pos rfl]
    simp only [vaLong, consoleWriteUint_eq (by decide : 10 ≤ 16) le_rfl, Option.bind_eq_bind,
      Option.bind_some, Option.pure_def]
  rw [consoleVprintf, if_neg (not_not.mpr rfl)]
  simp only [reduceIte, hlong, consoleVprintf, Option.bind_eq_bind, Option.bind_some,
    Option.pure_def, List.append_nil]

theorem consoleVprintf_p (v : BitVec 64) :
    consoleVprintf [ascii '%', ascii 'p'] [.ptr v] =
      some (ascii '0' :: ascii 'x' :: numeral 16 v.toNat) := by
  have hspec : consoleSpec (ascii 'p') [.ptr v] =
      some (ascii '0' :: ascii 'x' :: numeral 16 v.toNat, []) := by
    have hputs : consolePuts [ascii '0', ascii 'x'] = [ascii '0', ascii 'x'] := by decide
    rw [consoleSpec, if_neg (by decide), if_neg (by decide), if_neg (by decide), if_pos rfl]
    simp only [vaPtr, consoleWriteUint_eq (by decide : 10 ≤ 16) le_rfl, Option.bind_eq_bind,
      Option.bind_some, Option.pure_def, hputs]
    rfl
  rw [consoleVprintf, if_neg (not_not.mpr rfl)]
  simp only [if_neg (by decide : ascii 'p' ≠ ascii 'l'), hspec, consoleVprintf,
    Option.bind_eq_bind, Option.bind_some, Option.pure_def, List.append_nil]

/-- **Hexadecimal output reads back.** Whatever follows, `parse_hex` returns the number that `%lx`,
    `%p` or `itoa_hex` has written and leaves `*endp` behind its digits; `itoa_hex` fills at most
    eight bytes and the terminator. -/
theorem hex_reads_back {rest : List Byte} (hrest : Follows rest) (v : BitVec 64) (num : BitVec 32)
    (dest : ℕ → Byte) :
    (∃ out, consoleVprintf [ascii '%', ascii 'l', ascii 'x'] [.long v] = some out ∧
      parseHex 64 (out ++ rest) = (v, rest)) ∧
    (∃ out, consoleVprintf [ascii '%', ascii 'p'] [.ptr v] =
        some (ascii '0' :: ascii 'x' :: out) ∧
      parseHex 64 (ascii '0' :: ascii 'x' :: out ++ rest) = (v, rest)) ∧
    ∃ text, numText 9 (itoaHex dest num) = some text ∧ text.length ≤ 8 ∧
      (∀ k, text.length < k → itoaHex dest num k = dest k) ∧
      parseHex 64 (text ++ rest) = (num.setWidth 64, rest) ∧
      parseHex 32 (text ++ rest) = (num, rest) := by
  have hv : BitVec.ofNat 64 v.toNat = v := by rw [BitVec.ofNat_toNat, BitVec.setWidth_eq]
  obtain ⟨htext, hbehind⟩ := numText_itoaHex dest num
  refine ⟨⟨_, consoleVprintf_lx v, ?_⟩, ⟨_, consoleVprintf_p v, ?_⟩,
    ⟨_, htext, length_numeral_le num, hbehind, ?_, ?_⟩⟩
  · rw [parseHex_numeral hrest, hv]
  · rw [List.cons_append, List.cons_append, parseHex_marked hrest, hv]
  · rw [parseHex_numeral hrest, BitVec.ofNat_toNat]
  · rw [parseHex_numeral hrest, BitVec.ofNat_toNat, BitVec.setWidth_eq]

/-- All bits, and zero, in front of another word. -/
theorem hex_reads_back_extremes :
    Follows [ascii ' ', ascii 'f'] ∧
      (∃ out, consoleVprintf [ascii '%', ascii 'l', ascii 'x'] [.long (BitVec.allOnes 64)] =
          some out ∧
        parseHex 64 (out ++ [ascii ' ', ascii 'f']) =
          (BitVec.allOnes 64, [ascii ' ', ascii 'f'])) ∧
      ∃ text, numText 9 (itoaHex (fun _ => 1) 0) = some text ∧ text.length ≤ 8 ∧
        parseHex 64 (text ++ [ascii ' ', ascii 'f']) = (0, [ascii ' ', ascii 'f']) := by
  have hrest : Follows [ascii ' ', ascii 'f'] := .inr ⟨_, rfl⟩
  obtain ⟨hlx, -, text, htext, hlen, -, hread, -⟩ :=
    hex_reads_back hrest (BitVec.allOnes 64) 0 fun _ => 1
  exact ⟨hrest, hlx, text, htext, hlen, hread⟩

end HorizonOS.Kernel
