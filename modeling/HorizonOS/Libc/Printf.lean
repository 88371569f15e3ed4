import HorizonOS.Kernel.Printk

/-!
# `itoa`, `printf` and `logf`

The number formatters of libc/string/string.c (97–137), `printf` of libc/stdio/printf.c, and `logf`
of arch/x86_64/common/logger.c, which repeats `printf` for the serial port. In C the remainder of a
negative number is negative, so `itoa` of one writes characters in front of `'0'`, and no sign.

* `itoa_text`: the characters that `itoa` writes, for both signs.
* `formatLoop_d`: the text of a `%d` is what `itoa` writes.
* `itoa_decimal_iff`: so a number comes out in decimal exactly if it is not negative, from `itoa`,
  from `printf` and from `logf`.
-/

namespace HorizonOS.Libc

open HorizonOS.Lib HorizonOS.Kernel

/-! ## Model -/

/-- The loop of `itoa` (string.c:100–106), with `left` iterations left: `stack` and `i`. -/
def itoaLoop : (left : ℕ) → (num : ℤ) → (stack : ℕ → Byte) → (i : ℕ) → (ℕ → Byte) × ℕ
  | 0, _, stack, i => (stack, i)
  | left + 1, num, stack, i =>
    let stack := Function.update stack i (BitVec.ofInt 8 (num.tmod 10))
    let num := num.tdiv 10
    if num = 0 then (stack, i) else itoaLoop left num stack (i + 1)

/-- `itoa(dest, num)` (string.c:97–111). -/
def itoa (dest : ℕ → Byte) (num : BitVec 32) : ℕ → Byte :=
  let (stack, i) := itoaLoop 11 num.toInt (fun _ => 0) 0
  fun k => if k ≤ i then stack (i - k) + ascii '0' else if k = i + 1 then 0 else dest k

/-- The loop of `itoa_hex` (string.c:123–131), with `left` iterations left: `stack` and `i`. -/
def itoaHexLoop : (left : ℕ) → (num : ℕ) → (stack : ℕ → Byte) → (i : ℕ) → (ℕ → Byte) × ℕ
  | 0, _, stack, i => (stack, i)
  | left + 1, num, stack, i =>
    if num > 0 then
      let digit := num % 16
      let c := if digit < 10 then BitVec.ofNat 8 digit + ascii '0'
        else BitVec.ofNat 8 (digit - 10) + ascii 'a'
      itoaHexLoop left (num / 16) (Function.update stack i c) (i + 1)
    else (stack, i)

/-- `itoa_hex(dest, num)` (string.c:113–137). -/
def itoaHex (dest : ℕ → Byte) (num : BitVec 32) : ℕ → Byte :=
  if num = 0 then fun k => if k = 0 then ascii '0' else if k = 1 then 0 else dest k
  else
    let (stack, i) := itoaHexLoop 8 num.toNat (fun _ => 0) 0
    fun k => if k < i then stack (i - 1 - k) else if k = i then 0 else dest k

/-- `INT_MAX`. -/
def intMax : ℕ := 2 ^ 31 - 1

/-- What a formatter has printed, and `written` at its end; `none` in place of that if it gives up
    because more than `INT_MAX` characters would be written. -/
abbrev Printed := List Byte × Option ℕ

/-- Characters in front of what is printed later. -/
def emit (text : List Byte) (rest : Option Printed) : Option Printed :=
  rest.map fun (out, written) => (text ++ out, written)

/-- The characters of `num_buff[size]`, zeroed before it is filled. -/
def numText (size : ℕ) (numBuff : ℕ → Byte) : Option (List Byte) :=
  (strlen numBuff size 0).map fun len => (List.range len).map numBuff

/-- The loop of `printf` (printf.c:23–115) and of `logf` (logger.c:62–165) from `format` on, at most
    `fuel` iterations. `print` and `serial_print` never fail. `none`: an argument is missing or of
    another type. -/
def formatLoop : (fuel : ℕ) → (format : List Byte) → List Arg → (written : ℕ) → Option Printed
  | 0, _, _, _ => none
  | _ + 1, [], _, written => some ([], some written)
  | fuel + 1, c :: format, args, written =>
    let maxrem := intMax - written
    if c ≠ ascii '%' ∨ format.head? = some (ascii '%') then
      let format := if c = ascii '%' then format else c :: format
      let amount := 1 + (format.tail.takeWhile (· ≠ ascii '%')).length
      if maxrem < amount then some ([], none)
      else emit (format.take amount)
        (formatLoop fuel (format.drop amount) args (written + amount))
    else if format.head? = some (ascii 'c') then do
      let (v, args) ← vaInt args
      if maxrem = 0 then some ([], none)
      else emit [v.setWidth 8] (formatLoop fuel format.tail args (written + 1))
    else if format.head? = some (ascii 's') then do
      let (str, args) ← vaStr args
      let text := str.takeWhile (· ≠ 0)
      if maxrem < text.length then some ([], none)
      else emit text (formatLoop fuel format.tail args (written + text.length))
    else if format.head? = some (ascii 'd') then
      if maxrem = 0 then some ([], none)
      else do
        let (num, args) ← vaInt args
        let text ← numText 12 (itoa (fun _ => 0) num)
        emit text (formatLoop fuel format.tail args (written + text.length))
    else if format.head? = some (ascii 'x') then
      if maxrem = 0 then some ([], none)
      else do
        let (num, args) ← vaInt args
        let text ← numText 9 (itoaHex (fun _ => 0) num)
        emit text (formatLoop fuel format.tail args (written + text.length))
    else
      -- "format = format_begun_at": the rest is printed as it stands
      if maxrem < format.length + 1 then some ([], none)
      else some (c :: format, some (written + (format.length + 1)))

/-- `printf(format, …)` (printf.c:17–119): what it prints and what it returns. -/
def printf (format : List Byte) (args : List Arg) : Option (List Byte × ℤ) :=
  (formatLoop (format.length + 1) format args 0).map fun (out, written) =>
    (out, match written with
      | some n => n
      | none => -1)

/-- `enum log_type` (kernel/logger.h:8–14). -/
inductive LogType
  | info
  | success
  | warning
  | error
  | debug
deriving DecidableEq

/-- `log_prefix(type)` (logger.c:20–45). -/
def logPrefix : LogType → List Byte
  | .info => ['[', 'I', 'N', 'F', 'O', ']', ' '].map ascii
  | .success => ['[', ' ', 'O', 'K', ' ', ']', ' '].map ascii
  | .warning => ['[', 'W', 'A', 'R', 'N', ']', ' '].map ascii
  | .error => ['[', 'F', 'A', 'I', 'L', ']', ' '].map ascii
  | .debug => ['[', 'D', 'B', 'U', 'G', ']', ' '].map ascii

/-- `logf(type, format, …)` (logger.c:53–168): the characters on the serial port. -/
def logf (type : LogType) (format : List Byte) (args : List Arg) : Option (List Byte) :=
  (formatLoop (format.length + 1) format args 0).map fun (out, _) => logPrefix type ++ out

/-! ## Decimal numbers -/

/-- The canonical text of a number. -/
def decimal (n : ℤ) : List Byte :=
  if n < 0 then ascii '-' :: numeral 10 n.natAbs else numeral 10 n.natAbs

/-- The value of a text of digits. -/
def digitsValue (text : List Byte) : ℕ := text.foldl (fun v c => 10 * v + (c.toNat - 48)) 0

/-- Reading a text back. -/
def readDecimal (text : List Byte) : ℤ :=
  if text.head? = some (ascii '-') then -digitsValue text.tail else digitsValue text

/-- The digits of a number, the lowest first, with one for zero. -/
def digits (n : ℕ) : List ℕ := if n = 0 then [0] else Nat.digits 10 n

theorem digits_lt {n d : ℕ} (hd : d ∈ digits n) : d < 10 := by
  unfold digits at hd
  split_ifs at hd
  · simp_all
  · exact Nat.digits_lt_base (by decide) hd

theorem numeral_eq (n : ℕ) : numeral 10 n = ((digits n).map digitChar).reverse := by
  unfold numeral digits
  split_ifs <;> rfl

theorem digits_ne_nil (n : ℕ) : digits n ≠ [] := by
  unfold digits
  split_ifs with h
  · simp
  · rwa [Ne, Nat.digits_eq_nil_iff_eq_zero]

theorem digits_of_lt {n : ℕ} (hn : n / 10 = 0) : digits n = [n % 10] := by
  unfold digits
  split_ifs with h0
  · rw [h0]
  · rw [Nat.digits_of_lt 10 n h0 (by omega), Nat.mod_eq_of_lt (by omega)]

theorem digits_of_ge {n : ℕ} (hn : n / 10 ≠ 0) : digits n = n % 10 :: digits (n / 10) := by
  unfold digits
  rw [if_neg (by omega), if_neg hn, Nat.digits_def' (by decide) (by omega)]

theorem length_digits_le {n k : ℕ} (hn : n < 10 ^ k) (hk : 0 < k) : (digits n).length ≤ k := by
  unfold digits
  split_ifs with h0
  · exact hk
  · exact (Nat.digits_length_le_iff (by decide) n).mpr hn

/-! ## What `itoa` writes -/

/-- The character of a digit of a number with sign `s`. -/
def signedChar (s : ℤ) (d : ℕ) : Byte := BitVec.ofInt 8 (s * d) + ascii '0'

theorem signedChar_one : ∀ d < 10, signedChar 1 d = digitChar d := by
  decide

theorem signedChar_ne_zero : ∀ s ∈ [(1 : ℤ), -1], ∀ d < 10, signedChar s d ≠ 0 := by
  decide

section Itoa

variable {s : ℤ} (hs : s = 1 ∨ s = -1)

include hs in
/-- Remainder and quotient both have the sign of the number. -/
theorem tmod_tdiv_signed (n : ℕ) :
    (s * n).tmod 10 = s * (n % 10 : ℕ) ∧ (s * n).tdiv 10 = s * (n / 10 : ℕ) := by
  rcases hs with rfl | rfl
  · rw [one_mul, one_mul, one_mul]
    exact ⟨rfl, rfl⟩
  · rw [neg_one_mul, neg_one_mul, neg_one_mul, Int.neg_tmod, Int.neg_tdiv]
    exact ⟨rfl, rfl⟩

include hs in
theorem itoaLoop_digits {left n : ℕ} (hn : n < 10 ^ left) (hleft : 0 < left) (stack : ℕ → Byte)
    (i : ℕ) :
    ∃ stack', itoaLoop left (s * n) stack i = (stack', i + ((digits n).length - 1)) ∧
      (List.range (i + (digits n).length)).map stack' =
        (List.range i).map stack ++ (digits n).map fun d => BitVec.ofInt 8 (s * (d : ℕ)) := by
  induction left generalizing n stack i with
  | zero => omega
  | succ left ih =>
    obtain ⟨hmod, hdiv⟩ := tmod_tdiv_signed hs n
    have hs0 : s ≠ 0 := by omega
    rw [itoaLoop]
    simp only [hmod, hdiv]
    by_cases hq : n / 10 = 0
    · rw [if_pos (by rw [hq]; simp), digits_of_lt hq]
      exact ⟨_, rfl, map_range_update _ _ _⟩
    · have hlt : n / 10 < 10 ^ left := by
        rw [Nat.div_lt_iff_lt_mul (by decide), ← pow_succ]
        exact hn
      have hpos : 0 < left := by
        rcases Nat.eq_zero_or_pos left with rfl | h
        · omega
        · exact h
      obtain ⟨stack', hrun, hnew⟩ := ih hlt hpos
        (Function.update stack i (BitVec.ofInt 8 (s * (n % 10 : ℕ)))) (i + 1)
      have hne : s * (n / 10 : ℕ) ≠ 0 := mul_ne_zero hs0 (by exact_mod_cast hq)
      rw [if_neg hne, hrun, digits_of_ge hq]
      refine ⟨stack', ?_, ?_⟩
      · have hlen := List.length_pos_iff.mpr (digits_ne_nil (n / 10))
        rw [List.length_cons]
        congr 1
        omega
      · rw [List.length_cons, Nat.add_comm _ 1, ← Nat.add_assoc, hnew, map_range_update,
          List.map_cons, List.append_assoc, List.singleton_append]

theorem natAbs_lt (num : BitVec 32) : num.toInt.natAbs < 10 ^ 10 := by
  have hlow := BitVec.le_toInt num
  have hhigh := BitVec.toInt_lt (x := num)
  omega

include hs in
/-- The text `itoa` writes and its terminator. -/
theorem itoa_text {num : BitVec 32} (hnum : num.toInt = s * num.toInt.natAbs) (dest : ℕ → Byte) :
    (List.range (digits num.toInt.natAbs).length).map (itoa dest num) =
      ((digits num.toInt.natAbs).map (signedChar s)).reverse ∧
    itoa dest num (digits num.toInt.natAbs).length = 0 ∧
    ∀ k, (digits num.toInt.natAbs).length < k → itoa dest num k = dest k := by
  have hlt := natAbs_lt num
  generalize num.toInt.natAbs = n at hnum hlt
  obtain ⟨stack, hrun, hdigits⟩ := itoaLoop_digits hs
    (lt_trans hlt (by decide : 10 ^ 10 < 10 ^ 11)) (by decide) (fun _ => 0) 0
  have hlen := List.length_pos_iff.mpr (digits_ne_nil n)
  have hitoa : ∀ k, itoa dest num k = if k ≤ (digits n).length - 1 then
      stack ((digits n).length - 1 - k) + ascii '0'
      else if k = (digits n).length - 1 + 1 then 0 else dest k := by
    intro k
    simp only [itoa, hnum, hrun, Nat.zero_add]
  refine ⟨?_, ?_, fun k hk => ?_⟩
  · have hchars : (List.range (digits n).length).map (fun j => stack j + ascii '0') =
        (digits n).map (signedChar s) := by
      rw [Nat.zero_add] at hdigits
      have hmap := congrArg (List.map (· + ascii '0')) hdigits
      rwa [List.range_zero, List.map_nil, List.nil_append, List.map_map, List.map_map] at hmap
    rw [← hchars, ← map_range_reverse]
    refine List.map_congr_left fun k hk => (hitoa k).trans (if_pos ?_)
    have := List.mem_range.mp hk
    omega
  · rw [hitoa, if_neg (by omega), if_pos (by omega)]
  · rw [hitoa, if_neg (by omega), if_neg (by omega)]

end Itoa

/-- The text of a `%d`. -/
def itoaText (num : BitVec 32) : List Byte :=
  ((digits num.toInt.natAbs).map (signedChar (if num.toInt < 0 then -1 else 1))).reverse

theorem sign_cases (num : BitVec 32) : ∃ s : ℤ, (s = 1 ∨ s = -1) ∧
    s = (if num.toInt < 0 then -1 else 1) ∧ num.toInt = s * num.toInt.natAbs := by
  split_ifs with hneg
  · exact ⟨-1, .inr rfl, rfl, by omega⟩
  · exact ⟨1, .inl rfl, rfl, by omega⟩

theorem length_itoaText (num : BitVec 32) :
    (itoaText num).length = (digits num.toInt.natAbs).length := by
  simp [itoaText]

theorem itoaText_ne_zero {num : BitVec 32} {c : Byte} (hc : c ∈ itoaText num) : c ≠ 0 := by
  rw [itoaText, List.mem_reverse, List.mem_map] at hc
  obtain ⟨d, hd, rfl⟩ := hc
  refine signedChar_ne_zero _ ?_ d (digits_lt hd)
  split_ifs <;> simp

/-- The characters in front of the terminator that `itoa` writes. -/
theorem numText_itoa (num : BitVec 32) (dest : ℕ → Byte) :
    numText 12 (itoa dest num) = some (itoaText num) := by
  obtain ⟨s, hs, hsign, hnum⟩ := sign_cases num
  obtain ⟨htext, hnul, -⟩ := itoa_text hs hnum dest
  have hitoa : (List.range (digits num.toInt.natAbs).length).map (itoa dest num) = itoaText num := by
    rw [htext, hsign]
    rfl
  have hchars : ∀ k < (digits num.toInt.natAbs).length, itoa dest num k ≠ 0 := by
    intro k hk
    have hmem : itoa dest num k ∈ itoaText num := by
      rw [← hitoa]
      exact List.mem_map_of_mem (List.mem_range.mpr hk)
    exact itoaText_ne_zero hmem
  have hle := length_digits_le (natAbs_lt num) (by decide)
  rw [numText, strlen_eq hchars hnul (Nat.zero_le _) (by omega), Option.map_some, hitoa]

/-! ## Which numbers come out right -/

theorem itoaText_of_nonneg {num : BitVec 32} (h : 0 ≤ num.toInt) :
    itoaText num = decimal num.toInt := by
  have hchars : (digits num.toInt.natAbs).map (signedChar 1) =
      (digits num.toInt.natAbs).map digitChar :=
    List.map_congr_left fun d hd => signedChar_one d (digits_lt hd)
  rw [itoaText, decimal, if_neg (by omega), if_neg (by omega), numeral_eq, hchars]

/-- There is no room for a sign. -/
theorem length_itoaText_of_neg {num : BitVec 32} (h : num.toInt < 0) :
    (decimal num.toInt).length = (itoaText num).length + 1 := by
  rw [decimal, if_pos h, numeral_eq, length_itoaText]
  simp

theorem itoaText_eq_decimal_iff (num : BitVec 32) :
    itoaText num = decimal num.toInt ↔ 0 ≤ num.toInt := by
  refine ⟨fun heq => ?_, itoaText_of_nonneg⟩
  by_contra hneg
  have hlen := length_itoaText_of_neg (not_le.mp hneg)
  rw [heq] at hlen
  omega

theorem digitChar_toNat : ∀ d < 10, (digitChar d).toNat - 48 = d ∧ digitChar d ≠ ascii '-' := by
  decide

theorem digitsValue_numeral (n : ℕ) : digitsValue (numeral 10 n) = n := by
  have hfold : ∀ ds : List ℕ, (∀ d ∈ ds, d < 10) →
      ds.foldr (fun d v => 10 * v + ((digitChar d).toNat - 48)) 0 = Nat.ofDigits 10 ds := by
    intro ds
    induction ds with
    | nil => exact fun _ => rfl
    | cons d ds ih =>
      intro hds
      obtain ⟨hd, hds⟩ := List.forall_mem_cons.mp hds
      rw [List.foldr_cons, ih hds, (digitChar_toNat d hd).1, Nat.ofDigits_cons]
      ring
  rw [digitsValue, numeral_eq, List.foldl_reverse, List.foldr_map,
    hfold _ fun d hd => digits_lt hd]
  unfold digits
  split_ifs with h0
  · rw [h0]
    rfl
  · exact Nat.ofDigits_digits 10 n

theorem readDecimal_decimal (n : ℤ) : readDecimal (decimal n) = n := by
  unfold readDecimal decimal
  split_ifs with hneg hsign hsign
  · rw [List.tail_cons, digitsValue_numeral]
    omega
  · exact absurd rfl hsign
  · -- no digit is a sign
    have hmem : ascii '-' ∈ numeral 10 n.natAbs := List.mem_of_mem_head? hsign
    rw [numeral_eq, List.mem_reverse, List.mem_map] at hmem
    obtain ⟨d, hd, heq⟩ := hmem
    exact absurd heq (digitChar_toNat d (digits_lt hd)).2
  · rw [digitsValue_numeral]
    omega

/-- A `%d` prints what `itoa` writes. -/
theorem formatLoop_d (fuel : ℕ) {written : ℕ} (format : List Byte) (num : BitVec 32)
    (args : List Arg) (hroom : written < intMax) :
    formatLoop (fuel + 1) (ascii '%' :: ascii 'd' :: format) (.int num :: args) written =
      emit (itoaText num) (formatLoop fuel format args (written + (itoaText num).length)) := by
  have hrem : ¬intMax - written = 0 := by omega
  simp only [formatLoop, List.head?_cons, Option.some_inj]
  rw [if_neg (by decide), if_neg (by decide), if_neg (by decide), if_pos trivial, if_neg hrem]
  simp only [vaInt, numText_itoa, Option.bind_eq_bind, Option.bind_some, List.tail_cons]

/-- The format `%d`. -/
def percentD : List Byte := [ascii '%', ascii 'd']

theorem formatLoop_percentD (num : BitVec 32) :
    formatLoop (percentD.length + 1) percentD [.int num] 0 =
      some (itoaText num, some (itoaText num).length) := by
  have hloop := formatLoop_d 2 [] num [] (by decide : 0 < intMax)
  rw [Nat.zero_add] at hloop
  rw [percentD]
  refine hloop.trans ?_
  simp [emit, formatLoop]

/-- `itoa` leaves the canonical text with its terminator in twelve bytes, changes nothing behind it,
    and the text reads back. -/
structure WritesDecimal (dest : ℕ → Byte) (num : BitVec 32) : Prop where
  text : numText 12 (itoa dest num) = some (decimal num.toInt)
  fits : (decimal num.toInt).length < 12
  behind : ∀ k, (decimal num.toInt).length < k → itoa dest num k = dest k
  reads : ∀ text ∈ numText 12 (itoa dest num), readDecimal text = num.toInt

/-- **Which numbers come out in decimal**, from `itoa`, from `printf` and `logf` of `%d`, and from
    their common loop at a `%d` anywhere in a format. -/
theorem itoa_decimal_iff (dest : ℕ → Byte) (num : BitVec 32) (type : LogType) :
    (WritesDecimal dest num ∧
      printf percentD [.int num] = some (decimal num.toInt, ((decimal num.toInt).length : ℤ)) ∧
      logf type percentD [.int num] = some (logPrefix type ++ decimal num.toInt) ∧
      ∀ fuel format args written, written < intMax →
        formatLoop (fuel + 1) (ascii '%' :: ascii 'd' :: format) (.int num :: args) written =
          emit (decimal num.toInt)
            (formatLoop fuel format args (written + (decimal num.toInt).length))) ↔
    0 ≤ num.toInt := by
  constructor
  · rintro ⟨hitoa, -⟩
    have htext := hitoa.text
    rw [numText_itoa, Option.some_inj] at htext
    exact (itoaText_eq_decimal_iff num).mp htext
  · intro hnum
    have htext := itoaText_of_nonneg hnum
    obtain ⟨s, hs, -, hsign⟩ := sign_cases num
    have hlen : (decimal num.toInt).length = (digits num.toInt.natAbs).length := by
      rw [← htext, length_itoaText]
    have hle := length_digits_le (natAbs_lt num) (by decide)
    refine ⟨⟨?_, by omega, ?_, ?_⟩, ?_, ?_, ?_⟩
    · rw [numText_itoa, htext]
    · rw [hlen]
      exact (itoa_text hs hsign dest).2.2
    · intro text hmem
      rw [numText_itoa, Option.mem_some_iff, htext] at hmem
      rw [← hmem, readDecimal_decimal]
    · rw [printf, formatLoop_percentD, htext]
      rfl
    · rw [logf, formatLoop_percentD, htext]
      rfl
    · intro fuel format args written hroom
      rw [formatLoop_d fuel format num args hroom, htext]

/-- `INT_MAX`. -/
theorem itoa_decimal_iff_max :
    printf percentD [.int 0x7FFFFFFF] =
      some (decimal 2147483647, ((decimal 2147483647).length : ℤ)) :=
  ((itoa_decimal_iff (fun _ => 0) 0x7FFFFFFF .info).mpr (by decide)).2.1

/-- `-1` comes out as a slash, everywhere. -/
theorem itoa_minus_one :
    numText 12 (itoa (fun _ => 0) (-1)) = some [ascii '/'] ∧
    printf percentD [.int (-1)] = some ([ascii '/'], 1) ∧
    logf .info percentD [.int (-1)] = some (logPrefix .info ++ [ascii '/']) ∧
    decimal (-1) = [ascii '-', ascii '1'] := by
  refine ⟨by decide +kernel, by decide +kernel, by decide +kernel, ?_⟩
  simp [decimal, numeral, digitChar, ascii]

end HorizonOS.Libc
