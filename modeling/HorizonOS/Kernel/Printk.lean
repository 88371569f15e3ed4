import HorizonOS.Lib.Basic
import HorizonOS.Libc.String

/-!
# `printk`

`printk` (kernel/log.c:12–69) runs two interpreters over one format string: `console_vprintf`
(include/kernel/console.c:160–218) for the screen and `serial_vprintf` (drivers/serial.c:88–146)
for the serial line. They are copies of each other but for the number formatters: the console's
fills a buffer upwards and prints it backwards, the serial line's fills a longer one downwards.

The result of a model is the sequence of characters passed to `console_putchar` or
`serial_putchar`. `none` stands for a write outside a local buffer, a read behind the end of the
format string or an argument of the wrong type.

* `consoleWriteUint_eq`, `serialWriteUint_eq`: both formatters print `numeral base v`.
* `vprintf_agree`: the two interpreters print the same.
* `printk_agree`: so `printk` shows the same text twice.
-/

namespace HorizonOS.Kernel

open HorizonOS.Lib HorizonOS.Libc

/-! ## Arguments -/

/-- An argument of a variadic call, by its type: `int` and `unsigned int`, `int64_t` and
    `uint64_t`, `void *`, and the characters of a string. -/
inductive Arg
  | int (v : BitVec 32)
  | long (v : BitVec 64)
  | ptr (v : BitVec 64)
  | str (s : List Byte)

/-- `va_arg(args, int)` and `va_arg(args, unsigned int)`. -/
def vaInt : List Arg → Option (BitVec 32 × List Arg)
  | .int v :: args => some (v, args)
  | _ => none

/-- `va_arg(args, int64_t)` and `va_arg(args, uint64_t)`. -/
def vaLong : List Arg → Option (BitVec 64 × List Arg)
  | .long v :: args => some (v, args)
  | _ => none

/-- `va_arg(args, void *)`. -/
def vaPtr : List Arg → Option (BitVec 64 × List Arg)
  | .ptr v :: args => some (v, args)
  | _ => none

/-- `va_arg(args, const char *)`. -/
def vaStr : List Arg → Option (List Byte × List Arg)
  | .str s :: args => some (s, args)
  | _ => none

/-! ## The console's interpreter -/

/-- `console_puts(s)` (console.c:126–130): the characters before the first NUL. -/
def consolePuts (s : List Byte) : List Byte := s.takeWhile (· ≠ 0)

/-- `while (val) { … }` of `console_write_uint` (console.c:141–146): the digits go to
    `buf[0], buf[1], …` of 21 bytes. Returns `i` and `buf`; at most `fuel` tests. -/
def consoleDigits (base : ℕ) : (fuel val i : ℕ) → (ℕ → Byte) → Option (ℕ × (ℕ → Byte))
  | 0, _, _, _ => none
  | fuel + 1, val, i, buf =>
    if val ≠ 0 then
      let d := val % base
      let c := if d < 10 then ascii '0' + BitVec.ofNat 8 d else ascii 'a' + BitVec.ofNat 8 d - 10
      if i < 21 then consoleDigits base fuel (val / base) (i + 1) (Function.update buf i c) else none
    else some (i, buf)

/-- `console_write_uint(val, base)` (console.c:132–150). -/
def consoleWriteUint (val : BitVec 64) (base : ℕ) : Option (List Byte) :=
  if val = 0 then some [ascii '0']
  else (consoleDigits base 65 val.toNat 0 fun _ => 0).map fun (i, buf) =>
    (List.range i).reverse.map buf

/-- `console_write_int(val)` (console.c:152–158). -/
def consoleWriteInt (val : BitVec 64) : Option (List Byte) :=
  if val.slt 0 then (consoleWriteUint (-val) 10).map (ascii '-' :: ·) else consoleWriteUint val 10

/-- The inner `switch` of `console_vprintf` (console.c:170–186), after `%l`. -/
def consoleLong (c : Byte) (args : List Arg) : Option (List Byte × List Arg) :=
  if c = ascii 'd' then do
    let (v, args) ← vaLong args
    return (← consoleWriteInt v, args)
  else if c = ascii 'u' then do
    let (v, args) ← vaLong args
    return (← consoleWriteUint v 10, args)
  else if c = ascii 'x' then do
    let (v, args) ← vaLong args
    return (← consoleWriteUint v 16, args)
  else some ([ascii '%', ascii 'l', c], args)

/-- The outer `switch` of `console_vprintf` (console.c:187–216), after `%` and for a character
    other than `l`. -/
def consoleSpec (c : Byte) (args : List Arg) : Option (List Byte × List Arg) :=
  if c = ascii 'd' then do
    let (v, args) ← vaInt args
    return (← consoleWriteInt (v.signExtend 64), args)
  else if c = ascii 'u' then do
    let (v, args) ← vaInt args
    return (← consoleWriteUint (v.setWidth 64) 10, args)
  else if c = ascii 'x' then do
    let (v, args) ← vaInt args
    return (← consoleWriteUint (v.setWidth 64) 16, args)
  else if c = ascii 'p' then do
    let (v, args) ← vaPtr args
    return (consolePuts [ascii '0', ascii 'x'] ++ (← consoleWriteUint v 16), args)
  else if c = ascii 's' then do
    let (s, args) ← vaStr args
    return (consolePuts s, args)
  else if c = ascii 'c' then do
    let (v, args) ← vaInt args
    return ([v.setWidth 8], args)
  else if c = ascii '%' then some ([ascii '%'], args)
  else some ([ascii '%', c], args)

/-- `console_vprintf(fmt, args)` (console.c:160–218). A `%` or `%l` at the end of the string takes
    the NUL for the conversion, and `p++` then leaves the string. -/
def consoleVprintf : List Byte → List Arg → Option (List Byte)
  | [], _ => some []
  | c :: fmt, args =>
    if c ≠ ascii '%' then (consoleVprintf fmt args).map (c :: ·)
    else
      match fmt with
      | [] => none
      | c :: fmt =>
        if c = ascii 'l' then
          match fmt with
          | [] => none
          | c :: fmt => do
            let (out, args) ← consoleLong c args
            return out ++ (← consoleVprintf fmt args)
        else do
          let (out, args) ← consoleSpec c args
          return out ++ (← consoleVprintf fmt args)

/-! ## The serial line's interpreter -/

/-- `serial_write(str)` (serial.c:54–58): the characters before the first NUL. -/
def serialWrite (str : List Byte) : List Byte := str.takeWhile (· ≠ 0)

/-- `digits` (serial.c:61). -/
def serialDigitTable : List Byte :=
  [ascii '0', ascii '1', ascii '2', ascii '3', ascii '4', ascii '5', ascii '6', ascii '7',
    ascii '8', ascii '9', ascii 'a', ascii 'b', ascii 'c', ascii 'd', ascii 'e', ascii 'f']

/-- `while (val && i > 0) { … }` of `serial_write_uint` (serial.c:73–76): the digits go to
    `buf[63], buf[62], …` of 65 bytes. Returns `i` and `buf`; at most `fuel` tests. -/
def serialDigits (base : ℕ) : (fuel val i : ℕ) → (ℕ → Byte) → Option (ℕ × (ℕ → Byte))
  | 0, _, _, _ => none
  | fuel + 1, val, i, buf =>
    if val ≠ 0 ∧ i > 0 then
      match serialDigitTable[val % base]? with
      | none => none
      | some c =>
        if i - 1 < 65 then
          serialDigits base fuel (val / base) (i - 1) (Function.update buf (i - 1) c)
        else none
    else some (i, buf)

/-- `serial_write_uint(val, base)` (serial.c:60–78). -/
def serialWriteUint (val : BitVec 64) (base : ℕ) : Option (List Byte) :=
  if val = 0 then some [ascii '0']
  else (serialDigits base 66 val.toNat 64 fun _ => 0).map fun (i, buf) =>
    serialWrite ((List.range' i (65 - i)).map buf)

/-- `serial_write_int(val)` (serial.c:80–86). -/
def serialWriteInt (val : BitVec 64) : Option (List Byte) :=
  if val.slt 0 then (serialWriteUint (-val) 10).map (ascii '-' :: ·) else serialWriteUint val 10

/-- The inner `switch` of `serial_vprintf` (serial.c:98–114), after `%l`. -/
def serialLong (c : Byte) (args : List Arg) : Option (List Byte × List Arg) :=
  if c = ascii 'd' then do
    let (v, args) ← vaLong args
    return (← serialWriteInt v, args)
  else if c = ascii 'u' then do
    let (v, args) ← vaLong args
    return (← serialWriteUint v 10, args)
  else if c = ascii 'x' then do
    let (v, args) ← vaLong args
    return (← serialWriteUint v 16, args)
  else some ([ascii '%', ascii 'l', c], args)

/-- The outer `switch` of `serial_vprintf` (serial.c:115–144), after `%` and for a character other
    than `l`. -/
def serialSpec (c : Byte) (args : List Arg) : Option (List Byte × List Arg) :=
  if c = ascii 'd' then do
    let (v, args) ← vaInt args
    return (← serialWriteInt (v.signExtend 64), args)
  else if c = ascii 'u' then do
    let (v, args) ← vaInt args
    return (← serialWriteUint (v.setWidth 64) 10, args)
  else if c = ascii 'x' then do
    let (v, args) ← vaInt args
    return (← serialWriteUint (v.setWidth 64) 16, args)
  else if c = ascii 'p' then do
    let (v, args) ← vaPtr args
    return (serialWrite [ascii '0', ascii 'x'] ++ (← serialWriteUint v 16), args)
  else if c = ascii 's' then do
    let (s, args) ← vaStr args
    return (serialWrite s, args)
  else if c = ascii 'c' then do
    let (v, args) ← vaInt args
    return ([v.setWidth 8], args)
  else if c = ascii '%' then some ([ascii '%'], args)
  else some ([ascii '%', c], args)

/-- `serial_vprintf(fmt, args)` (serial.c:88–146). -/
def serialVprintf : List Byte → List Arg → Option (List Byte)
  | [], _ => some []
  | c :: fmt, args =>
    if c ≠ ascii '%' then (serialVprintf fmt args).map (c :: ·)
    else
      match fmt with
      | [] => none
      | c :: fmt =>
        if c = ascii 'l' then
          match fmt with
          | [] => none
          | c :: fmt => do
            let (out, args) ← serialLong c args
            return out ++ (← serialVprintf fmt args)
        else do
          let (out, args) ← serialSpec c args
          return out ++ (← serialVprintf fmt args)

/-! ## `printk` -/

/-- `enum log_level` (log.h:15–23). -/
inductive LogLevel
  | raw
  | debug
  | info
  | ok
  | warn
  | error
  | fatal
deriving DecidableEq, Repr

/-- The value of an enumerator. -/
def LogLevel.val : LogLevel → ℕ
  | raw => 0
  | debug => 1
  | info => 2
  | ok => 3
  | warn => 4
  | error => 5
  | fatal => 6

/-- The calls of the console that `printk` makes. -/
inductive ConsoleCall
  | setFg (color : BitVec 32)
  | setBg (color : BitVec 32)
  | putchar (c : Byte)
deriving DecidableEq

/-- The colours of the levels (log.h:6–12). -/
def debugFg : BitVec 32 := 0x87CEFA

@[inherit_doc debugFg] def infoFg : BitVec 32 := 0xCCCCCC
@[inherit_doc debugFg] def warnFg : BitVec 32 := 0xFFFF00
@[inherit_doc debugFg] def errorFg : BitVec 32 := 0xFF0000
@[inherit_doc debugFg] def fatalFg : BitVec 32 := 0xFFFFFF
@[inherit_doc debugFg] def okFg : BitVec 32 := 0x00CC00
@[inherit_doc debugFg] def fatalBg : BitVec 32 := 0xCC0000

/-- The `switch` of `printk` (log.c:23–52): the tag, and the colours set on the way. `KERN_WARN`
    has no `break` and runs on into `KERN_FATAL`. -/
def tagOf : LogLevel → List Byte × List ConsoleCall
  | .raw => ([], [.setFg infoFg])
  | .debug => (['[', 'D', 'B', 'U', 'G', ']', ':'].map ascii, [.setFg debugFg])
  | .info => (['[', 'I', 'N', 'F', 'O', ']', ':'].map ascii, [.setFg infoFg])
  | .ok => (['[', ' ', 'O', 'K', ' ', ']', ':'].map ascii, [.setFg okFg])
  | .error => (['[', 'E', 'R', 'R', 'O', 'R', ']', ':'].map ascii, [.setFg errorFg])
  | .warn => (['[', 'F', 'A', 'T', 'A', 'L', ']', ':'].map ascii,
      [.setFg warnFg, .setFg fatalFg, .setBg fatalBg])
  | .fatal => (['[', 'F', 'A', 'T', 'A', 'L', ']', ':'].map ascii, [.setFg fatalFg, .setBg fatalBg])

/-- `printk(level, fmt, …)` (log.c:12–69) while `log_level` is `logLevel`: the calls of the console
    and the characters of the serial line. -/
def printk (logLevel level : LogLevel) (fmt : List Byte) (args : List Arg) :
    Option (List ConsoleCall × List Byte) :=
  if level.val < logLevel.val then some ([], [])
  else do
    let (tag, colors) := tagOf level
    let console ← consoleVprintf fmt args
    let serial ← serialVprintf fmt args
    some (colors ++ (consolePuts tag ++ console).map .putchar ++ [.setFg infoFg, .setBg 0],
      serialWrite tag ++ serial)

/-- The characters that reach the screen. -/
def shownText (calls : List ConsoleCall) : List Byte :=
  calls.filterMap fun
    | .putchar c => some c
    | _ => none

/-! ## Numbers -/

/-- The character of a digit. -/
def digitChar (d : ℕ) : Byte := BitVec.ofNat 8 (if d < 10 then 48 + d else 87 + d)

/-- A number in positional notation. -/
def numeral (base v : ℕ) : List Byte :=
  if v = 0 then [ascii '0'] else ((Nat.digits base v).map digitChar).reverse

theorem consoleDigit_eq : ∀ d < 16, (if d < 10 then ascii '0' + BitVec.ofNat 8 d
    else ascii 'a' + BitVec.ofNat 8 d - 10) = digitChar d := by
  decide

theorem serialDigit_eq : ∀ d < 16, serialDigitTable[d]? = some (digitChar d) := by
  decide

theorem digitChar_ne_zero : ∀ d < 16, digitChar d ≠ 0 := by
  decide

section Digits

variable {base : ℕ} (hbase : 1 < base) (hle : base ≤ 16)

include hbase hle

/-- The loop of the console's formatter appends the digits, lowest first. -/
theorem consoleDigits_eq {fuel val i : ℕ} (buf : ℕ → Byte)
    (hfuel : (Nat.digits base val).length < fuel) (hroom : i + (Nat.digits base val).length ≤ 21) :
    ∃ buf', consoleDigits base fuel val i buf = some (i + (Nat.digits base val).length, buf') ∧
      (List.range (i + (Nat.digits base val).length)).map buf' =
        (List.range i).map buf ++ (Nat.digits base val).map digitChar := by
  induction fuel generalizing val i buf with
  | zero => exact absurd hfuel (Nat.not_lt_zero _)
  | succ fuel ih =>
    by_cases hval : val = 0
    · subst hval
      refine ⟨buf, ?_, ?_⟩
      · simp [consoleDigits]
      · simp
    · have hdigits := Nat.digits_def' hbase (Nat.pos_of_ne_zero hval)
      have hlen : (Nat.digits base val).length = (Nat.digits base (val / base)).length + 1 := by
        rw [hdigits, List.length_cons]
      have hmod : val % base < 16 := lt_of_lt_of_le (Nat.mod_lt _ (by omega)) hle
      have hfuel' : (Nat.digits base (val / base)).length < fuel := by omega
      have hroom' : i + 1 + (Nat.digits base (val / base)).length ≤ 21 := by omega
      obtain ⟨buf', hrun, hbuf⟩ :=
        ih (Function.update buf i (digitChar (val % base))) hfuel' hroom'
      refine ⟨buf', ?_, ?_⟩
      · simp only [consoleDigits, if_pos hval, consoleDigit_eq _ hmod]
        rw [if_pos (by omega), hrun, hlen, Nat.add_assoc, Nat.add_comm 1]
      · rw [hlen, ← Nat.add_assoc, Nat.add_right_comm, hbuf, map_range_update, hdigits,
          List.map_cons, List.append_assoc, List.singleton_append]

/-- The loop of the serial line's formatter puts the digits in front of what is there. -/
theorem serialDigits_eq {fuel val i : ℕ} (buf : ℕ → Byte)
    (hfuel : (Nat.digits base val).length < fuel) (hroom : (Nat.digits base val).length ≤ i)
    (hi : i ≤ 64) :
    ∃ buf', serialDigits base fuel val i buf = some (i - (Nat.digits base val).length, buf') ∧
      (List.range' (i - (Nat.digits base val).length)
          (65 - (i - (Nat.digits base val).length))).map buf' =
        ((Nat.digits base val).map digitChar).reverse ++ (List.range' i (65 - i)).map buf := by
  induction fuel generalizing val i buf with
  | zero => exact absurd hfuel (Nat.not_lt_zero _)
  | succ fuel ih =>
    by_cases hval : val = 0
    · subst hval
      refine ⟨buf, ?_, ?_⟩
      · simp [serialDigits]
      · simp
    · have hdigits := Nat.digits_def' hbase (Nat.pos_of_ne_zero hval)
      have hlen : (Nat.digits base val).length = (Nat.digits base (val / base)).length + 1 := by
        rw [hdigits, List.length_cons]
      have hmod : val % base < 16 := lt_of_lt_of_le (Nat.mod_lt _ (by omega)) hle
      have hfuel' : (Nat.digits base (val / base)).length < fuel := by omega
      have hroom' : (Nat.digits base (val / base)).length ≤ i - 1 := by omega
      obtain ⟨buf', hrun, hbuf⟩ :=
        ih (Function.update buf (i - 1) (digitChar (val % base))) hfuel' hroom' (by omega)
      have hsub : i - 1 - (Nat.digits base (val / base)).length =
          i - (Nat.digits base val).length := by omega
      rw [hsub] at hrun hbuf
      refine ⟨buf', ?_, ?_⟩
      · rw [serialDigits, if_pos ⟨hval, by omega⟩, serialDigit_eq _ hmod]
        simp only
        rw [if_pos (by omega), hrun]
      · have hrange : List.range' (i - 1) (65 - (i - 1)) = (i - 1) :: List.range' i (65 - i) := by
          rw [show 65 - (i - 1) = 65 - i + 1 by omega, List.range'_succ,
            show i - 1 + 1 = i by omega]
        have hbehind : (List.range' i (65 - i)).map
            (Function.update buf (i - 1) (digitChar (val % base))) =
            (List.range' i (65 - i)).map buf := by
          apply List.map_congr_left
          intro j hj
          rw [List.mem_range'_1] at hj
          exact Function.update_of_ne (by omega) _ _
        rw [hbuf, hrange, List.map_cons, hbehind, Function.update_self, hdigits, List.map_cons,
          List.reverse_cons, List.append_assoc, List.singleton_append]

end Digits

/-- A 64-bit number has at most 20 decimal digits, which leaves one byte of the console's buffer
    unused. -/
theorem length_digits_le {base : ℕ} (hbase : 10 ≤ base) (v : BitVec 64) :
    (Nat.digits base v.toNat).length ≤ 20 := by
  rw [Nat.digits_length_le_iff (by omega)]
  calc v.toNat < 2 ^ 64 := v.isLt
    _ ≤ 10 ^ 20 := by norm_num
    _ ≤ base ^ 20 := Nat.pow_le_pow_left hbase 20

section Formatters

variable {base : ℕ} (hbase : 10 ≤ base) (hle : base ≤ 16) (v : BitVec 64)

include hbase hle

theorem consoleWriteUint_eq : consoleWriteUint v base = some (numeral base v.toNat) := by
  unfold consoleWriteUint numeral
  by_cases hv : v = 0
  · rw [if_pos hv, if_pos (by rw [hv]; rfl)]
  · have hnat : v.toNat ≠ 0 := fun h => hv (BitVec.eq_of_toNat_eq h)
    have hlen := length_digits_le hbase v
    have hfuel : (Nat.digits base v.toNat).length < 65 := by omega
    have hroom : 0 + (Nat.digits base v.toNat).length ≤ 21 := by omega
    obtain ⟨buf, hrun, hbuf⟩ := consoleDigits_eq (by omega) hle (fun _ => 0) hfuel hroom
    rw [if_neg hv, if_neg hnat, hrun, Option.map_some, Option.some_inj]
    show List.map buf (List.reverse _) = _
    rw [List.map_reverse, hbuf]
    rfl

theorem serialWriteUint_eq : serialWriteUint v base = some (numeral base v.toNat) := by
  unfold serialWriteUint numeral
  by_cases hv : v = 0
  · rw [if_pos hv, if_pos (by rw [hv]; rfl)]
  · have hnat : v.toNat ≠ 0 := fun h => hv (BitVec.eq_of_toNat_eq h)
    have hlen := length_digits_le hbase v
    have hfuel : (Nat.digits base v.toNat).length < 66 := by omega
    have hroom : (Nat.digits base v.toNat).length ≤ 64 := by omega
    obtain ⟨buf, hrun, hbuf⟩ := serialDigits_eq (by omega) hle (fun _ => 0) hfuel hroom le_rfl
    have hnonzero : ∀ c ∈ ((Nat.digits base v.toNat).map digitChar).reverse, c ≠ 0 := by
      intro c hc
      obtain ⟨d, hd, rfl⟩ := List.mem_map.mp (List.mem_reverse.mp hc)
      exact digitChar_ne_zero d (lt_of_lt_of_le (Nat.digits_lt_base (by omega) hd) hle)
    rw [if_neg hv, if_neg hnat, hrun, Option.map_some, Option.some_inj]
    show serialWrite (List.map buf _) = _
    rw [hbuf, serialWrite, List.takeWhile_append_of_pos (by simpa using hnonzero)]
    simp

theorem writeUint_agree : consoleWriteUint v base = serialWriteUint v base := by
  rw [consoleWriteUint_eq hbase hle, serialWriteUint_eq hbase hle]

end Formatters

theorem writeUint_ten (v : BitVec 64) : consoleWriteUint v 10 = serialWriteUint v 10 :=
  writeUint_agree (by norm_num) (by norm_num) v

theorem writeUint_sixteen (v : BitVec 64) : consoleWriteUint v 16 = serialWriteUint v 16 :=
  writeUint_agree (by norm_num) (by norm_num) v

theorem writeInt_agree (v : BitVec 64) : consoleWriteInt v = serialWriteInt v := by
  unfold consoleWriteInt serialWriteInt
  rw [writeUint_ten, writeUint_ten]

/-! ## The interpreters -/

theorem consolePuts_eq : consolePuts = serialWrite := rfl

theorem long_agree (c : Byte) (args : List Arg) : consoleLong c args = serialLong c args := by
  unfold consoleLong serialLong
  simp only [writeInt_agree, writeUint_ten, writeUint_sixteen]

theorem spec_agree (c : Byte) (args : List Arg) : consoleSpec c args = serialSpec c args := by
  unfold consoleSpec serialSpec
  simp only [writeInt_agree, writeUint_ten, writeUint_sixteen, consolePuts_eq]

/-- The two interpreters print the same, whatever the format and the arguments. -/
theorem vprintf_agree (fmt : List Byte) (args : List Arg) :
    consoleVprintf fmt args = serialVprintf fmt args := by
  fun_induction consoleVprintf fmt args with
  | case1 args => rfl
  | case2 c fmt args hc ih =>
    unfold serialVprintf
    rw [if_pos hc, ih]
  | case3 c args hc | case4 c args hc => simp [serialVprintf, hc]
  | case5 c args hc c' fmt ih =>
    unfold serialVprintf
    rw [if_neg hc]
    simp only [reduceIte, long_agree, ih]
  | case6 c args hc c' fmt hl ih =>
    unfold serialVprintf
    rw [if_neg hc]
    simp only [hl, reduceIte, spec_agree, ih]

/-! ## Formats and their arguments -/

/-- The types of arguments. -/
inductive ArgKind
  | int
  | long
  | ptr
  | str
deriving DecidableEq

def Arg.kind : Arg → ArgKind
  | .int _ => .int
  | .long _ => .long
  | .ptr _ => .ptr
  | .str _ => .str

/-- The argument that the conversion `%c` takes, if any. -/
def specKinds (c : Byte) : List ArgKind :=
  if c = ascii 'd' ∨ c = ascii 'u' ∨ c = ascii 'x' ∨ c = ascii 'c' then [.int]
  else if c = ascii 'p' then [.ptr]
  else if c = ascii 's' then [.str]
  else []

/-- The argument that the conversion `%lc` takes, if any. -/
def longKinds (c : Byte) : List ArgKind :=
  if c = ascii 'd' ∨ c = ascii 'u' ∨ c = ascii 'x' then [.long] else []

/-- The arguments that a format string asks for; `none` if it ends within a conversion, that is
    with a `%` or a `%l` that no character follows. -/
def wants : List Byte → Option (List ArgKind)
  | [] => some []
  | c :: fmt =>
    if c ≠ ascii '%' then wants fmt
    else
      match fmt with
      | [] => none
      | c :: fmt =>
        if c = ascii 'l' then
          match fmt with
          | [] => none
          | c :: fmt => (wants fmt).map (longKinds c ++ ·)
        else (wants fmt).map (specKinds c ++ ·)

/-- The arguments match the format: they are, in order, those it asks for. -/
def Matches (fmt : List Byte) (args : List Arg) : Prop := wants fmt = some (args.map Arg.kind)

instance (fmt : List Byte) (args : List Arg) : Decidable (Matches fmt args) :=
  inferInstanceAs (Decidable (_ = _))

theorem writeUint_some {base : ℕ} (hbase : 10 ≤ base) (hle : base ≤ 16) (v : BitVec 64) :
    ∃ out, consoleWriteUint v base = some out :=
  ⟨_, consoleWriteUint_eq hbase hle v⟩

theorem writeInt_some (v : BitVec 64) : ∃ out, consoleWriteInt v = some out := by
  unfold consoleWriteInt
  split_ifs
  · rw [consoleWriteUint_eq (by norm_num) (by norm_num)]
    exact ⟨_, rfl⟩
  · exact writeUint_some (by norm_num) (by norm_num) v

/-- The first argument has the type asked for. -/
theorem exists_of_kind {args : List Arg} {k : ArgKind} {ks : List ArgKind}
    (h : args.map Arg.kind = [k] ++ ks) :
    ∃ a args', args = a :: args' ∧ a.kind = k ∧ args'.map Arg.kind = ks := by
  cases args with
  | nil => cases h
  | cons a args =>
    obtain ⟨hk, hks⟩ := List.cons.inj h
    exact ⟨a, args, rfl, hk, hks⟩

/-- A conversion `%l` finds its argument. -/
theorem consoleLong_some {c : Byte} {args : List Arg} {ks : List ArgKind}
    (h : args.map Arg.kind = longKinds c ++ ks) :
    ∃ out args', consoleLong c args = some (out, args') ∧ args'.map Arg.kind = ks := by
  unfold longKinds at h
  split_ifs at h with hc
  · obtain ⟨a, args, rfl, ha, hks⟩ := exists_of_kind h
    cases a with
    | long v =>
      obtain ⟨int, hint⟩ := writeInt_some v
      simp only [consoleLong, vaLong, hint, consoleWriteUint_eq (le_refl 10) (by norm_num),
        consoleWriteUint_eq (by norm_num) (le_refl 16), Option.bind_eq_bind, Option.bind_some,
        Option.pure_def]
      rcases hc with rfl | rfl | rfl <;> exact ⟨_, _, rfl, hks⟩
    | _ => cases ha
  · simp only [not_or] at hc
    exact ⟨_, args, by rw [consoleLong, if_neg hc.1, if_neg hc.2.1, if_neg hc.2.2], h⟩

/-- A conversion finds its argument. -/
theorem consoleSpec_some {c : Byte} {args : List Arg} {ks : List ArgKind}
    (h : args.map Arg.kind = specKinds c ++ ks) :
    ∃ out args', consoleSpec c args = some (out, args') ∧ args'.map Arg.kind = ks := by
  unfold specKinds at h
  split_ifs at h with hnum hptr hstr
  · obtain ⟨a, args, rfl, ha, hks⟩ := exists_of_kind h
    cases a with
    | int v =>
      obtain ⟨int, hint⟩ := writeInt_some (v.signExtend 64)
      simp only [consoleSpec, vaInt, hint, consoleWriteUint_eq (le_refl 10) (by norm_num),
        consoleWriteUint_eq (by norm_num) (le_refl 16), Option.bind_eq_bind, Option.bind_some,
        Option.pure_def]
      rcases hnum with rfl | rfl | rfl | rfl <;> exact ⟨_, _, rfl, hks⟩
    | _ => cases ha
  · subst hptr
    obtain ⟨a, args, rfl, ha, hks⟩ := exists_of_kind h
    cases a with
    | ptr v =>
      have hspec : consoleSpec (ascii 'p') (.ptr v :: args) = (consoleWriteUint v 16).bind fun out =>
          some (consolePuts [ascii '0', ascii 'x'] ++ out, args) := rfl
      rw [hspec, consoleWriteUint_eq (by norm_num) (le_refl 16), Option.bind_some]
      exact ⟨_, _, rfl, hks⟩
    | _ => cases ha
  · subst hstr
    obtain ⟨a, args, rfl, ha, hks⟩ := exists_of_kind h
    cases a with
    | str s => exact ⟨consolePuts s, args, rfl, hks⟩
    | _ => cases ha
  · simp only [not_or] at hnum
    obtain ⟨h1, h2, h3, h4⟩ := hnum
    simp only [consoleSpec, if_neg h1, if_neg h2, if_neg h3, if_neg h4, if_neg hptr, if_neg hstr]
    split_ifs <;> exact ⟨_, _, rfl, h⟩

/-- The interpreter gets through a format with matching arguments. -/
theorem consoleVprintf_some {fmt : List Byte} {args : List Arg} (h : Matches fmt args) :
    ∃ out, consoleVprintf fmt args = some out := by
  unfold Matches at h
  fun_induction consoleVprintf fmt args with
  | case1 args => exact ⟨[], rfl⟩
  | case2 c fmt args hc ih =>
    unfold wants at h
    rw [if_pos hc] at h
    obtain ⟨out, hout⟩ := ih h
    exact ⟨_, by rw [hout, Option.map_some]⟩
  | case3 c args hc | case4 c args hc =>
    unfold wants at h
    rw [if_neg hc] at h
    cases h
  | case5 c args hc c' fmt ih =>
    unfold wants at h
    rw [if_neg hc] at h
    simp only [reduceIte] at h
    obtain ⟨ks, hks, hargs⟩ := Option.map_eq_some_iff.mp h
    obtain ⟨out, args', hspec, hargs'⟩ := consoleLong_some hargs.symm
    obtain ⟨out', hout'⟩ := ih args' (by rw [hks, hargs'])
    exact ⟨out ++ out', by simp only [hspec, hout', Option.bind_eq_bind, Option.bind_some]; rfl⟩
  | case6 c args hc c' fmt hl ih =>
    unfold wants at h
    rw [if_neg hc] at h
    simp only [hl, reduceIte] at h
    obtain ⟨ks, hks, hargs⟩ := Option.map_eq_some_iff.mp h
    obtain ⟨out, args', hspec, hargs'⟩ := consoleSpec_some hargs.symm
    obtain ⟨out', hout'⟩ := ih args' (by rw [hks, hargs'])
    exact ⟨out ++ out', by simp only [hspec, hout', Option.bind_eq_bind, Option.bind_some]; rfl⟩

theorem shownText_append (a b : List ConsoleCall) :
    shownText (a ++ b) = shownText a ++ shownText b :=
  List.filterMap_append

theorem shownText_putchar (s : List Byte) : shownText (s.map .putchar) = s := by
  induction s with
  | nil => rfl
  | cons c s ih => exact congrArg (c :: ·) ih

theorem shownText_tagOf (level : LogLevel) : shownText (tagOf level).2 = [] := by
  cases level <;> rfl

/-- **The screen and the serial line show the same text.** For a format that does not end within
    a conversion and matching arguments, both interpreters get to the end and pass the same
    characters on, so `printk` shows one text twice; and no number is written outside the buffer of
    either formatter. -/
theorem printk_agree (logLevel level : LogLevel) {fmt : List Byte} {args : List Arg}
    (h : Matches fmt args) :
    (∃ out, consoleVprintf fmt args = some out ∧ serialVprintf fmt args = some out) ∧
    (∃ calls text, printk logLevel level fmt args = some (calls, text) ∧ shownText calls = text) ∧
    ∀ v : BitVec 64, ∀ base ∈ [10, 16],
      ∃ out, consoleWriteUint v base = some out ∧ serialWriteUint v base = some out := by
  obtain ⟨out, hconsole⟩ := consoleVprintf_some h
  have hserial : serialVprintf fmt args = some out := by rw [← vprintf_agree, hconsole]
  refine ⟨⟨out, hconsole, hserial⟩, ?_, ?_⟩
  · unfold printk
    split_ifs
    · exact ⟨[], [], rfl, rfl⟩
    · simp only [hconsole, hserial, Option.bind_eq_bind, Option.bind_some]
      refine ⟨_, _, rfl, ?_⟩
      rw [shownText_append, shownText_append, shownText_tagOf, shownText_putchar, consolePuts_eq]
      exact List.append_nil _
  · intro v base hbase
    have hle : 10 ≤ base ∧ base ≤ 16 := by
      rcases List.mem_pair.mp hbase with rfl | rfl <;> norm_num
    exact ⟨_, consoleWriteUint_eq hle.1 hle.2 v, serialWriteUint_eq hle.1 hle.2 v⟩

/-- The format `%c%ld%%` with `n` and the least 64-bit number. -/
theorem printk_agree_min :
    let fmt := [ascii '%', ascii 'c', ascii '%', ascii 'l', ascii 'd', ascii '%', ascii '%']
    let args : List Arg := [.int 110, .long 0x8000000000000000]
    Matches fmt args ∧
      ∃ out, consoleVprintf fmt args = some out ∧ serialVprintf fmt args = some out := by
  intro fmt args
  have hmatch : Matches fmt args := by decide
  exact ⟨hmatch, (printk_agree .debug .info hmatch).1⟩

end HorizonOS.Kernel
