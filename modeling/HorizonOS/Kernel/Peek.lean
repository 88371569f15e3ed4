import HorizonOS.Kernel.Printk

/-!
# The memory dump of the shells

`cmd_peek` of the x86_64 shell (arch/x86_64/include/shell.c:58–102) and of hush
(arch/i386/drivers/shell/builtins/peek.c:31–70) print memory as hexadecimal digits and as
characters. Both print numbers with `%08x` and `%02x`, but `console_vprintf` knows no field widths:
it takes the `0` for a conversion it does not know and prints the directive as it stands. What the
dump shows of the memory is the column of characters, and that shows every character that cannot be
printed as a dot.

* `byteText_eq`: the text printed for a byte is the same for all bytes.
* `dump_eq_iff`: two dumps of one range are equal exactly if their character columns are.
* `peek_differs_iff`: so a dump tells two memories apart exactly if they differ in a byte that is
  not shown as a dot in both.
-/

namespace HorizonOS.Kernel

open HorizonOS.Lib HorizonOS.Libc

/-! ## Model -/

/-- A hexadecimal digit, as `parse_hex` reads it (shell.c:39–48). -/
def nibble (c : Byte) : Option Byte :=
  if ascii '0' ≤ c ∧ c ≤ ascii '9' then some (c - ascii '0')
  else if ascii 'a' ≤ c ∧ c ≤ ascii 'f' then some (c - ascii 'a' + 10)
  else if ascii 'A' ≤ c ∧ c ≤ ascii 'F' then some (c - ascii 'A' + 10)
  else none

/-- The loop of `parse_hex` (shell.c:38–51) for a `virt_addr_t` of `w` bits: the value, and the
    characters left. -/
def parseHexLoop {w : ℕ} : List Byte → BitVec w → BitVec w × List Byte
  | [], val => (val, [])
  | c :: s, val =>
    match nibble c with
    | some d => parseHexLoop s (val <<< 4 ||| d.setWidth w)
    | none => (val, c :: s)

/-- `parse_hex(s, endp)` (shell.c:31–56 and peek.c:6–29) on the characters in front of the NUL. -/
def parseHex (w : ℕ) (s : List Byte) : BitVec w × List Byte :=
  match s with
  | c :: c' :: rest =>
    if c = ascii '0' ∧ (c' = ascii 'x' ∨ c' = ascii 'X') then parseHexLoop rest 0
    else parseHexLoop s 0
  | _ => parseHexLoop s 0

/-- The length that is dumped (shell.c:74–76 and peek.c:44–46). -/
def acceptLength {w : ℕ} (len : BitVec w) : BitVec w := if len = 0 ∨ 512 < len then 64 else len

/-- The character that stands for a byte (shell.c:97–98 and peek.c:65–66). -/
def shownChar (c : Byte) : Byte := if 0x20 ≤ c ∧ c < 0x7f then c else ascii '.'

/-- `console_printf("%02x ", mem[i + j])`. -/
def byteText (c : Byte) : Option (List Byte) :=
  consoleVprintf (['%', '0', '2', 'x', ' '].map ascii) [.int (c.setWidth 32)]

/-- The row of a dump at offset `i` behind the address (shell.c:84–100 and peek.c:52–68). -/
def dumpRow {w : ℕ} (mem : BitVec w → Byte) (addr : BitVec w) (len i : ℕ) : Option (List Byte) := do
  let bytes ← (List.range 16).mapM fun j => do
    let text ← if i + j < len then byteText (mem (addr + BitVec.ofNat w (i + j)))
      else some (consolePuts [ascii ' ', ascii ' ', ascii ' '])
    return text ++ if j = 7 then [ascii ' '] else []
  return bytes.flatten ++ consolePuts [ascii ' ', ascii '|'] ++
    (List.range (min 16 (len - i))).map (fun j => shownChar (mem (addr + BitVec.ofNat w (i + j)))) ++
    consolePuts [ascii '|', ascii '\n']

/-- The loop over the rows (shell.c:79–101 and peek.c:49–69); `header` prints the address of a row. -/
def dump {w : ℕ} (header : BitVec w → Option (List Byte)) (mem : BitVec w → Byte)
    (addr len : BitVec w) : Option (List Byte) := do
  let rows ← (List.range' 0 ((len.toNat + 15) / 16) 16).mapM fun i => do
    let text ← header (addr + BitVec.ofNat w i)
    return text ++ (← dumpRow mem addr len.toNat i)
  return rows.flatten

/-- `usage: peek <addr> [len]` and a newline. -/
def usage : List Byte := ("usage: peek <addr> [len]\n".toList).map ascii

namespace X86

/-- The address and the length that `cmd_peek` takes from its text (shell.c:59–76); `none` if it
    prints its usage. -/
def peekRange (args : List Byte) : Option (BitVec 64 × BitVec 64) :=
  if args = [] then none
  else
    let (addr, rest) := parseHex 64 args
    let rest := rest.dropWhile (· = ascii ' ')
    let len := if rest ≠ [] then (parseHex 64 rest).1 else 64
    some (addr, acceptLength len)

/-- `console_printf("%08x%08x  ", (uint32_t)(row >> 32), (uint32_t)row)` (shell.c:81–82). -/
def header (row : BitVec 64) : Option (List Byte) :=
  consoleVprintf
    (['%', '0', '8', 'x', '%', '0', '8', 'x', ' ', ' '].map ascii)
    [.int ((row >>> 32).setWidth 32), .int (row.setWidth 32)]

/-- `cmd_peek(args)` (shell.c:58–102): the characters passed to `console_putchar`. -/
def cmdPeek (mem : BitVec 64 → Byte) (args : List Byte) : Option (List Byte) :=
  match peekRange args with
  | none => some usage
  | some (addr, len) => dump header mem addr len

end X86

namespace I386

/-- The address and the length that `cmd_peek` takes from its arguments (peek.c:32–46). -/
def peekRange : List (List Byte) → Option (BitVec 32 × BitVec 32)
  | [] => none
  | [arg] => some ((parseHex 32 arg).1, acceptLength 64)
  | arg :: arg' :: _ => some ((parseHex 32 arg).1, acceptLength (parseHex 32 arg').1)

/-- `console_printf("%08x  ", addr + i)` (peek.c:50). -/
def header (row : BitVec 32) : Option (List Byte) :=
  consoleVprintf (['%', '0', '8', 'x', ' ', ' '].map ascii) [.int row]

/-- `cmd_peek(argc, argv)` (peek.c:31–70). -/
def cmdPeek (mem : BitVec 32 → Byte) (argv : List (List Byte)) : Option (List Byte) :=
  match peekRange argv with
  | none => some usage
  | some (addr, len) => dump header mem addr len

end I386

/-! ## Reading digits -/

theorem nibble_digitChar : ∀ d < 16, nibble (digitChar d) = some (BitVec.ofNat 8 d) := by
  decide

/-- Appending a digit to a number. -/
theorem shiftLeft_or_digit (w n : ℕ) :
    BitVec.ofNat w (n / 16) <<< 4 ||| (BitVec.ofNat 8 (n % 16)).setWidth w = BitVec.ofNat w n := by
  apply BitVec.eq_of_getLsbD_eq
  intro i hi
  have hdiv : n / 16 = n / 2 ^ 4 := rfl
  have hmod : n % 16 = n % 2 ^ 4 := rfl
  simp only [BitVec.getLsbD_or, BitVec.getLsbD_shiftLeft, BitVec.getLsbD_setWidth,
    BitVec.getLsbD_ofNat, hdiv, hmod, Nat.testBit_div_two_pow, Nat.testBit_mod_two_pow]
  by_cases hlow : i < 4
  · simp [hi, hlow, show i < 8 by omega]
  · simp [hi, hlow, show i - 4 + 4 = i by omega, show i - 4 < w by omega]

theorem parseHexLoop_digits {w : ℕ} (n : ℕ) (rest : List Byte) :
    parseHexLoop (((Nat.digits 16 n).map digitChar).reverse ++ rest) 0 =
      parseHexLoop rest (BitVec.ofNat w n) := by
  induction n using Nat.strong_induction_on generalizing rest with
  | _ n ih =>
    rcases Nat.eq_zero_or_pos n with rfl | hn
    · rfl
    · rw [Nat.digits_def' (by decide) hn, List.map_cons, List.reverse_cons, List.append_assoc,
        ih (n / 16) (Nat.div_lt_self hn (by decide)), List.singleton_append, parseHexLoop,
        nibble_digitChar _ (Nat.mod_lt n (by decide))]
      simp only [shiftLeft_or_digit]

/-! ## What is printed -/

/-- The field width is not understood: the directive is printed and the byte is not. -/
theorem byteText_eq (c : Byte) : byteText c = some (['%', '0', '2', 'x', ' '].map ascii) := rfl

theorem X86.header_eq (row : BitVec 64) :
    X86.header row = some (['%', '0', '8', 'x', '%', '0', '8', 'x', ' ', ' '].map ascii) := rfl

theorem I386.header_eq (row : BitVec 32) :
    I386.header row = some (['%', '0', '8', 'x', ' ', ' '].map ascii) := rfl

/-- What a row prints for its bytes, whatever they are. -/
def hexPart (len i : ℕ) : List Byte :=
  ((List.range 16).map fun j =>
    (if i + j < len then ['%', '0', '2', 'x', ' '].map ascii
      else consolePuts [ascii ' ', ascii ' ', ascii ' ']) ++
    if j = 7 then [ascii ' '] else []).flatten

section Dump

variable {w : ℕ} {header : BitVec w → Option (List Byte)} {title : List Byte}
  {mem mem' : BitVec w → Byte} {addr : BitVec w}

/-- The characters of a row. -/
def column (mem : BitVec w → Byte) (addr : BitVec w) (len i : ℕ) : List Byte :=
  (List.range (min 16 (len - i))).map fun j => shownChar (mem (addr + BitVec.ofNat w (i + j)))

theorem mapM_eq_some {ι α : Type*} {f : ι → Option α} {g : ι → α} (h : ∀ a, f a = some (g a))
    (l : List ι) : l.mapM f = some (l.map g) := by
  rw [funext h]
  exact List.mapM_pure

theorem dumpRow_eq (len i : ℕ) :
    dumpRow mem addr len i =
      some (hexPart len i ++ consolePuts [ascii ' ', ascii '|'] ++ column mem addr len i ++
        consolePuts [ascii '|', ascii '\n']) := by
  unfold dumpRow
  rw [mapM_eq_some (g := fun j => (if i + j < len then ['%', '0', '2', 'x', ' '].map ascii
      else consolePuts [ascii ' ', ascii ' ', ascii ' ']) ++ if j = 7 then [ascii ' '] else [])]
  · rfl
  · intro j
    rw [byteText_eq]
    split_ifs <;> rfl

/-- The characters of a dump whose rows start with `title`. -/
theorem dump_eq (htitle : ∀ row, header row = some title) (len : BitVec w) :
    dump header mem addr len =
      some ((List.range' 0 ((len.toNat + 15) / 16) 16).map fun i =>
        title ++ (hexPart len.toNat i ++ consolePuts [ascii ' ', ascii '|'] ++
          column mem addr len.toNat i ++ consolePuts [ascii '|', ascii '\n'])).flatten := by
  unfold dump
  rw [mapM_eq_some (g := fun i => title ++ (hexPart len.toNat i ++
      consolePuts [ascii ' ', ascii '|'] ++ column mem addr len.toNat i ++
      consolePuts [ascii '|', ascii '\n']))]
  · rfl
  · intro i
    rw [htitle, dumpRow_eq]
    rfl

/-- Concatenations of pieces of equal lengths are equal only if the pieces are. -/
theorem flatten_map_inj {ι α : Type*} {f g : ι → List α} {l : List ι}
    (hlen : ∀ a ∈ l, (f a).length = (g a).length) :
    (l.map f).flatten = (l.map g).flatten ↔ ∀ a ∈ l, f a = g a := by
  constructor
  · intro h
    induction l with
    | nil => exact fun a ha => absurd ha List.not_mem_nil
    | cons b l ih =>
      rw [List.map_cons, List.map_cons, List.flatten_cons, List.flatten_cons] at h
      obtain ⟨hhead, htail⟩ := List.append_inj h (hlen b List.mem_cons_self)
      intro a ha
      rcases List.mem_cons.mp ha with rfl | ha
      · exact hhead
      · exact ih (fun a ha => hlen a (List.mem_cons_of_mem _ ha)) htail a ha
  · intro h
    rw [List.map_congr_left h]

theorem dump_eq_iff (htitle : ∀ row, header row = some title) (len : BitVec w) :
    dump header mem addr len = dump header mem' addr len ↔
      ∀ k < len.toNat, shownChar (mem (addr + BitVec.ofNat w k)) =
        shownChar (mem' (addr + BitVec.ofNat w k)) := by
  rw [dump_eq htitle, dump_eq htitle, Option.some_inj, flatten_map_inj (by simp [column])]
  simp only [List.append_cancel_left_eq, List.append_cancel_right_eq, List.mem_range', column,
    List.map_inj_left, List.mem_range]
  constructor
  · intro h k hk
    have hrow := h (0 + 16 * (k / 16)) ⟨k / 16, by omega, rfl⟩ (k % 16) (by omega)
    rwa [Nat.zero_add, Nat.div_add_mod] at hrow
  · rintro h i ⟨r, hr, rfl⟩ j hj
    exact h _ (by omega)

end Dump

/-! ## What a dump tells -/

/-- The byte is shown as a dot. -/
def Hidden (c : Byte) : Prop := c = ascii '.' ∨ c < 0x20 ∨ 0x7f ≤ c

theorem shownChar_of_hidden {c : Byte} (h : Hidden c) : shownChar c = ascii '.' := by
  unfold shownChar
  rcases h with rfl | h | h
  · rfl
  · rw [if_neg fun hc => absurd h (BitVec.not_lt.mpr hc.1)]
  · rw [if_neg fun hc => absurd hc.2 (BitVec.not_lt.mpr h)]

theorem shownChar_of_not_hidden {c : Byte} (h : ¬Hidden c) : shownChar c = c ∧ c ≠ ascii '.' := by
  simp only [Hidden, not_or, BitVec.not_lt, BitVec.not_le] at h
  exact ⟨if_pos h.2, h.1⟩

theorem shownChar_ne_iff (c c' : Byte) :
    shownChar c ≠ shownChar c' ↔ c ≠ c' ∧ ¬(Hidden c ∧ Hidden c') := by
  by_cases h : Hidden c
  · by_cases h' : Hidden c'
    · simp [shownChar_of_hidden h, shownChar_of_hidden h', h, h']
    · obtain ⟨hshown, hdot⟩ := shownChar_of_not_hidden h'
      rw [shownChar_of_hidden h, hshown]
      refine ⟨fun _ => ⟨?_, fun hboth => h' hboth.2⟩, fun _ => hdot.symm⟩
      rintro rfl
      exact h' h
  · obtain ⟨hshown, hdot⟩ := shownChar_of_not_hidden h
    rw [hshown]
    refine ⟨fun hne => ⟨?_, fun hboth => h hboth.1⟩, fun hne => ?_⟩
    · rintro rfl
      exact hne hshown.symm
    · by_cases h' : Hidden c'
      · rw [shownChar_of_hidden h']
        exact hdot
      · rw [(shownChar_of_not_hidden h').1]
        exact hne.1

/-- Two memories differ in a byte of `len` bytes from `addr` on that is not shown as a dot in
    both. -/
def DifferShown {w : ℕ} (mem mem' : BitVec w → Byte) (addr len : BitVec w) : Prop :=
  ∃ k < len.toNat, mem (addr + BitVec.ofNat w k) ≠ mem' (addr + BitVec.ofNat w k) ∧
    ¬(Hidden (mem (addr + BitVec.ofNat w k)) ∧ Hidden (mem' (addr + BitVec.ofNat w k)))

theorem dump_ne_iff {w : ℕ} {header : BitVec w → Option (List Byte)} {title : List Byte}
    (htitle : ∀ row, header row = some title) (mem mem' : BitVec w → Byte) (addr len : BitVec w) :
    dump header mem addr len ≠ dump header mem' addr len ↔ DifferShown mem mem' addr len := by
  rw [Ne, dump_eq_iff htitle]
  push Not
  unfold DifferShown
  simp only [← shownChar_ne_iff]

/-- **What a dump tells.** On either shell the dumps of one range of two memories differ if and only
    if the memories differ there in a byte that is not shown as a dot in both. -/
theorem peek_differs_iff {args : List Byte} {addr len : BitVec 64}
    (hargs : X86.peekRange args = some (addr, len)) (mem mem' : BitVec 64 → Byte)
    {argv : List (List Byte)} {addr₃₂ len₃₂ : BitVec 32}
    (hargv : I386.peekRange argv = some (addr₃₂, len₃₂)) (mem₃₂ mem₃₂' : BitVec 32 → Byte) :
    (X86.cmdPeek mem args ≠ X86.cmdPeek mem' args ↔ DifferShown mem mem' addr len) ∧
    (I386.cmdPeek mem₃₂ argv ≠ I386.cmdPeek mem₃₂' argv ↔
      DifferShown mem₃₂ mem₃₂' addr₃₂ len₃₂) := by
  constructor
  · simp only [X86.cmdPeek, hargs]
    exact dump_ne_iff X86.header_eq mem mem' addr len
  · simp only [I386.cmdPeek, hargv]
    exact dump_ne_iff I386.header_eq mem₃₂ mem₃₂' addr₃₂ len₃₂

/-- `peek b8000 2` over the letters `A` and `B`. -/
theorem peek_differs_iff_letters :
    let text := ['b', '8', '0', '0', '0', ' ', '2'].map ascii
    let argv := [['b', '8', '0', '0', '0'].map ascii, [ascii '2']]
    X86.cmdPeek (fun _ => ascii 'A') text ≠ X86.cmdPeek (fun _ => ascii 'B') text ∧
    I386.cmdPeek (fun _ => ascii 'A') argv ≠ I386.cmdPeek (fun _ => ascii 'B') argv := by
  intro text argv
  have htext : X86.peekRange text = some (0xb8000, 2) := by decide +kernel
  have hargv : I386.peekRange argv = some (0xb8000, 2) := by decide +kernel
  obtain ⟨h64, h32⟩ := peek_differs_iff htext (fun _ => ascii 'A') (fun _ => ascii 'B') hargv
    (fun _ => ascii 'A') (fun _ => ascii 'B')
  have hhidden : ¬(Hidden (ascii 'A') ∧ Hidden (ascii 'B')) := by
    unfold Hidden
    decide
  exact ⟨h64.mpr ⟨0, by decide, by decide, hhidden⟩, h32.mpr ⟨0, by decide, by decide, hhidden⟩⟩

/-- `peek b8000 2` prints the same for a memory of zeros and one of ones. -/
theorem peek_same_dump :
    let text := ['b', '8', '0', '0', '0', ' ', '2'].map ascii
    let argv := [['b', '8', '0', '0', '0'].map ascii, [ascii '2']]
    X86.peekRange text = some (0xb8000, 2) ∧ I386.peekRange argv = some (0xb8000, 2) ∧
    X86.cmdPeek (fun _ => 0) text = X86.cmdPeek (fun _ => 1) text ∧
    I386.cmdPeek (fun _ => 0) argv = I386.cmdPeek (fun _ => 1) argv := by
  decide +kernel

end HorizonOS.Kernel
