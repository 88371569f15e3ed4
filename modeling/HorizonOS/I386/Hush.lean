import HorizonOS.Lib.Words
import HorizonOS.Libc.String

/-!
# The shell of the 32-bit kernel

Models of `parse_command_buffer`, the command registry and the loop of `hush_init`
(arch/i386/drivers/shell/hush.c:76–246). A line goes through two limits: the parser copies at most
nine characters of the first word and leaves the others to be read as an argument, and the lookup
takes up to ten characters of the registered name. A pointer into the command buffer is the list of
the bytes from there to the buffer's end, so that it can be read while that is not empty, and a
write behind the end of `name` or of an argument has no result.

* `parseCommandBuffer_words`: the parser splits a line into its words.
* `hushLookupRegistry_eq`: the lookup compares whole names, for a name that fits.
* `acceptLine_invokes_iff`: a command is run by its name exactly if that has at most nine
  characters.
-/

namespace HorizonOS.I386.Hush

open HorizonOS.Lib HorizonOS.Libc

/-! ## Model -/

/-- `COMMAND_NAME_LEN` (hush.h:15). -/
def commandNameLen : ℕ := 10

/-- `MAX_COMMAND_LEN` (hush.h:16). -/
def maxCommandLen : ℕ := 80

/-- `MAX_ARGS` (hush.h:17). -/
def maxArgs : ℕ := 10

/-- `ARG_LEN` (hush.h:18). -/
def argLen : ℕ := 30

/-- `MAX_COMMANDS` (hush.h:20). -/
def maxCommands : ℕ := 20

/-- `iswhitespace(c)` (arch/i386/common/ctype.c:8–10). -/
def iswhitespace (c : Byte) : Bool :=
  c = ascii ' ' || c = ascii '\t' || c = ascii '\n' || c = ascii '\r'

/-- The fields of `struct hush_state` (hush.h:29–44) that the shell uses. -/
structure State where
  name : Vector Byte commandNameLen
  argc : ℤ
  args : Vector (Vector Byte argLen) maxArgs
  commandBuffer : Vector Byte maxCommandLen
  commandLen : ℤ
deriving DecidableEq

/-- A write of `dest[i]`; `none` if that is not in the array. -/
def put {n : ℕ} (dest : Vector Byte n) (i : ℕ) (c : Byte) : Option (Vector Byte n) :=
  if h : i < n then some (dest.set i c) else none

/-- `while (*it && iswhitespace(*it) && (it < end)) it++` (hush.c:198–200 and 223–225). `*it` is
    read before `it` is compared with `end`, so that there is nothing left to compare. -/
def skipBlanks : List Byte → Option (List Byte)
  | [] => none
  | c :: it => if c ≠ 0 ∧ iswhitespace c then skipBlanks it else some (c :: it)

/-- The loops that copy a word of at most `limit` characters, with the terminator they write
    (hush.c:209–214 for the name, 235–240 for an argument). -/
def copyWord {n : ℕ} (limit : ℕ) : (it : List Byte) → (dest : Vector Byte n) → (len : ℕ) →
    Option (List Byte × Vector Byte n)
  | [], _, _ => none
  | c :: it, dest, len =>
    if c ≠ 0 ∧ ¬iswhitespace c ∧ len < limit then do
      copyWord limit it (← put dest len c) (len + 1)
    else do
      return (c :: it, ← put dest len 0)

/-- The loop over the arguments (hush.c:222–242): `argc`, and `args` as it leaves them. -/
def readArgs : (fuel : ℕ) → (it : List Byte) → (argc : ℕ) → Vector (Vector Byte argLen) maxArgs →
    Option (ℕ × Vector (Vector Byte argLen) maxArgs)
  | 0, _, _, _ => none
  | fuel + 1, it, argc, args => do
    if (← it.head?) = 0 then return (argc, args)
    else
      let it ← skipBlanks it
      if (← it.head?) = 0 ∨ maxArgs ≤ argc then return (argc, args)
      else
        let (it, dest) ← copyWord (argLen - 1) it (← args[argc]?) 0
        readArgs fuel it (argc + 1) (args.setIfInBounds argc dest)

/-- `parse_command_buffer()` (hush.c:190–246): the state and the value returned. -/
def parseCommandBuffer (s : State) : Option (State × ℤ) := do
  let it ← skipBlanks s.commandBuffer.toList
  if (← it.head?) = 0 then return ({ s with argc := -1 }, -1)
  else
    let (it, name) ← copyWord (commandNameLen - 1) it s.name 0
    if (← it.head?) = 0 then return ({ s with name, argc := 0 }, 0)
    else
      let (argc, args) ← readArgs (maxArgs + 1) it 0 s.args
      return ({ s with name, argc, args }, 0)

/-- The functions of hush.c that commands are registered with. -/
inductive Handler
  | cmdHelp | cmdEcho | cmdClear | pagingTest | vmTest | cmdDisplay | cmdSolve | cmdPong | cmdPeek
deriving DecidableEq

/-- `struct hush_command` (hush.h:46–50). -/
structure HushCommand where
  name : List Byte
  handler : Handler
deriving DecidableEq

/-- `hush_register_command(cmd)` (hush.c:98–102). -/
def hushRegisterCommand (registry : List HushCommand) (cmd : HushCommand) : List HushCommand :=
  if registry.length < maxCommands then registry ++ [cmd] else registry

/-- The builtins (hush.c:76–96) in the order in which `hush_init` registers them
    (hush.c:133–142). -/
def builtins : List HushCommand :=
  [⟨['h', 'e', 'l', 'p'].map ascii, .cmdHelp⟩,
    ⟨['e', 'c', 'h', 'o'].map ascii, .cmdEcho⟩,
    ⟨['c', 'l', 'e', 'a', 'r'].map ascii, .cmdClear⟩,
    ⟨['t', 'e', 's', 't', '-', 'p', 'a', 'g', 'i', 'n', 'g'].map ascii, .pagingTest⟩,
    ⟨['t', 'e', 's', 't', '-', 'v', 'm'].map ascii, .vmTest⟩,
    ⟨['d', 'i', 's', 'p', 'l', 'a', 'y'].map ascii, .cmdDisplay⟩,
    ⟨['s', 'o', 'l', 'v', 'e'].map ascii, .cmdSolve⟩,
    ⟨['p', 'o', 'n', 'g'].map ascii, .cmdPong⟩,
    ⟨['p', 'e', 'e', 'k'].map ascii, .cmdPeek⟩]

/-- The registry that `hush_init` builds. -/
def hushRegistry : List HushCommand := builtins.foldl hushRegisterCommand []

/-- The characters of an array, with nothing behind it. -/
def chars {n : ℕ} (a : Vector Byte n) (i : ℕ) : Byte := a[i]?.getD 0

/-- The characters of a string constant. -/
def literal (text : List Byte) (i : ℕ) : Byte := text.getD i 0

/-- `hush_lookup_registry(name)` (hush.c:104–127). -/
def hushLookupRegistry (registry : List HushCommand) (name : ℕ → Byte) : Option HushCommand :=
  registry.find? fun cmd =>
    let nameLen := strnlen name commandNameLen 0
    strncmp (literal cmd.name) name nameLen 0 = 0 &&
      strnlen (literal cmd.name) commandNameLen 0 = nameLen

/-- A call of a handler. -/
structure Call where
  handler : Handler
  argc : ℤ
  argv : List (Vector Byte argLen)
deriving DecidableEq

/-- What `hush_execute_command` returns, with what it does before. -/
inductive Outcome
  | invalidCommand
  | commandNotFound (printed : List Byte)
  | ok (call : Call)
deriving DecidableEq

/-- `hush_execute_command()` (hush.c:169–188); `none` if `argv` has no room for the arguments. -/
def hushExecuteCommand (registry : List HushCommand) (s : State) : Option Outcome :=
  if s.argc < 0 then some .invalidCommand
  else
    match hushLookupRegistry registry (chars s.name) with
    | none => some (.commandNotFound ("[hush]: no match found\n".toList.map ascii))
    | some command =>
      if s.argc ≤ maxArgs then
        some (.ok ⟨command.handler, s.argc, s.args.toList.take s.argc.toNat⟩)
      else none

/-- The command buffer after `memcpy(hush_state.command_buffer, buf, copy_len)` and the terminator
    (hush.c:157–158). -/
def copyLine {n : ℕ} (old : Vector Byte n) (buf : ℕ → Byte) (copyLen : ℕ) : Vector Byte n :=
  Vector.ofFn fun i =>
    if i.val < copyLen then buf i.val else if i.val = copyLen then 0 else old.get i

/-- The body of the loop of `hush_init` for a line of `len` characters in `buf` (hush.c:153–162). -/
def acceptLine (registry : List HushCommand) (s : State) (buf : ℕ → Byte) (len : ℤ) :
    Option (State × Option Outcome) :=
  if 0 < len then do
    let copyLen : ℤ := if len < maxCommandLen - 1 then len else maxCommandLen - 1
    let (s, _) ← parseCommandBuffer
      { s with commandBuffer := copyLine s.commandBuffer buf copyLen.toNat, commandLen := copyLen }
    return (s, some (← hushExecuteCommand registry s))
  else return (s, none)

/-- The array starts with the text and its terminator. -/
def HoldsText {n : ℕ} (a : Vector Byte n) (text : List Byte) : Prop := text ++ [0] <+: a.toList

/-! ## The parser -/

/-- No character is a terminator. -/
def NulFree (text : List Byte) : Prop := ∀ c ∈ text, c ≠ 0

/-- For texts that are written out. -/
theorem nulFree_of_all {text : List Byte} (h : text.all (· != 0) = true) : NulFree text := by
  simpa [NulFree] using h

theorem skipBlanks_eq {text : List Byte} (htext : NulFree text) (rest : List Byte) :
    skipBlanks (text ++ 0 :: rest) = some (text.dropWhile iswhitespace ++ 0 :: rest) := by
  induction text with
  | nil => rfl
  | cons c text ih =>
    obtain ⟨hc, htext⟩ := List.forall_mem_cons.mp htext
    rw [List.cons_append, skipBlanks]
    by_cases hblank : iswhitespace c
    · rw [if_pos ⟨hc, hblank⟩, List.dropWhile_cons_of_pos hblank, ih htext]
    · rw [if_neg fun h => hblank h.2, List.dropWhile_cons_of_neg hblank, List.cons_append]

theorem put_eq {n : ℕ} (dest : Vector Byte n) {i : ℕ} (hi : i < n) (c : Byte) :
    put dest i c = some (dest.set i c) := dif_pos hi

theorem set_take_succ {n : ℕ} (dest : Vector Byte n) {i : ℕ} (hi : i < n) (c : Byte) :
    (dest.set i c).toList.take (i + 1) = dest.toList.take i ++ [c] := by
  rw [Vector.toList_set, List.take_add_one]
  simp [hi, List.take_set_of_le]

/-- The copy ends in front of a blank or of the end, or at the limit. -/
theorem copyWord_eq {n limit : ℕ} (hlimit : limit < n) {w : List Byte}
    (hw : ∀ c ∈ w, c ≠ 0 ∧ iswhitespace c = false) {c : Byte} (it : List Byte) {len : ℕ}
    (hlen : len + w.length ≤ limit)
    (hstop : c = 0 ∨ iswhitespace c ∨ len + w.length = limit) (dest : Vector Byte n) :
    ∃ dest', copyWord limit (w ++ c :: it) dest len = some (c :: it, dest') ∧
      dest.toList.take len ++ w ++ [0] <+: dest'.toList := by
  induction w generalizing len dest with
  | nil =>
    refine ⟨dest.set len 0 (by simpa using lt_of_le_of_lt hlen hlimit), ?_, ?_⟩
    · rw [List.nil_append, copyWord, if_neg, put_eq]
      · rfl
      · rintro ⟨h0, hblank, hlt⟩
        rcases hstop with h | h | h
        · exact h0 h
        · exact hblank h
        · exact absurd h (by simpa using hlt.ne)
    · rw [List.append_nil, ← set_take_succ]
      exact List.take_prefix _ _
  | cons d w ih =>
    obtain ⟨⟨hd, hdblank⟩, hw⟩ := List.forall_mem_cons.mp hw
    rw [List.length_cons] at hlen hstop
    have hlt : len < n := by omega
    have hlen' : len + 1 + w.length ≤ limit := by omega
    obtain ⟨dest', hcopy, hdest⟩ := ih hw hlen' (by rwa [Nat.add_assoc, Nat.add_comm 1])
      (dest.set len d)
    refine ⟨dest', ?_, ?_⟩
    · rw [List.cons_append, copyWord, if_pos ⟨hd, by simp [hdblank], by omega⟩, put_eq dest hlt]
      exact hcopy
    · rw [set_take_succ] at hdest
      simpa using hdest

/-- A word of a line is copied up to the end of the word, or up to the limit. -/
theorem copyWord_take {n limit : ℕ} (hlimit : limit < n) {w : List Byte}
    (hw : ∀ c ∈ w, c ≠ 0 ∧ iswhitespace c = false) {text : List Byte}
    (htext : ∀ c ∈ text.head?, iswhitespace c) (rest : List Byte) (dest : Vector Byte n) :
    ∃ dest', copyWord limit (w ++ (text ++ 0 :: rest)) dest 0 =
        some (w.drop limit ++ (text ++ 0 :: rest), dest') ∧
      HoldsText dest' (w.take limit) := by
  have hw' : ∀ c ∈ w.take limit, c ≠ 0 ∧ iswhitespace c = false := fun c hc =>
    hw c (List.mem_of_mem_take hc)
  obtain ⟨c, it, hnext⟩ : ∃ c it, w.drop limit ++ (text ++ 0 :: rest) = c :: it :=
    List.exists_cons_of_ne_nil (by simp)
  have hstop : c = 0 ∨ iswhitespace c ∨ 0 + (w.take limit).length = limit := by
    rcases Nat.lt_or_ge w.length limit with hshort | hlong
    · rw [List.drop_of_length_le hshort.le, List.nil_append] at hnext
      cases text with
      | nil => exact .inl (List.cons.inj hnext).1.symm
      | cons d text => exact .inr (.inl (htext c (by rw [← (List.cons.inj hnext).1]; rfl)))
    · right; right
      rw [List.length_take]
      omega
  obtain ⟨dest', hcopy, hdest⟩ := copyWord_eq hlimit hw' it (by simp) hstop dest
  refine ⟨dest', ?_, by simpa [HoldsText] using hdest⟩
  rwa [← hnext, ← List.append_assoc, List.take_append_drop] at hcopy

section ReadArgs

variable {fuel argc : ℕ} {args : Vector (Vector Byte argLen) maxArgs} {it : List Byte} {c : Byte}

theorem readArgs_end : readArgs (fuel + 1) (0 :: it) argc args = some (argc, args) := rfl

theorem readArgs_break {it' : List Byte} {c' : Byte} (hc : c ≠ 0)
    (hskip : skipBlanks (c :: it) = some (c' :: it')) (hbreak : c' = 0 ∨ maxArgs ≤ argc) :
    readArgs (fuel + 1) (c :: it) argc args = some (argc, args) := by
  simp only [readArgs, List.head?_cons, Option.bind_eq_bind, Option.bind_some, if_neg hc, hskip,
    if_pos hbreak]
  rfl

theorem readArgs_arg {it' it'' : List Byte} {c' : Byte} {dest : Vector Byte argLen} (hc : c ≠ 0)
    (hskip : skipBlanks (c :: it) = some (c' :: it')) (hc' : c' ≠ 0) (hargc : argc < maxArgs)
    (hcopy : copyWord (argLen - 1) (c' :: it') args[argc] 0 = some (it'', dest)) :
    readArgs (fuel + 1) (c :: it) argc args =
      readArgs fuel it'' (argc + 1) (args.set argc dest) := by
  have hgo : ¬(c' = 0 ∨ maxArgs ≤ argc) := by
    rintro (h | h)
    · exact hc' h
    · omega
  simp only [readArgs, List.head?_cons, Option.bind_eq_bind, Option.bind_some, if_neg hc, hskip,
    if_neg hgo, Vector.getElem?_eq_getElem hargc, hcopy]
  congr 1
  ext i hi
  simp [Vector.getElem_setIfInBounds, Vector.getElem_set]

/-- The first `argc` arguments of `args` are still there, and the words `ws` are behind them as far
    as there is room. -/
structure Extends (args args' : Vector (Vector Byte argLen) maxArgs) (argc : ℕ)
    (ws : List (List Byte)) : Prop where
  kept : ∀ i < argc, args'[i]? = args[i]?
  new : ∀ i, argc + i < maxArgs → ∀ w ∈ ws[i]?, ∃ arg ∈ args'[argc + i]?, HoldsText arg w

theorem Extends.none : Extends args args argc [] := ⟨fun _ _ => rfl, by simp⟩

theorem Extends.full {ws : List (List Byte)} (hfull : maxArgs ≤ argc) : Extends args args argc ws :=
  ⟨fun _ _ => rfl, fun i hi => by omega⟩

theorem Extends.cons {args' : Vector (Vector Byte argLen) maxArgs} {dest : Vector Byte argLen}
    {w : List Byte} {ws : List (List Byte)} (hroom : argc < maxArgs) (hdest : HoldsText dest w)
    (h : Extends (args.set argc dest) args' (argc + 1) ws) : Extends args args' argc (w :: ws) where
  kept i hi := by
    rw [h.kept i (by omega)]
    simp [show argc ≠ i by omega]
  new i hi v hv := by
    cases i with
    | zero =>
      obtain rfl : w = v := by simpa using hv
      refine ⟨dest, ?_, hdest⟩
      rw [Nat.add_zero, h.kept argc (by omega)]
      simp [hroom]
    | succ i =>
      have hnew := h.new i (by omega) v (by simpa using hv)
      rwa [Nat.add_right_comm, Nat.add_assoc] at hnew

/-- Arguments that are already there stay, and each further word becomes one while there is room. -/
theorem readArgs_words {text : List Byte} (htext : NulFree text)
    (hargs : ∀ w ∈ splitWords iswhitespace text, w.length ≤ argLen - 1) (rest : List Byte)
    (hargc : argc ≤ maxArgs) (hfuel : maxArgs < fuel + argc)
    (args : Vector (Vector Byte argLen) maxArgs) :
    ∃ args', readArgs fuel (text ++ 0 :: rest) argc args =
        some (min (argc + (splitWords iswhitespace text).length) maxArgs, args') ∧
      Extends args args' argc (splitWords iswhitespace text) := by
  induction fuel generalizing text argc args with
  | zero => omega
  | succ fuel ih =>
    cases text with
    | nil =>
      refine ⟨args, ?_, .none⟩
      rw [List.nil_append, readArgs_end, splitWords_nil, List.length_nil, Nat.add_zero,
        Nat.min_eq_left hargc]
    | cons c text =>
      have hskip := skipBlanks_eq htext rest
      rw [List.cons_append] at hskip ⊢
      have hc : c ≠ 0 := htext c List.mem_cons_self
      obtain ⟨hdrop, hwords⟩ | ⟨w, text', hdrop, hne, hw, htext', hwords⟩ :=
        splitWords_cases iswhitespace (c :: text)
      · -- nothing but blanks
        rw [hdrop] at hskip
        refine ⟨args, ?_, hwords ▸ .none⟩
        rw [readArgs_break hc hskip (.inl rfl), hwords, List.length_nil, Nat.add_zero,
          Nat.min_eq_left hargc]
      · obtain ⟨d, w', rfl⟩ := List.exists_cons_of_ne_nil hne
        have hsub : ∀ a ∈ d :: w' ++ text', a ∈ c :: text := fun a ha =>
          (List.dropWhile_sublist _).subset (hdrop ▸ ha)
        have hd : d ≠ 0 := htext d (hsub d (by simp))
        rw [hdrop, List.append_assoc, List.cons_append] at hskip
        rcases Nat.lt_or_ge argc maxArgs with hroom | hfull
        · have hlen : (d :: w').length ≤ argLen - 1 := hargs _ (by simp [hwords])
          have hlimit : argLen - 1 < argLen := by decide
          obtain ⟨dest, hcopy, hdest⟩ := copyWord_take hlimit
            (fun a ha => ⟨htext a (hsub a (List.mem_append_left _ ha)), hw a ha⟩)
            htext' rest args[argc]
          rw [List.drop_of_length_le hlen, List.nil_append] at hcopy
          rw [List.take_of_length_le hlen] at hdest
          obtain ⟨args', hread, hext⟩ := @ih (argc + 1) text'
            (fun a ha => htext a (hsub a (List.mem_append_right _ ha)))
            (fun v hv => hargs v (by simp [hwords, hv])) hroom (by omega) (args.set argc dest)
          refine ⟨args', ?_, hwords ▸ hext.cons hroom hdest⟩
          rw [readArgs_arg hc hskip hd hroom hcopy, hread, hwords, List.length_cons]
          congr 2
          omega
        · refine ⟨args, ?_, .full hfull⟩
          rw [readArgs_break hc hskip (.inr hfull)]
          congr 2
          omega

end ReadArgs

/-- The words the parser finds behind a first word: what does not fit into `name` is one of them. -/
def further (w : List Byte) (ws : List (List Byte)) : List (List Byte) :=
  if w.length ≤ commandNameLen - 1 then ws else w.drop (commandNameLen - 1) :: ws

theorem words_further {w text : List Byte} (hw : ∀ c ∈ w, iswhitespace c = false)
    (htext : ∀ c ∈ text.head?, iswhitespace c) :
    splitWords iswhitespace (w.drop (commandNameLen - 1) ++ text) =
      further w (splitWords iswhitespace text) := by
  unfold further
  split_ifs with hlen
  · rw [List.drop_of_length_le hlen, List.nil_append]
  · refine splitWords_append ?_ (fun c hc => hw c (List.mem_of_mem_drop hc)) htext
    rw [Ne, List.drop_eq_nil_iff]
    exact hlen

variable {s : State} {line rest : List Byte}

theorem parseCommandBuffer_blank {it : List Byte}
    (hskip : skipBlanks s.commandBuffer.toList = some (0 :: it)) :
    parseCommandBuffer s = some ({ s with argc := -1 }, -1) := by
  simp only [parseCommandBuffer, hskip, Option.bind_eq_bind, Option.bind_some, List.head?_cons]
  rfl

theorem parseCommandBuffer_name {it it' : List Byte} {c c' : Byte}
    {name : Vector Byte commandNameLen} (hc : c ≠ 0)
    (hskip : skipBlanks s.commandBuffer.toList = some (c :: it))
    (hcopy : copyWord (commandNameLen - 1) (c :: it) s.name 0 = some (c' :: it', name)) :
    parseCommandBuffer s =
      if c' = 0 then some ({ s with name, argc := 0 }, 0)
      else (readArgs (maxArgs + 1) (c' :: it') 0 s.args).map fun r =>
        ({ s with name, argc := r.1, args := r.2 }, 0) := by
  simp only [parseCommandBuffer, hskip, hcopy, Option.bind_eq_bind, Option.bind_some,
    List.head?_cons, if_neg hc, Option.map_eq_bind]
  rfl

/-- A line of blanks. -/
theorem parseCommandBuffer_nil (hbuf : s.commandBuffer.toList = line ++ 0 :: rest)
    (hline : NulFree line) (hwords : splitWords iswhitespace line = []) :
    parseCommandBuffer s = some ({ s with argc := -1 }, -1) := by
  have hskip := skipBlanks_eq hline rest
  obtain ⟨hdrop, -⟩ | ⟨w, text, -, -, -, -, hcons⟩ := splitWords_cases iswhitespace line
  · rw [hdrop, List.nil_append] at hskip
    exact parseCommandBuffer_blank (hbuf ▸ hskip)
  · rw [hwords] at hcons
    exact absurd hcons.symm (List.cons_ne_nil _ _)

/-- A line with a word, of any length. -/
theorem parseCommandBuffer_cons (hbuf : s.commandBuffer.toList = line ++ 0 :: rest)
    (hline : NulFree line) {w : List Byte} {ws : List (List Byte)}
    (hwords : splitWords iswhitespace line = w :: ws)
    (hargs : ∀ v ∈ further w ws, v.length ≤ argLen - 1) :
    ∃ name args, parseCommandBuffer s =
        some ({ s with name, argc := min (further w ws).length maxArgs, args }, 0) ∧
      HoldsText name (w.take (commandNameLen - 1)) ∧
      ∀ i < maxArgs, ∀ v ∈ (further w ws)[i]?, ∃ arg ∈ args[i]?, HoldsText arg v := by
  have hskip := skipBlanks_eq hline rest
  obtain ⟨-, hnil⟩ | ⟨w, text, hdrop, hne, hw, htext, hcons⟩ := splitWords_cases iswhitespace line
  · rw [hwords] at hnil
    exact absurd hnil (List.cons_ne_nil _ _)
  obtain ⟨rfl, rfl⟩ := List.cons.inj (hwords.symm.trans hcons)
  have hsub : ∀ a ∈ w ++ text, a ≠ 0 := fun a ha =>
    hline a ((List.dropWhile_sublist _).subset (hdrop ▸ ha))
  obtain ⟨d, w', rfl⟩ := List.exists_cons_of_ne_nil hne
  have hd : d ≠ 0 := hsub d (by simp)
  have hlimit : commandNameLen - 1 < commandNameLen := by decide
  obtain ⟨name, hcopy, hname⟩ := copyWord_take hlimit
    (fun a ha => ⟨hsub a (List.mem_append_left _ ha), hw a ha⟩) htext rest s.name
  have hfurther := words_further hw htext
  rw [← hbuf, hdrop, List.append_assoc] at hskip
  rw [← List.append_assoc (List.drop _ _)] at hcopy
  generalize hleft : List.drop (commandNameLen - 1) (d :: w') ++ text = left at hfurther hcopy
  have hleft0 : NulFree left := by
    rw [← hleft]
    intro a ha
    rcases List.mem_append.mp ha with ha | ha
    · exact hsub a (List.mem_append_left _ (List.mem_of_mem_drop ha))
    · exact hsub a (List.mem_append_right _ ha)
  rw [← hfurther] at hargs ⊢
  cases left with
  | nil =>
    refine ⟨name, s.args, ?_, hname, by simp⟩
    exact parseCommandBuffer_name hd hskip hcopy
  | cons a left =>
    have ha : a ≠ 0 := hleft0 a List.mem_cons_self
    obtain ⟨args, hread, hext⟩ :=
      readArgs_words hleft0 hargs rest (Nat.zero_le maxArgs) (Nat.lt_succ_self _) s.args
    have hshape : a :: left ++ 0 :: rest = a :: (left ++ 0 :: rest) := rfl
    rw [hshape] at hcopy hread
    refine ⟨name, args, ?_, hname, fun i hi v hv => ?_⟩
    · rw [parseCommandBuffer_name hd hskip hcopy, if_neg ha, hread, Nat.zero_add, Option.map_some,
        Nat.cast_min]
    · have h := hext.new i (by omega) v hv
      rwa [Nat.zero_add] at h

/-- **The parser splits a line into words.** -/
theorem parseCommandBuffer_words (hbuf : s.commandBuffer.toList = line ++ 0 :: rest)
    (hline : NulFree line)
    (hname : ∀ w ∈ (splitWords iswhitespace line).head?, w.length ≤ commandNameLen - 1)
    (hargs : ∀ w ∈ (splitWords iswhitespace line).tail, w.length ≤ argLen - 1) :
    match splitWords iswhitespace line with
    | [] => parseCommandBuffer s = some ({ s with argc := -1 }, -1)
    | w :: ws => ∃ name args,
        parseCommandBuffer s = some ({ s with name, argc := min ws.length maxArgs, args }, 0) ∧
        HoldsText name w ∧
        ∀ (i : ℕ) (hi : i < min ws.length maxArgs), HoldsText (args[i]) ws[i] := by
  rcases hwords : splitWords iswhitespace line with _ | ⟨w, ws⟩
  · exact parseCommandBuffer_nil hbuf hline hwords
  · rw [hwords] at hname hargs
    have hw : w.length ≤ commandNameLen - 1 := hname w rfl
    have hfurther : further w ws = ws := if_pos hw
    obtain ⟨name, args, hparse, hheld, hall⟩ :=
      parseCommandBuffer_cons hbuf hline hwords (by rwa [hfurther])
    rw [hfurther] at hparse hall
    refine ⟨name, args, hparse, List.take_of_length_le hw ▸ hheld, fun i hi => ?_⟩
    obtain ⟨arg, harg, htext⟩ := hall i (by omega) ws[i] (List.getElem?_eq_getElem (by omega))
    rw [Vector.getElem?_eq_getElem (by omega), Option.mem_some_iff] at harg
    rwa [harg]

/-- `peek b8000 10` between blanks, in a state that is full of other characters. -/
theorem parseCommandBuffer_words_peek :
    let line := "  peek\tb8000 10 ".toList.map ascii
    let s : State := ⟨.replicate _ 7, 3, .replicate _ (.replicate _ 7),
      copyLine (.replicate _ 7) (literal line) line.length, 0⟩
    ∃ name, ∃ args : Vector (Vector Byte argLen) maxArgs,
      parseCommandBuffer s = some ({ s with name, argc := 2, args }, 0) ∧
      HoldsText name ("peek".toList.map ascii) ∧
      HoldsText (args.get ⟨0, by decide⟩) ("b8000".toList.map ascii) ∧
      HoldsText (args.get ⟨1, by decide⟩) ("10".toList.map ascii) := by
  intro line s
  have hwords : splitWords iswhitespace line = ["peek".toList.map ascii, "b8000".toList.map ascii,
    "10".toList.map ascii] := by decide +kernel
  have h := @parseCommandBuffer_words s line (List.replicate 63 7) (by decide +kernel)
    (nulFree_of_all (by decide +kernel)) (by rw [hwords]; decide) (by rw [hwords]; decide)
  rw [hwords] at h
  obtain ⟨name, args, hparse, hname, hargs⟩ := h
  exact ⟨name, args, hparse, hname, hargs 0 (by decide), hargs 1 (by decide)⟩

/-! ## The registry -/

theorem chars_eq {n : ℕ} {a : Vector Byte n} {text : List Byte} (h : HoldsText a text) :
    ∀ i ≤ text.length, chars a i = text.getD i 0 := by
  intro i hi
  obtain ⟨rest, hrest⟩ := h
  rw [chars, ← Vector.getElem?_toList, ← hrest]
  rcases Nat.lt_or_ge i text.length with hlt | hge
  · simp [List.getElem?_append, hlt, List.getD]
  · obtain rfl : i = text.length := by omega
    simp [List.getD]

/-- For a name that fits with its terminator the lookup compares whole names. -/
theorem hushLookupRegistry_eq {registry : List HushCommand}
    (hregistry : ∀ cmd ∈ registry, NulFree cmd.name) {name : Vector Byte commandNameLen}
    {w : List Byte} (hw : NulFree w) (hlen : w.length < commandNameLen) (hname : HoldsText name w) :
    hushLookupRegistry registry (chars name) = registry.find? fun cmd => cmd.name = w := by
  have hchars := chars_eq hname
  have hnameLen : strnlen (chars name) commandNameLen 0 = w.length := by
    rw [strnlen_eq hw hchars (Nat.zero_le _)]
    omega
  unfold hushLookupRegistry
  rw [hnameLen]
  refine List.find?_congr fun cmd hcmd => ?_
  have hliteral : ∀ i ≤ cmd.name.length, literal cmd.name i = cmd.name.getD i 0 := fun _ _ => rfl
  have hcmdLen : strnlen (literal cmd.name) commandNameLen 0 =
      min cmd.name.length commandNameLen := by
    rw [strnlen_eq (hregistry cmd hcmd) hliteral (Nat.zero_le _), Nat.zero_add]
  have hword : ∀ j < w.length, chars name (0 + j) ≠ 0 := fun j hj => by
    rw [Nat.zero_add, hchars j hj.le, List.getD_eq_getElem _ _ hj]
    exact hw _ (List.getElem_mem hj)
  rw [Bool.eq_iff_iff]
  simp only [Bool.and_eq_true, decide_eq_true_eq, strncmp_eq_zero_iff hword, hcmdLen, Nat.zero_add]
  constructor
  · rintro ⟨hall, hmin⟩
    have hsame : cmd.name.length = w.length := by omega
    refine List.ext_getElem hsame fun j hj hj' => ?_
    have h := hall j hj'
    rwa [hliteral j hj.le, hchars j hj'.le, List.getD_eq_getElem _ _ hj,
      List.getD_eq_getElem _ _ hj'] at h
  · rintro rfl
    exact ⟨fun j hj => (hchars j hj.le).symm, by omega⟩

theorem hushRegistry_nulFree : ∀ cmd ∈ hushRegistry, NulFree cmd.name := by
  have hall : ∀ cmd ∈ hushRegistry, cmd.name.all (· != 0) = true := by decide +kernel
  exact fun cmd hcmd => nulFree_of_all (hall cmd hcmd)

theorem find_hushRegistry :
    ∀ cmd ∈ hushRegistry, hushRegistry.find? (fun cmd' => cmd'.name = cmd.name) = some cmd := by
  decide +kernel

/-- No command is registered under the beginning of a name that is too long. -/
theorem find_hushRegistry_take : ∀ cmd ∈ hushRegistry, commandNameLen ≤ cmd.name.length →
    (cmd.name.drop (commandNameLen - 1)).length ≤ argLen - 1 ∧
    hushRegistry.find? (fun cmd' => cmd'.name = cmd.name.take (commandNameLen - 1)) = none := by
  decide +kernel

/-! ## A line -/

theorem copyLine_toList {n : ℕ} (old : Vector Byte n) {buf : ℕ → Byte} (hlen : line.length < n)
    (hbuf : ∀ (i : ℕ) (hi : i < line.length), buf i = (line)[i]) :
    (copyLine old buf line.length).toList = line ++ 0 :: old.toList.drop (line.length + 1) := by
  unfold copyLine
  refine List.ext_getElem (by simp; omega) fun i hi hi' => ?_
  rw [Vector.getElem_toList, Vector.getElem_ofFn, List.getElem_append]
  dsimp only
  split_ifs with hlt heq
  · exact hbuf i hlt
  · simp [heq]
  · rw [List.getElem_cons, dif_neg (by omega)]
    simp only [List.getElem_drop, Vector.getElem_toList, Vector.get_eq_getElem]
    congr 1
    omega

theorem acceptLine_eq (registry : List HushCommand) (s : State) (buf : ℕ → Byte)
    (hlen : line.length ≤ maxCommandLen - 1) (hne : line ≠ []) :
    acceptLine registry s buf line.length =
      (parseCommandBuffer { s with
        commandBuffer := copyLine s.commandBuffer buf line.length
        commandLen := line.length }).bind fun r =>
      (hushExecuteCommand registry r.1).map fun outcome => (r.1, some outcome) := by
  have hpos : 0 < line.length := List.length_pos_iff.mpr hne
  have hcopy : (if (line.length : ℤ) < maxCommandLen - 1 then (line.length : ℤ)
      else maxCommandLen - 1) = line.length := by
    have hmax : (maxCommandLen : ℤ) - 1 = (maxCommandLen - 1 : ℕ) := rfl
    rw [hmax]
    split_ifs <;> omega
  rw [acceptLine, if_pos (by omega), hcopy]
  simp only [Int.toNat_natCast, Option.map_eq_bind]
  rfl

theorem hushExecuteCommand_eq {registry : List HushCommand}
    (hregistry : ∀ cmd ∈ registry, NulFree cmd.name) {s : State} {w : List Byte} (hw : NulFree w)
    (hlen : w.length < commandNameLen) (hname : HoldsText s.name w) {n : ℕ} (hn : n ≤ maxArgs)
    (hargc : s.argc = n) :
    hushExecuteCommand registry s = some
      (match registry.find? fun cmd => cmd.name = w with
      | none => .commandNotFound ("[hush]: no match found\n".toList.map ascii)
      | some cmd => .ok ⟨cmd.handler, n, s.args.toList.take n⟩) := by
  rw [hushExecuteCommand, hushLookupRegistry_eq hregistry hw hlen hname, hargc, if_neg (by omega)]
  cases registry.find? fun cmd => cmd.name = w with
  | none => rfl
  | some cmd => simp only [Nat.cast_le, hn, if_true, Int.toNat_natCast]

/-- **A registered command can be run exactly if its name fits.** For a line whose first word is the
    name of the command, its handler is called with the further words if and only if the name has
    less than `COMMAND_NAME_LEN` characters. -/
theorem acceptLine_invokes_iff (s : State) {buf : ℕ → Byte} {line : List Byte}
    (hlen : line.length ≤ maxCommandLen - 1) (hline : NulFree line)
    (hbuf : ∀ (i : ℕ) (hi : i < line.length), buf i = (line)[i])
    {cmd : HushCommand} (hcmd : cmd ∈ hushRegistry) {ws : List (List Byte)}
    (hwords : splitWords iswhitespace line = cmd.name :: ws)
    (hargs : ∀ w ∈ ws, w.length ≤ argLen - 1) :
    (∃ s' argv, acceptLine hushRegistry s buf line.length =
        some (s', some (.ok ⟨cmd.handler, (ws.take maxArgs).length, argv⟩)) ∧
      List.Forall₂ HoldsText argv (ws.take maxArgs)) ↔ cmd.name.length < commandNameLen := by
  have hne : line ≠ [] := by
    rintro rfl
    simp at hwords
  have hbuffer := copyLine_toList s.commandBuffer (Nat.lt_of_le_pred (by decide) hlen) hbuf
  have hnul := hushRegistry_nulFree cmd hcmd
  have hnul' : NulFree (cmd.name.take (commandNameLen - 1)) := fun c hc =>
    hnul c (List.mem_of_mem_take hc)
  have htake : (cmd.name.take (commandNameLen - 1)).length < commandNameLen := by
    rw [List.length_take]
    exact lt_of_le_of_lt (Nat.min_le_left _ _) (by decide)
  have hfurther : ∀ v ∈ further cmd.name ws, v.length ≤ argLen - 1 := by
    unfold further
    split_ifs with hshort
    · exact hargs
    · exact List.forall_mem_cons.mpr
        ⟨(find_hushRegistry_take cmd hcmd (Nat.lt_of_not_le hshort)).1, hargs⟩
  obtain ⟨name, args, hparse, hname, hheld⟩ := parseCommandBuffer_cons
    (s := { s with
      commandBuffer := copyLine s.commandBuffer buf line.length
      commandLen := line.length }) hbuffer hline hwords hfurther
  rw [acceptLine_eq _ s buf hlen hne, hparse, Option.bind_some,
    hushExecuteCommand_eq hushRegistry_nulFree hnul' htake hname
      (Nat.min_le_right (further cmd.name ws).length maxArgs) (Nat.cast_min _ _).symm]
  constructor
  · rintro ⟨s', argv, hrun, -⟩
    by_contra hlong
    rw [(find_hushRegistry_take cmd hcmd (Nat.le_of_not_lt hlong)).2] at hrun
    simp at hrun
  · intro hshort
    have hle : cmd.name.length ≤ commandNameLen - 1 := Nat.le_pred_of_lt hshort
    have hall : further cmd.name ws = ws := if_pos hle
    rw [List.take_of_length_le hle, find_hushRegistry cmd hcmd, hall, List.length_take,
      Nat.min_comm maxArgs]
    refine ⟨_, _, rfl, List.forall₂_iff_get.mpr ⟨?_, fun i hi hi' => ?_⟩⟩
    · simp only [List.length_take, Vector.length_toList]
      omega
    · rw [List.length_take] at hi hi'
      rw [hall] at hheld
      obtain ⟨arg, harg, htext⟩ := hheld i (by omega) ws[i] (List.getElem?_eq_getElem (by omega))
      rw [Vector.getElem?_eq_getElem (by omega), Option.mem_some_iff] at harg
      simpa [harg] using htext

/-- The state `hush_init` starts with (hush.c:130). -/
def blank : State := ⟨.replicate _ 0, 0, .replicate _ (.replicate _ 0), .replicate _ 0, 0⟩

/-- `echo hello world`. -/
theorem acceptLine_invokes_iff_echo :
    ∃ s' argv, acceptLine hushRegistry blank (literal ("echo hello world".toList.map ascii)) 16 =
        some (s', some (.ok ⟨.cmdEcho, 2, argv⟩)) ∧
      List.Forall₂ HoldsText argv ["hello".toList.map ascii, "world".toList.map ascii] := by
  have hnul : NulFree ("echo hello world".toList.map ascii) := nulFree_of_all (by decide +kernel)
  have hcmd : ⟨"echo".toList.map ascii, .cmdEcho⟩ ∈ hushRegistry := by decide +kernel
  have hwords : splitWords iswhitespace ("echo hello world".toList.map ascii) =
      "echo".toList.map ascii :: ["hello".toList.map ascii, "world".toList.map ascii] := by
    decide +kernel
  exact (acceptLine_invokes_iff blank (by decide) hnul (fun i hi => List.getD_eq_getElem _ _ hi)
    hcmd hwords (by decide)).mpr (by decide)

/-- `test-paging` is looked up as `test-pagi`, with `ng` for an argument. -/
theorem acceptLine_test_paging :
    let line := "test-paging".toList.map ascii
    (acceptLine hushRegistry blank (literal line) 11).map Prod.snd =
        some (some (.commandNotFound ("[hush]: no match found\n".toList.map ascii))) ∧
      ⟨line, .pagingTest⟩ ∈ hushRegistry ∧ splitWords iswhitespace line = [line] := by
  decide +kernel

end HorizonOS.I386.Hush
