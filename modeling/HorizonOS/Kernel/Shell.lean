import HorizonOS.Drivers.Typing
import HorizonOS.Libc.Compare

/-!
# The shell

Models of `parse_and_dispatch` and `shell_run` (arch/x86_64/include/shell.c:109–160)
on top of `readline` and the keyboard queues. `input_buffer` is static: every line is
read over the remains of the one before, and `parse_and_dispatch` cuts the line in two
where it stands.

Specification: the characters typed are cut into lines at every newline, each line
edited as it is typed (`sessionLines`); a line is a name up to the first blank and the
text behind the blanks that follow (`commandOf`).

* `parseAndDispatch_eq`: the call that is made for the line in the buffer.
* `shellRun_eq`: a run of the shell on the events that are delivered to it.
* `shell_executes_typed`: from scan codes to commands, for every interleaving of
  interrupts and polls.
-/

namespace HorizonOS.Kernel.Shell

open HorizonOS.Lib HorizonOS.Libc HorizonOS.Drivers.Keyboard HorizonOS.Drivers.Ps2

/-! ## Model -/

/-- `SHELL_BUFFER_SIZE` (shell.h:7). -/
def shellBufferSize : ℕ := 256

/-- The calls that `parse_and_dispatch` makes. -/
inductive Command
  | help
  | clear
  | echo (args : List Byte)
  | uptime
  | pong
  | peek (args : List Byte)
  | unknown (name : List Byte)
deriving DecidableEq

def chars (s : String) : List Byte := s.toList.map ascii

/-- The names that the line is compared with, in this order (shell.c:125–136). -/
def commands : List (List Byte × (List Byte → Command)) :=
  [(chars "help", fun _ => .help), (chars "clear", fun _ => .clear), (chars "echo", .echo),
    (chars "uptime", fun _ => .uptime), (chars "pong", fun _ => .pong), (chars "peek", .peek)]

/-- A loop that moves `args` behind the characters with `p`. -/
def scanWhile (p : Byte → Bool) (line : ℕ → Byte) : (fuel : ℕ) → (args : ℕ) → Option ℕ
  | 0, _ => none
  | fuel + 1, args => if p (line args) then scanWhile p line fuel (args + 1) else some args

/-- `while (*args && *args != ' ') args++` (shell.c:115–117). -/
def scanWord : (ℕ → Byte) → ℕ → ℕ → Option ℕ := scanWhile fun c => c ≠ 0 ∧ c ≠ ascii ' '

/-- `while (*args == ' ') args++` (shell.c:120–122). -/
def skipBlanks : (ℕ → Byte) → ℕ → ℕ → Option ℕ := scanWhile (· = ascii ' ')

/-- The characters of the string at `i`, as the functions that are called see it. -/
def readString (line : ℕ → Byte) : (fuel : ℕ) → (i : ℕ) → Option (List Byte)
  | 0, _ => none
  | fuel + 1, i => if line i = 0 then some [] else (line i :: ·) <$> readString line fuel (i + 1)

/-- The comparisons with `strcmp`, first to last (shell.c:125–141). -/
def compareNames (line : ℕ → Byte) (args name : List Byte) :
    List (List Byte × (List Byte → Command)) → Option Command
  | [] => some (.unknown name)
  | (text, call) :: rest => do
    let r ← strcmp line fun i => text.getD i 0
    if r = 0 then some (call args) else compareNames line args name rest

/-- The line cut behind its first word, and `args` (shell.c:114–123). -/
def cutLine (fuel : ℕ) (line : ℕ → Byte) : Option ((ℕ → Byte) × ℕ) :=
  (scanWord line fuel 0).bind fun args =>
    if line args = ascii ' ' then
      let line := Function.update line args 0
      (skipBlanks line fuel (args + 1)).map fun args => (line, args)
    else some (line, args)

/-- The comparisons and the call (shell.c:125–141). -/
def dispatch (fuel : ℕ) (line : ℕ → Byte) (args : ℕ) : Option Command :=
  (readString line fuel args).bind fun text =>
    (readString line fuel 0).bind fun name => compareNames line text name commands

/-- `parse_and_dispatch(line)` (shell.c:109–145): the call it makes, and the line it
    leaves. -/
def parseAndDispatch (fuel : ℕ) (line : ℕ → Byte) : Option (Option Command × (ℕ → Byte)) :=
  if line 0 = 0 then some (none, line)
  else
    (cutLine fuel line).bind fun x => (dispatch fuel x.1 x.2).map fun call => (some call, x.1)

/-- `n` turns of the loop of `shell_run` (shell.c:152–160). -/
def shellRun (level : Level) (fuel : ℕ) : (n : ℕ) → Source → (ℤ → Byte) →
    Option (List (Option Command) × Source)
  | 0, src, _ => some ([], src)
  | n + 1, src, inputBuffer => do
    let (_, e, src) ← readline level inputBuffer shellBufferSize fuel src
    let (call, line) ← parseAndDispatch fuel fun i => e.buf i
    let inputBuffer := fun i : ℤ => if 0 ≤ i then line i.toNat else e.buf i
    let (calls, src) ← shellRun level fuel n src inputBuffer
    some (call :: calls, src)

/-! ## Specification -/

/-- What a line asks for; nothing if it is empty. -/
def commandOf (line : List Byte) : Option Command :=
  if line = [] then none
  else
    let name := line.takeWhile (· ≠ ascii ' ')
    let args := (line.dropWhile (· ≠ ascii ' ')).dropWhile (· = ascii ' ')
    some ((commands.find? fun c => c.1 = name).elim (.unknown name) fun c => c.2 args)

/-- The lines completed by the characters `cs`, from the unfinished `line` on. -/
def sessionLines (len : ℤ) : (line : List Byte) → (cs : List Byte) → List (List Byte)
  | _, [] => []
  | line, c :: cs =>
    if c = ascii '\n' then line :: sessionLines len [] cs
    else sessionLines len (editLine len line c) cs

/-! ## Strings in the buffer -/

/-- At `i` of the buffer stands the string `text`, with its terminator. -/
def At (line : ℕ → Byte) : ℕ → List Byte → Prop
  | i, [] => line i = 0
  | i, c :: text => (line i = c ∧ c ≠ 0) ∧ At line (i + 1) text

section Strings

variable {line : ℕ → Byte} {i j : ℕ} {text w rest : List Byte} {fuel : ℕ} {c : Byte}

theorem At.congr {line' : ℕ → Byte} (h : At line i text)
    (heq : ∀ j, i ≤ j → j ≤ i + text.length → line' j = line j) : At line' i text := by
  induction text generalizing i with
  | nil => exact (heq i le_rfl le_rfl).trans h
  | cons c text ih =>
    obtain ⟨⟨h1, h2⟩, hrest⟩ := h
    rw [List.length_cons] at heq
    exact ⟨⟨(heq i le_rfl (by omega)).trans h1, h2⟩,
      ih hrest fun j hj hj' => heq j (by omega) (by omega)⟩

/-- Cutting the string with a terminator. -/
theorem At.cut (h : At line i (w ++ rest)) : At (Function.update line (i + w.length) 0) i w := by
  induction w generalizing i with
  | nil => exact Function.update_self _ _ _
  | cons c w ih =>
    obtain ⟨⟨h1, h2⟩, hrest⟩ := h
    have hlen : i + (c :: w).length = i + 1 + w.length := by rw [List.length_cons]; omega
    rw [hlen]
    exact ⟨⟨(Function.update_of_ne (by omega) _ _).trans h1, h2⟩, ih hrest⟩

theorem At.drop (h : At line i (w ++ rest)) : At line (i + w.length) rest := by
  induction w generalizing i with
  | nil => exact h
  | cons c w ih =>
    have hlen : i + (c :: w).length = i + 1 + w.length := by rw [List.length_cons]; omega
    rw [hlen]
    exact ih h.2

/-- The loop stops at the end of the string at the latest. -/
theorem scanWhile_eq {p q : Byte → Bool} (h0 : p 0 = false) (hpq : ∀ c, c ≠ 0 → p c = q c)
    (h : At line i text) (hfuel : text.length < fuel) :
    scanWhile p line fuel i = some (i + (text.takeWhile q).length) := by
  induction text generalizing i fuel with
  | nil =>
    obtain ⟨fuel, rfl⟩ := Nat.exists_eq_add_of_lt hfuel
    have hend : line i = 0 := h
    rw [List.length_nil, Nat.zero_add, scanWhile, hend, h0]
    rfl
  | cons c text ih =>
    obtain ⟨⟨h1, h2⟩, hrest⟩ := h
    obtain _ | fuel := fuel
    · simp at hfuel
    rw [List.length_cons] at hfuel
    rw [scanWhile, h1, hpq c h2, List.takeWhile_cons]
    split
    · rw [ih hrest (by omega), List.length_cons, Nat.add_right_comm, Nat.add_assoc]
    · rfl

theorem readString_eq (h : At line i text) (hfuel : text.length < fuel) :
    readString line fuel i = some text := by
  induction text generalizing i fuel with
  | nil =>
    obtain ⟨fuel, rfl⟩ := Nat.exists_eq_add_of_lt hfuel
    have h0 : line i = 0 := h
    simp [readString, h0]
  | cons c text ih =>
    obtain ⟨⟨h1, h2⟩, hrest⟩ := h
    obtain _ | fuel := fuel
    · simp at hfuel
    rw [List.length_cons] at hfuel
    rw [readString, h1, if_neg h2, ih hrest (by omega)]
    rfl

theorem At.no_nul (h : At line i text) : 0 ∉ text := by
  induction text generalizing i with
  | nil => exact List.not_mem_nil
  | cons c text ih =>
    rw [List.mem_cons, not_or]
    exact ⟨h.1.2.symm, ih h.2⟩

/-- The string as `strcmp` sees it. -/
theorem At.get (h : At line i text) {j : ℕ} (hj : (text ++ [0])[j]? = some c) :
    line (i + j) = c := by
  induction text generalizing i j with
  | nil =>
    obtain _ | j := j
    · obtain rfl : 0 = c := by simpa using hj
      exact h
    · simp at hj
  | cons c' text ih =>
    obtain _ | j := j
    · obtain rfl : c' = c := by simpa using hj
      exact h.1.1
    · rw [show i + (j + 1) = i + 1 + j by omega]
      exact ih h.2 (by simpa using hj)

end Strings

/-! ## One line -/

section Line

variable {line : ℕ → Byte} {text name args : List Byte} {fuel : ℕ}

/-- A name in the program text. -/
theorem literal_at (text : CString) : text.At fun i => text.text.getD i 0 := by
  intro i c hc
  rw [CString.bytes, List.getElem?_append] at hc
  split at hc
  case isTrue hi =>
    show text.text.getD i 0 = c
    rw [List.getD_eq_getElem?_getD, hc, Option.getD_some]
  case isFalse hi =>
    have h0 : c = 0 := by
      rw [List.getElem?_singleton] at hc
      split at hc
      · exact (Option.some.inj hc).symm
      · cases hc
    rw [h0]
    exact List.getD_eq_default _ _ (by omega)

/-- The comparisons pick the first entry with the name of the line. -/
theorem compareNames_eq (h : At line 0 name) (hlen : name.length < maxStrcmpComparisons)
    (table : List (List Byte × (List Byte → Command)))
    (htable : ∀ c ∈ table, 0 ∉ c.1 ∧ c.1.length < maxStrcmpComparisons) :
    compareNames line args name table =
      some ((table.find? fun c => c.1 = name).elim (.unknown name) fun c => c.2 args) := by
  have hname : (CString.mk name h.no_nul hlen).At line := by
    intro i c hc
    have := h.get hc
    rwa [Nat.zero_add] at this
  induction table with
  | nil => rfl
  | cons entry table ih =>
    obtain ⟨text, call⟩ := entry
    obtain ⟨hnul, hshort⟩ := htable _ List.mem_cons_self
    obtain ⟨r, hr, -, heq, -⟩ := strcmp_orders hname (literal_at ⟨text, hnul, hshort⟩)
    rw [CString.mk.injEq] at heq
    rw [compareNames, hr, Option.bind_eq_bind, Option.bind_some, List.find?_cons]
    by_cases h0 : r = 0
    · have htext : text = name := (heq.mp h0).symm
      simp [h0, htext]
    · have htext : text ≠ name := fun e => h0 (heq.mpr e.symm)
      rw [if_neg h0, ih fun c hc => htable c (List.mem_cons_of_mem _ hc)]
      simp [htext]

theorem commands_short : ∀ c ∈ commands, 0 ∉ c.1 ∧ c.1.length < maxStrcmpComparisons := by
  intro c hc
  have hnames : commands.map Prod.fst =
      [chars "help", chars "clear", chars "echo", chars "uptime", chars "pong", chars "peek"] := rfl
  have hall : ∀ w ∈ commands.map Prod.fst, 0 ∉ w ∧ w.length < maxStrcmpComparisons := by
    rw [hnames]
    decide
  exact hall c.1 (List.mem_map_of_mem hc)

/-- The call for a name and the text behind it. -/
def lookup (name args : List Byte) : Command :=
  (commands.find? fun c => c.1 = name).elim (.unknown name) fun c => c.2 args

/-- Once the line is cut in two, the comparisons find the call. -/
theorem dispatch_eq {a : ℕ} (hname : At line 0 name) (hargs : At line a args)
    (hlen : name.length < maxStrcmpComparisons) (hfuel : name.length < fuel)
    (hfuel' : args.length < fuel) : dispatch fuel line a = some (lookup name args) := by
  rw [dispatch, readString_eq hname hfuel, readString_eq hargs hfuel', Option.bind_some,
    Option.bind_some, compareNames_eq hname hlen commands commands_short]
  rfl

/-- The first word ends at a blank, which is overwritten, or at the end of the line. -/
theorem cutLine_eq (h : At line 0 text) (hfuel : text.length < fuel) :
    ∃ line' a, cutLine fuel line = some (line', a) ∧
      At line' 0 (text.takeWhile (· ≠ ascii ' ')) ∧
      At line' a ((text.dropWhile (· ≠ ascii ' ')).dropWhile (· = ascii ' ')) := by
  have hscan : scanWord line fuel 0 = some (0 + (text.takeWhile (· ≠ ascii ' ')).length) :=
    scanWhile_eq (by simp) (by simp +contextual) h hfuel
  rw [Nat.zero_add] at hscan
  have hsplit : text.takeWhile (· ≠ ascii ' ') ++ text.dropWhile (· ≠ ascii ' ') = text :=
    List.takeWhile_append_dropWhile
  have hfirst : ∀ c ∈ (text.dropWhile (· ≠ ascii ' ')).head?, c = ascii ' ' := by
    intro c hc
    have := List.head?_dropWhile_not (· ≠ ascii ' ') text
    rw [Option.mem_def.mp hc] at this
    simpa using this
  generalize text.takeWhile (· ≠ ascii ' ') = w at *
  generalize text.dropWhile (· ≠ ascii ' ') = r at *
  subst hsplit
  have hdrop := h.drop
  rw [Nat.zero_add] at hdrop
  rw [cutLine, hscan, Option.bind_some]
  cases r with
  | nil =>
    have hend : line w.length = 0 := hdrop
    have hblank : ¬ line w.length = ascii ' ' := by rw [hend]; decide
    rw [List.append_nil] at h
    exact ⟨line, w.length, if_neg hblank, h, hdrop⟩
  | cons b r =>
    obtain rfl : b = ascii ' ' := hfirst b rfl
    have hcut := h.cut
    rw [Nat.zero_add] at hcut
    have hrest : At (Function.update line w.length 0) (w.length + 1) r :=
      hdrop.2.congr fun j hj _ => Function.update_of_ne (by omega) _ _
    rw [List.length_append, List.length_cons] at hfuel
    refine ⟨_, w.length + 1 + (r.takeWhile (· = ascii ' ')).length, ?_, hcut, ?_⟩
    · rw [if_pos hdrop.1.1]
      have hskip : skipBlanks _ fuel _ = _ :=
        scanWhile_eq (by decide) (fun _ _ => rfl) hrest (show r.length < fuel by omega)
      simp only [hskip, Option.map_some]
    · have hsplit : r.takeWhile (· = ascii ' ') ++ r.dropWhile (· = ascii ' ') = r :=
        List.takeWhile_append_dropWhile
      have hskip : (ascii ' ' :: r).dropWhile (· = ascii ' ') = r.dropWhile (· = ascii ' ') := by
        simp
      rw [← hsplit] at hrest
      rw [hskip]
      exact hrest.drop

/-- **One line.** `parse_and_dispatch` makes the call that the line asks for. -/
theorem parseAndDispatch_eq (h : At line 0 text) (hlen : text.length < maxStrcmpComparisons)
    (hfuel : text.length < fuel) :
    ∃ line', parseAndDispatch fuel line = some (commandOf text, line') := by
  by_cases htext : text = []
  · rw [htext] at h ⊢
    have h0 : line 0 = 0 := h
    exact ⟨line, by simp [parseAndDispatch, h0, commandOf]⟩
  have h0 : line 0 ≠ 0 := by
    obtain ⟨c, rest, rfl⟩ := List.exists_cons_of_ne_nil htext
    rw [h.1.1]
    exact h.1.2
  obtain ⟨line', a, hcut, hname, hargs⟩ := cutLine_eq h hfuel
  have hle : (text.takeWhile (· ≠ ascii ' ')).length ≤ text.length :=
    (List.takeWhile_prefix _).length_le
  have hle' : ((text.dropWhile (· ≠ ascii ' ')).dropWhile (· = ascii ' ')).length ≤ text.length :=
    ((List.dropWhile_suffix _).trans (List.dropWhile_suffix _)).length_le
  refine ⟨line', ?_⟩
  rw [parseAndDispatch, if_neg h0, hcut, Option.bind_some,
    dispatch_eq hname hargs (by omega) (by omega) (by omega), commandOf, if_neg htext]
  rfl

end Line

/-! ## A session -/

section Session

variable {level : Level} {src src' : Source} {evs : List KeyEvent} {fuel : ℕ}

theorem editLine_printable {len : ℤ} {line : List Byte} (h : ∀ c ∈ line, Printable c) (c : Byte) :
    ∀ c' ∈ editLine len line c, Printable c' := by
  intro c' hc'
  unfold editLine at hc'
  split_ifs at hc' with hback hroom
  · exact h c' (List.mem_of_mem_dropLast hc')
  · rcases List.mem_append.mp hc' with hc' | hc'
    · exact h c' hc'
    · rw [List.mem_singleton.mp hc']
      exact hroom.1
  · exact h c' hc'

theorem foldl_editLine_printable {len : ℤ} (cs : List Byte) {line : List Byte}
    (h : ∀ c ∈ line, Printable c) : ∀ c ∈ cs.foldl (editLine len) line, Printable c := by
  induction cs generalizing line with
  | nil => exact h
  | cons c cs ih => exact ih (editLine_printable h c)

/-- A line of printable characters followed by a terminator. -/
theorem at_of_line {line : ℕ → Byte} {text : List Byte} (hprint : ∀ c ∈ text, Printable c) {i : ℕ}
    (hget : ∀ j (hj : j < text.length), line (i + j) = text.get ⟨j, hj⟩)
    (hend : line (i + text.length) = 0) : At line i text := by
  induction text generalizing i with
  | nil => exact hend
  | cons c text ih =>
    have hc := hprint c List.mem_cons_self
    refine ⟨⟨hget 0 (Nat.succ_pos _), fun h0 => ?_⟩, ih ?_ (fun j hj => ?_) ?_⟩
    · rw [h0] at hc
      exact absurd hc.1 (by decide)
    · exact fun c' hc' => hprint c' (List.mem_cons_of_mem _ hc')
    · have := hget (j + 1) (Nat.succ_lt_succ hj)
      rwa [show i + (j + 1) = i + 1 + j by omega] at this
    · rwa [List.length_cons, show i + (text.length + 1) = i + 1 + text.length by omega] at hend

/-- `readline` leaves the edited line in the buffer, whatever was there before. -/
theorem readline_returns {last : KeyEvent} (inputBuffer : ℤ → Byte)
    (hdel : Delivers level src (evs ++ [last]) src') (hevs : ∀ ev ∈ evs, ¬ Enters ev)
    (hlast : Enters last) (hfuel : evs.length < fuel) :
    ∃ (n : ℤ) (e : Editor),
      readline level inputBuffer shellBufferSize fuel src = some (n, e, src') ∧
      At (fun i : ℕ => e.buf i) 0 ((keysDown evs).foldl (editLine shellBufferSize) []) ∧
      ((keysDown evs).foldl (editLine shellBufferSize) []).length < shellBufferSize := by
  have hstart : Editing shellBufferSize inputBuffer [] ⟨0, inputBuffer, []⟩ :=
    ⟨rfl, by decide, rfl, rfl, fun _ _ => rfl⟩
  obtain ⟨src₁, hbefore, src₂, hread, hsrc⟩ := hdel.split
  obtain rfl : src₂ = src' := hsrc
  obtain ⟨rest, rfl⟩ : ∃ rest, fuel = rest + 1 + evs.length := ⟨fuel - evs.length - 1, by omega⟩
  have hend := edit_run hstart (keysDown evs)
  obtain ⟨hget, hzero, -⟩ := hend.enter
  have hfits := hend.fits
  refine ⟨((keysDown evs).foldl (edit shellBufferSize) ⟨0, inputBuffer, []⟩).pos,
    enter ((keysDown evs).foldl (edit shellBufferSize) ⟨0, inputBuffer, []⟩), ?_, ?_, ?_⟩
  · rw [readline, if_neg (by decide), readlineLoop_run hbefore hevs, readlineLoop, hread]
    dsimp only
    rw [if_neg (not_not.mpr hlast.1), if_pos hlast.2]
  · refine at_of_line (foldl_editLine_printable _ (by simp)) (fun j hj => ?_) ?_
    · rw [Nat.zero_add]
      exact hget j hj
    · rw [Nat.zero_add]
      exact hzero
  · unfold shellBufferSize at *
    omega

theorem sessionLines_cons (len : ℤ) {cs : List Byte} (hcs : ascii '\n' ∉ cs) (line rest : List Byte) :
    sessionLines len line (cs ++ ascii '\n' :: rest) =
      cs.foldl (editLine len) line :: sessionLines len [] rest := by
  induction cs generalizing line with
  | nil => rw [List.nil_append, sessionLines, if_pos rfl]; rfl
  | cons c cs ih =>
    rw [List.mem_cons, not_or] at hcs
    rw [List.cons_append, sessionLines, if_neg (Ne.symm hcs.1), ih hcs.2]
    rfl

theorem newline_not_mem (hevs : ∀ ev ∈ evs, ¬ Enters ev) : ascii '\n' ∉ keysDown evs := by
  intro h
  obtain ⟨ev, hev, hval⟩ := List.mem_map.mp h
  obtain ⟨hmem, htype⟩ := List.mem_filter.mp hev
  exact hevs ev hmem ⟨of_decide_eq_true htype, hval⟩

/-- The events up to the first newline. -/
theorem exists_first_enter (h : ascii '\n' ∈ keysDown evs) :
    ∃ before last after, evs = before ++ last :: after ∧ (∀ ev ∈ before, ¬ Enters ev) ∧
      Enters last := by
  induction evs with
  | nil => simp [keysDown] at h
  | cons ev evs ih =>
    by_cases hev : Enters ev
    · exact ⟨[], ev, evs, rfl, by simp, hev⟩
    · have hrest : ascii '\n' ∈ keysDown evs := by
        rw [← List.singleton_append, keysDown_append, List.mem_append] at h
        exact h.resolve_left (newline_not_mem (by simpa using hev))
      obtain ⟨before, last, after, rfl, hbefore, hlast⟩ := ih hrest
      exact ⟨ev :: before, last, after, rfl, List.forall_mem_cons.mpr ⟨hev, hbefore⟩, hlast⟩

/-- **A session.** On the events that reach it the shell makes the calls of the lines
    typed, one for each newline. -/
theorem shellRun_eq (n : ℕ) (inputBuffer : ℤ → Byte) (hdel : Delivers level src evs src')
    (hn : n ≤ (keysDown evs).count (ascii '\n')) (hfuel : evs.length < fuel)
    (hfuel' : shellBufferSize ≤ fuel) :
    ∃ rest, shellRun level fuel n src inputBuffer =
      some (((sessionLines shellBufferSize [] (keysDown evs)).take n).map commandOf, rest) := by
  induction n generalizing evs src inputBuffer with
  | zero => exact ⟨src, rfl⟩
  | succ n ih =>
    -- the events of the first line
    have hmem : ascii '\n' ∈ keysDown evs := List.count_pos_iff.mp (by omega)
    obtain ⟨before, last, after, rfl, hbefore, hlast⟩ := exists_first_enter hmem
    rw [List.append_cons] at hdel
    obtain ⟨src₁, hline, hafter⟩ := hdel.split
    rw [List.length_append, List.length_cons] at hfuel
    obtain ⟨m, e, hread, hat, hlen⟩ :=
      readline_returns inputBuffer hline hbefore hlast (show before.length < fuel by omega)
    obtain ⟨line', hparse⟩ := parseAndDispatch_eq hat
      (hlen.trans (by decide)) (hlen.trans_le hfuel')
    have hkeys : keysDown (before ++ last :: after) =
        keysDown before ++ ascii '\n' :: keysDown after := by
      rw [keysDown_append]
      congr 1
      simp [keysDown, hlast.1, hlast.2]
    have hcount : n ≤ (keysDown after).count (ascii '\n') := by
      rw [hkeys, List.count_append, List.count_cons_self,
        List.count_eq_zero_of_not_mem (newline_not_mem hbefore)] at hn
      omega
    obtain ⟨rest, hrun⟩ := ih
      (fun i : ℤ => if 0 ≤ i then line' i.toNat else e.buf i) hafter hcount (by omega)
    refine ⟨rest, ?_⟩
    rw [hkeys, sessionLines_cons _ (newline_not_mem hbefore), List.take_succ_cons, List.map_cons,
      shellRun, hread, Option.bind_eq_bind, Option.bind_some]
    simp only [hparse, Option.bind_eq_bind, Option.bind_some, hrun]

/-- Lines that are complete do not change with what is typed behind them. -/
theorem take_sessionLines_append (len : ℤ) {n : ℕ} (line cs cs' : List Byte)
    (hn : n ≤ cs.count (ascii '\n')) :
    (sessionLines len line (cs ++ cs')).take n = (sessionLines len line cs).take n := by
  induction cs generalizing line n with
  | nil =>
    obtain rfl : n = 0 := by simpa using hn
    rfl
  | cons c cs ih =>
    rw [List.cons_append, sessionLines, sessionLines]
    by_cases hc : c = ascii '\n'
    · rw [if_pos hc, if_pos hc]
      cases n with
      | zero => rfl
      | succ n =>
        rw [hc, List.count_cons_self] at hn
        rw [List.take_succ_cons, List.take_succ_cons, ih [] (by omega)]
    · rw [if_neg hc, if_neg hc]
      rw [List.count_cons_of_ne hc] at hn
      exact ih _ hn

/-- **From scan codes to commands.** A level of its own feeds the shell. However the
    scan codes are spread over the interrupts between its polls, and whatever the timer
    says, the shell makes the calls of the lines typed, as long as no more than 99
    events wait for it at a time: for every newline among the first `B` batches it has
    made its call once it has polled for every event of these batches. -/
theorem shell_executes_typed {k : Queues} {d : Ps2k} {ticks : ℕ → BitVec 32} {n₀ : ℕ}
    {batches : List (List Byte)} (hfeed : Feed level (k, arrivals ticks n₀ d batches) [])
    {B n : ℕ} (hn : n ≤ (typed d (batches.take B).flatten).count (ascii '\n'))
    (hpolls : B + (typed d (batches.take B).flatten).length ≤ batches.length)
    (inputBuffer : ℤ → Byte) (hfuel : (typed d (batches.take B).flatten).length < fuel)
    (hfuel' : shellBufferSize ≤ fuel) :
    ∃ rest, shellRun level fuel n (k, arrivals ticks n₀ d batches) inputBuffer =
      some (((sessionLines shellBufferSize [] (typed d batches.flatten)).take n).map commandOf,
        rest) := by
  have htake := take_arrivals ticks n₀ d batches B
  have hlen : ((arrivals ticks n₀ d batches).take B).flatten.length =
      (typed d (batches.take B).flatten).length := by
    rw [htake, length_flatten_arrivals]
  obtain ⟨evs, src', hdel, hevs⟩ := hfeed.exists_delivers (B := B) hlen.ge
    (by rw [length_arrivals]; exact hpolls)
  obtain ⟨q', -, hall⟩ := hfeed.delivers hdel
  -- what was delivered are the events of the first batches
  have hsplit : ((arrivals ticks n₀ d batches).take B).flatten ++
      ((arrivals ticks n₀ d batches).drop B).flatten = evs ++ (q' ++ src'.2.flatten) := by
    rw [← List.flatten_append, List.take_append_drop]
    exact hall
  obtain ⟨rfl, hrest⟩ := List.append_inj hsplit (hlen.trans hevs.symm)
  have hkeys : keysDown ((arrivals ticks n₀ d batches).take B).flatten =
      typed d (batches.take B).flatten := by
    rw [htake, keysDown_arrivals]
  have htyped : typed d batches.flatten = typed d (batches.take B).flatten ++
      keysDown ((arrivals ticks n₀ d batches).drop B).flatten := by
    rw [← keysDown_arrivals ticks n₀, ← hkeys, ← keysDown_append, ← List.flatten_append,
      List.take_append_drop]
  obtain ⟨rest, hrun⟩ := shellRun_eq n inputBuffer hdel (by rwa [hkeys]) (by rwa [hlen]) hfuel'
  refine ⟨rest, ?_⟩
  rw [hrun, hkeys, htyped, take_sessionLines_append _ _ _ _ hn]

/-- `help` typed at once, and then read by six polls. -/
theorem shell_executes_typed_help :
    let k : Queues := init.setState 0 ⟨0, 0, true⟩
    let batches : List (List Byte) := [[0x23, 0x12, 0x26, 0x19, 0x1C], [], [], [], [], []]
    Feed 0 (k, arrivals (fun _ => 0) 0 Ps2k.zero batches) [] ∧
      ∃ rest, shellRun 0 256 1 (k, arrivals (fun _ => 0) 0 Ps2k.zero batches) (fun _ => 0xFF) =
        some ([some .help], rest) := by
  intro k batches
  have hlevel : LevelOk (init.queue 0, ⟨0, 0, true⟩) :=
    ⟨⟨[], 0, Ring.view_empty (by norm_num) _⟩, fun h => absurd h (by decide)⟩
  have hempty : Drivers.Keyboard.abs k 0 = some [] := by
    rw [abs_eq, setState_at, Function.update_self, if_pos rfl]
    exact congrArg some (hlevel.pending_of_eq rfl)
  have hfeed : Feed 0 (k, arrivals (fun _ => 0) 0 Ps2k.zero batches) [] :=
    ⟨init_ok.setState hlevel, hempty, by decide⟩
  have htyped : typed Ps2k.zero (batches.take 1).flatten = chars "help\n" := by decide
  obtain ⟨rest, hrun⟩ := shell_executes_typed hfeed (B := 1) (n := 1) (by rw [htyped]; decide)
    (by rw [htyped]; decide) (fun _ => 0xFF) (show _ < 256 by rw [htyped]; decide) (by decide)
  refine ⟨hfeed, rest, hrun.trans ?_⟩
  have hall : typed Ps2k.zero batches.flatten = chars "help\n" := by decide
  have hcalls : ((sessionLines shellBufferSize [] (chars "help\n")).take 1).map commandOf =
      [some .help] := by decide
  rw [hall, hcalls]

end Session

end HorizonOS.Kernel.Shell
