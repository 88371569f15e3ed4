import HorizonOS.Drivers.Ps2
import HorizonOS.Libc.String

/-!
# The line editor

Models of `keyboard_block_read` and `readline` (arch/x86_64/include/keyboard.c:71–77 and 109–138)
over the keyboard queues. The specification is a fold over the key-down events: a printable
character is appended while there is room for the terminator, a backspace takes the last one away,
everything else is ignored. The memory behind `buf` has no end on either side, so that a write
outside `buf[0..len-1]` would show.

* `Editing`: buffer, length and echo agree with a line.
* `edit_spec`, `edit_run`: one character, and any number of them, keep the agreement.
* `readline_spec`: the call as a whole.
-/

namespace HorizonOS.Drivers.Keyboard

open HorizonOS.Lib HorizonOS.Libc HorizonOS.Drivers.Ps2

/-! ## Model -/

/-- The queues, and the events that interrupts push before each further poll. -/
abbrev Source := Queues × List (List KeyEvent)

/-- `keyboard_block_read(level)` (keyboard.c:71–77). `out` is not initialised, and is not read before
    a poll has filled it. `none`: no poll of those that are listed finds an event. -/
def keyboardBlockRead (level : Level) (src : Source) : Option (KeyEvent × Source) :=
  go src.1 src.2
where
  go (k : Queues) : List (List KeyEvent) → Option (KeyEvent × Source)
    | [] => none
    | evs :: arrivals =>
      match keyboardPoll (evs.foldl pushAll k) level ⟨0, 0, 0, 0⟩ with
      | (0, _, k) => go k arrivals
      | (_, out, k) => some (out, k, arrivals)

/-- What `readline` sends to the console. -/
inductive Echo
  | consolePutchar (c : Byte)
  | consoleBackspace
deriving DecidableEq

/-- `pos`, the memory around `buf`, and the echo so far. -/
structure Editor where
  pos : ℤ
  buf : ℤ → Byte
  echo : List Echo

/-- `'\b'`. -/
def backspace : Byte := ascii '\x08'

/-- The branches of the loop for a character that does not end the line (keyboard.c:126–136). `char`
    is signed. -/
def edit (len : ℤ) (e : Editor) (c : Byte) : Editor :=
  if c = backspace then
    if 0 < e.pos then { e with pos := e.pos - 1, echo := e.echo ++ [.consoleBackspace] } else e
  else if (ascii ' ').toInt ≤ c.toInt ∧ c.toInt < 127 then
    if e.pos < len - 1 then
      { pos := e.pos + 1
        buf := Function.update e.buf e.pos c
        echo := e.echo ++ [.consolePutchar c] }
    else e
  else e

/-- The end of the line (keyboard.c:123–125). -/
def enter (e : Editor) : Editor :=
  { e with
    buf := Function.update e.buf e.pos 0
    echo := e.echo ++ [.consolePutchar (ascii '\n')] }

/-- The loop of `readline` (keyboard.c:115–137): the value returned, the editor and what is left of
    the source; `none` if it is still reading after `fuel` events. -/
def readlineLoop (level : Level) (len : ℤ) : (fuel : ℕ) → Source → Editor →
    Option (ℤ × Editor × Source)
  | 0, _, _ => none
  | fuel + 1, src, e =>
    match keyboardBlockRead level src with
    | none => none
    | some (ev, src) =>
      if ev.type ≠ keyEventDown then readlineLoop level len fuel src e
      else if ev.value = ascii '\n' then some (e.pos, enter e, src)
      else readlineLoop level len fuel src (edit len e ev.value)

/-- `readline(level, buf, len)` (keyboard.c:109–138). -/
def readline (level : Level) (buf : ℤ → Byte) (len : ℤ) (fuel : ℕ) (src : Source) :
    Option (ℤ × Editor × Source) :=
  if len ≤ 0 then some (0, ⟨0, buf, []⟩, src) else readlineLoop level len fuel src ⟨0, buf, []⟩

/-! ## Specification -/

/-- A character in `' '..126`. -/
def Printable (c : Byte) : Prop := 32 ≤ c.toNat ∧ c.toNat ≤ 126

instance (c : Byte) : Decidable (Printable c) := inferInstanceAs (Decidable (_ ∧ _))

/-- The line after one more character. -/
def editLine (len : ℤ) (line : List Byte) (c : Byte) : List Byte :=
  if c = backspace then line.dropLast
  else if Printable c ∧ (line.length : ℤ) < len - 1 then line ++ [c]
  else line

/-- The characters of the key-down events. -/
def keysDown (evs : List KeyEvent) : List Byte :=
  (evs.filter fun ev => ev.type = keyEventDown).map KeyEvent.value

/-- The event ends the line. -/
def Enters (ev : KeyEvent) : Prop := ev.type = keyEventDown ∧ ev.value = ascii '\n'

/-- What the echo leaves on the console. -/
def shown (echo : List Echo) : List Byte :=
  echo.foldl (fun line out =>
    match out with
    | .consolePutchar c => line ++ [c]
    | .consoleBackspace => line.dropLast) []

/-- The characters in the buffer. -/
def Editor.held (e : Editor) : List Byte := (List.range e.pos.toNat).map fun i : ℕ => e.buf i

/-- Reading from `src` gives these events, and leaves `src'`. -/
def Delivers (level : Level) : Source → List KeyEvent → Source → Prop
  | src, [], src' => src = src'
  | src, ev :: evs, src' =>
    ∃ src₁, keyboardBlockRead level src = some (ev, src₁) ∧ Delivers level src₁ evs src'

/-- Buffer, length and echo are those of `line`, and nothing outside the buffer was written. -/
structure Editing (len : ℤ) (buf : ℤ → Byte) (line : List Byte) (e : Editor) : Prop where
  pos : e.pos = line.length
  fits : (line.length : ℤ) ≤ len - 1
  held : e.held = line
  shown : shown e.echo = line
  frame : ∀ i, i < 0 ∨ len ≤ i → e.buf i = buf i

/-! ## One character -/

theorem shown_snoc (echo : List Echo) (out : Echo) :
    shown (echo ++ [out]) =
      match out with
      | .consolePutchar c => shown echo ++ [c]
      | .consoleBackspace => (shown echo).dropLast := by
  unfold shown
  rw [List.foldl_append]
  rfl

/-- The test of `readline` on the signed `char`. -/
theorem printable_iff (c : Byte) :
    ((ascii ' ').toInt ≤ c.toInt ∧ c.toInt < 127) ↔ Printable c := by
  have hspace : (ascii ' ').toInt = 32 := by decide
  have hc := c.isLt
  rw [hspace, BitVec.toInt_eq_toNat_cond, Printable]
  split <;> omega

section Edit

variable {len : ℤ} {buf : ℤ → Byte} {line : List Byte} {e : Editor}

/-- A character goes behind those that are there. -/
theorem Editing.append (h : Editing len buf line e) (c : Byte) (hroom : e.pos < len - 1) :
    Editing len buf (line ++ [c])
      ⟨e.pos + 1, Function.update e.buf e.pos c, e.echo ++ [.consolePutchar c]⟩ := by
  have hpos := h.pos
  have hlength : ((line ++ [c]).length : ℤ) = line.length + 1 := by simp
  refine ⟨?_, ?_, ?_, ?_, ?_⟩
  · rw [hlength, ← hpos]
  · omega
  · have htoNat : (e.pos + 1).toNat = e.pos.toNat + 1 := by omega
    have hlast : (e.pos.toNat : ℤ) = e.pos := by omega
    have hheld := h.held
    unfold Editor.held at hheld ⊢
    dsimp only
    rw [htoNat, List.range_succ, List.map_append, ← hheld]
    congr 1
    · refine List.map_congr_left fun i hi => ?_
      have hi := List.mem_range.mp hi
      exact Function.update_of_ne (by omega) _ _
    · rw [List.map_singleton, hlast, Function.update_self]
  · rw [shown_snoc]
    exact congrArg (· ++ [c]) h.shown
  · intro i hi
    have hne : i ≠ e.pos := by omega
    exact (Function.update_of_ne hne _ _).trans (h.frame i hi)

/-- The last character goes. -/
theorem Editing.drop (h : Editing len buf line e) (hpos : 0 < e.pos) :
    Editing len buf line.dropLast
      { e with pos := e.pos - 1, echo := e.echo ++ [.consoleBackspace] } := by
  have hlength := h.pos
  have hfits := h.fits
  refine ⟨?_, ?_, ?_, ?_, h.frame⟩
  · rw [List.length_dropLast]
    dsimp only
    omega
  · rw [List.length_dropLast]
    omega
  · have htoNat : e.pos.toNat = (e.pos - 1).toNat + 1 := by omega
    have hheld := h.held
    unfold Editor.held at hheld ⊢
    rw [← hheld, htoNat, List.range_succ, List.map_append]
    exact List.dropLast_concat.symm
  · rw [shown_snoc]
    exact congrArg List.dropLast h.shown

theorem edit_spec (h : Editing len buf line e) (c : Byte) :
    Editing len buf (editLine len line c) (edit len e c) := by
  have hpos := h.pos
  unfold edit editLine
  by_cases hback : c = backspace
  · rw [if_pos hback, if_pos hback]
    by_cases hzero : 0 < e.pos
    · rw [if_pos hzero]
      exact h.drop hzero
    · -- nothing is held, and nothing is rubbed out
      rw [if_neg hzero]
      have hnil : line = [] := List.eq_nil_of_length_eq_zero (by omega)
      subst hnil
      exact h
  rw [if_neg hback, if_neg hback]
  by_cases hc : Printable c
  · rw [if_pos ((printable_iff c).mpr hc)]
    by_cases hroom : e.pos < len - 1
    · rw [if_pos hroom, if_pos ⟨hc, hpos ▸ hroom⟩]
      exact h.append c hroom
    · rw [if_neg hroom, if_neg fun hh => hroom (hpos ▸ hh.2)]
      exact h
  · rw [if_neg (mt (printable_iff c).mp hc), if_neg fun hh => hc hh.1]
    exact h

/-- Any number of characters. -/
theorem edit_run (h : Editing len buf line e) (cs : List Byte) :
    Editing len buf (cs.foldl (editLine len) line) (cs.foldl (edit len) e) := by
  induction cs generalizing line e with
  | nil => exact h
  | cons c cs ih => exact ih (edit_spec h c)

/-- The terminator goes behind the line, inside the buffer. -/
theorem Editing.enter (h : Editing len buf line e) :
    (∀ i (hi : i < line.length), (enter e).buf i = line.get ⟨i, hi⟩) ∧
      (enter e).buf line.length = 0 ∧ ∀ i, i < 0 ∨ len ≤ i → (enter e).buf i = buf i := by
  have hpos := h.pos
  have hfits := h.fits
  refine ⟨fun i hi => ?_, ?_, fun i hi => ?_⟩
  · have hne : (i : ℤ) ≠ e.pos := by omega
    have hget : e.held[i]? = (line)[i]? := by rw [h.held]
    rw [Editor.held, hpos, Int.toNat_natCast, List.getElem?_map, List.getElem?_range hi,
      List.getElem?_eq_getElem hi] at hget
    exact (Function.update_of_ne hne _ _).trans (Option.some.inj hget)
  · rw [← hpos]
    exact Function.update_self _ _ _
  · have hne : i ≠ e.pos := by omega
    exact (Function.update_of_ne hne _ _).trans (h.frame i hi)

end Edit

/-! ## The call -/

section Readline

variable {level : Level} {len : ℤ}

theorem Delivers.split {src src' : Source} {before after : List KeyEvent}
    (h : Delivers level src (before ++ after) src') :
    ∃ src₁, Delivers level src before src₁ ∧ Delivers level src₁ after src' := by
  induction before generalizing src with
  | nil => exact ⟨src, rfl, h⟩
  | cons ev before ih =>
    obtain ⟨src₁, hread, hrest⟩ := h
    obtain ⟨src₂, hbefore, hafter⟩ := ih hrest
    exact ⟨src₂, ⟨src₁, hread, hbefore⟩, hafter⟩

/-- One turn of the loop on an event that does not end the line. -/
theorem readlineLoop_step {src src₁ : Source} {ev : KeyEvent}
    (hread : keyboardBlockRead level src = some (ev, src₁)) (hev : ¬ Enters ev) (fuel : ℕ)
    (e : Editor) :
    readlineLoop level len (fuel + 1) src e =
      readlineLoop level len fuel src₁ ((keysDown [ev]).foldl (edit len) e) := by
  rw [readlineLoop, hread]
  dsimp only
  by_cases htype : ev.type = keyEventDown
  · have hvalue : ev.value ≠ ascii '\n' := fun hv => hev ⟨htype, hv⟩
    rw [if_neg (not_not.mpr htype), if_neg hvalue]
    simp [keysDown, htype]
  · rw [if_pos htype]
    simp [keysDown, htype]

/-- The loop goes through events that do not end the line. -/
theorem readlineLoop_run {src src₁ : Source} {evs : List KeyEvent}
    (hdel : Delivers level src evs src₁) (hevs : ∀ ev ∈ evs, ¬ Enters ev) (fuel : ℕ) (e : Editor) :
    readlineLoop level len (fuel + evs.length) src e =
      readlineLoop level len fuel src₁ ((keysDown evs).foldl (edit len) e) := by
  induction evs generalizing src e with
  | nil =>
    obtain rfl : src = src₁ := hdel
    rfl
  | cons ev evs ih =>
    obtain ⟨src₂, hread, hrest⟩ := hdel
    obtain ⟨hev, hevs⟩ := List.forall_mem_cons.mp hevs
    have hkeys : keysDown (ev :: evs) = keysDown [ev] ++ keysDown evs := by
      rw [keysDown, keysDown, keysDown, ← List.map_append, ← List.filter_append, List.singleton_append]
    rw [List.length_cons, ← Nat.add_assoc, readlineLoop_step hread hev, ih hrest hevs, hkeys,
      List.foldl_append]

/-- `readline` on events of which only the last ends the line returns the length of the edited line,
    leaves it in the buffer with its terminator, and writes nothing outside `buf[0..len-1]`. After
    any part of the events the call stands at an editor whose echo shows what its buffer holds. -/
theorem readline_spec (level : Level) {len : ℤ} (hlen : 1 ≤ len) (buf : ℤ → Byte)
    {src src' : Source} {evs : List KeyEvent} {last : KeyEvent}
    (hdel : Delivers level src (evs ++ [last]) src') (hevs : ∀ ev ∈ evs, ¬ Enters ev)
    (hlast : Enters last) {fuel : ℕ} (hfuel : evs.length < fuel) :
    let line := (keysDown evs).foldl (editLine len) []
    (∃ e : Editor, readline level buf len fuel src = some ((line.length : ℤ), e, src') ∧
      (∀ i (hi : i < line.length), e.buf i = line.get ⟨i, hi⟩) ∧ e.buf line.length = 0 ∧
      ∀ i, i < 0 ∨ len ≤ i → e.buf i = buf i) ∧
    ∀ before after, evs = before ++ after → ∃ (e : Editor) (src₁ : Source),
      readline level buf len fuel src = readlineLoop level len (fuel - before.length) src₁ e ∧
      e.held = (keysDown before).foldl (editLine len) [] ∧ shown e.echo = e.held ∧
      ∀ i, i < 0 ∨ len ≤ i → e.buf i = buf i := by
  intro line
  have hstart : Editing len buf [] ⟨0, buf, []⟩ :=
    ⟨rfl, by simpa using hlen, rfl, rfl, fun _ _ => rfl⟩
  have hcall : ∀ before src₁, Delivers level src before src₁ → (∀ ev ∈ before, ¬ Enters ev) →
      before.length ≤ fuel → readline level buf len fuel src =
        readlineLoop level len (fuel - before.length) src₁
          ((keysDown before).foldl (edit len) ⟨0, buf, []⟩) := by
    intro before src₁ hbefore hnone hle
    rw [← readlineLoop_run hbefore hnone, Nat.sub_add_cancel hle, readline, if_neg (by omega)]
  refine ⟨?_, ?_⟩
  · obtain ⟨src₁, hbefore, src₂, hread, hsrc⟩ := hdel.split
    obtain rfl : src₂ = src' := hsrc
    obtain ⟨rest, hrest⟩ : ∃ rest, fuel - evs.length = rest + 1 :=
      ⟨fuel - evs.length - 1, by omega⟩
    have hend := edit_run hstart (keysDown evs)
    refine ⟨enter ((keysDown evs).foldl (edit len) ⟨0, buf, []⟩), ?_, hend.enter⟩
    rw [hcall evs src₁ hbefore hevs hfuel.le, hrest, readlineLoop, hread]
    dsimp only
    rw [if_neg (not_not.mpr hlast.1), if_pos hlast.2, hend.pos]
  · intro before after happ
    subst happ
    rw [List.append_assoc] at hdel
    obtain ⟨src₁, hbefore, -⟩ := hdel.split
    have hle : before.length ≤ fuel := by
      rw [List.length_append] at hfuel
      omega
    have hmoment := edit_run hstart (keysDown before)
    exact ⟨_, src₁, hcall before src₁ hbefore
      (fun ev hev => hevs ev (List.mem_append_left after hev)) hle, hmoment.held,
      hmoment.shown.trans hmoment.held.symm, hmoment.frame⟩

/-- Two characters fit, a third does not, a backspace makes room again, a key-up is skipped. -/
theorem readline_spec_ad :
    let key (c : Char) : KeyEvent := ⟨keyEventDown, 0, ascii c, 0⟩
    let evs := [key 'a', key 'b', key 'c', key '\x08', ⟨2, 0, ascii 'x', 0⟩, key 'd', key '\n']
    let src : Source :=
      (⟨fun _ i => evs.getD i ⟨0, 0, 0, 0⟩, fun _ => ⟨7, 0, true⟩⟩, List.replicate 7 [])
    ∃ e src', readline 0 (fun _ => 0xFF) 3 7 src = some (2, e, src') ∧
      e.buf 0 = ascii 'a' ∧ e.buf 1 = ascii 'd' ∧ e.buf 2 = 0 ∧ e.buf 3 = 0xFF := by
  intro key evs src
  have hdel : ∃ src', Delivers 0 src (evs.take 6 ++ [key '\n']) src' :=
    ⟨_, _, rfl, _, rfl, _, rfl, _, rfl, _, rfl, _, rfl, _, rfl, rfl⟩
  obtain ⟨src', hdel⟩ := hdel
  have hevs : ∀ ev ∈ evs.take 6, ¬ Enters ev := by
    unfold Enters
    decide
  obtain ⟨⟨e, hcall, hline, hzero, hframe⟩, -⟩ :=
    readline_spec 0 (show (1 : ℤ) ≤ 3 by decide) (fun _ => 0xFF) hdel hevs ⟨rfl, rfl⟩
      (show (evs.take 6).length < 7 by decide)
  exact ⟨e, src', hcall, hline 0 (by decide), hline 1 (by decide), hzero, hframe 3 (.inr le_rfl)⟩

end Readline

end HorizonOS.Drivers.Keyboard
