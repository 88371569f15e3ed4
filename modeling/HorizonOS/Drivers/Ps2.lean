import HorizonOS.Drivers.Keyboard
import HorizonOS.Libc.String

/-!
# The two decoders of the PS/2 keyboard

Models of `ps2k_irq_handler` (arch/x86_64/drivers/ps2k.c:107–155) and of the i386
`keyboard_interrupt_handler` (drivers/keyboard/keyboard.c:400–453). Each reads one byte of scan
code set 1 from the data port. They were written apart: the x86_64 handler clears its prefix
last, handles the shift keys before it translates and echoes to the serial line; the i386
handler clears its prefix first and translates the shift keys too.

* `handlers_agree`: one byte, from states that agree.
* `decoders_agree`: streams of bytes.
-/

namespace HorizonOS.Drivers.Ps2

open HorizonOS.Lib HorizonOS.Libc HorizonOS.Drivers.Keyboard

/-- `KEY_EVENT_DOWN` (keyboard.h:34 and drivers/keyboard/keyboard.h:14). -/
def keyEventDown : BitVec 8 := 1

/-- What a handler does besides updating its own state. The event of `push` goes to every level
    in use (`pushAll`). -/
inductive Effect
  | serialPutchar (c : Byte)
  | push (ev : KeyEvent)
  | apicSendEoi
deriving DecidableEq

/-- The events pushed, oldest first. -/
def pushed (es : List Effect) : List KeyEvent :=
  es.filterMap fun
    | .push ev => some ev
    | _ => none

/-! ## x86_64 -/

/-- `scancode_to_ascii` (ps2k.c:58–64). -/
def scancodeToAscii : List Byte :=
  [0, 27] ++ ['1', '2', '3', '4', '5', '6', '7', '8', '9', '0', '-', '='].map ascii ++ [8, 9] ++
    ['q', 'w', 'e', 'r', 't', 'y', 'u', 'i', 'o', 'p', '[', ']', '\n'].map ascii ++ [1] ++
    ['a', 's', 'd', 'f', 'g', 'h', 'j', 'k', 'l', ';'].map ascii ++ [39, 96, 2, 92] ++
    ['z', 'x', 'c', 'v', 'b', 'n', 'm', ',', '.', '/'].map ascii ++ [3, ascii '*', 4, ascii ' ']

/-- `scancode_to_ascii_uppercase` (ps2k.c:67–73). -/
def scancodeToAsciiUppercase : List Byte :=
  [0, 27] ++ ['!', '@', '#', '$', '%', '^', '&', '*', '(', ')', '_', '+'].map ascii ++ [8, 9] ++
    ['Q', 'W', 'E', 'R', 'T', 'Y', 'U', 'I', 'O', 'P'].map ascii ++ [123, 125, 10, 1] ++
    ['A', 'S', 'D', 'F', 'G', 'H', 'J', 'K', 'L', ':'].map ascii ++ [34, 126, 2, 124] ++
    ['Z', 'X', 'C', 'V', 'B', 'N', 'M', '<', '>', '?'].map ascii ++ [3, ascii '*', 4, ascii ' ']

/-- `key_pressed`, `shift_pressed` and `e0_prefix` (ps2k.c:76–86). -/
structure Ps2k where
  keyPressed : Byte → Bool
  shiftPressed : Bool
  e0Prefix : Bool

/-- `ps2k_irq_handler` (ps2k.c:107–155) on the byte `scancode`, with `timer_ticks()`. -/
def ps2kIrqHandler (d : Ps2k) (scancode : Byte) (ticks : BitVec 32) : Ps2k × List Effect :=
  if scancode = 0xE0 then ({ d with e0Prefix := true }, [.apicSendEoi])
  else
    let index := if d.e0Prefix then (scancode &&& 0x7F) ||| 0x80 else scancode &&& 0x7F
    let released := scancode &&& 0x80
    let (d, out) :=
      if released ≠ 0 then
        let d := { d with keyPressed := Function.update d.keyPressed index false }
        (if index = 0x2A ∨ index = 0x36 then { d with shiftPressed := false } else d, [])
      else
        let d := { d with keyPressed := Function.update d.keyPressed index true }
        if index = 0x2A ∨ index = 0x36 then ({ d with shiftPressed := true }, [])
        else if index.toNat < scancodeToAscii.length then
          let c := (if d.shiftPressed then scancodeToAsciiUppercase else scancodeToAscii).getD
            index.toNat 0
          if c ≠ 0 then
            (d, [.serialPutchar c, .push ⟨keyEventDown, index, c, ticks.setWidth 8⟩])
          else (d, [])
        else (d, [])
    ({ d with e0Prefix := false }, out ++ [.apicSendEoi])

/-! ## i386 -/

namespace I386

/-- `scancode_to_ascii` (keyboard.c:122–179), with the values of `enum SCANCODE`. -/
def scancodeToAscii : List Byte :=
  [0, 27, ascii '1', ascii '2', ascii '3', ascii '4', ascii '5', ascii '6', ascii '7', ascii '8',
    ascii '9', ascii '0', ascii '-', ascii '=', 8, 9, ascii 'q', ascii 'w', ascii 'e', ascii 'r',
    ascii 't', ascii 'y', ascii 'u', ascii 'i', ascii 'o', ascii 'p', ascii '[', ascii ']',
    ascii '\n', 1, ascii 'a', ascii 's', ascii 'd', ascii 'f', ascii 'g', ascii 'h', ascii 'j',
    ascii 'k', ascii 'l', ascii ';', 39, 96, 2, 92, ascii 'z', ascii 'x', ascii 'c', ascii 'v',
    ascii 'b', ascii 'n', ascii 'm', ascii ',', ascii '.', ascii '/', 3, ascii '*', 4, ascii ' ']

/-- `scancode_to_ascii_uppercase` (keyboard.c:181–238). -/
def scancodeToAsciiUppercase : List Byte :=
  [0, 27, ascii '!', ascii '@', ascii '#', ascii '$', ascii '%', ascii '^', ascii '&', ascii '*',
    ascii '(', ascii ')', ascii '_', ascii '+', 8, 9, ascii 'Q', ascii 'W', ascii 'E', ascii 'R',
    ascii 'T', ascii 'Y', ascii 'U', ascii 'I', ascii 'O', ascii 'P', 123, 125, ascii '\n', 1,
    ascii 'A', ascii 'S', ascii 'D', ascii 'F', ascii 'G', ascii 'H', ascii 'J', ascii 'K',
    ascii 'L', ascii ':', 34, 126, 2, 124, ascii 'Z', ascii 'X', ascii 'C', ascii 'V', ascii 'B',
    ascii 'N', ascii 'M', ascii '<', ascii '>', ascii '?', 3, ascii '*', 4, ascii ' ']

/-- `key_state`, `extended_prefix` and `shift_pressed` (keyboard.c:115–116 and 240). -/
structure Keyboard where
  keyState : Byte → Bool
  extendedPrefix : Bool
  shiftPressed : Bool

/-- `keyboard_interrupt_handler` (keyboard.c:400–453) on the byte `scancode`, with
    `timer_ticks()`. -/
def keyboardInterruptHandler (d : Keyboard) (scancode : Byte) (ticks : BitVec 32) :
    Keyboard × List Effect :=
  if scancode = 0xE0 then ({ d with extendedPrefix := true }, [.apicSendEoi])
  else
    let wasExtended := d.extendedPrefix
    let d := { d with extendedPrefix := false }
    let base := scancode &&& 0x7F
    let isRelease := decide (scancode &&& 0x80 ≠ 0)
    let keyIdx := if wasExtended then base ||| 0x80 else base
    let d := { d with keyState := Function.update d.keyState keyIdx !isRelease }
    let d :=
      if !wasExtended ∧ (base = 0x2A ∨ base = 0x36) then { d with shiftPressed := !isRelease }
      else d
    let out :=
      if !isRelease ∧ !wasExtended ∧ base.toNat < scancodeToAscii.length then
        let c := (if d.shiftPressed then scancodeToAsciiUppercase else scancodeToAscii).getD
          base.toNat 0
        if c ≠ 0 then [.push ⟨keyEventDown, base, c, ticks.setWidth 8⟩] else []
      else []
    (d, out ++ [.apicSendEoi])

end I386

/-! ## Streams -/

/-- One interrupt for each byte of the stream; `ticks n` is what `timer_ticks()` returns in the
    `n`-th. -/
def run {σ : Type} (handler : σ → Byte → BitVec 32 → σ × List Effect) (ticks : ℕ → BitVec 32) :
    ℕ → σ → List Byte → σ × List Effect
  | _, d, [] => (d, [])
  | n, d, scancode :: stream =>
    let (d, out) := handler d scancode (ticks n)
    let (d, out') := run handler ticks (n + 1) d stream
    (d, out ++ out')

/-- The zeroed state of the x86_64 driver. -/
def Ps2k.zero : Ps2k := ⟨fun _ => false, false, false⟩

/-- The zeroed state of the i386 driver. -/
def I386.Keyboard.zero : I386.Keyboard := ⟨fun _ => false, false, false⟩

/-! ## Agreement -/

/-- The fields of an event that do not depend on the time. -/
def content (ev : KeyEvent) : Byte × Byte × Byte := (ev.type, ev.scanCode, ev.value)

/-- The event is not one of a shift key. -/
def notShift (ev : KeyEvent) : Bool := ev.scanCode ≠ 0x2A ∧ ev.scanCode ≠ 0x36

/-- The two drivers hold the same keys, shift flag and prefix. -/
structure Agree (d : Ps2k) (e : I386.Keyboard) : Prop where
  keys : d.keyPressed = e.keyState
  shift : d.shiftPressed = e.shiftPressed
  pending : d.e0Prefix = e.extendedPrefix

/-- The x86_64 handler pushes what the i386 handler pushes for keys other than shift. -/
def SameEvents (out out' : List Effect) : Prop :=
  (pushed out).map content = ((pushed out').filter notShift).map content

theorem pushed_append (es fs : List Effect) : pushed (es ++ fs) = pushed es ++ pushed fs :=
  List.filterMap_append

theorem SameEvents.append {a b a' b' : List Effect} (h : SameEvents a a') (h' : SameEvents b b') :
    SameEvents (a ++ b) (a' ++ b') := by
  unfold SameEvents at *
  rw [pushed_append, pushed_append, List.map_append, List.filter_append, List.map_append, h, h']

theorem tables_eq : I386.scancodeToAscii = scancodeToAscii ∧
    I386.scancodeToAsciiUppercase = scancodeToAsciiUppercase := by
  decide

/-- An extended index is in the upper half. -/
theorem le_or_high (x : Byte) : 0x80 ≤ (x ||| 0x80).toNat := by
  rw [BitVec.toNat_or]
  exact Nat.right_le_or

/-- A key other than shift gives the same event, whatever the time. -/
theorem sameEvents_key {index : Byte} (h : ¬ (index = 0x2A ∨ index = 0x36)) (c t t' : Byte) :
    SameEvents ([Effect.serialPutchar c, .push ⟨keyEventDown, index, c, t⟩] ++ [Effect.apicSendEoi])
      ([Effect.push ⟨keyEventDown, index, c, t'⟩] ++ [Effect.apicSendEoi]) := by
  have hkeep : notShift ⟨keyEventDown, index, c, t'⟩ = true := decide_eq_true (not_or.mp h)
  show [content _] = List.map content (List.filter notShift [_])
  rw [List.filter_cons_of_pos hkeep]
  rfl

theorem handlers_agree_extended (keys : Byte → Bool) (shift : Bool) {scancode : Byte}
    (hE0 : scancode ≠ 0xE0) (t t' : BitVec 32) :
    Agree (ps2kIrqHandler ⟨keys, shift, true⟩ scancode t).1
        (I386.keyboardInterruptHandler ⟨keys, true, shift⟩ scancode t').1 ∧
      SameEvents (ps2kIrqHandler ⟨keys, shift, true⟩ scancode t).2
        (I386.keyboardInterruptHandler ⟨keys, true, shift⟩ scancode t').2 := by
  have hhigh := le_or_high (scancode &&& 0x7F)
  have hkey : ¬ ((scancode &&& 0x7F) ||| 0x80 = 0x2A ∨ (scancode &&& 0x7F) ||| 0x80 = 0x36) := by
    rintro (h | h) <;> rw [h] at hhigh <;> exact absurd hhigh (by decide)
  have hlen : ¬ ((scancode &&& 0x7F) ||| 0x80).toNat < scancodeToAscii.length := by
    have : scancodeToAscii.length = 58 := by decide
    omega
  by_cases hrel : scancode &&& 0x80 = 0
  · simp only [ps2kIrqHandler, I386.keyboardInterruptHandler, hE0, hrel, hkey, hlen, reduceIte,
      ne_eq, not_true_eq_false]
    exact ⟨⟨rfl, rfl, rfl⟩, rfl⟩
  · simp only [ps2kIrqHandler, I386.keyboardInterruptHandler, hE0, hrel, hkey, reduceIte, ne_eq,
      not_false_eq_true]
    exact ⟨⟨rfl, rfl, rfl⟩, rfl⟩

theorem handlers_agree_plain (keys : Byte → Bool) (shift : Bool) {scancode : Byte}
    (hE0 : scancode ≠ 0xE0) (t t' : BitVec 32) :
    Agree (ps2kIrqHandler ⟨keys, shift, false⟩ scancode t).1
        (I386.keyboardInterruptHandler ⟨keys, false, shift⟩ scancode t').1 ∧
      SameEvents (ps2kIrqHandler ⟨keys, shift, false⟩ scancode t).2
        (I386.keyboardInterruptHandler ⟨keys, false, shift⟩ scancode t').2 := by
  obtain ⟨hlower, hupper⟩ := tables_eq
  by_cases hrel : scancode &&& 0x80 = 0
  · by_cases hkey : scancode &&& 0x7F = 0x2A ∨ scancode &&& 0x7F = 0x36
    · -- only the i386 handler pushes an event, and it is one of a shift key
      simp only [ps2kIrqHandler, I386.keyboardInterruptHandler, hE0, hrel, hkey, reduceIte, ne_eq,
        not_true_eq_false, Bool.false_eq_true, decide_false, Bool.not_false, true_and, and_self]
      refine ⟨⟨rfl, rfl, rfl⟩, ?_⟩
      rcases hkey with h | h <;> rw [h] <;> rfl
    · simp only [ps2kIrqHandler, I386.keyboardInterruptHandler, hE0, hrel, hkey, reduceIte, ne_eq,
        not_true_eq_false, Bool.false_eq_true, decide_false, Bool.not_false, true_and, and_false,
        hlower, hupper]
      generalize (if shift = true then scancodeToAsciiUppercase else scancodeToAscii).getD
        (BitVec.toNat (scancode &&& 127)) 0 = c
      split_ifs
      · exact ⟨⟨rfl, rfl, rfl⟩, rfl⟩
      · exact ⟨⟨rfl, rfl, rfl⟩, sameEvents_key hkey c _ _⟩
      · exact ⟨⟨rfl, rfl, rfl⟩, rfl⟩
  · by_cases hkey : scancode &&& 0x7F = 0x2A ∨ scancode &&& 0x7F = 0x36
    all_goals
      simp only [ps2kIrqHandler, I386.keyboardInterruptHandler, hE0, hrel, hkey, reduceIte, ne_eq,
        not_false_eq_true, Bool.false_eq_true]
      exact ⟨⟨rfl, rfl, rfl⟩, rfl⟩

/-- **One byte.** Handlers in states that agree leave states that agree, and push the same events
    but for those of the shift keys. -/
theorem handlers_agree {d : Ps2k} {e : I386.Keyboard} (h : Agree d e) (scancode : Byte)
    (t t' : BitVec 32) :
    Agree (ps2kIrqHandler d scancode t).1 (I386.keyboardInterruptHandler e scancode t').1 ∧
      SameEvents (ps2kIrqHandler d scancode t).2 (I386.keyboardInterruptHandler e scancode t').2 := by
  obtain ⟨keys, shift, pending⟩ := d
  obtain ⟨keys', pending', shift'⟩ := e
  obtain ⟨rfl, rfl, rfl⟩ := h
  by_cases hE0 : scancode = 0xE0
  · subst hE0
    exact ⟨⟨rfl, rfl, rfl⟩, rfl⟩
  · cases pending with
    | true => exact handlers_agree_extended keys shift hE0 t t'
    | false => exact handlers_agree_plain keys shift hE0 t t'

theorem run_agree {d : Ps2k} {e : I386.Keyboard} (h : Agree d e) (stream : List Byte)
    (t t' : ℕ → BitVec 32) (n : ℕ) :
    Agree (run ps2kIrqHandler t n d stream).1 (run I386.keyboardInterruptHandler t' n e stream).1 ∧
      SameEvents (run ps2kIrqHandler t n d stream).2
        (run I386.keyboardInterruptHandler t' n e stream).2 := by
  induction stream generalizing d e n with
  | nil => exact ⟨h, rfl⟩
  | cons scancode stream ih =>
    obtain ⟨hstate, hout⟩ := handlers_agree h scancode (t n) (t' n)
    obtain ⟨hstate', hout'⟩ := ih hstate (n + 1)
    exact ⟨hstate', hout.append hout'⟩

/-- **The two decoders agree.** After every stream of bytes from the zero state, the two drivers
    hold the same 256 keys, the same shift flag and the same prefix, and they have pushed the same
    events but for those that the i386 driver pushes for the shift keys. -/
theorem decoders_agree (stream : List Byte) (t t' : ℕ → BitVec 32) :
    let x := run ps2kIrqHandler t 0 Ps2k.zero stream
    let y := run I386.keyboardInterruptHandler t' 0 I386.Keyboard.zero stream
    (∀ key, x.1.keyPressed key = y.1.keyState key) ∧ x.1.shiftPressed = y.1.shiftPressed ∧
      x.1.e0Prefix = y.1.extendedPrefix ∧
      (pushed x.2).map content = ((pushed y.2).filter notShift).map content := by
  have hzero : Agree Ps2k.zero I386.Keyboard.zero := ⟨rfl, rfl, rfl⟩
  obtain ⟨hstate, hout⟩ := run_agree hzero stream t t' 0
  exact ⟨congrFun hstate.keys, hstate.shift, hstate.pending, hout⟩

end HorizonOS.Drivers.Ps2
