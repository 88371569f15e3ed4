import HorizonOS.Drivers.Ps2

/-!
# The shift flag of the keyboard drivers

Both PS/2 drivers keep one flag for two shift keys: a make code of either sets it and a break code
of either clears it, while the key map records the two keys apart. So the flag tells what the last
shift code of the stream was, and that is not whether a shift key is down when one of them was
released while the other was held.

* `shiftCodes`: the shift codes in a stream of bytes.
* `run_shift`: flag and key map after a stream.
* `shift_follows_keys_iff`: when the flag agrees with the keys, in both drivers.
-/

namespace HorizonOS.Drivers.Ps2

open HorizonOS.Lib

/-! ## Shift codes -/

inductive ShiftKey
  | left
  | right
deriving DecidableEq

def ShiftKey.index : ShiftKey → Byte
  | .left => 0x2A
  | .right => 0x36

def ShiftKey.other : ShiftKey → ShiftKey
  | .left => .right
  | .right => .left

/-- The shift key whose code the byte is, with `true` for its make code; after a prefix byte the
    codes stand for other keys. -/
def shiftCode (extended : Bool) (scancode : Byte) : Option (ShiftKey × Bool) :=
  if extended then none
  else if scancode = 0x2A then some (.left, true)
  else if scancode = 0x36 then some (.right, true)
  else if scancode = 0xAA then some (.left, false)
  else if scancode = 0xB6 then some (.right, false)
  else none

/-- The shift codes of a stream. -/
def shiftCodes : (extended : Bool) → List Byte → List (ShiftKey × Bool)
  | _, [] => []
  | extended, scancode :: stream =>
    (shiftCode extended scancode).toList ++ shiftCodes (scancode == 0xE0) stream

/-- What the last code says, or `before` if there is none. -/
def lastCode (before : Bool) (codes : List (ShiftKey × Bool)) : Bool :=
  codes.foldl (fun _ code => code.2) before

/-- The same for the codes of one key. -/
def lastCodeOf (key : ShiftKey) (before : Bool) (codes : List (ShiftKey × Bool)) : Bool :=
  lastCode before (codes.filter (·.1 = key))

theorem lastCode_append (before : Bool) (codes codes' : List (ShiftKey × Bool)) :
    lastCode before (codes ++ codes') = lastCode (lastCode before codes) codes' :=
  List.foldl_append

theorem lastCodeOf_append (key : ShiftKey) (before : Bool) (codes codes' : List (ShiftKey × Bool)) :
    lastCodeOf key before (codes ++ codes') =
      lastCodeOf key (lastCodeOf key before codes) codes' := by
  unfold lastCodeOf
  rw [List.filter_append, lastCode_append]

/-- Flag and key are those of the last codes. -/
theorem lastCode_snoc (before : Bool) (codes : List (ShiftKey × Bool)) (key : ShiftKey) (down : Bool) :
    lastCode before (codes ++ [(key, down)]) = down ∧
      lastCodeOf key before (codes ++ [(key, down)]) = down ∧
      lastCodeOf key.other before (codes ++ [(key, down)]) = lastCodeOf key.other before codes := by
  refine ⟨?_, ?_, ?_⟩
  · rw [lastCode_append]
    rfl
  · rw [lastCodeOf_append]
    simp [lastCodeOf, lastCode]
  · rw [lastCodeOf_append]
    cases key <;> simp [lastCodeOf, lastCode, ShiftKey.other]

/-! ## One byte -/

/-- A byte is a shift code, or its index is not that of a shift key. -/
theorem shiftCode_cases (scancode : Byte) :
    scancode = 0x2A ∨ scancode = 0x36 ∨ scancode = 0xAA ∨ scancode = 0xB6 ∨
      shiftCode false scancode = none ∧ scancode &&& 0x7F ≠ 0x2A ∧ scancode &&& 0x7F ≠ 0x36 := by
  revert scancode
  decide

theorem extended_index_ne (scancode : Byte) (key : ShiftKey) :
    key.index ≠ (scancode &&& 0x7F) ||| 0x80 := by
  revert scancode
  cases key <;> decide

section Handler

variable (d : I386.Keyboard) (scancode : Byte) (t : BitVec 32)

theorem handler_extendedPrefix :
    (I386.keyboardInterruptHandler d scancode t).1.extendedPrefix = (scancode == 0xE0) := by
  unfold I386.keyboardInterruptHandler
  by_cases hE0 : scancode = 0xE0
  · rw [if_pos hE0, hE0]
    rfl
  · rw [if_neg hE0, beq_false_of_ne hE0]
    dsimp only
    split_ifs <;> rfl

/-- The state after a byte that is not the prefix. -/
theorem handler_state (hE0 : scancode ≠ 0xE0) :
    (I386.keyboardInterruptHandler d scancode t).1 =
      ⟨Function.update d.keyState
          (if d.extendedPrefix then (scancode &&& 0x7F) ||| 0x80 else scancode &&& 0x7F)
          (!decide (scancode &&& 0x80 ≠ 0)), false,
        if !d.extendedPrefix ∧ (scancode &&& 0x7F = 0x2A ∨ scancode &&& 0x7F = 0x36) then
          !decide (scancode &&& 0x80 ≠ 0)
        else d.shiftPressed⟩ := by
  unfold I386.keyboardInterruptHandler
  rw [if_neg hE0]
  dsimp only
  split_ifs <;> rfl

/-- What a byte does to the flag and to the two keys. -/
theorem handler_shift :
    (I386.keyboardInterruptHandler d scancode t).1.shiftPressed =
        lastCode d.shiftPressed (shiftCode d.extendedPrefix scancode).toList ∧
      ∀ key : ShiftKey, (I386.keyboardInterruptHandler d scancode t).1.keyState key.index =
        lastCodeOf key (d.keyState key.index) (shiftCode d.extendedPrefix scancode).toList := by
  obtain ⟨keys, extended, shift⟩ := d
  by_cases hE0 : scancode = 0xE0
  · subst hE0
    cases extended <;> exact ⟨rfl, fun _ => rfl⟩
  cases extended with
  | true =>
    rw [handler_state _ _ _ hE0]
    exact ⟨rfl, fun key => Function.update_of_ne (extended_index_ne scancode key) _ _⟩
  | false =>
    rcases shiftCode_cases scancode with rfl | rfl | rfl | rfl | ⟨hnone, hleft, hright⟩
    iterate 4 · exact ⟨rfl, fun key => by cases key <;> rfl⟩
    · have hkey : ∀ key : ShiftKey, key.index ≠ scancode &&& 0x7F := by
        intro key
        cases key
        · exact hleft.symm
        · exact hright.symm
      rw [handler_state _ _ _ hE0]
      refine ⟨?_, fun key => ?_⟩
      · rw [hnone]
        exact if_neg fun h => h.2.elim hleft hright
      · rw [hnone]
        exact Function.update_of_ne (hkey key) _ _

end Handler

/-! ## Streams -/

/-- The flag is what the last shift code says, and each key what its own last code says. -/
theorem run_shift (t : ℕ → BitVec 32) (stream : List Byte) (n : ℕ) (d : I386.Keyboard) :
    (run I386.keyboardInterruptHandler t n d stream).1.shiftPressed =
        lastCode d.shiftPressed (shiftCodes d.extendedPrefix stream) ∧
      ∀ key : ShiftKey, (run I386.keyboardInterruptHandler t n d stream).1.keyState key.index =
        lastCodeOf key (d.keyState key.index) (shiftCodes d.extendedPrefix stream) := by
  induction stream generalizing n d with
  | nil => exact ⟨rfl, fun _ => rfl⟩
  | cons scancode stream ih =>
    obtain ⟨hflag, hkeys⟩ := handler_shift d scancode (t n)
    obtain ⟨hflag', hkeys'⟩ := ih (n + 1) (I386.keyboardInterruptHandler d scancode (t n)).1
    rw [handler_extendedPrefix] at hflag' hkeys'
    refine ⟨?_, fun key => ?_⟩
    · rw [shiftCodes, lastCode_append, ← hflag]
      exact hflag'
    · rw [shiftCodes, lastCodeOf_append, ← hkeys key]
      exact hkeys' key

/-- The flag follows the keys unless the last shift code released one key while the other was
    held. -/
theorem lastCode_follows_iff (codes : List (ShiftKey × Bool)) :
    (lastCode false codes = true ↔
        lastCodeOf .left false codes = true ∨ lastCodeOf .right false codes = true) ↔
      ∀ key, codes.getLast? = some (key, false) → lastCodeOf key.other false codes = false := by
  induction codes using List.reverseRecOn with
  | nil => simp [lastCode, lastCodeOf]
  | append_singleton codes code _ =>
    obtain ⟨key, down⟩ := code
    obtain ⟨hflag, hkey, hother⟩ := lastCode_snoc false codes key down
    have hkeys : lastCodeOf .left false (codes ++ [(key, down)]) = true ∨
        lastCodeOf .right false (codes ++ [(key, down)]) = true ↔
        down = true ∨ lastCodeOf key.other false codes = true := by
      cases key <;> simp only [ShiftKey.other] at hother ⊢ <;> rw [hkey, hother]
      exact or_comm
    rw [hflag, hkeys, List.getLast?_concat]
    cases down with
    | true => simp
    | false =>
      simp only [Bool.false_eq_true, false_or, false_iff, Bool.not_eq_true]
      constructor
      · intro hup key' hlast
        obtain ⟨rfl, -⟩ := Prod.mk.inj (Option.some.inj hlast)
        rw [hother]
        exact hup
      · intro hup
        rw [← hother]
        exact hup key rfl

/-- After a stream of bytes from the zero state the flag that chooses the upper-case table is set if
    and only if one of the shift keys is recorded as pressed, exactly if the last shift code of the
    stream is not the release of one key while the last code of the other one was a press. This is
    so in both drivers. -/
theorem shift_follows_keys_iff (stream : List Byte) (t t' : ℕ → BitVec 32) :
    let x := (run ps2kIrqHandler t 0 Ps2k.zero stream).1
    let y := (run I386.keyboardInterruptHandler t' 0 I386.Keyboard.zero stream).1
    let codes := shiftCodes false stream
    ((x.shiftPressed = true ↔ x.keyPressed 0x2A = true ∨ x.keyPressed 0x36 = true) ↔
      ∀ key, codes.getLast? = some (key, false) → lastCodeOf key.other false codes = false) ∧
    ((y.shiftPressed = true ↔ y.keyState 0x2A = true ∨ y.keyState 0x36 = true) ↔
      ∀ key, codes.getLast? = some (key, false) → lastCodeOf key.other false codes = false) := by
  intro x y codes
  obtain ⟨hflag, hkeys⟩ := run_shift t' stream 0 I386.Keyboard.zero
  have hleft : y.keyState 0x2A = lastCodeOf .left false codes := hkeys .left
  have hright : y.keyState 0x36 = lastCodeOf .right false codes := hkeys .right
  have hshift : y.shiftPressed = lastCode false codes := hflag
  have hagree : Agree x y := (run_agree ⟨rfl, rfl, rfl⟩ stream t t' 0).1
  rw [hagree.keys, hagree.shift, hshift, hleft, hright]
  exact ⟨lastCode_follows_iff codes, lastCode_follows_iff codes⟩

/-- Left shift down, right shift down, right shift up: the left key is held, and both drivers
    translate as if no shift key were. -/
theorem shift_lost_on_second_release :
    let x := (run ps2kIrqHandler (fun _ => 0) 0 Ps2k.zero [0x2A, 0x36, 0xB6]).1
    let y := (run I386.keyboardInterruptHandler (fun _ => 0) 0 I386.Keyboard.zero
      [0x2A, 0x36, 0xB6]).1
    x.keyPressed 0x2A = true ∧ x.shiftPressed = false ∧
      y.keyState 0x2A = true ∧ y.shiftPressed = false := by
  decide

end HorizonOS.Drivers.Ps2
