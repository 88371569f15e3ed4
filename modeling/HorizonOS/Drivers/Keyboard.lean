import HorizonOS.Lib.Ring

/-!
# The keyboard event queue

Model of `arch/x86_64/include/keyboard.c`: every listener has a level, and every
level a ring of `RING_BUFFER_SIZE` events. The interrupt handler of the PS/2
keyboard (drivers/ps2k.c:143–148) pushes an event to every level in use.

The specification is one bounded queue for each registered level, with no indices
in it. `keyboard_refines` says that every sequence of calls gives the same answers
in both, and leaves the same events pending.

* `LevelOk.push`: one push to one level.
* `step_refines`: one call.
* `keyboard_refines`: sequences of calls.
-/

namespace HorizonOS.Drivers.Keyboard

open HorizonOS.Lib

/-- `RING_BUFFER_SIZE` (keyboard.h:20). -/
abbrev ringBufferSize : ℕ := 100

/-- `KEYBOARD_QUEUE_LEVELS` (keyboard.h:24). -/
abbrev keyboardQueueLevels : ℕ := 10

/-- A valid level: the id that `register_keyboard_listener` returns. -/
abbrev Level := Fin keyboardQueueLevels

/-- `struct key_event_t` (keyboard.h:48–53). -/
structure KeyEvent where
  type : BitVec 8
  scanCode : BitVec 8
  value : BitVec 8
  timestamp : BitVec 8
deriving DecidableEq, Repr

/-- `struct keyboard_queue_state` (keyboard.h:71–75). -/
structure QueueState where
  head : ℕ
  tail : ℕ
  used : Bool
deriving DecidableEq, Repr

/-- `keyboard_multilevel_queue` and `keyboard_queue_state`. -/
structure Queues where
  queue : Level → ℕ → KeyEvent
  state : Level → QueueState

/-! ## Model -/

/-- Write the record of one level. -/
def Queues.setState (k : Queues) (level : Level) (q : QueueState) : Queues :=
  { k with state := Function.update k.state level q }

/-- `keyboard_push(level, entry)` (keyboard.c:23–40). -/
def keyboardPush (k : Queues) (level : Level) (entry : KeyEvent) : Queues :=
  let head := (k.state level).head
  let next := (head + 1) % ringBufferSize
  let k :=
    if next = (k.state level).tail then
      k.setState level { k.state level with tail := ((k.state level).tail + 1) % ringBufferSize }
    else k
  let k := { k with
    queue := Function.update k.queue level (Function.update (k.queue level) head entry) }
  k.setState level { k.state level with head := next }

/-- `keyboard_poll(level, out)` (keyboard.c:50–66): the result, what `out` points to and
    the queues. -/
def keyboardPoll (k : Queues) (level : Level) (out : KeyEvent) : ℕ × KeyEvent × Queues :=
  let headIndex := (k.state level).head
  let tailIndex := (k.state level).tail
  if tailIndex = headIndex then (0, out, k)
  else
    let slot := k.queue level tailIndex
    (1, ⟨slot.type, slot.scanCode, slot.value, slot.timestamp⟩,
      k.setState level { k.state level with tail := (tailIndex + 1) % ringBufferSize })

/-- `register_keyboard_listener()` (keyboard.c:89–100); `none` is its panic. -/
def registerKeyboardListener (k : Queues) : Option (Level × Queues) :=
  ((List.finRange keyboardQueueLevels).find? fun level => ¬ (k.state level).used).map fun level =>
    (level, k.setState level { k.state level with used := true })

/-- `remove_keyboard_listener(level)` (keyboard.c:148–153). -/
def removeKeyboardListener (k : Queues) (level : Level) : Queues :=
  k.setState level ⟨0, 0, false⟩

/-- The loop of `ps2k_irq_handler` over the levels (ps2k.c:143–148). -/
def pushAll (k : Queues) (ev : KeyEvent) : Queues :=
  (List.finRange keyboardQueueLevels).foldl
    (fun k lvl => if (k.state lvl).used then keyboardPush k lvl ev else k) k

/-- A call into the queues. -/
inductive Call
  | irq (ev : KeyEvent)
  | poll (level : Level) (out : KeyEvent)
  | register
  | remove (level : Level)

/-- What a call returns. -/
inductive Reply
  | done
  | polled (ret : ℕ) (out : KeyEvent)
  | registered (level : Level)
deriving DecidableEq

/-- One call; `none` is a panic. -/
def step (k : Queues) : Call → Option (Reply × Queues)
  | .irq ev => some (.done, pushAll k ev)
  | .poll level out =>
    let (ret, out, k) := keyboardPoll k level out
    some (.polled ret out, k)
  | .register => (registerKeyboardListener k).map fun (level, k) => (.registered level, k)
  | .remove level => some (.done, removeKeyboardListener k level)

/-- A sequence of calls. -/
def run (k : Queues) : List Call → Option (List Reply × Queues)
  | [] => some ([], k)
  | c :: cs => do
    let (r, k) ← step k c
    let (rs, k) ← run k cs
    return (r :: rs, k)

/-- The zeroed queues. -/
def init : Queues := ⟨fun _ _ => ⟨0, 0, 0, 0⟩, fun _ => ⟨0, 0, false⟩⟩

/-! ## Specification -/

/-- The pending events of every level, oldest first; `none` where no listener is
    registered. -/
abbrev Pending := Level → Option (List KeyEvent)

/-- Append to a queue of capacity `cap`; the oldest element goes when it is full. -/
def pushBounded (cap : ℕ) (q : List KeyEvent) (ev : KeyEvent) : List KeyEvent :=
  if q.length < cap then q ++ [ev] else (q ++ [ev]).tail

/-- One call on the specification. -/
def specStep (p : Pending) : Call → Option (Reply × Pending)
  | .irq ev => some (.done, fun l => (p l).map fun q => pushBounded (ringBufferSize - 1) q ev)
  | .poll level out =>
    match p level with
    | some (ev :: q) => some (.polled 1 ev, Function.update p level (some q))
    | _ => some (.polled 0 out, p)
  | .register =>
    ((List.finRange keyboardQueueLevels).find? fun level => (p level).isNone).map fun level =>
      (.registered level, Function.update p level (some []))
  | .remove level => some (.done, Function.update p level none)

def specRun (p : Pending) : List Call → Option (List Reply × Pending)
  | [] => some ([], p)
  | c :: cs => do
    let (r, p) ← specStep p c
    let (rs, p) ← specRun p cs
    return (r :: rs, p)

/-- The events that the queues hold for each registered level. -/
def abs (k : Queues) : Pending := fun l =>
  if (k.state l).used then
    some (Ring.contents ringBufferSize (k.queue l) (k.state l).head (k.state l).tail)
  else none

/-! ## One level -/

/-- The ring and the record of one level. -/
abbrev LevelData := (ℕ → KeyEvent) × QueueState

def Queues.at (k : Queues) (l : Level) : LevelData := (k.queue l, k.state l)

/-- The events that one level holds. -/
def LevelData.pending (x : LevelData) : List KeyEvent :=
  Ring.contents ringBufferSize x.1 x.2.head x.2.tail

/-- The indices of a level point into a stream of events, and a level that is not in use
    holds nothing. -/
structure LevelOk (x : LevelData) : Prop where
  view : ∃ P t, Ring.View ringBufferSize x.1 x.2.head x.2.tail P t
  unused : x.2.used = false → x.2.head = x.2.tail

/-- What `keyboard_push` does to its level. -/
def pushAt (x : LevelData) (ev : KeyEvent) : LevelData :=
  let next := (x.2.head + 1) % ringBufferSize
  (Function.update x.1 x.2.head ev,
    ⟨next, if next = x.2.tail then (x.2.tail + 1) % ringBufferSize else x.2.tail, x.2.used⟩)

theorem abs_eq (k : Queues) (l : Level) :
    abs k l = if (k.at l).2.used then some (k.at l).pending else none := rfl

theorem keyboardPush_at (k : Queues) (level : Level) (ev : KeyEvent) :
    (keyboardPush k level ev).at = Function.update k.at level (pushAt (k.at level) ev) := by
  funext l
  by_cases hl : l = level
  · subst hl
    simp only [keyboardPush, Queues.at, pushAt, Queues.setState, Function.update_self]
    split_ifs with h <;> simp [h]
  · simp only [keyboardPush, Queues.at, Queues.setState, Function.update_of_ne hl]
    split_ifs <;> simp [Function.update_of_ne hl]

/-- A loop that pushes to the levels in use of a list without repetition. -/
theorem foldl_push_at (ev : KeyEvent) {ls : List Level} (hnd : ls.Nodup) (k : Queues) (l : Level) :
    (ls.foldl (fun k lvl => if (k.state lvl).used then keyboardPush k lvl ev else k) k).at l =
      if l ∈ ls ∧ (k.at l).2.used then pushAt (k.at l) ev else k.at l := by
  induction ls generalizing k with
  | nil => simp
  | cons a ls ih =>
    obtain ⟨ha, hnd⟩ := List.nodup_cons.mp hnd
    rw [List.foldl_cons, ih hnd]
    -- the first push is to level `a`, which does not come again
    have hstep : ∀ l, (if (k.state a).used then keyboardPush k a ev else k).at l =
        if l = a ∧ (k.at l).2.used then pushAt (k.at l) ev else k.at l := by
      intro l
      have hused : (k.at a).2.used = (k.state a).used := rfl
      split_ifs with h1 h2 h2
      · rw [keyboardPush_at, h2.1, Function.update_self]
      · rw [keyboardPush_at, Function.update_of_ne]
        rintro rfl
        exact h2 ⟨rfl, h1⟩
      · obtain ⟨rfl, hu⟩ := h2
        exact absurd hu h1
      · rfl
    rw [hstep]
    by_cases hla : l = a
    · subst hla
      simp [ha]
    · simp [hla]

theorem pushAll_at (k : Queues) (ev : KeyEvent) (l : Level) :
    (pushAll k ev).at l = if (k.at l).2.used then pushAt (k.at l) ev else k.at l := by
  rw [pushAll, foldl_push_at ev (List.nodup_finRange _)]
  simp

/-- A push to a level in use appends, and drops the oldest event of a full queue. -/
theorem LevelOk.push {x : LevelData} (h : LevelOk x) (hu : x.2.used = true) (ev : KeyEvent) :
    LevelOk (pushAt x ev) ∧
      (pushAt x ev).pending = pushBounded (ringBufferSize - 1) x.pending ev := by
  obtain ⟨P, t, hv⟩ := h.view
  have hN : ringBufferSize = 100 := rfl
  have h1 := hv.le_length
  have h2 := hv.length_lt
  have hpend : x.pending = P.drop t := hv.contents_eq
  have hunused : (pushAt x ev).2.used = false → (pushAt x ev).2.head = (pushAt x ev).2.tail := by
    intro hf
    exact absurd (hu.symm.trans hf) (by decide)
  by_cases hfull : (x.2.head + 1) % ringBufferSize = x.2.tail
  · -- one slot is free: the read index moves first, then the element is written
    have hlen := hv.next_eq_tail_iff.mp hfull
    have hv' := (hv.advance (by omega)).push ev (by omega)
    have heq : pushAt x ev = (Function.update x.1 x.2.head ev,
        ⟨(x.2.head + 1) % ringBufferSize, (x.2.tail + 1) % ringBufferSize, x.2.used⟩) := by
      simp only [pushAt, if_pos hfull]
    refine ⟨⟨⟨P ++ [ev], t + 1, by rw [heq]; exact hv'⟩, hunused⟩, ?_⟩
    rw [heq, LevelData.pending, hv'.contents_eq, hpend, pushBounded,
      if_neg (by rw [List.length_drop]; omega), ← List.drop_one,
      ← List.drop_append_of_le_length h1, List.drop_drop, Nat.add_comm t 1]
  · have hlen : ¬ P.length + 1 = t + ringBufferSize := fun e => hfull (hv.next_eq_tail_iff.mpr e)
    have hv' := hv.push ev (by omega)
    have heq : pushAt x ev = (Function.update x.1 x.2.head ev,
        ⟨(x.2.head + 1) % ringBufferSize, x.2.tail, x.2.used⟩) := by
      simp only [pushAt, if_neg hfull]
    refine ⟨⟨⟨P ++ [ev], t, by rw [heq]; exact hv'⟩, hunused⟩, ?_⟩
    rw [heq, LevelData.pending, hv'.contents_eq, hpend, pushBounded,
      if_pos (by rw [List.length_drop]; omega), List.drop_append_of_le_length h1]

/-- A level whose indices agree holds nothing. -/
theorem LevelOk.pending_of_eq {x : LevelData} (h : LevelOk x) (he : x.2.tail = x.2.head) :
    x.pending = [] := by
  obtain ⟨P, t, hv⟩ := h.view
  rw [LevelData.pending, hv.contents_eq, hv.tail_eq_head_iff.mp he, List.drop_length]

/-- A level whose indices differ holds the event at its read index and, once the index
    has moved on, the others. -/
theorem LevelOk.poll {x : LevelData} (h : LevelOk x) (hne : x.2.tail ≠ x.2.head) :
    LevelOk (x.1, { x.2 with tail := (x.2.tail + 1) % ringBufferSize }) ∧
      x.2.used = true ∧
      x.pending = x.1 x.2.tail ::
        LevelData.pending (x.1, { x.2 with tail := (x.2.tail + 1) % ringBufferSize }) := by
  have hused : x.2.used = true := by
    by_contra hu
    exact hne (h.unused (Bool.eq_false_iff.mpr hu)).symm
  obtain ⟨P, t, hv⟩ := h.view
  have hlt : t < P.length := lt_of_le_of_ne hv.le_length fun e => hne (hv.tail_eq_head_iff.mpr e)
  have hv' := hv.advance hlt
  refine ⟨⟨⟨P, t + 1, hv'⟩, fun hf => absurd (hused.symm.trans hf) (by decide)⟩, hused, ?_⟩
  simp only [LevelData.pending]
  rw [hv.contents_eq, hv'.contents_eq, List.drop_eq_getElem_cons hlt,
    hv.oldest (List.getElem?_eq_getElem hlt)]

/-! ## Calls -/

theorem setState_at (k : Queues) (level : Level) (q : QueueState) :
    (k.setState level q).at = Function.update k.at level (k.queue level, q) := by
  funext l
  by_cases hl : l = level
  · subst hl
    simp [Queues.at, Queues.setState]
  · simp [Queues.at, Queues.setState, Function.update_of_ne hl]

/-- Writing the record of one level changes what is pending there only. -/
theorem abs_setState (k : Queues) (level : Level) (q : QueueState) :
    abs (k.setState level q) = Function.update (abs k) level
      (if q.used then some (LevelData.pending (k.queue level, q)) else none) := by
  funext l
  rw [abs_eq, setState_at]
  by_cases hl : l = level
  · subst hl
    simp only [Function.update_self]
  · simp only [Function.update_of_ne hl]
    rfl

/-- Every level is in order. -/
def Ok (k : Queues) : Prop := ∀ l, LevelOk (k.at l)

theorem Ok.setState {k : Queues} (h : Ok k) {level : Level} {q : QueueState}
    (hq : LevelOk (k.queue level, q)) : Ok (k.setState level q) := by
  intro l
  rw [setState_at]
  by_cases hl : l = level
  · subst hl
    rwa [Function.update_self]
  · rw [Function.update_of_ne hl]
    exact h l

theorem pushAll_refines {k : Queues} (h : Ok k) (ev : KeyEvent) :
    Ok (pushAll k ev) ∧
      abs (pushAll k ev) = fun l => (abs k l).map fun q => pushBounded (ringBufferSize - 1) q ev := by
  constructor
  · intro l
    rw [pushAll_at]
    split_ifs with hu
    · exact ((h l).push hu ev).1
    · exact h l
  · funext l
    rw [abs_eq, abs_eq, pushAll_at]
    by_cases hu : (k.at l).2.used = true
    · have hu' : (pushAt (k.at l) ev).2.used = true := hu
      rw [if_pos hu, if_pos hu, if_pos hu', ((h l).push hu ev).2, Option.map_some]
    · rw [if_neg hu, if_neg hu, Option.map_none]

theorem keyboardPoll_refines {k : Queues} (h : Ok k) (level : Level) (out : KeyEvent) :
    Ok (keyboardPoll k level out).2.2 ∧
      specStep (abs k) (.poll level out) =
        some (.polled (keyboardPoll k level out).1 (keyboardPoll k level out).2.1,
          abs (keyboardPoll k level out).2.2) := by
  by_cases he : (k.state level).tail = (k.state level).head
  · -- nothing is pending: neither the queues nor `*out` change
    have hpoll : keyboardPoll k level out = (0, out, k) := by
      simp only [keyboardPoll, if_pos he]
    rw [hpoll]
    refine ⟨h, ?_⟩
    have hnil : (k.at level).pending = [] := (h level).pending_of_eq he
    have habs : abs k level = some [] ∨ abs k level = none := by
      rw [abs_eq, hnil]
      split_ifs <;> simp
    rcases habs with habs | habs <;> simp only [specStep, habs]
  · have hpoll : keyboardPoll k level out = (1, k.queue level (k.state level).tail,
        k.setState level
          { k.state level with tail := ((k.state level).tail + 1) % ringBufferSize }) := by
      simp only [keyboardPoll, if_neg he]
    obtain ⟨hok, hused, hpend⟩ := (h level).poll he
    rw [hpoll]
    refine ⟨h.setState hok, ?_⟩
    have habs : abs k level = some (k.at level).pending := by rw [abs_eq, if_pos hused]
    have hu : (k.state level).used = true := hused
    rw [hpend] at habs
    simp only [specStep, habs, abs_setState, if_pos hu]
    rfl

theorem registerKeyboardListener_refines {k : Queues} (h : Ok k) :
    specStep (abs k) .register =
        (registerKeyboardListener k).map (fun r => (.registered r.1, abs r.2)) ∧
      ∀ level k', registerKeyboardListener k = some (level, k') → Ok k' := by
  have hfree : ∀ level, (abs k level).isNone = decide ¬ (k.state level).used = true := by
    intro level
    rw [abs_eq]
    cases hu : (k.at level).2.used
    · simp [show (k.state level).used = false from hu]
    · simp [show (k.state level).used = true from hu]
  -- the first free level held nothing and is in use afterwards
  have hlevel : ∀ level, (List.finRange keyboardQueueLevels).find?
      (fun level => ¬ (k.state level).used) = some level →
      Ok (k.setState level { k.state level with used := true }) ∧
      abs (k.setState level { k.state level with used := true }) =
        Function.update (abs k) level (some []) := by
    intro level hf
    have hu : (k.state level).used = false := by simpa using List.find?_some hf
    have hok : LevelOk (k.queue level, { k.state level with used := true }) :=
      ⟨(h level).view, fun hf => absurd hf Bool.noConfusion⟩
    refine ⟨h.setState hok, ?_⟩
    rw [abs_setState, if_pos rfl, hok.pending_of_eq ((h level).unused hu).symm]
  refine ⟨?_, ?_⟩
  · simp only [specStep, registerKeyboardListener, hfree, Option.map_map]
    cases hf : (List.finRange keyboardQueueLevels).find? fun level => ¬ (k.state level).used with
    | none => rfl
    | some level =>
      simp only [Option.map_some, Function.comp_apply]
      rw [(hlevel level hf).2]
  · intro level k' hr
    obtain ⟨l, hf, hl⟩ := Option.map_eq_some_iff.mp hr
    simp only [Prod.mk.injEq] at hl
    obtain ⟨rfl, rfl⟩ := hl
    exact (hlevel l hf).1

theorem removeKeyboardListener_refines {k : Queues} (h : Ok k) (level : Level) :
    Ok (removeKeyboardListener k level) ∧
      abs (removeKeyboardListener k level) = Function.update (abs k) level none := by
  refine ⟨h.setState ⟨⟨[], 0, Ring.view_empty (by norm_num) _⟩, fun _ => rfl⟩, ?_⟩
  rw [removeKeyboardListener, abs_setState]
  rfl

/-- **One call** does the same in the specification, and panics in the same cases. -/
theorem step_refines {k : Queues} (h : Ok k) (c : Call) :
    specStep (abs k) c = (step k c).map (fun r => (r.1, abs r.2)) ∧
      ∀ r k', step k c = some (r, k') → Ok k' := by
  cases c with
  | irq ev =>
    obtain ⟨hok, habs⟩ := pushAll_refines h ev
    refine ⟨by simp only [step, specStep, Option.map_some, habs], ?_⟩
    rintro r k' hr
    simp only [step, Option.some.injEq, Prod.mk.injEq] at hr
    exact hr.2 ▸ hok
  | poll level out =>
    obtain ⟨hok, habs⟩ := keyboardPoll_refines h level out
    refine ⟨habs, ?_⟩
    rintro r k' hr
    simp only [step, Option.some.injEq, Prod.mk.injEq] at hr
    exact hr.2 ▸ hok
  | register =>
    obtain ⟨habs, hok⟩ := registerKeyboardListener_refines h
    refine ⟨by rw [habs, step, Option.map_map]; rfl, ?_⟩
    rintro r k' hr
    obtain ⟨⟨l, q⟩, hreg, hl⟩ := Option.map_eq_some_iff.mp hr
    simp only [Prod.mk.injEq] at hl
    exact hl.2 ▸ hok l q hreg
  | remove level =>
    obtain ⟨hok, habs⟩ := removeKeyboardListener_refines h level
    refine ⟨by simp only [step, specStep, Option.map_some, habs], ?_⟩
    rintro r k' hr
    simp only [step, Option.some.injEq, Prod.mk.injEq] at hr
    exact hr.2 ▸ hok

theorem run_refines {k : Queues} (h : Ok k) (cs : List Call) :
    specRun (abs k) cs = (run k cs).map (fun r => (r.1, abs r.2)) ∧
      ∀ rs k', run k cs = some (rs, k') → Ok k' := by
  induction cs generalizing k with
  | nil =>
    refine ⟨rfl, ?_⟩
    rintro rs k' hr
    simp only [run, Option.some.injEq, Prod.mk.injEq] at hr
    exact hr.2 ▸ h
  | cons c cs ih =>
    obtain ⟨habs, hok⟩ := step_refines h c
    cases hs : step k c with
    | none =>
      rw [hs] at habs
      simp [run, specRun, hs, habs]
    | some r =>
      obtain ⟨r, k1⟩ := r
      rw [hs] at habs
      obtain ⟨ihabs, ihok⟩ := ih (hok r k1 hs)
      refine ⟨?_, ?_⟩
      · simp only [run, specRun, hs, habs, Option.map_some, Option.bind_eq_bind, Option.bind_some,
          ihabs]
        cases run k1 cs <;> rfl
      · rintro rs k' hr
        simp only [run, hs, Option.bind_eq_bind, Option.bind_some] at hr
        obtain ⟨⟨rs', k2⟩, hrun, hrs⟩ := Option.bind_eq_some_iff.mp hr
        simp only [Option.pure_def, Option.some.injEq, Prod.mk.injEq] at hrs
        exact hrs.2 ▸ ihok rs' k2 hrun

theorem init_ok : Ok init :=
  fun _ => ⟨⟨[], 0, Ring.view_empty (by norm_num) _⟩, fun _ => rfl⟩

/-- **Refinement.** From the zeroed queues every sequence of calls answers as the bounded
    queues of the registered levels do, it leaves the same events pending, it panics in the
    same cases, and all indices stay in the ring. -/
theorem keyboard_refines (cs : List Call) :
    specRun (fun _ => none) cs = (run init cs).map (fun r => (r.1, abs r.2)) ∧
      ∀ rs k, run init cs = some (rs, k) → ∀ l,
        (k.state l).head < ringBufferSize ∧ (k.state l).tail < ringBufferSize := by
  have habs : abs init = fun _ => none := rfl
  obtain ⟨hspec, hok⟩ := run_refines init_ok cs
  refine ⟨habs ▸ hspec, ?_⟩
  intro rs k hr l
  obtain ⟨P, t, hv⟩ := (hok rs k hr l).view
  exact ⟨hv.head_lt, hv.tail_lt⟩

/-- A listener that polls once after two events. -/
theorem keyboard_refines_two_events :
    (run init [.register, .irq ⟨1, 30, 97, 5⟩, .irq ⟨1, 48, 98, 6⟩, .poll 0 ⟨0, 0, 0, 0⟩]).map
        Prod.fst =
      some [.registered 0, .done, .done, .polled 1 ⟨1, 30, 97, 5⟩] := by
  have hspec := (keyboard_refines
    [.register, .irq ⟨1, 30, 97, 5⟩, .irq ⟨1, 48, 98, 6⟩, .poll 0 ⟨0, 0, 0, 0⟩]).1
  have hfst := congrArg (Option.map Prod.fst) hspec
  rw [Option.map_map] at hfst
  exact hfst.symm.trans (by decide)

end HorizonOS.Drivers.Keyboard
