import HorizonOS.Drivers.Keyboard

/-!
# `keyboard_poll` under interrupts

`keyboard_poll` (keyboard.c:50–66) takes no lock and does not mask interrupts: it
loads `head`, loads `tail`, compares them, copies the slot and stores `tail`, and
the interrupt handler may push between any two of these steps. Its comment relies on
consumers that drain faster than the buffer fills.

A push to a full level moves `tail`, which the consumer later overwrites with a value
computed from its own copy. One such push in the window does no harm: the slot that the
consumer reads is the one that stays free. Two do.

* `Inv.irq`, `Inv.poll`: what one step keeps.
* `poll_delivers`: with at most one such push in every window the events returned are
  delivered in order, and skipped only by overflow.
* `poll_race`: two pushes in the window of a full level.
-/

namespace HorizonOS.Drivers.Keyboard

open HorizonOS.Lib

/-! ## Model -/

/-- Where the consumer of a level stands in `keyboard_poll`, with the values it has
    loaded. -/
inductive PollPc
  | idle
  | headLoaded (head : ℕ)
  | tailLoaded (head tail : ℕ)
  | compared (tail : ℕ)
  | copied (tail : ℕ) (out : KeyEvent)
deriving DecidableEq

/-- The consumer holds a copy of `tail` that it will store back. -/
def PollPc.holdsTail : PollPc → Bool
  | .idle | .headLoaded _ => false
  | .tailLoaded _ _ | .compared _ | .copied _ _ => true

/-- A level and its consumer. The last three fields are ghosts: the events pushed to the
    level, the events returned with the number of events pushed by then, and the pushes
    that found the level full since the consumer loaded `tail`. -/
structure Consumer where
  data : LevelData
  pc : PollPc
  pushed : List KeyEvent
  returned : List (KeyEvent × ℕ)
  overruns : ℕ

/-- The level has no free slot for a push (keyboard.c:32). -/
def LevelData.full (x : LevelData) : Bool := (x.2.head + 1) % ringBufferSize = x.2.tail

/-- One consumer for each level. -/
abbrev Consumers := Level → Consumer

def Consumers.queues (s : Consumers) : Queues := ⟨fun l => (s l).data.1, fun l => (s l).data.2⟩

/-- A complete run of the interrupt handler's loop. -/
def irq (s : Consumers) (ev : KeyEvent) : Consumers := fun l =>
  let c := s l
  { c with
    data := (pushAll s.queues ev).at l
    pushed := if c.data.2.used then c.pushed ++ [ev] else c.pushed
    overruns :=
      if c.data.2.used ∧ c.pc.holdsTail ∧ c.data.full then c.overruns + 1 else c.overruns }

/-- One step of `keyboard_poll`. -/
def Consumer.poll (c : Consumer) : Consumer :=
  match c.pc with
  | .idle => { c with pc := .headLoaded c.data.2.head }
  | .headLoaded head => { c with pc := .tailLoaded head c.data.2.tail, overruns := 0 }
  | .tailLoaded head tail => { c with pc := if tail = head then .idle else .compared tail }
  | .compared tail =>
    let slot := c.data.1 tail
    { c with pc := .copied tail ⟨slot.type, slot.scanCode, slot.value, slot.timestamp⟩ }
  | .copied tail out =>
    { c with
      data := (c.data.1, { c.data.2 with tail := (tail + 1) % ringBufferSize })
      pc := .idle
      returned := c.returned ++ [(out, c.pushed.length)] }

/-- An interrupt, or a step of the consumer of a level. -/
inductive Event
  | irq (ev : KeyEvent)
  | poll (level : Level)

def raceStep (s : Consumers) : Event → Consumers
  | .irq ev => irq s ev
  | .poll level => Function.update s level (s level).poll

def raceRun (s : Consumers) (es : List Event) : Consumers := es.foldl raceStep s

/-- Empty queues, with the levels of `used` registered. -/
def raceStart (used : Level → Bool) : Consumers := fun l =>
  ⟨(fun _ => ⟨0, 0, 0, 0⟩, ⟨0, 0, used l⟩), .idle, [], [], 0⟩

/-! ## Delivery -/

/-- The events returned by successive polls are events of `P`, in order and without
    repetition; `d` is the position after the last of them. An event is passed over only
    when `RING_BUFFER_SIZE - 1` newer ones had been pushed by the end of that poll. -/
inductive Delivered (P : List KeyEvent) : List (KeyEvent × ℕ) → ℕ → Prop
  | nil : Delivered P [] 0
  | snoc {R d j ev n} : Delivered P R d → d ≤ j → P[j]? = some ev →
      (∀ i, d ≤ i → i < j → i + 1 + (ringBufferSize - 1) ≤ n) → Delivered P (R ++ [(ev, n)]) (j + 1)

theorem Delivered.append {P : List KeyEvent} {R : List (KeyEvent × ℕ)} {d : ℕ}
    (h : Delivered P R d) (ev : KeyEvent) : Delivered (P ++ [ev]) R d := by
  induction h with
  | nil => exact .nil
  | snoc _ hle hj hskip ih =>
    refine .snoc ih hle ?_ hskip
    rw [List.getElem?_append_left (List.getElem?_eq_some_iff.mp hj).1, hj]

/-- What is delivered is a subsequence of what was pushed. -/
theorem Delivered.sublist {P : List KeyEvent} {R : List (KeyEvent × ℕ)} {d : ℕ}
    (h : Delivered P R d) : List.Sublist (R.map Prod.fst) (P.take d) := by
  induction h with
  | nil => simp
  | @snoc R d j ev n _ hle hj _ ih =>
    obtain ⟨hlt, hget⟩ := List.getElem?_eq_some_iff.mp hj
    rw [List.map_append, List.take_succ_eq_append_getElem hlt, hget]
    refine List.Sublist.append (ih.trans ?_) (List.Sublist.refl _)
    exact List.take_sublist_take_left hle

/-! ## Invariant -/

/-- The consumer's copy `tail` was loaded at position `τ`; since then `overruns` pushes
    moved the level's own index on to position `t`. -/
structure Held (t d overruns tail τ : ℕ) : Prop where
  le : d ≤ τ
  pos_eq : t = τ + overruns
  overruns_le : overruns ≤ 1
  tail_eq : tail = τ % ringBufferSize

/-- What the consumer's loaded values say. `P` is what was pushed, `t` the position of
    `tail` in it, `d` the position after the last event returned. -/
def PcOk (P : List KeyEvent) (t d overruns : ℕ) : PollPc → Prop
  | .idle => True
  | .headLoaded head => t = P.length → head = P.length % ringBufferSize
  | .tailLoaded head tail => ∃ τ, Held t d overruns tail τ ∧ (tail ≠ head → τ < P.length)
  | .compared tail => ∃ τ, Held t d overruns tail τ ∧ τ < P.length
  | .copied tail out => ∃ τ, Held t d overruns tail τ ∧ P[τ]? = some out

/-- The invariant of a level and its consumer. -/
structure Consumer.Inv (c : Consumer) (t d : ℕ) : Prop where
  view : Ring.View ringBufferSize c.data.1 c.data.2.head c.data.2.tail c.pushed t
  delivered : Delivered c.pushed c.returned d
  le : d ≤ t
  dropped : ∀ i, d ≤ i → i < t → i + ringBufferSize ≤ c.pushed.length
  pc : PcOk c.pushed t d c.overruns c.pc

/-- The interrupt handler's loop, seen from one level. -/
def Consumer.irq (c : Consumer) (ev : KeyEvent) : Consumer :=
  if c.data.2.used then
    { c with
      data := pushAt c.data ev
      pushed := c.pushed ++ [ev]
      overruns := if c.pc.holdsTail ∧ c.data.full then c.overruns + 1 else c.overruns }
  else c

theorem irq_apply (s : Consumers) (ev : KeyEvent) (l : Level) : irq s ev l = (s l).irq ev := by
  have hat : s.queues.at l = (s l).data := rfl
  simp only [irq, pushAll_at, hat, Consumer.irq]
  by_cases hu : (s l).data.2.used = true
  · simp [hu]
  · simp [hu]

/-- The interrupt does not find the level full for a second time while its consumer holds
    a copy of `tail`. -/
def Consumer.Calm (c : Consumer) : Prop :=
  c.data.2.used = true → c.pc.holdsTail = true → c.data.full = true → c.overruns = 0

instance (c : Consumer) : Decidable c.Calm := by
  unfold Consumer.Calm
  infer_instance

/-- A push leaves the consumer's values good. -/
theorem PcOk.push {P : List KeyEvent} {t d overruns : ℕ} {pc : PollPc}
    (h : PcOk P t d overruns pc) (ht : t ≤ P.length) (ev : KeyEvent) :
    PcOk (P ++ [ev]) t d overruns pc := by
  have hlen : (P ++ [ev]).length = P.length + 1 := by simp
  cases pc with
  | idle => trivial
  | headLoaded head =>
    intro he
    rw [hlen] at he
    omega
  | tailLoaded head tail =>
    obtain ⟨τ, hτ, hlt⟩ := h
    exact ⟨τ, hτ, fun hne => by have := hlt hne; omega⟩
  | compared tail =>
    obtain ⟨τ, hτ, hlt⟩ := h
    exact ⟨τ, hτ, by omega⟩
  | copied tail out =>
    obtain ⟨τ, hτ, hout⟩ := h
    refine ⟨τ, hτ, ?_⟩
    rw [List.getElem?_append_left (List.getElem?_eq_some_iff.mp hout).1, hout]

theorem Held.overrun {t d tail τ : ℕ} (h : Held t d 0 tail τ) : Held (t + 1) d 1 tail τ := by
  have h1 := h.pos_eq
  exact ⟨h.le, by omega, le_rfl, h.tail_eq⟩

/-- The first overrun in a window moves `tail` one past the consumer's copy. -/
theorem PcOk.overrun {P : List KeyEvent} {t d overruns : ℕ} {pc : PollPc}
    (h : PcOk P t d overruns pc) (ht : t + 1 < P.length)
    (hcalm : pc.holdsTail = true → overruns = 0) :
    PcOk P (t + 1) d (if pc.holdsTail then overruns + 1 else overruns) pc := by
  cases pc with
  | idle => trivial
  | headLoaded head =>
    intro he
    omega
  | tailLoaded | compared | copied =>
    obtain rfl := hcalm rfl
    obtain ⟨τ, hτ, hkept⟩ := h
    exact ⟨τ, hτ.overrun, hkept⟩

/-- **An interrupt** keeps the invariant. -/
theorem Consumer.Inv.irq {c : Consumer} {t d : ℕ} (h : c.Inv t d) (hcalm : c.Calm)
    (ev : KeyEvent) : ∃ t', (c.irq ev).Inv t' d := by
  by_cases hu : c.data.2.used = true
  swap
  · refine ⟨t, ?_⟩
    rw [Consumer.irq, if_neg hu]
    exact h
  have hN : ringBufferSize = 100 := rfl
  have h1 := h.view.le_length
  have h2 := h.view.length_lt
  have hlen : (c.pushed ++ [ev]).length = c.pushed.length + 1 := by simp
  rw [Consumer.irq, if_pos hu]
  by_cases hfull : (c.data.2.head + 1) % ringBufferSize = c.data.2.tail
  · -- the oldest event goes: it was pushed `RING_BUFFER_SIZE - 1` events ago
    have hcount := h.view.next_eq_tail_iff.mp hfull
    have hf : c.data.full = true := decide_eq_true hfull
    have hpc := h.pc.overrun (by omega) fun hp => hcalm hu hp hf
    have hle := h.le
    refine ⟨t + 1, ?_, h.delivered.append ev, by omega, ?_, ?_⟩
    · have hv := (h.view.advance (by omega)).push ev (by omega)
      simp only [pushAt, if_pos hfull]
      exact hv
    · intro i hi1 hi2
      show i + ringBufferSize ≤ (c.pushed ++ [ev]).length
      omega
    · have hpc' := hpc.push (by omega) ev
      simp only [hf, and_true]
      exact hpc'
  · have hcount : ¬ c.pushed.length + 1 = t + ringBufferSize :=
      fun e => hfull (h.view.next_eq_tail_iff.mpr e)
    have hf : c.data.full = false := decide_eq_false hfull
    refine ⟨t, ?_, h.delivered.append ev, h.le, ?_, ?_⟩
    · have hv := h.view.push ev (by omega)
      simp only [pushAt, if_neg hfull]
      exact hv
    · intro i hi1 hi2
      have := h.dropped i hi1 hi2
      show i + ringBufferSize ≤ (c.pushed ++ [ev]).length
      omega
    · have hpc' := h.pc.push h1 ev
      simp only [hf, Bool.false_eq_true, and_false, if_false]
      exact hpc'

/-- **A step of the consumer** keeps the invariant. -/
theorem Consumer.Inv.poll {c : Consumer} {t d : ℕ} (h : c.Inv t d) :
    ∃ t' d', c.poll.Inv t' d' := by
  have hN : ringBufferSize = 100 := rfl
  have h1 := h.view.le_length
  have h2 := h.view.length_lt
  have hpc := h.pc
  unfold Consumer.poll
  cases hc : c.pc with
  | idle =>
    refine ⟨t, d, h.view, h.delivered, h.le, h.dropped, ?_⟩
    intro _
    exact h.view.head_eq
  | headLoaded head =>
    rw [hc] at hpc
    refine ⟨t, d, h.view, h.delivered, h.le, h.dropped, t, ⟨h.le, rfl, Nat.zero_le 1, h.view.tail_eq⟩, ?_⟩
    -- with an empty level the two indices agree
    intro hne
    refine lt_of_le_of_ne h1 fun he => hne ?_
    rw [hpc he, h.view.tail_eq, he]
  | tailLoaded head tail =>
    rw [hc] at hpc
    obtain ⟨τ, hτ, hlt⟩ := hpc
    refine ⟨t, d, h.view, h.delivered, h.le, h.dropped, ?_⟩
    show PcOk _ _ _ _ (if tail = head then PollPc.idle else .compared tail)
    split_ifs with he
    · trivial
    · exact ⟨τ, hτ, hlt he⟩
  | compared tail =>
    rw [hc] at hpc
    obtain ⟨τ, hτ, hlt⟩ := hpc
    refine ⟨t, d, h.view, h.delivered, h.le, h.dropped, τ, hτ, ?_⟩
    -- at most `RING_BUFFER_SIZE` events were pushed from this one on: its slot is intact
    have h3 := hτ.pos_eq
    have h4 := hτ.overruns_le
    have hslot : c.data.1 tail = c.pushed[τ] := by
      rw [hτ.tail_eq]
      exact h.view.window τ _ (List.getElem?_eq_getElem hlt) (by omega)
    rw [hslot]
    exact List.getElem?_eq_getElem hlt
  | copied tail out =>
    rw [hc] at hpc
    obtain ⟨τ, hτ, hout⟩ := hpc
    have h3 := hτ.pos_eq
    have h4 := hτ.overruns_le
    have hlt : τ < c.pushed.length := (List.getElem?_eq_some_iff.mp hout).1
    refine ⟨τ + 1, τ + 1, ?_, ?_, le_rfl, fun i hi1 hi2 => by omega, trivial⟩
    · refine ⟨h.view.head_eq, ?_, hlt, by show c.pushed.length < _; omega, h.view.window⟩
      show (tail + 1) % ringBufferSize = (τ + 1) % ringBufferSize
      rw [hτ.tail_eq, Nat.mod_add_mod]
    · refine .snoc h.delivered hτ.le hout fun i hi1 hi2 => ?_
      have := h.dropped i hi1 (by omega)
      omega

/-! ## Runs -/

/-- No step of the run is a push that finds a level full for the second time in a window of
    its consumer. -/
def CalmRun (s : Consumers) : List Event → Prop
  | [] => True
  | .irq ev :: es => (∀ l, (s l).Calm) ∧ CalmRun (irq s ev) es
  | .poll level :: es => CalmRun (raceStep s (.poll level)) es

theorem raceRun_inv {s : Consumers} (h : ∀ l, ∃ t d, (s l).Inv t d) (es : List Event)
    (hcalm : CalmRun s es) (l : Level) : ∃ t d, (raceRun s es l).Inv t d := by
  induction es generalizing s with
  | nil => exact h l
  | cons e es ih =>
    cases e with
    | irq ev =>
      obtain ⟨hc, hcalm⟩ := hcalm
      refine ih (fun l => ?_) hcalm
      obtain ⟨t, d, hinv⟩ := h l
      obtain ⟨t', hinv'⟩ := hinv.irq (hc l) ev
      exact ⟨t', d, by rw [raceStep, irq_apply]; exact hinv'⟩
    | poll level =>
      refine ih (fun l => ?_) hcalm
      by_cases hl : l = level
      · subst hl
        obtain ⟨t, d, hinv⟩ := h l
        rw [raceStep, Function.update_self]
        exact hinv.poll
      · rw [raceStep, Function.update_of_ne hl]
        exact h l

theorem raceStart_inv (used : Level → Bool) (l : Level) : (raceStart used l).Inv 0 0 :=
  ⟨Ring.view_empty (by norm_num) _, .nil, le_rfl, fun i hi1 hi2 => by omega, trivial⟩

/-- The `i`-th key press. -/
def key (i : ℕ) : KeyEvent := ⟨1, 0, BitVec.ofNat 8 i, 0⟩

/-- **Delivery under interrupts.** In every interleaving in which at most one push finds a
    level full between its consumer's load and store of `tail`, the events that the polls
    return are a subsequence of the events pushed, and an event is passed over only when
    `RING_BUFFER_SIZE - 1` newer ones had been pushed. -/
theorem poll_delivers (used : Level → Bool) (es : List Event)
    (hcalm : CalmRun (raceStart used) es) (l : Level) :
    List.Sublist ((raceRun (raceStart used) es l).returned.map Prod.fst)
        (raceRun (raceStart used) es l).pushed ∧
      ∃ d, Delivered (raceRun (raceStart used) es l).pushed
        (raceRun (raceStart used) es l).returned d := by
  obtain ⟨t, d, hinv⟩ := raceRun_inv (fun l => ⟨0, 0, raceStart_inv used l⟩) es hcalm l
  exact ⟨hinv.delivered.sublist.trans (List.take_sublist d _), d, hinv.delivered⟩

/-- A push between the load of `tail` and the store. -/
theorem poll_delivers_push_in_window :
    CalmRun (raceStart fun _ => true)
      [.irq (key 1), .poll 0, .poll 0, .irq (key 2), .poll 0, .poll 0, .poll 0] ∧
    List.Sublist ((raceRun (raceStart fun _ => true)
      [.irq (key 1), .poll 0, .poll 0, .irq (key 2), .poll 0, .poll 0, .poll 0] 0).returned.map
        Prod.fst) [key 1, key 2] := by
  have hcalm : CalmRun (raceStart fun _ => true)
      [.irq (key 1), .poll 0, .poll 0, .irq (key 2), .poll 0, .poll 0, .poll 0] :=
    ⟨by decide, by decide, trivial⟩
  exact ⟨hcalm, (poll_delivers (fun _ => true) _ hcalm 0).1⟩

/-! ## Two overruns in one window -/

/-- What a level sees of an event. -/
def Consumer.step (l : Level) (c : Consumer) : Event → Consumer
  | .irq ev => c.irq ev
  | .poll level => if level = l then c.poll else c

theorem raceRun_apply (s : Consumers) (es : List Event) (l : Level) :
    raceRun s es l = es.foldl (Consumer.step l) (s l) := by
  induction es generalizing s with
  | nil => rfl
  | cons e es ih =>
    have hstep : raceStep s e l = Consumer.step l (s l) e := by
      cases e with
      | irq ev => exact irq_apply s ev l
      | poll level =>
        by_cases hl : level = l
        · subst hl
          simp [raceStep, Consumer.step]
        · simp [raceStep, Consumer.step, hl, Function.update_of_ne (Ne.symm hl)]
    rw [List.foldl_cons, ← hstep]
    exact ih _

/-- 99 key presses fill level 0; its consumer loads `head` and `tail`; two more key presses
    arrive; the consumer goes on. -/
def raceEvents : List Event :=
  (List.range 99).map (fun i => Event.irq (key i)) ++ [Event.poll 0, Event.poll 0] ++
    [Event.irq (key 99), Event.irq (key 100)] ++ [Event.poll 0, Event.poll 0, Event.poll 0]

theorem race_pushed : (raceRun (raceStart fun _ => true) raceEvents 0).pushed =
    (List.range 101).map key := by
  rw [raceRun_apply]
  decide +kernel

/-- The consumer returns the newest event. -/
theorem race_returned : (raceRun (raceStart fun _ => true) raceEvents 0).returned =
    [(key 100, 101)] := by
  rw [raceRun_apply]
  decide +kernel

/-- The first event returned is an event of `P`, and those before it were passed over. -/
theorem Delivered.singleton {P : List KeyEvent} {ev : KeyEvent} {n d : ℕ}
    (h : Delivered P [(ev, n)] d) :
    ∃ j, P[j]? = some ev ∧ ∀ i < j, i + 1 + (ringBufferSize - 1) ≤ n := by
  generalize hR : [(ev, n)] = R at h
  cases h with
  | nil => simp at hR
  | @snoc R' d' j ev' n' hprev hle hj hskip =>
    obtain ⟨rfl, hlast⟩ : R' = [] ∧ (ev', n') = (ev, n) := by
      have := List.append_eq_singleton_iff.mp hR.symm
      simpa using this
    obtain ⟨rfl, rfl⟩ := Prod.mk.inj hlast
    generalize hnil : ([] : List (KeyEvent × ℕ)) = R0 at hprev
    cases hprev with
    | nil => exact ⟨j, hj, fun i hi => hskip i (Nat.zero_le i) hi⟩
    | snoc => simp at hnil

/-- Two pushes to a full level in the window: the consumer returns the newest event and
    passes over 100 events, one of which is the last but one pushed. -/
theorem poll_race : ¬ ∃ d, Delivered (raceRun (raceStart fun _ => true) raceEvents 0).pushed
    (raceRun (raceStart fun _ => true) raceEvents 0).returned d := by
  rw [race_pushed, race_returned]
  rintro ⟨d, hd⟩
  obtain ⟨j, hj, hskip⟩ := hd.singleton
  have hkey : ∀ j < 101, key j = key 100 → j = 100 := by decide
  obtain ⟨hlt, hget⟩ := List.getElem?_eq_some_iff.mp hj
  simp only [List.length_map, List.length_range] at hlt
  rw [List.getElem_map, List.getElem_range] at hget
  obtain rfl := hkey j hlt hget
  have := hskip 99 (by norm_num)
  norm_num at this

end HorizonOS.Drivers.Keyboard
