import HorizonOS.Drivers.Readline

/-!
# From scan codes to a listener

Scan codes arrive by interrupts, in batches between the polls of a listener, and
become events in its queue (`ps2k_irq_handler`, `keyboard_push`). A listener that
waits in `keyboard_block_read` (arch/x86_64/include/keyboard.c:71–77) takes one event
with every poll that finds one. As long as no poll finds more than the 99 events that
a queue holds, it gets what was typed, however the interrupts fall between its polls.

* `Feed.read`: one read takes the next event off what is pending and what is to come.
* `Feed.delivers`: so do any number of reads.
* `Feed.exists_delivers`: with enough polls every read returns.
* `keysDown_arrivals`: the characters depend on the scan codes alone, not on the
  batches or the timer.
-/

namespace HorizonOS.Drivers.Keyboard

open HorizonOS.Lib HorizonOS.Drivers.Ps2

/-! ## No event is lost -/

/-- No poll finds more events than a queue holds, if `pending` events are there before
    the first. -/
def Fits : (pending : ℕ) → List (List KeyEvent) → Prop
  | _, [] => True
  | pending, evs :: arrivals =>
    pending + evs.length ≤ ringBufferSize - 1 ∧ Fits (pending + evs.length - 1) arrivals

instance decidableFits : (pending : ℕ) → (arrivals : List (List KeyEvent)) →
    Decidable (Fits pending arrivals)
  | _, [] => .isTrue trivial
  | pending, evs :: arrivals =>
    have := decidableFits (pending + evs.length - 1) arrivals
    inferInstanceAs (Decidable (_ ∧ _))

/-- The level is in use, holds the events `q`, and will not overflow. -/
structure Feed (level : Level) (src : Source) (q : List KeyEvent) : Prop where
  ok : Ok src.1
  pending : abs src.1 level = some q
  fits : Fits q.length src.2

section

variable {level : Level} {k : Queues} {q evs : List KeyEvent} {ev : KeyEvent} {src src' : Source}

/-- Events for which there is room are appended. -/
theorem foldl_pushAll (hok : Ok k) (hq : abs k level = some q)
    (hroom : q.length + evs.length ≤ ringBufferSize - 1) :
    Ok (evs.foldl pushAll k) ∧ abs (evs.foldl pushAll k) level = some (q ++ evs) := by
  induction evs generalizing k q with
  | nil => exact ⟨hok, by rw [List.append_nil]; exact hq⟩
  | cons ev evs ih =>
    rw [List.length_cons] at hroom
    obtain ⟨hok', habs⟩ := pushAll_refines hok ev
    have hq' : abs (pushAll k ev) level = some (q ++ [ev]) := by
      simp only [habs, hq, Option.map_some, pushBounded,
        if_pos (show q.length < ringBufferSize - 1 by omega)]
    obtain ⟨h1, h2⟩ := ih hok' hq' (by rw [List.length_append, List.length_singleton]; omega)
    exact ⟨h1, by rw [List.foldl_cons, h2, List.append_assoc, List.singleton_append]⟩

theorem keyboardPoll_nil (hok : Ok k) (hq : abs k level = some []) (out : KeyEvent) :
    (keyboardPoll k level out).1 = 0 ∧ Ok (keyboardPoll k level out).2.2 ∧
      abs (keyboardPoll k level out).2.2 level = some [] := by
  obtain ⟨hok', hspec⟩ := keyboardPoll_refines hok level out
  simp only [specStep, hq, Option.some.injEq, Prod.mk.injEq, Reply.polled.injEq] at hspec
  obtain ⟨⟨h1, -⟩, h2⟩ := hspec
  exact ⟨h1.symm, hok', by rw [← h2, hq]⟩

theorem keyboardPoll_cons (hok : Ok k) (hq : abs k level = some (ev :: q)) (out : KeyEvent) :
    (keyboardPoll k level out).1 = 1 ∧ (keyboardPoll k level out).2.1 = ev ∧
      Ok (keyboardPoll k level out).2.2 ∧ abs (keyboardPoll k level out).2.2 level = some q := by
  obtain ⟨hok', hspec⟩ := keyboardPoll_refines hok level out
  simp only [specStep, hq, Option.some.injEq, Prod.mk.injEq, Reply.polled.injEq] at hspec
  obtain ⟨⟨h1, h2⟩, h3⟩ := hspec
  exact ⟨h1.symm, h2.symm, hok', by rw [← h3, Function.update_self]⟩

/-- A poll that finds nothing goes on to the next. -/
theorem keyboardBlockRead_cons {evs : List KeyEvent} {arrivals : List (List KeyEvent)} :
    keyboardBlockRead level (k, evs :: arrivals) =
      let r := keyboardPoll (evs.foldl pushAll k) level ⟨0, 0, 0, 0⟩
      if r.1 = 0 then keyboardBlockRead level (r.2.2, arrivals)
      else some (r.2.1, r.2.2, arrivals) := by
  show keyboardBlockRead.go level k (evs :: arrivals) = _
  rw [keyboardBlockRead.go]
  generalize keyboardPoll (evs.foldl pushAll k) level ⟨0, 0, 0, 0⟩ = r
  obtain ⟨_ | n, out, k'⟩ := r <;> rfl

/-- One poll of a level that is fed: either nothing is pending, and the wait goes on, or
    the oldest event is read. -/
theorem Feed.poll {evs : List KeyEvent} {arrivals : List (List KeyEvent)}
    (h : Feed level (k, evs :: arrivals) q) :
    (q ++ evs = [] ∧ ∃ k', Feed level (k', arrivals) [] ∧
      keyboardBlockRead level (k, evs :: arrivals) = keyboardBlockRead level (k', arrivals)) ∨
    ∃ ev q' k', q ++ evs = ev :: q' ∧ Feed level (k', arrivals) q' ∧
      keyboardBlockRead level (k, evs :: arrivals) = some (ev, k', arrivals) := by
  obtain ⟨hroom, hfits⟩ := h.fits
  obtain ⟨hok, habs⟩ := foldl_pushAll h.ok h.pending hroom
  rw [← List.length_append] at hfits
  cases hall : q ++ evs with
  | nil =>
    rw [hall] at habs hfits
    obtain ⟨hzero, hok', habs'⟩ := keyboardPoll_nil hok habs ⟨0, 0, 0, 0⟩
    exact .inl ⟨rfl, _, ⟨hok', habs', hfits⟩, by simp only [keyboardBlockRead_cons, if_pos hzero]⟩
  | cons ev q' =>
    rw [hall] at habs hfits
    obtain ⟨hone, hev, hok', habs'⟩ := keyboardPoll_cons hok habs ⟨0, 0, 0, 0⟩
    refine .inr ⟨ev, q', _, rfl, ⟨hok', habs', hfits⟩, ?_⟩
    simp only [keyboardBlockRead_cons, hone, hev, one_ne_zero, if_false]

/-- **One read** takes the next event. -/
theorem Feed.read (h : Feed level src q) (hread : keyboardBlockRead level src = some (ev, src')) :
    ∃ q', Feed level src' q' ∧ q ++ src.2.flatten = ev :: (q' ++ src'.2.flatten) := by
  obtain ⟨k, arrivals⟩ := src
  induction arrivals generalizing k q with
  | nil => simp [keyboardBlockRead, keyboardBlockRead.go] at hread
  | cons evs arrivals ih =>
    rw [List.flatten_cons, ← List.append_assoc]
    rcases h.poll with ⟨hnil, k', hfeed, hskip⟩ | ⟨ev', q', k', hall, hfeed, htake⟩
    · rw [hskip] at hread
      rw [hnil]
      exact ih k' hfeed hread
    · rw [htake, Option.some.injEq, Prod.mk.injEq] at hread
      obtain ⟨rfl, rfl⟩ := hread
      exact ⟨q', hfeed, by rw [hall, List.cons_append]⟩

theorem Feed.delivers (h : Feed level src q) (hdel : Delivers level src evs src') :
    ∃ q', Feed level src' q' ∧ q ++ src.2.flatten = evs ++ (q' ++ src'.2.flatten) := by
  induction evs generalizing src q with
  | nil =>
    obtain rfl : src = src' := hdel
    exact ⟨q, h, rfl⟩
  | cons ev evs ih =>
    obtain ⟨src₁, hread, hrest⟩ := hdel
    obtain ⟨q₁, hfeed, hq₁⟩ := h.read hread
    obtain ⟨q', hfeed', hq'⟩ := ih hfeed hrest
    exact ⟨q', hfeed', by rw [hq₁, hq', List.cons_append]⟩

/-- **Progress.** If `m` events are there after the first `B` batches, `B + m` polls are
    enough to read them. -/
theorem Feed.exists_delivers {m B : ℕ} (h : Feed level src q)
    (hm : m ≤ (q ++ (src.2.take B).flatten).length) (hpolls : B + m ≤ src.2.length) :
    ∃ evs src', Delivers level src evs src' ∧ evs.length = m := by
  obtain ⟨k, arrivals⟩ := src
  induction arrivals generalizing k q m B with
  | nil =>
    obtain rfl : m = 0 := by simp at hpolls; omega
    exact ⟨[], _, rfl, rfl⟩
  | cons evs arrivals ih =>
    obtain _ | m := m
    · exact ⟨[], _, rfl, rfl⟩
    rw [List.length_cons] at hpolls
    -- what is there after the batches that are left
    have hrest : ∀ q' : List KeyEvent, (q ++ evs).length ≤ q'.length + 1 →
        m ≤ (q' ++ (arrivals.take (B - 1)).flatten).length := by
      intro q' hq'
      cases B with
      | zero => simp at hm hq' ⊢; omega
      | succ B => simp at hm hq' ⊢; omega
    rcases h.poll with ⟨hnil, k', hfeed, hskip⟩ | ⟨ev, q', k', hall, hfeed, htake⟩
    · obtain _ | B := B
      · simp [List.append_eq_nil_iff.mp hnil] at hm
      obtain ⟨evs', src', hdel, hlen⟩ := ih k' hfeed
        (m := m + 1) (B := B) (by
          obtain ⟨rfl, rfl⟩ := List.append_eq_nil_iff.mp hnil
          simpa using hm) (show _ ≤ arrivals.length by omega)
      refine ⟨evs', src', ?_, hlen⟩
      obtain _ | ⟨e, evs'⟩ := evs'
      · simp at hlen
      obtain ⟨src₁, hread, hdel⟩ := hdel
      exact ⟨src₁, hskip.trans hread, hdel⟩
    · obtain ⟨evs', src', hdel, hlen⟩ := ih k' hfeed (hrest q' (by rw [hall]; rfl))
        (show _ ≤ arrivals.length by omega)
      exact ⟨ev :: evs', src', ⟨_, htake, hdel⟩, by rw [List.length_cons, hlen]⟩

end

/-! ## Scan codes -/

/-- The events of each batch of scan codes, from the `n`-th interrupt on. -/
def arrivals (ticks : ℕ → BitVec 32) : ℕ → Ps2k → List (List Byte) → List (List KeyEvent)
  | _, _, [] => []
  | n, d, codes :: batches =>
    let (d, out) := Ps2.run ps2kIrqHandler ticks n d codes
    pushed out :: arrivals ticks (n + codes.length) d batches

/-- The characters of a stream of scan codes. -/
def typed (d : Ps2k) (codes : List Byte) : List Byte :=
  keysDown (pushed (Ps2.run ps2kIrqHandler (fun _ => 0) 0 d codes).2)

/-- One byte: neither the driver's state nor the characters depend on the time. -/
theorem handler_ticks (d : Ps2k) (code : Byte) (t t' : BitVec 32) :
    (ps2kIrqHandler d code t).1 = (ps2kIrqHandler d code t').1 ∧
      keysDown (pushed (ps2kIrqHandler d code t).2) =
        keysDown (pushed (ps2kIrqHandler d code t').2) := by
  unfold ps2kIrqHandler
  split
  · exact ⟨rfl, rfl⟩
  · dsimp only
    split_ifs <;> exact ⟨rfl, rfl⟩

theorem keysDown_append (evs evs' : List KeyEvent) :
    keysDown (evs ++ evs') = keysDown evs ++ keysDown evs' := by
  rw [keysDown, keysDown, keysDown, List.filter_append, List.map_append]

theorem run_ticks (t t' : ℕ → BitVec 32) (n n' : ℕ) (d : Ps2k) (codes : List Byte) :
    (Ps2.run ps2kIrqHandler t n d codes).1 = (Ps2.run ps2kIrqHandler t' n' d codes).1 ∧
      keysDown (pushed (Ps2.run ps2kIrqHandler t n d codes).2) =
        keysDown (pushed (Ps2.run ps2kIrqHandler t' n' d codes).2) := by
  induction codes generalizing d n n' with
  | nil => exact ⟨rfl, rfl⟩
  | cons code codes ih =>
    obtain ⟨hstate, hkeys⟩ := handler_ticks d code (t n) (t' n')
    obtain ⟨hstate', hkeys'⟩ := ih (n + 1) (n' + 1) (ps2kIrqHandler d code (t' n')).1
    rw [← hstate] at hstate' hkeys'
    simp only [Ps2.run, pushed_append, keysDown_append]
    rw [hstate] at hstate' hkeys' ⊢
    exact ⟨hstate', by rw [hkeys, hkeys']⟩

theorem run_append (t : ℕ → BitVec 32) (n : ℕ) (d : Ps2k) (codes codes' : List Byte) :
    Ps2.run ps2kIrqHandler t n d (codes ++ codes') =
      let x := Ps2.run ps2kIrqHandler t n d codes
      let y := Ps2.run ps2kIrqHandler t (n + codes.length) x.1 codes'
      (y.1, x.2 ++ y.2) := by
  induction codes generalizing d n with
  | nil => rfl
  | cons code codes ih =>
    simp only [List.cons_append, Ps2.run, ih, List.length_cons, Nat.add_assoc, Nat.add_comm 1,
      List.append_assoc]

theorem flatten_arrivals (t : ℕ → BitVec 32) (n : ℕ) (d : Ps2k) (batches : List (List Byte)) :
    (arrivals t n d batches).flatten = pushed (Ps2.run ps2kIrqHandler t n d batches.flatten).2 := by
  induction batches generalizing n d with
  | nil => rfl
  | cons codes batches ih =>
    simp only [arrivals, List.flatten_cons, ih, run_append, pushed_append]

/-- **The characters** that the batches bring depend on the scan codes alone. -/
theorem keysDown_arrivals (t : ℕ → BitVec 32) (n : ℕ) (d : Ps2k) (batches : List (List Byte)) :
    keysDown (arrivals t n d batches).flatten = typed d batches.flatten := by
  rw [flatten_arrivals]
  exact (run_ticks t (fun _ => 0) n 0 d batches.flatten).2

theorem length_arrivals (t : ℕ → BitVec 32) (n : ℕ) (d : Ps2k) (batches : List (List Byte)) :
    (arrivals t n d batches).length = batches.length := by
  induction batches generalizing n d with
  | nil => rfl
  | cons codes batches ih => simp only [arrivals, List.length_cons, ih]

theorem take_arrivals (t : ℕ → BitVec 32) (n : ℕ) (d : Ps2k) (batches : List (List Byte)) (B : ℕ) :
    (arrivals t n d batches).take B = arrivals t n d (batches.take B) := by
  induction batches generalizing n d B with
  | nil => rw [List.take_nil]; exact List.take_nil
  | cons codes batches ih =>
    cases B with
    | zero => rfl
    | succ B => simp only [arrivals, List.take_succ_cons, ih]

/-- The driver pushes key-down events only. -/
theorem type_of_mem_pushed (d : Ps2k) (code : Byte) (t : BitVec 32) :
    ∀ ev ∈ pushed (ps2kIrqHandler d code t).2, ev.type = keyEventDown := by
  unfold ps2kIrqHandler
  split
  · exact fun ev hev => absurd hev List.not_mem_nil
  · dsimp only
    split_ifs <;> simp [pushed]

theorem type_of_mem_run (t : ℕ → BitVec 32) (n : ℕ) (d : Ps2k) (codes : List Byte) :
    ∀ ev ∈ pushed (Ps2.run ps2kIrqHandler t n d codes).2, ev.type = keyEventDown := by
  induction codes generalizing n d with
  | nil => exact fun ev hev => absurd hev List.not_mem_nil
  | cons code codes ih =>
    intro ev hev
    simp only [Ps2.run, pushed_append, List.mem_append] at hev
    exact hev.elim (type_of_mem_pushed d code (t n) ev) (ih _ _ ev)

/-- So there is one character for each event. -/
theorem length_flatten_arrivals (t : ℕ → BitVec 32) (n : ℕ) (d : Ps2k)
    (batches : List (List Byte)) :
    (arrivals t n d batches).flatten.length = (typed d batches.flatten).length := by
  rw [← keysDown_arrivals t n, flatten_arrivals, keysDown, List.length_map]
  congr 1
  symm
  exact List.filter_eq_self.mpr fun ev hev => decide_eq_true (type_of_mem_run t n d _ ev hev)

end HorizonOS.Drivers.Keyboard
