import HorizonOS.Lib.Basic
import HorizonOS.Lib.Ring

/-!
# AC97 streaming

The PCM-out channel of the AC97 driver (src/drivers/ac97.c). A clip `[start, end)` is cut
into chunks of at most `0xFFE` samples. `ac97_setup_bdl` describes the first of them in the
32-entry buffer descriptor list, and every completion interrupt refills one more slot. The
driver keeps its own copy of the last valid index, the controller has a current index of its
own, and one run of the handler may stand for several completions.

The handler is modelled register access by register access, so that the controller may finish
slots between any two of them.

* `Inv`: the indices, the slots in flight and the completions not yet answered by a refill.
* `run_chunks`: the rule for properties of the chunks and the position in the clip.
* `stream_contiguous`: the chunks tile a prefix of the clip and no slot in flight is written.
* `playbackEnds_iff`: which clips end.
-/

namespace HorizonOS.Drivers.Ac97

open HorizonOS.Lib

/-! ## Driver -/

/-- `NUM_BDL_ENTRIES`. -/
abbrev numBdlEntries : ℕ := 32

/-- `AC97_MAX_SAMPLES_PER_ENTRY`. -/
abbrev maxSamplesPerEntry : ℕ := 0xFFE

/-- `struct bdl_entry`. -/
structure BdlEntry where
  bufferAddrPhys : BitVec 32
  numSamples : BitVec 16
  flags : BitVec 16
deriving DecidableEq

/-- `AC97_BDL_IOC`. -/
def bdlIoc : BitVec 16 := 0x8000

/-- The driver's static variables (ac97.c:23–29). -/
structure Driver where
  ringBuffer : ℕ → BdlEntry
  lastValidIndex : ℕ
  bdlEntriesFilled : ℕ
  audioCurPos : BitVec 64
  audioDataEnd : BitVec 64

/-- `samples_in_chunk` (ac97.c:145–155). -/
def samplesInChunk (pos stop : BitVec 64) : BitVec 16 :=
  let remaining := (stop - pos).setWidth 32
  if remaining.toNat ≥ maxSamplesPerEntry * 2 then BitVec.ofNat 16 maxSamplesPerEntry
  else
    let samples := (remaining >>> 1).setWidth 16
    samples &&& ~~~1#16

/-- The descriptor of the chunk at `pos`, as both fill sites write it (ac97.c:188–193,
    329–331). -/
def chunkEntry (pos stop : BitVec 64) : BdlEntry :=
  ⟨pos.setWidth 32, samplesInChunk pos stop, bdlIoc⟩

/-- `pos += (phys_addr_t)samples * 2`. -/
def chunkNext (pos stop : BitVec 64) : BitVec 64 :=
  pos + (samplesInChunk pos stop).setWidth 64 * 2

/-- The fill loop of `ac97_setup_bdl` (ac97.c:181–199) with `k` entries left: the final `i`
    and `audio_start`, and the ring. -/
def fillBdl (stop : BitVec 64) :
    ℕ → ℕ → BitVec 64 → (ℕ → BdlEntry) → ℕ × BitVec 64 × (ℕ → BdlEntry)
  | 0, i, pos, ring => (i, pos, ring)
  | k + 1, i, pos, ring =>
    if pos < stop then
      if samplesInChunk pos stop = 0 then (i, pos, ring)
      else
        fillBdl stop k (i + 1) (chunkNext pos stop)
          (Function.update ring i (chunkEntry pos stop))
    else (i, pos, ring)

/-! ## Controller -/

/-- The bits of the channel's status register that the handler looks at. -/
structure Status where
  dmaControllerHalted : Bool
  lastValidBufferCompletion : Bool
  bufferCompletion : Bool
  fifoError : Bool
deriving DecidableEq

/-- The PCM-out channel: CIV, LVI, the run bit and the status register. -/
structure Controller where
  civ : ℕ
  lvi : ℕ
  run : Bool
  sr : Status
deriving DecidableEq

/-- Writing RR resets CIV, LVI and SR and halts the DMA. -/
def Controller.resetRegisters : Controller := ⟨0, 0, false, ⟨true, false, false, false⟩⟩

/-- Writing a status back clears the bits set in it; the halted bit is read-only. -/
def Controller.acknowledge (hw : Controller) (st : Status) : Controller :=
  { hw with
    sr :=
      { dmaControllerHalted := hw.sr.dmaControllerHalted
        lastValidBufferCompletion :=
          hw.sr.lastValidBufferCompletion && !st.lastValidBufferCompletion
        bufferCompletion := hw.sr.bufferCompletion && !st.bufferCompletion
        fifoError := hw.sr.fifoError && !st.fifoError } }

/-- Writing LVI lets a controller that runs go on. -/
def Controller.writeLvi (hw : Controller) (lvi : ℕ) : Controller :=
  { hw with
    lvi := lvi
    sr := { hw.sr with dmaControllerHalted := hw.sr.dmaControllerHalted && !hw.run } }

/-- Setting the run bit starts the DMA. -/
def Controller.start (hw : Controller) : Controller :=
  { hw with run := true, sr := { hw.sr with dmaControllerHalted := false } }

/-- The slot at CIV is finished. After the last valid one the controller halts. -/
def Controller.finish (hw : Controller) : Controller :=
  { hw with
    civ := (hw.civ + 1) % numBdlEntries
    sr :=
      { hw.sr with
        dmaControllerHalted := hw.civ == hw.lvi
        lastValidBufferCompletion := hw.sr.lastValidBufferCompletion || hw.civ == hw.lvi
        bufferCompletion := true } }

/-! ## Playback -/

/-- Where the processor stands in `ac97_irq_handler`, with the values read so far. -/
inductive HandlerPc
  | idle
  | statusRead (status : Status)
  | acknowledged (complete : Bool)
  | refilled (nextSlot : ℕ)
  | halted
deriving DecidableEq

/-- The driver, the controller and the handler. The last four fields are ghosts: the
    descriptors in the order in which their slots became valid, the number of slots
    finished, the slots made valid and not finished since, and whether the handler ever
    wrote one of those. -/
structure Playback where
  drv : Driver
  hw : Controller
  pc : HandlerPc
  valid : List BdlEntry
  finished : ℕ
  inFlight : ℕ → Bool
  overwrote : Bool

/-- `ac97_setup_bdl` (ac97.c:157–204); `none` is `hcf()`. -/
def ac97SetupBdl (drv : Driver) (start stop : BitVec 64) : Option (Driver × Controller) :=
  if start > 0xFFFFFFFF ∨ stop > 0xFFFFFFFF then none
  else
    let (i, pos, ring) := fillBdl stop numBdlEntries 0 start drv.ringBuffer
    some
      ({ drv with
          ringBuffer := ring
          bdlEntriesFilled := i
          audioCurPos := pos
          audioDataEnd := stop },
        Controller.resetRegisters)

/-- `ac97_start_playback` (ac97.c:206–229). -/
def ac97StartPlayback (drv : Driver) (hw : Controller) : Driver × Controller :=
  if drv.bdlEntriesFilled = 0 then (drv, hw)
  else
    let lvi := drv.bdlEntriesFilled - 1
    ({ drv with lastValidIndex := lvi }, (hw.writeLvi lvi).start)

/-- `ac97_play` (ac97.c:239–250) on the physical addresses of the clip; `none` when the clip
    is empty and nothing is started, or at `hcf()`. Slots `0 .. bdl_entries_filled - 1`
    become valid with the first write of LVI. -/
def ac97Play (drv : Driver) (start stop : BitVec 64) : Option Playback :=
  if stop ≤ start then none
  else
    match ac97SetupBdl drv start stop with
    | none => none
    | some (drv, hw) =>
      let n := drv.bdlEntriesFilled
      let (drv, hw) := ac97StartPlayback drv hw
      some ⟨drv, hw, .idle, (List.range n).map drv.ringBuffer, 0, fun j => decide (j < n), false⟩

/-- The controller finishes a slot, if it is not halted. -/
def finish (s : Playback) : Playback :=
  if s.hw.run && !s.hw.sr.dmaControllerHalted then
    { s with
      hw := s.hw.finish
      finished := s.finished + 1
      inFlight := Function.update s.inFlight s.hw.civ false }
  else s

/-- `(last_valid_index + 1) & (NUM_BDL_ENTRIES - 1)`. -/
def nextSlot (drv : Driver) : ℕ := (drv.lastValidIndex + 1) &&& (numBdlEntries - 1)

/-- The write of the next chunk to a slot (ac97.c:329–333). -/
def Driver.refill (drv : Driver) (slot : ℕ) : Driver :=
  { drv with
    ringBuffer :=
      Function.update drv.ringBuffer slot (chunkEntry drv.audioCurPos drv.audioDataEnd)
    audioCurPos := chunkNext drv.audioCurPos drv.audioDataEnd }

/-- `ac97_irq_handler` (ac97.c:278–340), one access of the controller or of the ring at a
    time. -/
def ac97IrqHandler (s : Playback) : Playback :=
  match s.pc with
  | .idle => { s with pc := .statusRead s.hw.sr }
  | .statusRead status =>
    if status.fifoError then { s with pc := .halted }
    else
      { s with hw := s.hw.acknowledge status, pc := .acknowledged status.bufferCompletion }
  | .acknowledged complete =>
    if !complete then { s with pc := .idle }
    else if s.drv.audioCurPos ≥ s.drv.audioDataEnd then { s with pc := .idle }
    else
      { s with
        drv := s.drv.refill (nextSlot s.drv)
        pc := .refilled (nextSlot s.drv)
        overwrote := s.overwrote || s.inFlight (nextSlot s.drv) }
  | .refilled slot =>
    { s with
      drv := { s.drv with lastValidIndex := slot }
      hw := s.hw.writeLvi slot
      pc := .idle
      valid := s.valid ++ [s.drv.ringBuffer slot]
      inFlight := Function.update s.inFlight slot true }
  | .halted => s

/-- The controller finishes a slot, reports a FIFO error, or the handler advances. -/
inductive Event
  | finish
  | fifoError
  | handler
deriving DecidableEq

def step (s : Playback) : Event → Playback
  | .finish => finish s
  | .fifoError => { s with hw := { s.hw with sr := { s.hw.sr with fifoError := true } } }
  | .handler => ac97IrqHandler s

def run (s : Playback) (es : List Event) : Playback := es.foldl step s

theorem run_append (s : Playback) (es es' : List Event) :
    run s (es ++ es') = run (run s es) es' := List.foldl_append

/-! ## Chunks -/

/-- `entries` describe adjacent chunks from `pos` up to `last`. -/
def Tiles : ℕ → List BdlEntry → ℕ → Prop
  | pos, [], last => pos = last
  | pos, e :: es, last =>
    e.bufferAddrPhys.toNat = pos ∧ Tiles (pos + 2 * e.numSamples.toNat) es last

theorem Tiles.snoc {pos last : ℕ} {es : List BdlEntry} (h : Tiles pos es last) {e : BdlEntry}
    (he : e.bufferAddrPhys.toNat = last) :
    Tiles pos (es ++ [e]) (last + 2 * e.numSamples.toNat) := by
  induction es generalizing pos with
  | nil =>
    have h' : pos = last := h
    exact ⟨by rw [he, h'], by rw [h']; rfl⟩
  | cons x xs ih => exact ⟨h.1, ih h.2⟩

/-- The number of samples in terms of the bytes left. -/
theorem samplesInChunk_toNat {pos stop : BitVec 64} (h : pos < stop) (hs : stop.toNat < 2 ^ 32) :
    (samplesInChunk pos stop).toNat = min 8188 (stop.toNat - pos.toNat) / 4 * 2 := by
  have hmax : maxSamplesPerEntry = 4094 := rfl
  have hsub : (stop - pos).toNat = stop.toNat - pos.toNat :=
    BitVec.toNat_sub_of_le (BitVec.le_of_lt h)
  have hrem : ((stop - pos).setWidth 32).toNat = stop.toNat - pos.toNat := by
    rw [BitVec.toNat_setWidth, hsub, Nat.mod_eq_of_lt (by omega)]
  unfold samplesInChunk
  simp only [hrem]
  split_ifs with hfull
  · rw [hmax, BitVec.toNat_ofNat]
    omega
  · rw [toNat_and_mask (k := 1) (by decide), BitVec.toNat_setWidth, BitVec.toNat_ushiftRight, hrem,
      Nat.shiftRight_eq_div_pow]
    omega

theorem chunkNext_toNat {pos stop : BitVec 64} (h : pos < stop) (hs : stop.toNat < 2 ^ 32) :
    (chunkNext pos stop).toNat = pos.toNat + 2 * (samplesInChunk pos stop).toNat := by
  have hlt : pos.toNat < stop.toNat := h
  have hsz := (samplesInChunk pos stop).isLt
  rw [chunkNext, BitVec.toNat_add, BitVec.toNat_mul, BitVec.toNat_setWidth]
  rw [show (2 : BitVec 64).toNat = 2 from rfl]
  omega

/-- `P` survives the description of the next chunk. -/
def Grows (stop : BitVec 64) (P : List BdlEntry → BitVec 64 → Prop) : Prop :=
  ∀ es pos, P es pos → pos < stop → P (es ++ [chunkEntry pos stop]) (chunkNext pos stop)

theorem fillBdl_bounds (stop : BitVec 64) (k i : ℕ) (pos : BitVec 64) (ring : ℕ → BdlEntry) :
    i ≤ (fillBdl stop k i pos ring).1 ∧ (fillBdl stop k i pos ring).1 ≤ i + k := by
  induction k generalizing i pos ring with
  | zero => exact ⟨le_rfl, le_rfl⟩
  | succ k ih =>
    rw [fillBdl]
    split_ifs
    · exact ⟨le_rfl, by omega⟩
    · obtain ⟨hge, hle⟩ := ih (i + 1) (chunkNext pos stop)
        (Function.update ring i (chunkEntry pos stop))
      exact ⟨by omega, by omega⟩
    · exact ⟨le_rfl, by omega⟩

/-- The setup loop only appends chunks, one for each slot it fills. -/
theorem fillBdl_chunks {stop : BitVec 64} {P : List BdlEntry → BitVec 64 → Prop}
    (hP : Grows stop P) (k i : ℕ) (pos : BitVec 64) (ring : ℕ → BdlEntry)
    (h : P ((List.range i).map ring) pos) :
    P ((List.range (fillBdl stop k i pos ring).1).map (fillBdl stop k i pos ring).2.2)
      (fillBdl stop k i pos ring).2.1 := by
  induction k generalizing i pos ring with
  | zero => exact h
  | succ k ih =>
    rw [fillBdl]
    split_ifs with hlt
    · exact h
    · exact ih _ _ _ (by rw [map_range_update]; exact hP _ _ h hlt)
    · exact h

/-- The descriptors written so far: the valid ones and the one whose index is still to be
    stored in LVI. -/
def Playback.chunks (s : Playback) : List BdlEntry :=
  match s.pc with
  | .refilled slot => s.valid ++ [s.drv.ringBuffer slot]
  | _ => s.valid

theorem valid_subset_chunks (s : Playback) : s.valid ⊆ s.chunks := by
  unfold Playback.chunks
  split
  · exact List.subset_append_left _ _
  · exact List.Subset.refl _

/-- What every event does to the chunks and the position in the clip. -/
theorem step_chunks {P : List BdlEntry → BitVec 64 → Prop} {s : Playback} {e : Event}
    (hP : Grows s.drv.audioDataEnd P) (h : P s.chunks s.drv.audioCurPos) :
    (step s e).drv.audioDataEnd = s.drv.audioDataEnd ∧
      P (step s e).chunks (step s e).drv.audioCurPos := by
  obtain ⟨drv, hw, pc, valid, finished, inFlight, overwrote⟩ := s
  cases e with
  | finish =>
    simp only [step, finish]
    split_ifs
    · exact ⟨rfl, h⟩
    · exact ⟨rfl, h⟩
  | fifoError => exact ⟨rfl, h⟩
  | handler =>
    cases pc with
    | idle => exact ⟨rfl, h⟩
    | statusRead status =>
      simp only [step, ac97IrqHandler]
      split_ifs
      · exact ⟨rfl, h⟩
      · exact ⟨rfl, h⟩
    | acknowledged complete =>
      simp only [step, ac97IrqHandler]
      split_ifs with hc hend
      · exact ⟨rfl, h⟩
      · exact ⟨rfl, h⟩
      · have hlt : drv.audioCurPos < drv.audioDataEnd := BitVec.not_le.mp hend
        refine ⟨rfl, ?_⟩
        simp only [Playback.chunks, Driver.refill, Function.update_self]
        exact hP _ _ h hlt
    | refilled slot => exact ⟨rfl, h⟩
    | halted => exact ⟨rfl, h⟩

/-- A property that survives every new chunk holds along every run. -/
theorem run_chunks {P : List BdlEntry → BitVec 64 → Prop} {s : Playback}
    (hP : Grows s.drv.audioDataEnd P) (h : P s.chunks s.drv.audioCurPos) (es : List Event) :
    (run s es).drv.audioDataEnd = s.drv.audioDataEnd ∧
      P (run s es).chunks (run s es).drv.audioCurPos := by
  induction es generalizing s with
  | nil => exact ⟨rfl, h⟩
  | cons e es ih =>
    obtain ⟨hend, hstep⟩ := step_chunks (e := e) hP h
    obtain ⟨hend', hrun⟩ := ih (s := step s e) (by rwa [hend]) hstep
    exact ⟨hend'.trans hend, hrun⟩

/-- The chunks tile `[start, pos)`, a prefix of the clip, and each is a whole number of
    stereo frames. -/
structure Streamed (start stop : ℕ) (es : List BdlEntry) (pos : BitVec 64) : Prop where
  tiles : Tiles start es pos.toNat
  start_le : start ≤ pos.toNat
  le_stop : pos.toNat ≤ stop
  frames : 4 ∣ pos.toNat - start
  entries : ∀ e ∈ es, e.numSamples.toNat % 2 = 0 ∧ e.numSamples.toNat ≤ maxSamplesPerEntry

theorem Streamed.grows {start : ℕ} {stop : BitVec 64} (hs : stop.toNat < 2 ^ 32) :
    Grows stop (Streamed start stop.toNat) := by
  intro es pos h hlt
  have hlt' : pos.toNat < stop.toNat := hlt
  have hsamples := samplesInChunk_toNat hlt hs
  have hnext := chunkNext_toNat hlt hs
  obtain ⟨htiles, hstart, hle, hframes, hentries⟩ := h
  have haddr : (chunkEntry pos stop).bufferAddrPhys.toNat = pos.toNat := by
    simp only [chunkEntry, BitVec.toNat_setWidth]
    omega
  refine ⟨?_, by omega, ?_, ?_, ?_⟩
  · rw [hnext]
    exact htiles.snoc haddr
  · omega
  · omega
  · intro e he
    rcases List.mem_append.mp he with he | he
    · exact hentries e he
    · rw [List.mem_singleton.mp he, show maxSamplesPerEntry = 4094 from rfl]
      simp only [chunkEntry]
      omega

/-! ## Slots -/

/-- The completions that the handler has still to answer with a refill: one for BCIS, one
    for a run of the handler that saw BCIS. A status read but not yet written back stands
    for the BCIS it will clear. -/
def Playback.unanswered (s : Playback) : ℕ :=
  match s.pc with
  | .idle => s.hw.sr.bufferCompletion.toNat
  | .statusRead status =>
    if status.bufferCompletion then 1 else s.hw.sr.bufferCompletion.toNat
  | .acknowledged complete => complete.toNat + s.hw.sr.bufferCompletion.toNat
  | .refilled _ => 1 + s.hw.sr.bufferCompletion.toNat
  | .halted => 0

/-- The invariant of a playback whose setup filled `filled` slots. The `n`-th valid
    descriptor is in slot `n % 32`, and the slots in flight are those of the descriptors
    from `finished` on. -/
structure Inv (filled : ℕ) (s : Playback) : Prop where
  filled_le : filled ≤ 32
  filled_le_valid : filled ≤ s.valid.length
  finished_le : s.finished ≤ s.valid.length
  answered : s.valid.length + s.unanswered ≤ s.finished + filled
  run_eq : s.hw.run = decide (0 < filled)
  civ_eq : s.hw.civ = s.finished % 32
  lvi_eq : 0 < filled → s.hw.lvi = (s.valid.length - 1) % 32
  last_eq : 0 < filled → s.drv.lastValidIndex = (s.valid.length - 1) % 32
  halted_iff : 0 < filled →
    (s.hw.sr.dmaControllerHalted = true ↔ s.finished = s.valid.length)
  inFlight_iff : ∀ j, s.inFlight j = true ↔ Ring.Occupied 32 s.finished s.valid.length j
  slot_eq : ∀ slot, s.pc = .refilled slot → slot = s.valid.length % 32
  not_overwrote : s.overwrote = false

theorem Inv.filled_pos {filled : ℕ} {s : Playback} (h : Inv filled s) (hu : 0 < s.unanswered) :
    0 < filled := by
  have := h.answered
  have := h.finished_le
  omega

/-- At most 32 descriptors are valid and not finished. -/
theorem Inv.valid_le {filled : ℕ} {s : Playback} (h : Inv filled s) :
    s.valid.length ≤ s.finished + 32 := by
  have := h.answered
  have := h.filled_le
  omega

theorem Inv.nextSlot_eq {filled : ℕ} {s : Playback} (h : Inv filled s) (hf : 0 < filled) :
    nextSlot s.drv = s.valid.length % 32 := by
  have := h.filled_le_valid
  rw [nextSlot, h.last_eq hf, show numBdlEntries - 1 = 2 ^ 5 - 1 from rfl,
    Nat.and_two_pow_sub_one_eq_mod]
  omega

/-- While a completion is unanswered the next slot is free. -/
theorem Inv.nextSlot_free {filled : ℕ} {s : Playback} (h : Inv filled s) (hu : 0 < s.unanswered) :
    s.inFlight (nextSlot s.drv) = false := by
  rw [h.nextSlot_eq (h.filled_pos hu), ← Bool.not_eq_true, h.inFlight_iff]
  apply Ring.not_occupied_next
  have := h.answered
  have := h.filled_le
  omega

theorem Inv.finish {filled : ℕ} {s : Playback} (h : Inv filled s) : Inv filled (finish s) := by
  unfold Ac97.finish
  split_ifs with hrun
  · obtain ⟨hrun, hdch⟩ := Bool.and_eq_true_iff.mp hrun
    have hf : 0 < filled := by simpa [h.run_eq] using hrun
    have hne : s.finished ≠ s.valid.length := by
      intro heq
      rw [(h.halted_iff hf).mpr heq] at hdch
      contradiction
    have hle := h.finished_le
    have hroom := h.valid_le
    have hlast : (s.hw.civ == s.hw.lvi) = true ↔ s.finished + 1 = s.valid.length := by
      rw [beq_iff_eq, h.civ_eq, h.lvi_eq hf]
      omega
    refine { h with
      finished_le := by simp only; omega
      answered := ?_
      civ_eq := by simp only [Controller.finish, h.civ_eq, Nat.mod_add_mod]
      halted_iff := fun _ => hlast
      inFlight_iff := ?_ }
    · have hans := h.answered
      revert hans
      rcases s with ⟨drv, hw, pc, valid, finished, inFlight, overwrote⟩
      cases pc <;> simp only [Playback.unanswered, Controller.finish, Bool.toNat_true]
      all_goals (try split_ifs) <;> intros <;> omega
    · intro j
      show Function.update s.inFlight s.hw.civ false j = true ↔
        Ring.Occupied 32 (s.finished + 1) s.valid.length j
      rw [Ring.occupied_retire hroom, ← h.inFlight_iff, h.civ_eq, Function.update_apply]
      split_ifs with hj
      · simp [hj]
      · simp [hj]
  · exact h

theorem Inv.handler {filled : ℕ} {s : Playback} (h : Inv filled s) :
    Inv filled (ac97IrqHandler s) := by
  have hans := h.answered
  have hfree := h.nextSlot_free
  have hslot := h.nextSlot_eq
  have hpos := h.filled_pos
  rcases s with ⟨drv, hw, pc, valid, finished, inFlight, overwrote⟩
  cases pc with
  | idle =>
    refine { h with answered := ?_, slot_eq := by intro slot hslot; contradiction }
    simp only [Playback.unanswered, ac97IrqHandler] at hans ⊢
    split_ifs with hb
    · simpa [hb] using hans
    · exact hans
  | statusRead status =>
    simp only [ac97IrqHandler]
    split_ifs with herr
    · refine { h with answered := ?_, slot_eq := by intro slot hslot; contradiction }
      simp only [Playback.unanswered] at hans ⊢
      omega
    · refine { h with answered := ?_, slot_eq := by intro slot hslot; contradiction }
      simp only [Playback.unanswered, Controller.acknowledge] at hans ⊢
      cases hb : status.bufferCompletion <;> simp_all
  | acknowledged complete =>
    simp only [ac97IrqHandler]
    split_ifs with hc hend
    iterate 2
      · refine { h with answered := ?_, slot_eq := by intro slot hslot; contradiction }
        simp only [Playback.unanswered] at hans ⊢
        omega
    · have hcomplete : complete = true := by simpa using hc
      subst hcomplete
      have hu : 0 < (Playback.mk drv hw (.acknowledged true) valid finished inFlight
          overwrote).unanswered := by
        simp [Playback.unanswered]
      refine { h with
        answered := hans
        slot_eq := ?_
        not_overwrote := ?_ }
      · rintro slot heq
        obtain rfl := HandlerPc.refilled.inj heq
        exact hslot (hpos hu)
      · simp only [Bool.or_eq_false_iff]
        exact ⟨h.not_overwrote, hfree hu⟩
  | refilled slot =>
    have hf : 0 < filled := hpos (by simp [Playback.unanswered])
    have hslot := h.slot_eq slot rfl
    have hle := h.finished_le
    have hfv := h.filled_le_valid
    simp only at hslot hle hfv
    simp only [ac97IrqHandler]
    refine { h with
      filled_le_valid := by simp only [List.length_append, List.length_singleton]; omega
      finished_le := by simp only [List.length_append, List.length_singleton]; omega
      answered := ?_
      lvi_eq := fun _ => by simp [Controller.writeLvi, hslot]
      last_eq := fun _ => by simp [hslot]
      halted_iff := fun _ => ?_
      inFlight_iff := ?_
      slot_eq := by intro slot hslot; contradiction }
    · simp only [Playback.unanswered, Controller.writeLvi, List.length_append,
        List.length_singleton] at hans ⊢
      omega
    · -- the controller runs, so the write of LVI wakes it
      have hrun : hw.run = true := by simpa [hf] using h.run_eq
      simp only [Controller.writeLvi, hrun, Bool.not_true, Bool.and_false, Bool.false_eq_true,
        List.length_append, List.length_singleton, false_iff]
      omega
    · intro j
      show Function.update inFlight slot true j = true ↔
        Ring.Occupied 32 finished (valid ++ [drv.ringBuffer slot]).length j
      rw [List.length_append, List.length_singleton, Ring.occupied_push hle, ← hslot,
        Function.update_apply]
      split_ifs with hj
      · simp [hj]
      · simpa [hj] using h.inFlight_iff j
  | halted => exact h

theorem Inv.step {filled : ℕ} {s : Playback} (h : Inv filled s) (e : Event) :
    Inv filled (step s e) := by
  cases e with
  | finish => exact h.finish
  | fifoError =>
    refine { h with answered := ?_ }
    have hans := h.answered
    rcases s with ⟨drv, hw, pc, valid, finished, inFlight, overwrote⟩
    cases pc <;> exact hans
  | handler => exact h.handler

theorem Inv.run {filled : ℕ} {s : Playback} (h : Inv filled s) (es : List Event) :
    Inv filled (run s es) := by
  induction es generalizing s with
  | nil => exact h
  | cons e es ih => exact ih (h.step e)

/-! ## The start of a playback -/

/-- What `ac97_play` leaves behind for a clip below 4 GiB. -/
structure Started (start stop : BitVec 64) (s : Playback) : Prop where
  inv : Inv s.valid.length s
  idle : s.pc = .idle
  finished_eq : s.finished = 0
  no_fifoError : s.hw.sr.fifoError = false
  stop_eq : s.drv.audioDataEnd = stop
  valid_pos_iff : 0 < s.valid.length ↔ 4 ≤ stop.toNat - start.toNat
  chunks : ∀ P : List BdlEntry → BitVec 64 → Prop, Grows stop P → P [] start →
    P s.chunks s.drv.audioCurPos

/-- The setup loop fills a slot exactly if the clip has a whole stereo frame. -/
theorem fillBdl_pos_iff {start stop : BitVec 64} (hlt : start < stop) (hs : stop.toNat < 2 ^ 32)
    (ring : ℕ → BdlEntry) :
    0 < (fillBdl stop numBdlEntries 0 start ring).1 ↔ 4 ≤ stop.toNat - start.toNat := by
  have hsamples := samplesInChunk_toNat hlt hs
  rw [fillBdl, if_pos hlt]
  split_ifs with hzero
  · rw [hzero] at hsamples
    simp only [BitVec.ofNat_eq_ofNat, BitVec.toNat_ofNat, Nat.zero_mod] at hsamples
    omega
  · have hge := (fillBdl_bounds stop 31 1 (chunkNext start stop)
      (Function.update ring 0 (chunkEntry start stop))).1
    have hne : (samplesInChunk start stop).toNat ≠ 0 := fun h =>
      hzero (BitVec.eq_of_toNat_eq h)
    constructor
    · omega
    · intro _
      exact hge

theorem ac97Play_started (drv : Driver) {start stop : BitVec 64} (hlt : start < stop)
    (hs : stop ≤ 0xFFFFFFFF) : ∃ s, ac97Play drv start stop = some s ∧ Started start stop s := by
  have hs' : stop.toNat ≤ 0xFFFFFFFF := hs
  have hlt' : start.toNat < stop.toNat := hlt
  have hguard : ¬(start > 0xFFFFFFFF ∨ stop > 0xFFFFFFFF) := by
    rintro (h | h)
    · have : 0xFFFFFFFF < start.toNat := h
      omega
    · have : 0xFFFFFFFF < stop.toNat := h
      omega
  have hpos := fillBdl_pos_iff hlt (by omega) drv.ringBuffer
  have hle := (fillBdl_bounds stop numBdlEntries 0 start drv.ringBuffer).2
  have hfill := fun P (hP : Grows stop P) =>
    fillBdl_chunks hP numBdlEntries 0 start drv.ringBuffer
  rw [ac97Play, if_neg (by rwa [BitVec.not_le]), ac97SetupBdl, if_neg hguard]
  generalize fillBdl stop numBdlEntries 0 start drv.ringBuffer = r at *
  obtain ⟨i, pos, ring⟩ := r
  simp only [ac97StartPlayback] at *
  split_ifs with hi
  · -- nothing to play: the controller is never started
    subst hi
    refine ⟨_, rfl, ?_, rfl, rfl, rfl, rfl, by simpa using hpos, fun P hP h => hfill P hP h⟩
    constructor <;> simp [Playback.unanswered, Controller.resetRegisters, Ring.Occupied]
  · refine ⟨_, rfl, ?_, rfl, rfl, rfl, rfl, by simpa using hpos, fun P hP h => hfill P hP h⟩
    have hle : i ≤ 32 := by simpa [numBdlEntries] using hle
    have hmod : (i - 1) % 32 = i - 1 := Nat.mod_eq_of_lt (by omega)
    constructor <;> simp [Playback.unanswered, Controller.resetRegisters, Controller.writeLvi,
      Controller.start, hmod]
    · exact hle
    · omega
    · omega
    · intro j
      constructor
      · intro hj
        exact ⟨j, by omega, hj, Nat.mod_eq_of_lt (by omega)⟩
      · rintro ⟨n, -, hn, rfl⟩
        exact lt_of_le_of_lt (Nat.mod_le _ _) hn

/-! ## Contiguous playback -/

theorem Tiles.of_snoc {pos last : ℕ} {es : List BdlEntry} {e : BdlEntry}
    (h : Tiles pos (es ++ [e]) last) : ∃ mid ≤ last, Tiles pos es mid := by
  induction es generalizing pos with
  | nil =>
    obtain ⟨-, hlast⟩ := h
    have hlast : pos + 2 * e.numSamples.toNat = last := hlast
    exact ⟨pos, by omega, rfl⟩
  | cons x xs ih =>
    obtain ⟨mid, hle, htiles⟩ := ih h.2
    exact ⟨mid, hle, h.1, htiles⟩

theorem Streamed.valid {start stop : ℕ} {s : Playback}
    (h : Streamed start stop s.chunks s.drv.audioCurPos) :
    ∃ last ≤ stop, Tiles start s.valid last := by
  obtain ⟨htiles, -, hle, -, -⟩ := h
  unfold Playback.chunks at htiles
  split at htiles
  · obtain ⟨mid, hmid, htiles⟩ := htiles.of_snoc
    exact ⟨mid, hmid.trans hle, htiles⟩
  · exact ⟨_, hle, htiles⟩

/-- Along every run of a started playback the chunks stream the clip. -/
theorem Started.streamed {start stop : BitVec 64} {s : Playback} (h : Started start stop s)
    (hlt : start < stop) (hs : stop ≤ 0xFFFFFFFF) (es : List Event) :
    (run s es).drv.audioDataEnd = stop ∧
      Streamed start.toNat stop.toNat (run s es).chunks (run s es).drv.audioCurPos := by
  have hlt' : start.toNat < stop.toNat := hlt
  have hs' : stop.toNat ≤ 0xFFFFFFFF := hs
  have hgrows : Grows stop (Streamed start.toNat stop.toNat) := Streamed.grows (by omega)
  have hstart := h.chunks _ hgrows ⟨rfl, le_rfl, hlt'.le, by simp, by simp⟩
  have hrun := run_chunks (by rwa [h.stop_eq]) hstart es
  rwa [h.stop_eq] at hrun

/-- For every clip and every interleaving of the controller with the handler, the valid
    descriptors tile a prefix of the clip, each with an even number of at most `0xFFE`
    samples, and the handler never writes a slot in flight. -/
theorem stream_contiguous (drv : Driver) (start stop : BitVec 64) (hlt : start < stop)
    (hs : stop ≤ 0xFFFFFFFF) :
    ∃ s, ac97Play drv start stop = some s ∧ ∀ es : List Event,
      (∃ last ≤ stop.toNat, Tiles start.toNat (run s es).valid last) ∧
      (∀ e ∈ (run s es).valid,
        e.numSamples.toNat % 2 = 0 ∧ e.numSamples.toNat ≤ maxSamplesPerEntry) ∧
      (run s es).overwrote = false := by
  obtain ⟨s, hplay, hstarted⟩ := ac97Play_started drv hlt hs
  refine ⟨s, hplay, fun es => ?_⟩
  have hstreamed := (hstarted.streamed hlt hs es).2
  refine ⟨hstreamed.valid, ?_, (hstarted.inv.run es).not_overwrote⟩
  intro e he
  exact hstreamed.entries e (valid_subset_chunks _ he)

/-- A driver that has played nothing yet. -/
def silent : Driver := ⟨fun _ => ⟨0, 0, 0⟩, 0, 0, 0, 0⟩

/-- The events of a completion that is handled at once. -/
def round : List Event := [.finish, .handler, .handler, .handler, .handler]

/-- A clip of 40 chunks: the setup fills the 32 slots, and a completion refills one of them. -/
theorem stream_contiguous_forty_chunks :
    ∃ s, ac97Play silent 0x100000 0x14FF60 = some s ∧
      s.valid.length = 32 ∧ (run s round).valid.length = 33 ∧ ∀ es : List Event,
      (∃ last ≤ 0x14FF60, Tiles 0x100000 (run s es).valid last) ∧
      (∀ e ∈ (run s es).valid,
        e.numSamples.toNat % 2 = 0 ∧ e.numSamples.toNat ≤ maxSamplesPerEntry) ∧
      (run s es).overwrote = false := by
  obtain ⟨s, hplay, hstream⟩ := stream_contiguous silent 0x100000 0x14FF60 (by decide) (by decide)
  have hlengths : (ac97Play silent 0x100000 0x14FF60).map
      (fun s => (s.valid.length, (run s round).valid.length)) = some (32, 33) := by decide +kernel
  rw [hplay, Option.map_some, Option.some_inj, Prod.mk.injEq] at hlengths
  exact ⟨s, hplay, hlengths.1, hlengths.2, hstream⟩

/-! ## The end of a playback -/

/-- The playback started in `s` ends: no empty descriptor becomes valid, and after some
    number of refills, bounded by the length of the clip, the ring and LVI stay as they are
    whatever happens. -/
def PlaybackEnds (start stop : BitVec 64) (s : Playback) : Prop :=
  (∀ es, ∀ e ∈ (run s es).valid, 0 < e.numSamples.toNat) ∧
  ∃ n ≤ (stop.toNat - start.toNat) / (2 * maxSamplesPerEntry) + 1, ∀ es,
    (run s es).valid.length ≤ s.valid.length + n ∧
    ((run s es).valid.length = s.valid.length + n → ∀ es',
      (run s (es ++ es')).drv.ringBuffer = (run s es).drv.ringBuffer ∧
      (run s (es ++ es')).hw.lvi = (run s es).hw.lvi)

/-- No refill is under way and none can start: the clip is exhausted, or the controller was
    never started. -/
structure Quiet (s : Playback) : Prop where
  not_refilled : ∀ slot, s.pc ≠ .refilled slot
  spent : s.drv.audioDataEnd ≤ s.drv.audioCurPos ∨ s.hw.run = false ∧ s.unanswered = 0

theorem Quiet.step {s : Playback} (h : Quiet s) (e : Event) :
    Quiet (step s e) ∧ (step s e).drv = s.drv ∧ (step s e).hw.lvi = s.hw.lvi ∧
      (step s e).valid = s.valid := by
  obtain ⟨hpc, hspent⟩ := h
  rcases s with ⟨drv, hw, pc, valid, finished, inFlight, overwrote⟩
  cases e with
  | finish =>
    simp only [Ac97.step, Ac97.finish]
    split_ifs with hrun
    · refine ⟨⟨hpc, .inl ?_⟩, rfl, rfl, rfl⟩
      rcases hspent with hend | ⟨hstop, -⟩
      · exact hend
      · simp_all
    · exact ⟨⟨hpc, hspent⟩, rfl, rfl, rfl⟩
  | fifoError =>
    refine ⟨⟨hpc, ?_⟩, rfl, rfl, rfl⟩
    cases pc <;> exact hspent
  | handler =>
    cases pc with
    | idle =>
      refine ⟨⟨by simp [Ac97.step, ac97IrqHandler], ?_⟩, rfl, rfl, rfl⟩
      simp_all [Ac97.step, ac97IrqHandler, Playback.unanswered]
    | statusRead status =>
      simp only [Ac97.step, ac97IrqHandler]
      split_ifs with herr
      · exact ⟨⟨by simp, hspent.imp_right fun h => ⟨h.1, rfl⟩⟩, rfl, rfl, rfl⟩
      · refine ⟨⟨by simp, ?_⟩, rfl, rfl, rfl⟩
        cases hb : status.bufferCompletion <;>
          simp_all [Playback.unanswered, Controller.acknowledge]
    | acknowledged complete =>
      simp only [Ac97.step, ac97IrqHandler]
      split_ifs with hc hend
      · exact ⟨⟨by simp, by simp_all [Playback.unanswered]⟩, rfl, rfl, rfl⟩
      · exact ⟨⟨by simp, .inl hend⟩, rfl, rfl, rfl⟩
      · simp_all [Playback.unanswered]
    | refilled slot => exact absurd rfl (hpc slot)
    | halted => exact ⟨⟨hpc, hspent⟩, rfl, rfl, rfl⟩

theorem Quiet.run {s : Playback} (h : Quiet s) (es : List Event) :
    (run s es).drv = s.drv ∧ (run s es).hw.lvi = s.hw.lvi ∧ (run s es).valid = s.valid := by
  induction es generalizing s with
  | nil => exact ⟨rfl, rfl, rfl⟩
  | cons e es ih =>
    obtain ⟨hquiet, hdrv, hlvi, hvalid⟩ := h.step e
    obtain ⟨hdrv', hlvi', hvalid'⟩ := ih hquiet
    exact ⟨hdrv'.trans hdrv, hlvi'.trans hlvi, hvalid'.trans hvalid⟩

/-- All chunks but the last are full and none is empty. -/
structure Packed (start stop : ℕ) (es : List BdlEntry) (pos : BitVec 64) : Prop where
  pos_eq : pos.toNat = min stop (start + 8188 * es.length)
  length_lt : 8188 * es.length < stop - start + 8188
  nonempty : ∀ e ∈ es, 0 < e.numSamples.toNat

theorem Packed.grows {start : ℕ} {stop : BitVec 64} (hs : stop.toNat < 2 ^ 32)
    (hlt : start < stop.toNat) (hframes : (stop.toNat - start) % 4 = 0) :
    Grows stop (Packed start stop.toNat) := by
  intro es pos h hpos
  have hpos' : pos.toNat < stop.toNat := hpos
  have hsamples := samplesInChunk_toNat hpos hs
  have hnext := chunkNext_toNat hpos hs
  obtain ⟨hpos_eq, hlength, hnonempty⟩ := h
  refine ⟨?_, ?_, ?_⟩
  iterate 2
    · rw [List.length_append, List.length_singleton]
      omega
  · intro e he
    rcases List.mem_append.mp he with he | he
    · exact hnonempty e he
    · rw [List.mem_singleton.mp he]
      simp only [chunkEntry]
      omega

/-- The handler is idle, the controller runs and has reported no error. -/
structure Ready (s : Playback) : Prop where
  pc_eq : s.pc = .idle
  run_eq : s.hw.run = true
  not_halted : s.hw.sr.dmaControllerHalted = false
  no_fifoError : s.hw.sr.fifoError = false

/-- A completion before the end of the clip is answered by a refill. -/
theorem Ready.round {s : Playback} (h : Ready s)
    (hlt : s.drv.audioCurPos < s.drv.audioDataEnd) :
    Ready (run s round) ∧ (run s round).valid.length = s.valid.length + 1 := by
  obtain ⟨hpc, hrun, hdch, hfifo⟩ := h
  rcases s with ⟨drv, ⟨civ, lvi, go, ⟨dch, lvbci, bcis, fifo⟩⟩, pc, valid, finished, inFlight,
    overwrote⟩
  simp only at hpc hrun hdch hfifo hlt
  subst hpc hrun hdch hfifo
  have hend : ¬ drv.audioDataEnd ≤ drv.audioCurPos := BitVec.not_le.mpr hlt
  simp [Ac97.run, Ac97.round, Ac97.step, Ac97.finish, ac97IrqHandler, Controller.finish,
    Controller.acknowledge, Controller.writeLvi, hend]
  constructor <;> rfl

/-- If the clip does not end on a stereo frame, the handler refills once for every
    completion, without end. -/
theorem Started.refills_forever {start stop : BitVec 64} {s : Playback}
    (h : Started start stop s) (hlt : start < stop) (hs : stop ≤ 0xFFFFFFFF)
    (hframe : 4 ≤ stop.toNat - start.toNat) (hrest : (stop.toNat - start.toNat) % 4 ≠ 0) (n : ℕ) :
    ∃ es, Ready (run s es) ∧ (run s es).valid.length = s.valid.length + n := by
  induction n with
  | zero =>
    have hpos := h.valid_pos_iff.mpr hframe
    refine ⟨[], ⟨h.idle, ?_, ?_, h.no_fifoError⟩, rfl⟩
    · show s.hw.run = true
      rw [h.inv.run_eq]
      exact decide_eq_true hpos
    · show s.hw.sr.dmaControllerHalted = false
      rw [← Bool.not_eq_true, h.inv.halted_iff hpos, h.finished_eq]
      exact hpos.ne
  | succ n ih =>
    obtain ⟨es, hready, hlength⟩ := ih
    obtain ⟨hend, hstreamed⟩ := h.streamed hlt hs es
    have hcur : (run s es).drv.audioCurPos < (run s es).drv.audioDataEnd := by
      rw [hend]
      have hle := hstreamed.le_stop
      have hstart := hstreamed.start_le
      have hframes := hstreamed.frames
      show (run s es).drv.audioCurPos.toNat < stop.toNat
      omega
    obtain ⟨hready', hlength'⟩ := hready.round hcur
    refine ⟨es ++ round, ?_, ?_⟩
    · rwa [run_append]
    · rw [run_append, hlength', hlength, Nat.add_assoc]

theorem Started.quiet {start stop : BitVec 64} {s : Playback} (h : Started start stop s)
    (hshort : stop.toNat - start.toNat < 4) : s.valid = [] ∧ Quiet s := by
  have hzero : ¬ 0 < s.valid.length := by
    rw [h.valid_pos_iff]
    omega
  have hnil : s.valid = [] := List.length_eq_zero_iff.mp (by omega)
  have hans := h.inv.answered
  have hfin := h.inv.finished_le
  have hrun := h.inv.run_eq
  refine ⟨hnil, ⟨by simp [h.idle], .inr ⟨?_, by omega⟩⟩⟩
  rw [hrun]
  exact decide_eq_false hzero

/-- A clip of whole stereo frames ends. -/
theorem Started.ends {start stop : BitVec 64} {s : Playback} (h : Started start stop s)
    (hlt : start < stop) (hs : stop ≤ 0xFFFFFFFF) (hframes : (stop.toNat - start.toNat) % 4 = 0) :
    PlaybackEnds start stop s := by
  have hlt' : start.toNat < stop.toNat := hlt
  have hs' : stop.toNat ≤ 0xFFFFFFFF := hs
  have hgrows : Grows stop (Packed start.toNat stop.toNat) :=
    Packed.grows (by omega) hlt' hframes
  have hstart := h.chunks _ hgrows ⟨by simp; omega, by simp, by simp⟩
  have hpacked : ∀ es, (run s es).drv.audioDataEnd = stop ∧
      Packed start.toNat stop.toNat (run s es).chunks (run s es).drv.audioCurPos := by
    intro es
    have hrun := run_chunks (by rwa [h.stop_eq]) hstart es
    rwa [h.stop_eq] at hrun
  have hle : ∀ es, (run s es).valid.length ≤ (run s es).chunks.length := by
    intro es
    unfold Playback.chunks
    split <;> simp
  refine ⟨fun es e he => (hpacked es).2.nonempty e (valid_subset_chunks _ he), ?_⟩
  -- `chunks` never grows beyond the length of the clip in chunks, rounded up
  refine ⟨(stop.toNat - start.toNat + 8187) / 8188 - s.valid.length, ?_, ?_⟩
  · rw [show 2 * maxSamplesPerEntry = 8188 from rfl]
    omega
  · intro es
    have hfilled := hle []
    have hbound := (hpacked []).2.length_lt
    have hvalid := hle es
    obtain ⟨hend, hpos_eq, hlength, -⟩ := hpacked es
    change s.valid.length ≤ s.chunks.length at hfilled
    change 8188 * s.chunks.length < _ at hbound
    refine ⟨by omega, ?_⟩
    intro hall es'
    have hquiet : Quiet (run s es) := by
      refine ⟨?_, .inl ?_⟩
      · intro slot hpc
        have hone : (run s es).chunks.length = (run s es).valid.length + 1 := by
          simp [Playback.chunks, hpc]
        omega
      · rw [hend]
        show stop.toNat ≤ (run s es).drv.audioCurPos.toNat
        omega
    obtain ⟨hdrv, hlvi, -⟩ := hquiet.run es'
    rw [run_append]
    exact ⟨by rw [hdrv], hlvi⟩

/-- A playback ends if and only if the clip is a whole number of stereo frames, or too short
    to be played at all. -/
theorem playbackEnds_iff (drv : Driver) (start stop : BitVec 64) (hlt : start < stop)
    (hs : stop ≤ 0xFFFFFFFF) :
    ∃ s, ac97Play drv start stop = some s ∧
      (PlaybackEnds start stop s ↔
        (stop.toNat - start.toNat) % 4 = 0 ∨ stop.toNat - start.toNat < 4) := by
  obtain ⟨s, hplay, hstarted⟩ := ac97Play_started drv hlt hs
  refine ⟨s, hplay, ?_, ?_⟩
  · rintro ⟨-, n, -, hrefills⟩
    by_contra hcond
    rw [not_or, Nat.not_lt] at hcond
    obtain ⟨es, -, hlength⟩ := hstarted.refills_forever hlt hs hcond.2 hcond.1 (n + 1)
    have := (hrefills es).1
    omega
  · rintro (hframes | hshort)
    · exact hstarted.ends hlt hs hframes
    · obtain ⟨hnil, hquiet⟩ := hstarted.quiet hshort
      have hvalid : ∀ es, (run s es).valid = [] := fun es =>
        (hquiet.run es).2.2.trans hnil
      refine ⟨fun es e he => by simp [hvalid] at he, 0, Nat.zero_le _, fun es => ⟨?_, ?_⟩⟩
      · simp [hvalid]
      · intro _ es'
        obtain ⟨hdrv, hlvi, -⟩ := hquiet.run es
        obtain ⟨hdrv', hlvi', -⟩ := hquiet.run (es ++ es')
        exact ⟨by rw [hdrv, hdrv'], by rw [hlvi, hlvi']⟩

theorem playbackEnds_iff_forty_chunks :
    ∃ s, ac97Play silent 0x100000 0x14FF60 = some s ∧ PlaybackEnds 0x100000 0x14FF60 s := by
  obtain ⟨s, hplay, hends⟩ := playbackEnds_iff silent 0x100000 0x14FF60 (by decide) (by decide)
  exact ⟨s, hplay, hends.mpr (.inl (by decide))⟩

/-- A clip of five bytes: the setup fills one slot, and the first completion makes an empty
    descriptor valid. -/
theorem playback_stuck :
    ∃ s, ac97Play silent 0x100000 0x100005 = some s ∧ ¬ PlaybackEnds 0x100000 0x100005 s := by
  refine ⟨_, rfl, ?_⟩
  rintro ⟨hpos, -⟩
  have := hpos round
  revert this
  decide

end HorizonOS.Drivers.Ac97
