import HorizonOS.Lib.Bitmap

/-!
# The i386 frame allocator

`frames` is a bitmap of the physical frames of 64 MB. `alloc_frame` takes the first free
frame and stores its number in a page table entry, `free_frame` gives it back
(src/arch/i386/memory/paging.c). Whether an entry holds a frame is read off its frame field:
zero means none, although frame 0 is a frame like the others.

* `allocFrame_eq`, `freeFrame_eq`: the two calls over the bitmap as a set of frames.
* `Agree.step`: what a call on an entry that does not hold frame 0 keeps.
* `frames_agree`: bitmap and entries agree in every run without a call on the holder of
  frame 0.
-/

namespace HorizonOS.I386

open HorizonOS.Lib

/-! ## Bitmap -/

/-- `mem_end_page / 0x1000` (paging.c:96–97). -/
abbrev nframes : ℕ := 0x4000000 / 0x1000

/-- `BITSET_INDEX`. -/
def bitsetIndex (a : ℕ) : ℕ := a / (8 * 4)

/-- `BITSET_OFFSET`. -/
def bitsetOffset (a : ℕ) : ℕ := a % (8 * 4)

/-- The words of `frames`; `BITSET_INDEX(nframes)` of them are allocated. -/
abbrev Frames := ℕ → BitVec 32

/-- Why a call does not return: an access beyond the words allocated, or the halt of
    `alloc_frame` when no frame is free. -/
inductive Stop
  | outOfBounds (idx : ℕ)
  | noFreeFrames
deriving DecidableEq

/-- `set_frame` (paging.c:22–27). -/
def setFrame (frames : Frames) (frameAddr : BitVec 32) : Except Stop Frames :=
  let frame := frameAddr.toNat / 0x1000
  let idx := bitsetIndex frame
  let off := bitsetOffset frame
  if idx < bitsetIndex nframes then
    .ok (Function.update frames idx (frames idx ||| 1#32 <<< off))
  else .error (.outOfBounds idx)

/-- `clear_frame` (paging.c:30–35). -/
def clearFrame (frames : Frames) (frameAddr : BitVec 32) : Except Stop Frames :=
  let frame := frameAddr.toNat / 0x1000
  let idx := bitsetIndex frame
  let off := bitsetOffset frame
  if idx < bitsetIndex nframes then
    .ok (Function.update frames idx (frames idx &&& ~~~(1#32 <<< off)))
  else .error (.outOfBounds idx)

/-- `first_frame` (paging.c:44–60). -/
def firstFrame (frames : Frames) : BitVec 32 :=
  match Bitmap.firstZero frames (bitsetIndex nframes) with
  | some idx => BitVec.ofNat 32 idx
  | none => -1

theorem bitsetIndex_lt_iff (frame : ℕ) :
    bitsetIndex frame < bitsetIndex nframes ↔ frame < nframes := by
  simp only [bitsetIndex, nframes]
  omega

theorem setFrame_eq (frames : Frames) (addr : BitVec 32) :
    setFrame frames addr =
      if addr.toNat / 0x1000 < nframes then .ok (Bitmap.set frames (addr.toNat / 0x1000))
      else .error (.outOfBounds (bitsetIndex (addr.toNat / 0x1000))) := by
  simp only [setFrame, bitsetIndex_lt_iff]
  rfl

theorem clearFrame_eq (frames : Frames) (addr : BitVec 32) :
    clearFrame frames addr =
      if addr.toNat / 0x1000 < nframes then .ok (Bitmap.clear frames (addr.toNat / 0x1000))
      else .error (.outOfBounds (bitsetIndex (addr.toNat / 0x1000))) := by
  simp only [clearFrame, bitsetIndex_lt_iff]
  rfl

/-! ## Page table entries -/

/-- `PTE_PRESENT`. -/
def ptePresent : BitVec 32 := 1

/-- `PTE_READ_WRITE`. -/
def pteReadWrite : BitVec 32 := 2

/-- `PTE_USER_SUPERVISOR`. -/
def pteUserSupervisor : BitVec 32 := 4

/-- `PTE_FRAME_MASK`. -/
def pteFrameMask : BitVec 32 := 0xFFFFF000

/-- `PTE_IS_PRESENT`. -/
def pteIsPresent (pte : BitVec 32) : Bool := pte &&& ptePresent ≠ 0

/-- `PTE_GET_FRAME`. -/
def pteGetFrame (pte : BitVec 32) : BitVec 32 := (pte &&& pteFrameMask) >>> 12

/-- `PTE_SET_FRAME`. -/
def pteSetFrame (pte frame : BitVec 32) : BitVec 32 :=
  (pte &&& ~~~pteFrameMask) ||| (frame &&& 0xFFFFF) <<< 12

theorem getLsbD_pteFrameMask {i : ℕ} (hi : i < 32) :
    pteFrameMask.getLsbD i = decide (12 ≤ i) := by
  have h : ∀ i < 32, (0xFFFFF000#32).getLsbD i = decide (12 ≤ i) := by decide
  exact h i hi

theorem pteGetFrame_toNat (pte : BitVec 32) : (pteGetFrame pte).toNat = pte.toNat / 0x1000 := by
  have h : pteGetFrame pte = pte >>> 12 := by
    apply BitVec.eq_of_getLsbD_eq
    intro i hi
    simp only [pteGetFrame, BitVec.getLsbD_ushiftRight, BitVec.getLsbD_and]
    by_cases h : 12 + i < 32
    · simp [getLsbD_pteFrameMask h]
    · rw [BitVec.getLsbD_of_ge _ _ (by omega), Bool.false_and]
  rw [h, BitVec.toNat_ushiftRight, Nat.shiftRight_eq_div_pow]

theorem pteGetFrame_pteSetFrame (pte : BitVec 32) {frame : BitVec 32}
    (h : frame.toNat < 2 ^ 20) : pteGetFrame (pteSetFrame pte frame) = frame := by
  have hhigh : ∀ i, 20 ≤ i → frame.getLsbD i = false := fun i hi =>
    Nat.testBit_lt_two_pow (lt_of_lt_of_le h (Nat.pow_le_pow_right (by omega) hi))
  have hlow : ∀ i < 20, (0xFFFFF#32).getLsbD i = true := by decide
  apply BitVec.eq_of_getLsbD_eq
  intro i hi
  simp only [pteGetFrame, pteSetFrame, BitVec.getLsbD_ushiftRight, BitVec.getLsbD_and,
    BitVec.getLsbD_or, BitVec.getLsbD_not, BitVec.getLsbD_shiftLeft]
  by_cases h20 : i < 20
  · have h32 : 12 + i < 32 := by omega
    rw [getLsbD_pteFrameMask h32]
    simp [h32, hlow i h20]
  · rw [hhigh i (by omega), BitVec.getLsbD_of_ge pteFrameMask _ (by omega), Bool.and_false]

theorem pteIsPresent_iff (pte : BitVec 32) : pteIsPresent pte = true ↔ pte.getLsbD 0 = true := by
  have h := Bitmap.and_one_shiftLeft_eq_zero (x := pte) (j := 0) (by omega)
  simp only [pteIsPresent, decide_eq_true_eq]
  rw [ne_eq, show pte &&& ptePresent = 0 ↔ pte.getLsbD 0 = false from h, Bool.not_eq_false]

theorem getLsbD_zero_pteSetFrame (pte frame : BitVec 32) :
    (pteSetFrame pte frame).getLsbD 0 = pte.getLsbD 0 := by
  simp only [pteSetFrame, BitVec.getLsbD_or, BitVec.getLsbD_and, BitVec.getLsbD_not,
    getLsbD_pteFrameMask (show 0 < 32 by omega), BitVec.getLsbD_shiftLeft]
  simp

/-! ## Allocation -/

/-- `alloc_frame` (paging.c:62–83) on the entry `page`. -/
def allocFrame (frames : Frames) (page : BitVec 32) (iskernel writeable : Bool) :
    Except Stop (Frames × BitVec 32) :=
  if pteGetFrame page ≠ 0 then .ok (frames, page)
  else
    let idx := firstFrame frames
    if idx = -1 then .error .noFreeFrames
    else
      match setFrame frames (idx * 0x1000) with
      | .error e => .error e
      | .ok frames =>
        let page := page ||| ptePresent
        let page := if writeable then page ||| pteReadWrite else page
        let page := if iskernel then page else page ||| pteUserSupervisor
        .ok (frames, pteSetFrame page idx)

/-- `free_frame` (paging.c:85–92). -/
def freeFrame (frames : Frames) (page : BitVec 32) : Except Stop (Frames × BitVec 32) :=
  let frame := pteGetFrame page
  if frame = 0 then .ok (frames, page)
  else
    match clearFrame frames (frame * 0x1000) with
    | .error e => .error e
    | .ok frames => .ok (frames, 0)

/-- The entry that `alloc_frame` leaves. -/
def allocatedPte (page : BitVec 32) (iskernel writeable : Bool) (n : ℕ) : BitVec 32 :=
  let page := page ||| ptePresent
  let page := if writeable then page ||| pteReadWrite else page
  let page := if iskernel then page else page ||| pteUserSupervisor
  pteSetFrame page (BitVec.ofNat 32 n)

theorem pteGetFrame_allocatedPte (page : BitVec 32) (iskernel writeable : Bool) {n : ℕ}
    (hn : n < nframes) : (pteGetFrame (allocatedPte page iskernel writeable n)).toNat = n := by
  have hn' : n < 16384 := hn
  have htoNat : (BitVec.ofNat 32 n).toNat = n := by
    rw [BitVec.toNat_ofNat, Nat.mod_eq_of_lt (by omega)]
  rw [allocatedPte, pteGetFrame_pteSetFrame _ (by rw [htoNat]; omega), htoNat]

theorem pteIsPresent_allocatedPte (page : BitVec 32) (iskernel writeable : Bool) (n : ℕ) :
    pteIsPresent (allocatedPte page iskernel writeable n) = true := by
  rw [pteIsPresent_iff, allocatedPte, getLsbD_zero_pteSetFrame]
  cases iskernel <;> cases writeable <;> simp [ptePresent]

/-- `alloc_frame` on an entry whose frame field is zero takes the first free frame. -/
theorem allocFrame_eq (frames : Frames) {page : BitVec 32} (iskernel writeable : Bool)
    (h : pteGetFrame page = 0) :
    allocFrame frames page iskernel writeable =
      match Bitmap.firstZero frames (bitsetIndex nframes) with
      | none => .error .noFreeFrames
      | some n => .ok (Bitmap.set frames n, allocatedPte page iskernel writeable n) := by
  rw [allocFrame, if_neg (by simpa using h), firstFrame]
  cases hfirst : Bitmap.firstZero frames (bitsetIndex nframes) with
  | none => rfl
  | some n =>
    have hn : n < 16384 := (Bitmap.firstZero_eq_some hfirst).1
    have haddr : (BitVec.ofNat 32 n * 0x1000).toNat = n * 0x1000 := by
      rw [BitVec.toNat_mul, BitVec.toNat_ofNat]
      show n % 2 ^ 32 * 0x1000 % 2 ^ 32 = n * 0x1000
      omega
    have hne : BitVec.ofNat 32 n ≠ -1 := by
      intro he
      have := congrArg BitVec.toNat he
      rw [BitVec.toNat_ofNat, show (-1 : BitVec 32).toNat = 4294967295 from rfl] at this
      omega
    simp only [if_neg hne, setFrame_eq, haddr, Nat.mul_div_cancel n (show 0 < 0x1000 by omega)]
    rw [if_pos (show n < nframes from hn)]
    rfl

/-- `free_frame` on an entry whose frame field is not zero clears that frame. -/
theorem freeFrame_eq (frames : Frames) {page : BitVec 32} (h : pteGetFrame page ≠ 0)
    (hlt : (pteGetFrame page).toNat < nframes) :
    freeFrame frames page = .ok (Bitmap.clear frames (pteGetFrame page).toNat, 0) := by
  have hlt' : (pteGetFrame page).toNat < 16384 := hlt
  have haddr : (pteGetFrame page * 0x1000).toNat = (pteGetFrame page).toNat * 0x1000 := by
    rw [BitVec.toNat_mul]
    show (pteGetFrame page).toNat * 0x1000 % 2 ^ 32 = (pteGetFrame page).toNat * 0x1000
    omega
  simp only [freeFrame, if_neg h, clearFrame_eq, haddr,
    Nat.mul_div_cancel _ (show 0 < 0x1000 by omega), if_pos hlt]

/-! ## Runs -/

section Runs

variable {ι : Type*} [DecidableEq ι]

/-- The bitmap and the page table entries. -/
structure Pages (ι : Type*) where
  frames : Frames
  pte : ι → BitVec 32

/-- The empty bitmap, and entries that are all zero. -/
def Pages.empty : Pages ι := ⟨fun _ => 0, fun _ => 0⟩

inductive Call (ι : Type*)
  | allocFrame (page : ι) (iskernel writeable : Bool)
  | freeFrame (page : ι)
deriving DecidableEq

def Call.page : Call ι → ι
  | .allocFrame page _ _ => page
  | .freeFrame page => page

def Pages.put (s : Pages ι) (page : ι) (r : Frames × BitVec 32) : Pages ι :=
  ⟨r.1, Function.update s.pte page r.2⟩

def step (s : Pages ι) : Call ι → Except Stop (Pages ι)
  | .allocFrame page iskernel writeable =>
    (allocFrame s.frames (s.pte page) iskernel writeable).map (s.put page)
  | .freeFrame page => (freeFrame s.frames (s.pte page)).map (s.put page)

def run (s : Pages ι) (calls : List (Call ι)) : Except Stop (Pages ι) := calls.foldlM step s

/-- The entry of `p` is present and holds frame `f`. -/
def Holds (s : Pages ι) (p : ι) (f : ℕ) : Prop :=
  pteIsPresent (s.pte p) = true ∧ (pteGetFrame (s.pte p)).toNat = f

/-- Bitmap and entries agree, and an entry that is not zero holds a frame. -/
structure Agree (s : Pages ι) : Prop where
  bit_iff : ∀ f < nframes, Bitmap.get s.frames f = true ↔ ∃ p, Holds s p f
  unique : ∀ p q f, Holds s p f → Holds s q f → p = q
  pte : ∀ p, s.pte p = 0 ∨ ∃ f < nframes, Holds s p f

theorem holds_put (s : Pages ι) (p q : ι) (r : Frames × BitVec 32) (f : ℕ) :
    Holds (s.put p r) q f ↔
      if q = p then pteIsPresent r.2 = true ∧ (pteGetFrame r.2).toNat = f else Holds s q f := by
  unfold Holds Pages.put
  by_cases h : q = p
  · subst h
    simp
  · simp [h]

theorem put_self (s : Pages ι) (p : ι) : s.put p (s.frames, s.pte p) = s := by
  simp [Pages.put]

omit [DecidableEq ι] in
theorem not_holds_of_zero {s : Pages ι} {p : ι} (h : s.pte p = 0) (f : ℕ) : ¬ Holds s p f := by
  rintro ⟨hpresent, -⟩
  rw [h] at hpresent
  exact absurd hpresent (by decide)

omit [DecidableEq ι] in
theorem agree_empty : Agree (Pages.empty : Pages ι) := by
  have hnone : ∀ p f, ¬ Holds (Pages.empty : Pages ι) p f := fun p f => not_holds_of_zero rfl f
  refine ⟨?_, fun p q f hp => absurd hp (hnone p f), fun p => .inl rfl⟩
  intro f _
  constructor
  · intro hbit
    simp [Pages.empty, Bitmap.get] at hbit
  · rintro ⟨p, hp⟩
    exact absurd hp (hnone p f)

omit [DecidableEq ι] in
theorem Agree.pte_eq_zero {s : Pages ι} (h : Agree s) {p : ι} (hclear : ¬ Holds s p 0)
    (hframe : pteGetFrame (s.pte p) = 0) : s.pte p = 0 := by
  rcases h.pte p with hzero | ⟨f, -, hpresent, -⟩
  · exact hzero
  · exact absurd ⟨hpresent, by rw [hframe]; rfl⟩ hclear

/-- Setting the bit of a free frame changes the bitmap. -/
theorem set_ne_self {frames : Frames} {n : ℕ} (h : Bitmap.get frames n = false) :
    Bitmap.set frames n ≠ frames := by
  intro he
  have hset : Bitmap.get (Bitmap.set frames n) n = true := by
    rw [Bitmap.get_set (by omega), if_pos rfl]
  rw [he, h] at hset
  contradiction

/-- A free frame goes to an entry that is zero. -/
theorem Agree.put_alloc {s : Pages ι} (h : Agree s) {p : ι} (hp : s.pte p = 0) {n : ℕ}
    (hn : n < nframes) (hfree : Bitmap.get s.frames n = false) {pte : BitVec 32}
    (hpresent : pteIsPresent pte = true) (hframe : (pteGetFrame pte).toNat = n) :
    Agree (s.put p (Bitmap.set s.frames n, pte)) := by
  have hfree' : ∀ q, ¬ Holds s q n := by
    intro q hq
    rw [(h.bit_iff n hn).mpr ⟨q, hq⟩] at hfree
    contradiction
  have hholds : ∀ q f, Holds (s.put p (Bitmap.set s.frames n, pte)) q f ↔
      if q = p then n = f else Holds s q f := by
    intro q f
    simp only [holds_put, hpresent, hframe, true_and]
  refine ⟨?_, ?_, ?_⟩
  · intro f hf
    show Bitmap.get (Bitmap.set s.frames n) f = true ↔ _
    rw [Bitmap.get_set (by omega)]
    by_cases hfn : f = n
    · rw [if_pos hfn]
      exact ⟨fun _ => ⟨p, by rw [hholds, if_pos rfl, hfn]⟩, fun _ => rfl⟩
    · rw [if_neg hfn, h.bit_iff f hf]
      constructor
      · rintro ⟨q, hq⟩
        have hqp : q ≠ p := by
          rintro rfl
          exact not_holds_of_zero hp f hq
        exact ⟨q, by rwa [hholds, if_neg hqp]⟩
      · rintro ⟨q, hq⟩
        rw [hholds] at hq
        split_ifs at hq with hqp
        · exact absurd hq.symm hfn
        · exact ⟨q, hq⟩
  · intro q q' f hq hq'
    rw [hholds] at hq hq'
    split_ifs at hq hq' with hqp hqp' hqp'
    · rw [hqp, hqp']
    · exact absurd (hq ▸ hq') (hfree' q')
    · exact absurd (hq' ▸ hq) (hfree' q)
    · exact h.unique q q' f hq hq'
  · intro q
    by_cases hqp : q = p
    · exact .inr ⟨n, hn, by rw [hholds, if_pos hqp]⟩
    · rcases h.pte q with hzero | ⟨f, hf, hq⟩
      · left
        simpa [Pages.put, hqp] using hzero
      · exact .inr ⟨f, hf, by rwa [hholds, if_neg hqp]⟩

/-- The entry that holds frame `n` gives it back. -/
theorem Agree.put_free {s : Pages ι} (h : Agree s) {p : ι} {n : ℕ} (hp : Holds s p n) :
    Agree (s.put p (Bitmap.clear s.frames n, 0)) := by
  have hholds : ∀ q f, Holds (s.put p (Bitmap.clear s.frames n, 0)) q f ↔
      q ≠ p ∧ Holds s q f := by
    intro q f
    have hzero : pteIsPresent 0#32 = false := by decide
    by_cases hqp : q = p
    · simp [holds_put, hqp, hzero]
    · simp [holds_put, hqp]
  refine ⟨?_, ?_, ?_⟩
  · intro f hf
    show Bitmap.get (Bitmap.clear s.frames n) f = true ↔ _
    rw [Bitmap.get_clear (by omega)]
    by_cases hfn : f = n
    · rw [if_pos hfn]
      refine ⟨fun hfalse => absurd hfalse (by decide), ?_⟩
      rintro ⟨q, hq⟩
      obtain ⟨hqp, hq⟩ := (hholds q f).mp hq
      exact absurd (h.unique q p n (hfn ▸ hq) hp) hqp
    · rw [if_neg hfn, h.bit_iff f hf]
      constructor
      · rintro ⟨q, hq⟩
        have hqp : q ≠ p := by
          rintro rfl
          exact hfn (hq.2.symm.trans hp.2)
        exact ⟨q, (hholds q f).mpr ⟨hqp, hq⟩⟩
      · rintro ⟨q, hq⟩
        exact ⟨q, ((hholds q f).mp hq).2⟩
  · intro q q' f hq hq'
    exact h.unique q q' f ((hholds q f).mp hq).2 ((hholds q' f).mp hq').2
  · intro q
    by_cases hqp : q = p
    · left
      simp [Pages.put, hqp]
    · rcases h.pte q with hzero | ⟨f, hf, hq⟩
      · left
        simpa [Pages.put, hqp] using hzero
      · exact .inr ⟨f, hf, (hholds q f).mpr ⟨hqp, hq⟩⟩

/-- A call on an entry that does not hold frame 0 keeps bitmap and entries in agreement. -/
theorem Agree.step {s s' : Pages ι} (h : Agree s) {c : Call ι} (hclear : ¬ Holds s c.page 0)
    (hstep : step s c = .ok s') : Agree s' := by
  cases c with
  | allocFrame p iskernel writeable =>
    by_cases hframe : pteGetFrame (s.pte p) = 0
    · rw [I386.step, allocFrame_eq _ _ _ hframe] at hstep
      split at hstep
      · cases hstep
      · rename_i n hfirst
        obtain ⟨hn, hfree, -⟩ := Bitmap.firstZero_eq_some hfirst
        cases hstep
        exact h.put_alloc (h.pte_eq_zero hclear hframe) hn hfree
          (pteIsPresent_allocatedPte _ _ _ _) (pteGetFrame_allocatedPte _ _ _ hn)
    · rw [I386.step, allocFrame, if_pos hframe] at hstep
      cases hstep
      rwa [put_self]
  | freeFrame p =>
    by_cases hframe : pteGetFrame (s.pte p) = 0
    · rw [I386.step, freeFrame, if_pos hframe] at hstep
      cases hstep
      rwa [put_self]
    · rcases h.pte p with hzero | ⟨f, hf, hpresent, hfeq⟩
      · rw [hzero] at hframe
        exact absurd rfl hframe
      · rw [I386.step, freeFrame_eq _ hframe (by rwa [hfeq]), hfeq] at hstep
        cases hstep
        exact h.put_free ⟨hpresent, hfeq⟩

/-- No call of the run is made on an entry that holds frame 0. -/
def AvoidsFrameZero : Pages ι → List (Call ι) → Prop
  | _, [] => True
  | s, c :: cs => ¬ Holds s c.page 0 ∧ ∀ t, step s c = .ok t → AvoidsFrameZero t cs

theorem Agree.run {s s' : Pages ι} (h : Agree s) {calls : List (Call ι)}
    (havoid : AvoidsFrameZero s calls) (hrun : run s calls = .ok s') : Agree s' := by
  induction calls generalizing s with
  | nil =>
    cases hrun
    exact h
  | cons c calls ih =>
    rw [I386.run, List.foldlM_cons] at hrun
    obtain ⟨hclear, hrest⟩ := havoid
    cases hstep : I386.step s c with
    | error e =>
      rw [hstep] at hrun
      cases hrun
    | ok t =>
      rw [hstep] at hrun
      exact ih (h.step hclear hstep) (hrest t hstep) hrun

/-- `alloc_frame` leaves an entry alone that holds a frame other than 0. -/
theorem step_alloc_held_iff {s : Pages ι} {p : ι} {f : ℕ} (h : Holds s p f)
    (iskernel writeable : Bool) :
    step s (.allocFrame p iskernel writeable) = .ok s ↔ ¬ Holds s p 0 := by
  constructor
  · intro hstep hzero
    have hframe : pteGetFrame (s.pte p) = 0 := BitVec.eq_of_toNat_eq hzero.2
    rw [step, allocFrame_eq _ _ _ hframe] at hstep
    split at hstep
    · cases hstep
    · -- the first free frame replaces frame 0
      rename_i n hfirst
      obtain ⟨hn, hfree, -⟩ := Bitmap.firstZero_eq_some hfirst
      exact set_ne_self hfree (congrArg Pages.frames (Except.ok.inj hstep))
  · intro hzero
    have hframe : pteGetFrame (s.pte p) ≠ 0 := fun he => hzero ⟨h.1, by rw [he]; rfl⟩
    rw [step, allocFrame, if_pos hframe]
    exact congrArg Except.ok (put_self s p)

/-- `free_frame` undoes `alloc_frame` on a zero entry, unless the frame was frame 0. -/
theorem step_free_alloc_iff {s s' : Pages ι} {p : ι} (h : s.pte p = 0) {iskernel writeable : Bool}
    (halloc : step s (.allocFrame p iskernel writeable) = .ok s') :
    step s' (.freeFrame p) = .ok s ↔ ¬ Holds s' p 0 := by
  rw [step, allocFrame_eq _ _ _ (by rw [h]; rfl)] at halloc
  split at halloc
  · cases halloc
  · rename_i n hfirst
    obtain ⟨hn, hfree, -⟩ := Bitmap.firstZero_eq_some hfirst
    have hn' : n < nframes := hn
    cases halloc
    have hframe := pteGetFrame_allocatedPte (s.pte p) iskernel writeable hn'
    have hpresent := pteIsPresent_allocatedPte (s.pte p) iskernel writeable n
    generalize allocatedPte (s.pte p) iskernel writeable n = pte at *
    have hpte : (s.put p (Bitmap.set s.frames n, pte)).pte p = pte := by simp [Pages.put]
    rw [Holds, hpte, hframe, and_iff_right hpresent, step, hpte]
    constructor
    · intro hstep hzero
      have hframe' : pteGetFrame pte = 0 := BitVec.eq_of_toNat_eq (hframe.trans hzero)
      rw [freeFrame, if_pos hframe'] at hstep
      exact set_ne_self hfree (congrArg Pages.frames (Except.ok.inj hstep))
    · intro hne
      have hframe' : pteGetFrame pte ≠ 0 := by
        intro he
        rw [he] at hframe
        exact hne hframe.symm
      rw [freeFrame_eq _ hframe' (by rwa [hframe]), hframe]
      have hclear : Bitmap.clear (Bitmap.set s.frames n) n = s.frames :=
        Bitmap.clear_set (by omega) hfree
      show Except.ok _ = Except.ok s
      rw [Pages.put, Pages.put]
      simp only [hclear, Function.update_idem]
      rw [← h, Function.update_eq_self]

/-- In every run from the empty bitmap and zero entries without a call on the holder of
    frame 0, bitmap and entries agree, no frame is held twice, and the next call does what
    it should exactly if it is not on the holder of frame 0: `alloc_frame` on an entry that
    holds a frame changes nothing, and `free_frame` undoes `alloc_frame`. -/
theorem frames_agree (calls : List (Call ι)) (s : Pages ι)
    (hrun : run Pages.empty calls = .ok s) (havoid : AvoidsFrameZero Pages.empty calls) :
    (∀ f < nframes, Bitmap.get s.frames f = true ↔ ∃ p, Holds s p f) ∧
    (∀ p q f, Holds s p f → Holds s q f → p = q) ∧
    (∀ p f iskernel writeable, Holds s p f →
      (step s (.allocFrame p iskernel writeable) = .ok s ↔ ¬ Holds s p 0)) ∧
    (∀ p iskernel writeable s', s.pte p = 0 →
      step s (.allocFrame p iskernel writeable) = .ok s' →
      (step s' (.freeFrame p) = .ok s ↔ ¬ Holds s' p 0)) := by
  have hagree := agree_empty.run havoid hrun
  refine ⟨hagree.bit_iff, hagree.unique, ?_, ?_⟩
  · intro p f iskernel writeable hheld
    exact step_alloc_held_iff hheld iskernel writeable
  · intro p iskernel writeable s' hzero halloc
    exact step_free_alloc_iff hzero halloc

end Runs

/-- Two entries are given a frame each, the second gives its frame back. -/
theorem frames_agree_two_pages :
    ∃ s : Pages Bool,
      run Pages.empty [.allocFrame false true true, .allocFrame true false true,
        .freeFrame true] = .ok s ∧
      (∀ f < nframes, Bitmap.get s.frames f = true ↔ ∃ p, Holds s p f) ∧
      (∀ p q f, Holds s p f → Holds s q f → p = q) := by
  refine ⟨_, rfl, ?_⟩
  have h := frames_agree
    ([.allocFrame false true true, .allocFrame true false true, .freeFrame true] : List (Call Bool))
    _ rfl ?_
  · exact ⟨h.1, h.2.1⟩
  · refine ⟨not_holds_of_zero rfl 0, ?_⟩
    rintro _ ⟨⟩
    refine ⟨not_holds_of_zero rfl 0, ?_⟩
    rintro _ ⟨⟩
    refine ⟨?_, fun _ _ => trivial⟩
    rintro ⟨-, hframe⟩
    exact absurd hframe (by decide)

/-- A second `alloc_frame` on the first entry served replaces frame 0, whose bit stays set
    with nobody holding it; and `free_frame` does not give frame 0 back. -/
theorem frame_zero_lost :
    (∃ s : Pages Unit,
      run Pages.empty [.allocFrame () true true, .allocFrame () true true] = .ok s ∧
      Bitmap.get s.frames 0 = true ∧ ¬ ∃ p, Holds s p 0) ∧
    (∃ s : Pages Unit,
      run Pages.empty [.allocFrame () true true, .freeFrame ()] = .ok s ∧
      Bitmap.get s.frames 0 = true) := by
  refine ⟨⟨_, rfl, by decide, ?_⟩, ⟨_, rfl, by decide⟩⟩
  rintro ⟨p, -, hframe⟩
  exact absurd hframe (by cases p; decide)

end HorizonOS.I386
