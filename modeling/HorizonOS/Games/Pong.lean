import HorizonOS.Libc.Rand

/-!
# Pong

The game of kernel/games/pong.c: the input, the motion, and the events at the walls, the paddles and
behind the players (lines 77–180 and 217–229). "Speeds are in pixels per second; multiply by
delta_ms then divide by 1000": every frame divides anew and drops the remainder, so what the ball
has moved depends on how the time was cut into frames.

`int` products are taken modulo `2^32`. Positions are exact: they would have to pass `2^31` pixels to
overflow.

* `pongUpdate_of_quiet`: a frame without an event only moves the objects.
* `run_deficit`: the way that is lost in a run of such frames is the sum of the remainders.
* `ball_motion_iff`: so it is less than a pixel exactly if the remainders add up to less than 1000.
-/

namespace HorizonOS.Games

open HorizonOS.Libc

/-! ## Model -/

/-- `struct obj` (games/pong.h). -/
structure Obj where
  x : ℤ
  y : ℤ
  width : ℤ
  height : ℤ
  velX : ℤ
  velY : ℤ
deriving DecidableEq

/-- The sounds that `ac97_play` is called with. -/
inductive Sound
  | wall
  | paddle
  | score
deriving DecidableEq

/-- The variables of pong.c (lines 37–45), the generator, and the sounds so far. -/
structure Pong where
  lastEvent : BitVec 32
  screenWidth : ℤ
  screenHeight : ℤ
  lastPlayerScored : ℤ
  player1 : Obj
  player2 : Obj
  ball : Obj
  scorePlayer1 : ℤ
  scorePlayer2 : ℤ
  rng : Rng
  played : List Sound
deriving DecidableEq

/-- `BALL_MAX_SPEED` (pong.c:26). -/
def ballMaxSpeed : BitVec 32 := 500

/-- `PLAYER_SPEED` (pong.c:24). -/
def playerSpeed : ℤ := 1000

/-- `EVENT_DEBOUNCE_TICKS` (pong.c:32). -/
def eventDebounceTicks : BitVec 32 := 10

/-- `pong_init(width, height)` (pong.c:49–75); `PADDLE_WIDTH` and `BALL_RADIUS` are 10,
    `PADDLE_HEIGHT` is 100. -/
def pongInit (width height : ℤ) (s : Pong) : Pong :=
  { s with
    screenWidth := width
    screenHeight := height
    player1 := ⟨0, height.tdiv 2 - (100 : ℤ).tdiv 2, 10, 100, 0, 0⟩
    player2 := ⟨width - 10, height.tdiv 2 - (100 : ℤ).tdiv 2, 10, 100, 0, 0⟩
    ball := ⟨width.tdiv 2 - (10 : ℤ).tdiv 2, height.tdiv 2 - (10 : ℤ).tdiv 2, 10, 10, 0, 0⟩ }

/-- What a frame reads from outside: the keys, the timer at each of the five places that may read
    it, and the `rdrand` instruction at the two draws of `reset`. -/
structure Inputs where
  keyW : Bool
  keyS : Bool
  keyUp : Bool
  keyDown : Bool
  nowWall : BitVec 32
  nowPlayer1 : BitVec 32
  nowPlayer2 : BitVec 32
  nowScore1 : BitVec 32
  nowScore2 : BitVec 32
  rdrandX : ℕ → Option (BitVec 64)
  rdrandY : ℕ → Option (BitVec 64)

/-- `pong_handle_input()` (pong.c:77–96). -/
def pongHandleInput (inp : Inputs) (s : Pong) : Pong :=
  let velY1 := if inp.keyS then playerSpeed else if inp.keyW then -playerSpeed else 0
  let velY2 := if inp.keyDown then playerSpeed else if inp.keyUp then -playerSpeed else 0
  { s with player1 := { s.player1 with velY := velY1 }, player2 := { s.player2 with velY := velY2 } }

/-- `rects_overlap(a, b)` (pong.c:98–101). -/
def rectsOverlap (a b : Obj) : Bool :=
  a.x < b.x + b.width ∧ a.x + a.width > b.x ∧ a.y < b.y + b.height ∧ a.y + a.height > b.y

/-- The test of the three handlers: "events must happen at least 10 ms apart". -/
def due (s : Pong) (now : BitVec 32) : Bool := eventDebounceTicks ≤ now - s.lastEvent

/-- `reset()` (pong.c:217–229). The bounds are converted to `uint32_t`, the result to `int`. -/
def reset (inp : Inputs) (s : Pong) : Pong :=
  let (velX, rng) :=
    if s.lastPlayerScored = 1 then randRange inp.rdrandX s.rng 1 ballMaxSpeed
    else if s.lastPlayerScored = 2 then
      let (v, rng) := randRange inp.rdrandX s.rng 1 ballMaxSpeed
      (-v, rng)
    else randRange inp.rdrandX s.rng (-ballMaxSpeed) ballMaxSpeed
  let (velY, rng) := randRange inp.rdrandY rng (-ballMaxSpeed) ballMaxSpeed
  { s with
    ball := { s.ball with
      x := s.screenWidth.tdiv 2 - s.ball.width.tdiv 2
      y := s.screenHeight.tdiv 2 - s.ball.height.tdiv 2
      velX := velX.toInt
      velY := velY.toInt }
    rng := rng }

/-- `pong_on_player_hit(paddle)` (pong.c:103–119). -/
def pongOnPlayerHit (now : BitVec 32) (paddle : Obj) (s : Pong) : Pong :=
  if due s now then
    let velX := if paddle.x < s.screenWidth.tdiv 2 then |s.ball.velX| else -|s.ball.velX|
    { s with
      lastEvent := now
      ball := { s.ball with velX := velX, velY := s.ball.velY + paddle.velY.tdiv 2 }
      played := s.played ++ [.paddle] }
  else s

/-- `pong_on_wall_hit()` (pong.c:121–135). -/
def pongOnWallHit (now : BitVec 32) (s : Pong) : Pong :=
  if due s now then
    let velY := if s.ball.y ≤ 0 then |s.ball.velY|
      else if s.ball.y + s.ball.height ≥ s.screenHeight then -|s.ball.velY|
      else s.ball.velY
    { s with
      lastEvent := now
      ball := { s.ball with velY := velY }
      played := s.played ++ [.wall] }
  else s

/-- `pong_on_score(player)` (pong.c:137–153). -/
def pongOnScore (inp : Inputs) (now : BitVec 32) (player : ℤ) (s : Pong) : Pong :=
  if due s now then
    let s := { s with lastEvent := now, played := s.played ++ [.score] }
    let s := if player = 1 then { s with scorePlayer1 := s.scorePlayer1 + 1 } else s
    let s := if player = 2 then { s with scorePlayer2 := s.scorePlayer2 + 1 } else s
    reset inp s
  else s

/-- `vel * delta / 1000` in `int`. -/
def advance (vel delta : ℤ) : ℤ := ((vel * delta).bmod (2 ^ 32)).tdiv 1000

/-- The motion (pong.c:156–160). -/
def move (delta : ℤ) (s : Pong) : Pong :=
  { s with
    player1 := { s.player1 with y := s.player1.y + advance s.player1.velY delta }
    player2 := { s.player2 with y := s.player2.y + advance s.player2.velY delta }
    ball := { s.ball with
      x := s.ball.x + advance s.ball.velX delta
      y := s.ball.y + advance s.ball.velY delta } }

/-- The ball is at the upper or the lower wall (pong.c:162). -/
def atWall (s : Pong) : Bool := s.ball.y ≤ 0 ∨ s.ball.y + s.ball.height ≥ s.screenHeight

/-- The ball is behind the left player (pong.c:173). -/
def behindLeft (s : Pong) : Bool := s.ball.x + s.ball.width ≤ 0

/-- The ball is behind the right player (pong.c:177). -/
def behindRight (s : Pong) : Bool := s.ball.x - s.ball.width ≥ s.screenWidth

/-- `pong_update(delta)` (pong.c:155–180). -/
def pongUpdate (inp : Inputs) (delta : ℤ) (s : Pong) : Pong :=
  let s := move delta s
  let s := if atWall s then pongOnWallHit inp.nowWall s else s
  let s := if rectsOverlap s.ball s.player1 then pongOnPlayerHit inp.nowPlayer1 s.player1 s else s
  let s := if rectsOverlap s.ball s.player2 then pongOnPlayerHit inp.nowPlayer2 s.player2 s else s
  let s := if behindLeft s then pongOnScore inp inp.nowScore1 1 s else s
  if behindRight s then pongOnScore inp inp.nowScore2 2 s else s

/-- A frame: the input, then the update (pong.c:204–205). -/
def frame (s : Pong) (f : ℤ × Inputs) : Pong := pongUpdate f.2 f.1 (pongHandleInput f.2 s)

/-- No event fires in a state: each that is at hand comes too soon after the last one. -/
structure NoEvent (inp : Inputs) (s : Pong) : Prop where
  wall : atWall s → ¬due s inp.nowWall
  player1 : rectsOverlap s.ball s.player1 → ¬due s inp.nowPlayer1
  player2 : rectsOverlap s.ball s.player2 → ¬due s inp.nowPlayer2
  left : behindLeft s → ¬due s inp.nowScore1
  right : behindRight s → ¬due s inp.nowScore2

/-- No event fires in any frame of a run. -/
def Quiet : Pong → List (ℤ × Inputs) → Prop
  | _, [] => True
  | s, f :: fs => NoEvent f.2 (move f.1 (pongHandleInput f.2 s)) ∧ Quiet (frame s f) fs

/-! ## Frames without events -/

theorem pongUpdate_of_quiet {inp : Inputs} {delta : ℤ} {s : Pong} (h : NoEvent inp (move delta s)) :
    pongUpdate inp delta s = move delta s := by
  unfold pongUpdate
  generalize move delta s = m at h
  -- each handler leaves the state, so that the next test is made in the same one
  have hwall : (if atWall m then pongOnWallHit inp.nowWall m else m) = m := by
    split_ifs with hat
    · rw [pongOnWallHit, if_neg (h.wall hat)]
    · rfl
  have hhit : ∀ now paddle, (rectsOverlap m.ball paddle → ¬due m now) →
      (if rectsOverlap m.ball paddle then pongOnPlayerHit now paddle m else m) = m := by
    intro now paddle hdue
    split_ifs with hat
    · rw [pongOnPlayerHit, if_neg (hdue hat)]
    · rfl
  have hscore : ∀ now player (behind : Bool), (behind → ¬due m now) →
      (if behind then pongOnScore inp now player m else m) = m := by
    intro now player behind hdue
    split_ifs with hat
    · rw [pongOnScore, if_neg (hdue hat)]
    · rfl
  simp only [hwall, hhit _ _ h.player1, hhit _ _ h.player2, hscore _ _ _ h.left,
    hscore _ _ _ h.right]

/-- A run of frames. -/
def run (s : Pong) (fs : List (ℤ × Inputs)) : Pong := fs.foldl frame s

theorem run_ball {s : Pong} {fs : List (ℤ × Inputs)} (hquiet : Quiet s fs) :
    (run s fs).ball = { s.ball with
      x := s.ball.x + (fs.map fun f => advance s.ball.velX f.1).sum
      y := s.ball.y + (fs.map fun f => advance s.ball.velY f.1).sum } := by
  induction fs generalizing s with
  | nil => simp [run]
  | cons f fs ih =>
    obtain ⟨hnone, hquiet⟩ := hquiet
    have hframe : (frame s f).ball = { s.ball with
        x := s.ball.x + advance s.ball.velX f.1
        y := s.ball.y + advance s.ball.velY f.1 } := by
      rw [frame, pongUpdate_of_quiet hnone]
      rfl
    have hrun := ih hquiet
    rw [hframe] at hrun
    rw [run, List.foldl_cons]
    rw [run] at hrun
    rw [hrun]
    simp only [List.map_cons, List.sum_cons, add_assoc]

/-! ## What is lost -/

/-- The remainder that a frame drops. -/
def remainder (vel delta : ℤ) : ℤ := |vel| * delta % 1000

/-- The product fits into an `int`, and the division drops the remainder. -/
theorem advance_eq {vel delta : ℤ} (hvel : |vel| ≤ ballMaxSpeed.toNat)
    (hdelta : 0 ≤ delta ∧ delta ≤ 10 ^ 6) :
    1000 * advance vel delta = vel * delta - vel.sign * remainder vel delta := by
  have hbound : |vel * delta| ≤ 500 * 10 ^ 6 := by
    rw [abs_mul, abs_of_nonneg hdelta.1]
    exact mul_le_mul hvel hdelta.2 hdelta.1 (by decide)
  have hfits : (vel * delta).bmod (2 ^ 32) = vel * delta := by
    rw [abs_le] at hbound
    rw [Int.bmod_eq_of_le] <;> omega
  have hdiv := Int.mul_tdiv_add_tmod (vel * delta) 1000
  have hmod : (vel * delta).tmod 1000 = vel.sign * remainder vel delta := by
    unfold remainder
    rcases lt_trichotomy vel 0 with hneg | rfl | hpos
    · have hprod : vel * delta = -(|vel| * delta) := by
        rw [abs_of_neg hneg]
        ring
      rw [hprod, Int.neg_tmod, Int.sign_eq_neg_one_of_neg hneg, neg_one_mul,
        Int.tmod_eq_emod_of_nonneg (mul_nonneg (abs_nonneg vel) hdelta.1)]
    · simp
    · rw [Int.sign_eq_one_of_pos hpos, one_mul, abs_of_pos hpos,
        Int.tmod_eq_emod_of_nonneg (mul_nonneg hpos.le hdelta.1)]
  rw [advance, hfits, ← hmod]
  omega

/-- What is lost in a run of frames: all remainders have the sign of the speed. -/
theorem run_deficit {vel : ℤ} (hvel : |vel| ≤ ballMaxSpeed.toNat) {fs : List (ℤ × Inputs)}
    (hdelta : ∀ f ∈ fs, 0 ≤ f.1 ∧ f.1 ≤ 10 ^ 6) :
    1000 * (fs.map fun f => advance vel f.1).sum =
      vel * (fs.map Prod.fst).sum - vel.sign * (fs.map fun f => remainder vel f.1).sum := by
  induction fs with
  | nil => simp
  | cons f fs ih =>
    obtain ⟨hf, hdelta⟩ := List.forall_mem_cons.mp hdelta
    simp only [List.map_cons, List.sum_cons, mul_add, ih hdelta, advance_eq hvel hf]
    ring

/-- The distance from the exact way, in pixels. -/
theorem displacement_lt_one_iff {vel : ℤ} (hvel : |vel| ≤ ballMaxSpeed.toNat)
    {fs : List (ℤ × Inputs)} (hdelta : ∀ f ∈ fs, 0 ≤ f.1 ∧ f.1 ≤ 10 ^ 6) :
    |((fs.map fun f => advance vel f.1).sum : ℚ) - vel * (fs.map Prod.fst).sum / 1000| < 1 ↔
      (fs.map fun f => remainder vel f.1).sum < 1000 := by
  have hdeficit := run_deficit hvel hdelta
  have hnonneg : 0 ≤ (fs.map fun f => remainder vel f.1).sum := by
    refine List.sum_nonneg fun r hr => ?_
    obtain ⟨f, -, rfl⟩ := List.mem_map.mp hr
    exact Int.emod_nonneg _ (by decide)
  have hzero : vel = 0 → (fs.map fun f => remainder vel f.1).sum = 0 := by
    rintro rfl
    simp [remainder]
  generalize (fs.map fun f => advance vel f.1).sum = way at hdeficit
  generalize (fs.map fun f => remainder vel f.1).sum = lost at hdeficit hnonneg hzero
  generalize (fs.map Prod.fst).sum = time at hdeficit
  have hway : (way : ℚ) - vel * time / 1000 = -((vel.sign * lost : ℤ) : ℚ) / 1000 := by
    have hcast : (1000 : ℚ) * way = vel * time - ((vel.sign * lost : ℤ) : ℚ) := by
      exact_mod_cast hdeficit
    linarith
  have habs : |vel.sign * lost| = lost := by
    rcases eq_or_ne vel 0 with h0 | hne
    · rw [hzero h0, mul_zero, abs_zero]
    · rw [abs_mul, Int.abs_sign_of_ne_zero hne, one_mul, abs_of_nonneg hnonneg]
  rw [hway, abs_div, abs_neg, div_lt_one (by norm_num), abs_of_pos (by norm_num : (0 : ℚ) < 1000),
    ← Int.cast_abs, habs]
  exact_mod_cast Iff.rfl

/-- **When the motion does not depend on the frames.** In a run without events the ball stays within
    a pixel of the exact way if and only if the remainders add up to less than 1000 on both axes. -/
theorem ball_motion_iff {s : Pong} {fs : List (ℤ × Inputs)}
    (hx : |s.ball.velX| ≤ ballMaxSpeed.toNat) (hy : |s.ball.velY| ≤ ballMaxSpeed.toNat)
    (hdelta : ∀ f ∈ fs, 0 ≤ f.1 ∧ f.1 ≤ 10 ^ 6) (hquiet : Quiet s fs) :
    (|(((run s fs).ball.x - s.ball.x : ℤ) : ℚ) - s.ball.velX * (fs.map Prod.fst).sum / 1000| < 1 ∧
      |(((run s fs).ball.y - s.ball.y : ℤ) : ℚ) - s.ball.velY * (fs.map Prod.fst).sum / 1000| < 1) ↔
    (fs.map fun f => remainder s.ball.velX f.1).sum < 1000 ∧
      (fs.map fun f => remainder s.ball.velY f.1).sum < 1000 := by
  rw [run_ball hquiet]
  simp only [add_sub_cancel_left]
  rw [displacement_lt_one_iff hx hdelta, displacement_lt_one_iff hy hdelta]

/-- No key is pressed. -/
def idle (now : BitVec 32) : Inputs :=
  ⟨false, false, false, false, now, now, now, now, now, fun _ => none, fun _ => none⟩

/-- A round on a small screen with a ball of a given speed. -/
def round (velX velY : ℤ) : Pong :=
  let s := pongInit 640 480 ⟨0, 0, 0, 0, ⟨0, 0, 0, 0, 0, 0⟩, ⟨0, 0, 0, 0, 0, 0⟩, ⟨0, 0, 0, 0, 0, 0⟩,
    0, 0, ⟨false, 1⟩, []⟩
  { s with ball := { s.ball with velX := velX, velY := velY } }

/-- Frames of 16 ms at full speed to the right: nothing is lost. -/
theorem ball_motion_iff_full :
    let s := round 500 0
    let fs := [(16, idle 116), (16, idle 132)]
    |(((run s fs).ball.x - s.ball.x : ℤ) : ℚ) - s.ball.velX * (fs.map Prod.fst).sum / 1000| < 1 ∧
      |(((run s fs).ball.y - s.ball.y : ℤ) : ℚ) - s.ball.velY * (fs.map Prod.fst).sum / 1000| < 1 := by
  intro s fs
  refine (ball_motion_iff (by decide) (by decide) (by decide) ?_).mpr (by decide)
  refine ⟨⟨?_, ?_, ?_, ?_, ?_⟩, ⟨?_, ?_, ?_, ?_, ?_⟩, trivial⟩ <;> decide

/-- Two frames of 17 ms at full speed to the left: the ball moves 16 pixels, not 17. -/
theorem ball_motion_frames :
    let s := round (-500) (-500)
    let fs := [(17, idle 117), (17, idle 134)]
    Quiet s fs ∧ (run s fs).ball.x - s.ball.x = -16 ∧
      ¬|(((run s fs).ball.x - s.ball.x : ℤ) : ℚ) - s.ball.velX * (fs.map Prod.fst).sum / 1000| < 1 := by
  intro s fs
  have hway : (run s fs).ball.x - s.ball.x = -16 := by decide
  have hvel : s.ball.velX = -500 := by decide
  have htime : (fs.map Prod.fst).sum = 34 := by decide
  refine ⟨?_, hway, ?_⟩
  · refine ⟨⟨?_, ?_, ?_, ?_, ?_⟩, ⟨?_, ?_, ?_, ?_, ?_⟩, trivial⟩ <;> decide
  · rw [hway, hvel, htime]
    norm_num

end HorizonOS.Games
