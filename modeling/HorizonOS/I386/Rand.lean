import HorizonOS.Libc.Rand

/-!
# The random numbers of the i386 kernel

The generator of arch/i386/common/rand.c, an xorshift generator of 32 bits that the mazes draw from.

* `randomNext_bijective`, `randomNext_eq_zero_iff`: its step permutes the states and maps only zero
  to zero.
* `generators_permute`: the same for both generators, this one and that of libc, and that neither
  gets stuck at zero once it is seeded.
-/

namespace HorizonOS.I386.Rand

open HorizonOS.Lib

/-! ## Model

The functions take and return `rng_state` (rand.c:4). -/

/-- `seed_rng(seed)` (rand.c:6–9). -/
def seedRng (seed : BitVec 32) : BitVec 32 := if seed ≠ 0 then seed else 1

/-- `random_next()` (rand.c:11–18): the number and the state. -/
def randomNext (rngState : BitVec 32) : BitVec 32 × BitVec 32 :=
  let x := rngState
  let x := x ^^^ x <<< 13
  let x := x ^^^ x >>> 17
  let x := x ^^^ x <<< 5
  (x, x)

/-- `random_range(max)` (rand.c:20–25). -/
def randomRange (rngState max : BitVec 32) : BitVec 32 × BitVec 32 :=
  if max = 0 then (0, rngState)
  else
    let (x, rngState) := randomNext rngState
    (x % max, rngState)

/-- The functions that return a random number. -/
inductive Draw
  | randomNext
  | randomRange (max : BitVec 32)

/-- The state after a draw. -/
def draw (rngState : BitVec 32) : Draw → BitVec 32
  | .randomNext => (Rand.randomNext rngState).2
  | .randomRange max => (Rand.randomRange rngState max).2

/-! ## The generator -/

theorem randomNext_bijective : Function.Bijective fun x => (randomNext x).2 :=
  Xorshift.step_bijective (a := 13) (b := 17) (c := 5) (by decide) (by decide) (by decide)

theorem randomNext_eq_zero_iff {x : BitVec 32} : (randomNext x).2 = 0 ↔ x = 0 :=
  Xorshift.step_eq_zero_iff (a := 13) (b := 17) (c := 5) (by decide) (by decide) (by decide)

theorem seedRng_ne_zero (seed : BitVec 32) : seedRng seed ≠ 0 := by
  unfold seedRng
  split_ifs with h
  · exact h
  · decide

theorem draw_ne_zero {rngState : BitVec 32} (h : rngState ≠ 0) (d : Draw) :
    draw rngState d ≠ 0 := by
  cases d with
  | randomNext => exact mt randomNext_eq_zero_iff.mp h
  | randomRange max =>
    rw [draw, randomRange]
    split_ifs
    · exact h
    · exact mt randomNext_eq_zero_iff.mp h

theorem draws_ne_zero {rngState : BitVec 32} (h : rngState ≠ 0) (draws : List Draw) :
    draws.foldl draw rngState ≠ 0 := by
  induction draws generalizing rngState with
  | nil => exact h
  | cons d draws ih => exact ih (draw_ne_zero h d)

/-- **Both generators permute their states** and map only zero to zero. So once one of them is
    seeded, by whatever number, its state is not zero after any number of draws, whichever functions
    make them. -/
theorem generators_permute :
    (∀ hasRdrand, (Function.Bijective fun x => (Libc.xorshift64 ⟨hasRdrand, x⟩).2.rngState) ∧
      ∀ x, (Libc.xorshift64 ⟨hasRdrand, x⟩).2.rngState = 0 ↔ x = 0) ∧
    ((Function.Bijective fun x => (randomNext x).2) ∧ ∀ x, (randomNext x).2 = 0 ↔ x = 0) ∧
    (∀ rng seed, (Libc.srand rng seed).rngState ≠ 0 ∧
      ∀ draws : List (Libc.Draw × (ℕ → Option (BitVec 64))),
        (draws.foldl (fun rng d => rng.draw d.2 d.1) (Libc.srand rng seed)).rngState ≠ 0) ∧
    ∀ seed, seedRng seed ≠ 0 ∧ ∀ draws : List Draw, draws.foldl draw (seedRng seed) ≠ 0 := by
  refine ⟨fun hasRdrand => ⟨Libc.xorshift_bijective, fun x => Libc.xorshift_eq_zero_iff⟩,
    ⟨randomNext_bijective, fun x => randomNext_eq_zero_iff⟩, fun rng seed => ?_, fun seed => ?_⟩
  · have hseeded := Libc.srand_seeded rng seed
    exact ⟨hseeded, fun draws => (hseeded.draws draws).1⟩
  · exact ⟨seedRng_ne_zero seed, draws_ne_zero (seedRng_ne_zero seed)⟩

end HorizonOS.I386.Rand
