import HorizonOS.Lib.Xorshift

/-!
# Random numbers

The generator of libc/rand.c: the `rdrand` instruction where there is one, and an xorshift generator
where there is none or it fails ten times. `rand_range` compares its bounds as unsigned words, so a
range from a negative number to one that is not is taken for an empty one.

* `xorshift_bijective`, `exists_randu_eq`: the xorshift generator mixes without loss, so every word
  comes up.
* `Seeded.draws`: no number of calls brings a seeded generator to zero.
* `randul_ne_zero`: a program on a processor without `rdrand` never gets zero.
* `randRange_of_lt`, `randRange_of_crossing`: what `rand_range` returns for signed bounds.
* `randRange_covers_iff`: it stays in the range and produces all of it exactly if the bounds have
  the same sign, or the range is `{-1}`.
-/

namespace HorizonOS.Libc

open HorizonOS.Lib

/-! ## Model -/

/-- `has_rdrand` and `rng_state` (rand.c:3–4). -/
structure Rng where
  hasRdrand : Bool
  rngState : BitVec 64
deriving DecidableEq

/-- `init_rand()` (rand.c:6–28) when `cpuid` answers `ecx` and `rdtsc` answers `hi:lo`. -/
def initRand (rng : Rng) (ecx lo hi : BitVec 32) : Rng :=
  let hasRdrand := (ecx >>> 30 &&& 1) = 1
  if hasRdrand then { rng with hasRdrand := true }
  else
    let rngState := hi.setWidth 64 <<< 32 ||| lo.setWidth 64
    { hasRdrand := false, rngState := if rngState = 0 then 1 else rngState }

/-- `srand(seed)` (rand.c:30–32). -/
def srand (rng : Rng) (seed : BitVec 32) : Rng :=
  { rng with rngState := if seed ≠ 0 then seed.setWidth 64 else 1 }

/-- The three shifts of `xorshift64` (rand.c:36–39). -/
def xorshift (x : BitVec 64) : BitVec 64 :=
  let x := x ^^^ x <<< 13
  let x := x ^^^ x >>> 7
  x ^^^ x <<< 17

/-- `xorshift64()` (rand.c:35–42). -/
def xorshift64 (rng : Rng) : BitVec 64 × Rng :=
  let x := xorshift rng.rngState
  (x, { rng with rngState := x })

/-- `rdrand64()` (rand.c:44–58). `rdrand i` is what the instruction delivers at the `i`-th attempt;
    `none` if it leaves the carry flag clear. -/
def rdrand64 (rdrand : ℕ → Option (BitVec 64)) (rng : Rng) : BitVec 64 × Rng :=
  match (List.range 10).findSome? rdrand with
  | some val => (val, rng)
  | none => xorshift64 rng

/-- `randul()` (rand.c:60–62). -/
def randul (rdrand : ℕ → Option (BitVec 64)) (rng : Rng) : BitVec 64 × Rng :=
  if rng.hasRdrand then rdrand64 rdrand rng else xorshift64 rng

/-- `randu()` (rand.c:64–66). -/
def randu (rdrand : ℕ → Option (BitVec 64)) (rng : Rng) : BitVec 32 × Rng :=
  let (val, rng) := randul rdrand rng
  (val.setWidth 32, rng)

/-- `randl()` (rand.c:68–70). -/
def randl (rdrand : ℕ → Option (BitVec 64)) (rng : Rng) : ℤ × Rng :=
  let (val, rng) := randul rdrand rng
  (val.toInt, rng)

/-- `rand()` (rand.c:72–74). -/
def rand (rdrand : ℕ → Option (BitVec 64)) (rng : Rng) : ℤ × Rng :=
  let (val, rng) := randu rdrand rng
  (val.toInt, rng)

/-- `rand_range(min, max)` (rand.c:76–81). -/
def randRange (rdrand : ℕ → Option (BitVec 64)) (rng : Rng) (min max : BitVec 32) :
    BitVec 32 × Rng :=
  if max ≤ min then (min, rng)
  else
    let (val, rng) := randu rdrand rng
    (min + val % (max - min), rng)

/-! ## The generator -/

theorem xorshift_bijective : Function.Bijective xorshift :=
  Xorshift.step_bijective (a := 13) (b := 7) (c := 17) (by decide) (by decide) (by decide)

theorem xorshift_eq_zero_iff {x : BitVec 64} : xorshift x = 0 ↔ x = 0 :=
  Xorshift.step_eq_zero_iff (a := 13) (b := 7) (c := 17) (by decide) (by decide) (by decide)

/-- Every word but zero comes up, from a state that is not zero. -/
theorem exists_xorshift_eq {y : BitVec 64} (hy : y ≠ 0) : ∃ x, x ≠ 0 ∧ xorshift x = y := by
  obtain ⟨x, rfl⟩ := xorshift_bijective.surjective y
  exact ⟨x, mt xorshift_eq_zero_iff.mpr hy, rfl⟩

/-- The xorshift generator is not stuck at zero. -/
def Seeded (rng : Rng) : Prop := rng.rngState ≠ 0

theorem srand_seeded (rng : Rng) (seed : BitVec 32) : Seeded (srand rng seed) := by
  unfold srand Seeded
  dsimp only
  split_ifs with h
  · intro h0
    have hnat := congrArg BitVec.toNat h0
    rw [BitVec.toNat_setWidth, Nat.mod_eq_of_lt (lt_trans seed.isLt (by decide))] at hnat
    exact h (BitVec.eq_of_toNat_eq hnat)
  · decide

/-- The functions of the generator that a program calls after `init_rand`. -/
inductive Draw
  | srand (seed : BitVec 32)
  | randul
  | randu
  | randl
  | rand
  | randRange (min max : BitVec 32)

/-- The generator after a call. -/
def Rng.draw (rng : Rng) (rdrand : ℕ → Option (BitVec 64)) : Draw → Rng
  | .srand seed => Libc.srand rng seed
  | .randul => (Libc.randul rdrand rng).2
  | .randu => (Libc.randu rdrand rng).2
  | .randl => (Libc.randl rdrand rng).2
  | .rand => (Libc.rand rdrand rng).2
  | .randRange min max => (Libc.randRange rdrand rng min max).2

/-- The generator after some calls. -/
def Rng.draws (rng : Rng) (draws : List (Draw × (ℕ → Option (BitVec 64)))) : Rng :=
  draws.foldl (fun rng d => rng.draw d.2 d.1) rng

theorem Seeded.randul {rng : Rng} (h : Seeded rng) (rdrand : ℕ → Option (BitVec 64)) :
    Seeded (Libc.randul rdrand rng).2 ∧ (Libc.randul rdrand rng).2.hasRdrand = rng.hasRdrand := by
  have hstep : Seeded (xorshift64 rng).2 := mt xorshift_eq_zero_iff.mp h
  unfold Libc.randul rdrand64
  split_ifs
  · split
    · exact ⟨h, rfl⟩
    · exact ⟨hstep, rfl⟩
  · exact ⟨hstep, rfl⟩

/-- Every call takes at most one number from `randul`. -/
theorem Seeded.draw {rng : Rng} (h : Seeded rng) (rdrand : ℕ → Option (BitVec 64)) (d : Draw) :
    Seeded (rng.draw rdrand d) ∧ (rng.draw rdrand d).hasRdrand = rng.hasRdrand := by
  cases d with
  | srand seed => exact ⟨srand_seeded rng seed, rfl⟩
  | randul | randu | randl | rand => exact h.randul rdrand
  | randRange min max =>
    rw [Rng.draw, randRange]
    split_ifs
    · exact ⟨h, rfl⟩
    · exact h.randul rdrand

theorem Seeded.draws {rng : Rng} (h : Seeded rng) (draws : List (Draw × (ℕ → Option (BitVec 64)))) :
    Seeded (rng.draws draws) ∧ (rng.draws draws).hasRdrand = rng.hasRdrand := by
  induction draws generalizing rng with
  | nil => exact ⟨h, rfl⟩
  | cons d draws ih =>
    obtain ⟨hseeded, hhas⟩ := h.draw d.2 d.1
    exact (ih hseeded).imp_right (·.trans hhas)

theorem initRand_seeded (rng : Rng) {ecx : BitVec 32} (hecx : ecx >>> 30 &&& 1 ≠ 1)
    (lo hi : BitVec 32) :
    Seeded (initRand rng ecx lo hi) ∧ (initRand rng ecx lo hi).hasRdrand = false := by
  unfold initRand Seeded
  dsimp only
  rw [if_neg hecx]
  refine ⟨?_, rfl⟩
  split_ifs with h0
  · decide
  · exact h0

/-- Whatever the time stamp is at `init_rand` and however a program seeds and draws after it: on a
    processor without `rdrand` the generator never comes to zero, neither its state nor its
    output. -/
theorem randul_ne_zero (rng : Rng) {ecx : BitVec 32} (hecx : ecx >>> 30 &&& 1 ≠ 1)
    (lo hi : BitVec 32) (draws : List (Draw × (ℕ → Option (BitVec 64))))
    (rdrand : ℕ → Option (BitVec 64)) :
    let rng' := (initRand rng ecx lo hi).draws draws
    Seeded rng' ∧ (randul rdrand rng').1 ≠ 0 := by
  intro rng'
  obtain ⟨hinit, hnone⟩ := initRand_seeded rng hecx lo hi
  obtain ⟨hseeded, hhas⟩ := hinit.draws draws
  refine ⟨hseeded, ?_⟩
  rw [randul, if_neg (by simp [rng', hhas, hnone])]
  exact mt xorshift_eq_zero_iff.mp hseeded

/-- Every value of `randu` comes up, with the instruction and without. -/
theorem exists_randu_eq (hasRdrand : Bool) (r : BitVec 32) :
    ∃ rdrand rng, rng.hasRdrand = hasRdrand ∧ Seeded rng ∧ (randu rdrand rng).1 = r := by
  have hlow : ((1 : BitVec 64) <<< 32 ||| r.setWidth 64).setWidth 32 = r := by
    apply BitVec.eq_of_getLsbD_eq
    intro i hi
    simp [hi]
  have hne : (1 : BitVec 64) <<< 32 ||| r.setWidth 64 ≠ 0 := by
    intro h0
    have hbit := congrArg (BitVec.getLsbD · 32) h0
    simp at hbit
  cases hasRdrand with
  | true =>
    have hone : (1 : BitVec 64) ≠ 0 := by decide
    exact ⟨fun _ => some ((1 : BitVec 64) <<< 32 ||| r.setWidth 64), ⟨true, 1⟩, rfl, hone, hlow⟩
  | false =>
    obtain ⟨x, hx, hstep⟩ := exists_xorshift_eq hne
    refine ⟨fun _ => none, ⟨false, x⟩, rfl, hx, ?_⟩
    change (xorshift x).setWidth 32 = r
    rw [hstep, hlow]

/-! ## Ranges -/

section Range

variable {a b : BitVec 32} (rdrand : ℕ → Option (BitVec 64)) (rng : Rng)

/-- Bounds that are in order as unsigned words too. -/
theorem randRange_of_lt (hlt : a.toInt < b.toInt) (hsign : a.toInt < 0 → b.toInt < 0) :
    (randRange rdrand rng a b).1.toInt =
      a.toInt + ((randu rdrand rng).1.toNat % (b.toInt - a.toInt).toNat : ℕ) := by
  have ha := BitVec.toInt_eq_toNat_cond a
  have hb := BitVec.toInt_eq_toNat_cond b
  have hnat : a.toNat < b.toNat := by
    split_ifs at ha hb <;> omega
  have hwidth : (b.toInt - a.toInt).toNat = b.toNat - a.toNat := by
    split_ifs at ha hb <;> omega
  have hsub : (b - a).toNat = b.toNat - a.toNat := by
    rw [BitVec.toNat_sub]
    omega
  have hmod : (randu rdrand rng).1.toNat % (b.toNat - a.toNat) < b.toNat - a.toNat :=
    Nat.mod_lt _ (by omega)
  have hval : (randRange rdrand rng a b).1.toNat =
      a.toNat + (randu rdrand rng).1.toNat % (b.toNat - a.toNat) := by
    rw [randRange, if_neg (by rw [BitVec.le_def]; omega)]
    simp only [BitVec.toNat_add, BitVec.toNat_umod, hsub]
    omega
  have hres := BitVec.toInt_eq_toNat_cond (randRange rdrand rng a b).1
  rw [hwidth]
  split_ifs at ha hb hres <;> omega

/-- A range from a negative number to one that is not looks empty, and the lower bound is
    returned. -/
theorem randRange_of_crossing (ha : a.toInt < 0) (hb : 0 ≤ b.toInt) :
    (randRange rdrand rng a b).1 = a := by
  have hle : b ≤ a := by
    rw [BitVec.le_def]
    have ha' := BitVec.toInt_eq_toNat_cond a
    have hb' := BitVec.toInt_eq_toNat_cond b
    split_ifs at ha' hb' <;> omega
  rw [randRange, if_pos hle]

end Range

/-- Every output of the generator gives a number of the range, and every number of the range comes
    up, with the instruction and without. -/
def Covers (a b : BitVec 32) : Prop :=
  (∀ rdrand rng, a.toInt ≤ (randRange rdrand rng a b).1.toInt ∧
    (randRange rdrand rng a b).1.toInt < b.toInt) ∧
  ∀ v, a.toInt ≤ v → v < b.toInt → ∀ hasRdrand, ∃ rdrand rng, rng.hasRdrand = hasRdrand ∧
    Seeded rng ∧ (randRange rdrand rng a b).1.toInt = v

/-- **Which signed ranges `rand_range` covers.** -/
theorem randRange_covers_iff {a b : BitVec 32} (hlt : a.toInt < b.toInt) :
    Covers a b ↔ (a.toInt < 0 → b.toInt < 0) ∨ (a.toInt = -1 ∧ b.toInt = 0) := by
  by_cases hcross : a.toInt < 0 ∧ 0 ≤ b.toInt
  · -- only the lower bound comes up
    have hres := fun rdrand rng =>
      randRange_of_crossing (a := a) (b := b) rdrand rng hcross.1 hcross.2
    unfold Covers
    simp only [hres]
    constructor
    · rintro ⟨-, hall⟩
      right
      by_contra hmore
      obtain ⟨-, -, -, -, heq⟩ := hall (a.toInt + 1) (by omega) (by omega) true
      omega
    · intro h
      refine ⟨fun _ _ => ⟨le_rfl, hlt⟩, fun v hlow hhigh hasRdrand => ?_⟩
      obtain ⟨rdrand, rng, hhas, hseeded, -⟩ := exists_randu_eq hasRdrand 0
      exact ⟨rdrand, rng, hhas, hseeded, by omega⟩
  · have hsign : a.toInt < 0 → b.toInt < 0 := by omega
    have hres := fun rdrand rng => randRange_of_lt (a := a) (b := b) rdrand rng hlt hsign
    refine iff_of_true ⟨fun rdrand rng => ?_, fun v hlow hhigh hasRdrand => ?_⟩ (.inl hsign)
    · have hmod : (randu rdrand rng).1.toNat % (b.toInt - a.toInt).toNat <
          (b.toInt - a.toInt).toNat := Nat.mod_lt _ (by omega)
      rw [hres]
      omega
    · obtain ⟨rdrand, rng, hhas, hseeded, hval⟩ :=
        exists_randu_eq hasRdrand (BitVec.ofNat 32 (v - a.toInt).toNat)
      refine ⟨rdrand, rng, hhas, hseeded, ?_⟩
      have hb := BitVec.toInt_lt (x := b)
      have ha := BitVec.le_toInt a
      rw [hres, hval, BitVec.toNat_ofNat, Nat.mod_eq_of_lt (by omega), Nat.mod_eq_of_lt (by omega)]
      omega

/-- The range of the ball's speed after a player has scored (pong.c:222). -/
theorem randRange_covers_iff_speed : Covers 1 500 :=
  (randRange_covers_iff (by decide)).mpr (.inl (by decide))

/-- The range of the ball's speed at the start (pong.c:226 and 228): `-500` for every output, so
    `0` never comes up. -/
theorem randRange_start_speed : (∀ rdrand rng, (randRange rdrand rng (-500) 500).1.toInt = -500) ∧
    ¬Covers (-500) 500 := by
  have hres : ∀ rdrand rng, (randRange rdrand rng (-500) 500).1.toInt = -500 := fun rdrand rng => by
    rw [randRange_of_crossing rdrand rng (by decide) (by decide)]
    decide
  refine ⟨hres, fun h => ?_⟩
  obtain ⟨rdrand, rng, -, -, heq⟩ := h.2 0 (by decide) (by decide) true
  rw [hres] at heq
  exact absurd heq (by decide)

end HorizonOS.Libc
