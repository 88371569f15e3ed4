import Mathlib

/-!
# The clock and the busy waits of the uACPI glue

Models of `get_tsc_frequency_cpuid`, `uacpi_kernel_get_nanoseconds_since_boot`,
`uacpi_kernel_stall` and `uacpi_kernel_sleep` (arch/x86_64/uacpi/kernel_api.c:345–428).

The conversion multiplies the cycles since boot by `10⁹` in 64 bits before it divides. It is exact
as long as the product fits, which is 18.4 · 10⁹ cycles (about nine seconds at 2 GHz), and the clock
starts again from 0 when it does not.

* `toNat_uacpiKernelGetNanosecondsSinceBoot`: the clock as an expression over ℕ.
* `clock_exact_iff`: exact and monotonic exactly up to the first wrap.
* `waits_return`: the waits return in time in every run in which the product does not wrap meanwhile.
-/

namespace HorizonOS.Uacpi

/-! ## Model -/

/-- What `cpuid` answers: the highest leaf, and `eax`, `ebx` and `ecx` of leaf 0x15. -/
structure Cpuid where
  maxLeaf : BitVec 32
  eax : BitVec 32
  ebx : BitVec 32
  ecx : BitVec 32

/-- `get_tsc_frequency_cpuid()` (kernel_api.c:345–369). -/
def getTscFrequencyCpuid (c : Cpuid) : BitVec 64 :=
  if c.maxLeaf < 0x15 then 0
  else if c.eax = 0 ∨ c.ebx = 0 then 0
  else if c.ecx ≠ 0 then c.ecx.setWidth 64 * c.ebx.setWidth 64 / c.eax.setWidth 64
  else 0

/-- The statics `boot_tsc` and `tsc_frequency` (kernel_api.c:376–377). -/
structure Statics where
  bootTsc : BitVec 64
  tscFrequency : BitVec 64

/-- The initialisation on the first call (kernel_api.c:380–394), when `rdtsc` reads `first`. -/
def Statics.initialize (s : Statics) (cpuid : Cpuid) (first : BitVec 64) : Statics :=
  if s.bootTsc = 0 then
    let frequency := getTscFrequencyCpuid cpuid
    ⟨first, if frequency = 0 then 2000000000 else frequency⟩
  else s

/-- `uacpi_kernel_get_nanoseconds_since_boot()` (kernel_api.c:375–401); `rdtsc` reads `first` if the
    call initialises the statics, and then `current`. -/
def uacpiKernelGetNanosecondsSinceBoot (s : Statics) (cpuid : Cpuid) (first current : BitVec 64) :
    BitVec 64 × Statics :=
  let s := s.initialize cpuid first
  let elapsedCycles := current - s.bootTsc
  (elapsedCycles * 1000000000 / s.tscFrequency, s)

/-- The loop of `uacpi_kernel_stall` and of `uacpi_kernel_sleep`, with the readings `tsc k`,
    `tsc (k + 1)`, …: the poll at which it is left, or `none` if it is still in the loop after
    `fuel` polls. -/
def busyWait (s : Statics) (cpuid : Cpuid) (target : BitVec 64) (tsc : ℕ → BitVec 64) :
    (fuel k : ℕ) → Option ℕ
  | 0, _ => none
  | fuel + 1, k =>
    let (now, s) := uacpiKernelGetNanosecondsSinceBoot s cpuid (tsc k) (tsc k)
    if now < target then busyWait s cpuid target tsc fuel (k + 1) else some k

/-- Both waits: a target `nanos` from now, and the loop. -/
def waitNanos (nanos : BitVec 64) (s : Statics) (cpuid : Cpuid) (tsc : ℕ → BitVec 64) (fuel : ℕ) :
    Option ℕ :=
  let (start, s) := uacpiKernelGetNanosecondsSinceBoot s cpuid (tsc 0) (tsc 0)
  busyWait s cpuid (start + nanos) tsc fuel 1

/-- `uacpi_kernel_stall(usec)` (kernel_api.c:406–415). -/
def uacpiKernelStall (usec : BitVec 8) : Statics → Cpuid → (ℕ → BitVec 64) → ℕ → Option ℕ :=
  waitNanos (usec.setWidth 64 * 1000)

/-- `uacpi_kernel_sleep(msec)` (kernel_api.c:420–428). -/
def uacpiKernelSleep (msec : BitVec 64) : Statics → Cpuid → (ℕ → BitVec 64) → ℕ → Option ℕ :=
  waitNanos (msec * 1000000)

/-! ## The clock -/

section Clock

variable {s : Statics} {cpuid : Cpuid} {first t t₁ t₂ : BitVec 64}

/-- The cycles since boot at the reading `t`. -/
def Statics.cycles (s : Statics) (t : BitVec 64) : ℕ := (t - s.bootTsc).toNat

/-- The nanoseconds since boot, rounded down. -/
def Statics.nanos (s : Statics) (t : BitVec 64) : ℕ := s.cycles t * 10 ^ 9 / s.tscFrequency.toNat

theorem initialize_of_ne (hb : s.bootTsc ≠ 0) : s.initialize cpuid first = s := if_neg hb

theorem toNat_uacpiKernelGetNanosecondsSinceBoot (hb : s.bootTsc ≠ 0) :
    (uacpiKernelGetNanosecondsSinceBoot s cpuid first t).1.toNat =
      s.cycles t * 10 ^ 9 % 2 ^ 64 / s.tscFrequency.toNat := by
  have hlit : (1000000000 : BitVec 64).toNat = 10 ^ 9 := rfl
  unfold uacpiKernelGetNanosecondsSinceBoot Statics.cycles
  rw [initialize_of_ne hb]
  show ((t - s.bootTsc) * 1000000000 / s.tscFrequency).toNat = _
  rw [BitVec.toNat_udiv, BitVec.toNat_mul, hlit]

/-- The value is the exact one if and only if the product fits. -/
theorem clock_eq_iff (hb : s.bootTsc ≠ 0) (hf : s.tscFrequency ≠ 0) :
    (uacpiKernelGetNanosecondsSinceBoot s cpuid first t).1.toNat = s.nanos t ↔
      s.cycles t * 10 ^ 9 < 2 ^ 64 := by
  rw [toNat_uacpiKernelGetNanosecondsSinceBoot hb, Statics.nanos]
  generalize s.cycles t * 10 ^ 9 = n
  have hpos : 0 < s.tscFrequency.toNat := Nat.pos_of_ne_zero fun h => hf (BitVec.eq_of_toNat_eq h)
  have hlt : s.tscFrequency.toNat < 2 ^ 64 := s.tscFrequency.isLt
  generalize s.tscFrequency.toNat = f at hpos hlt
  constructor
  · intro heq
    by_contra hge
    -- the difference is at least 2⁶⁴, more than the divisor
    have hsplit : n % 2 ^ 64 + f ≤ n := by omega
    have hdiv : (n % 2 ^ 64 + f) / f ≤ n / f := Nat.div_le_div_right hsplit
    rw [Nat.add_div_right _ hpos] at hdiv
    omega
  · intro hfit
    rw [Nat.mod_eq_of_lt hfit]

theorem nanos_mono (h : s.cycles t₁ ≤ s.cycles t₂) : s.nanos t₁ ≤ s.nanos t₂ :=
  Nat.div_le_div_right (Nat.mul_le_mul_right _ h)

/-- The reading at which so many cycles have passed since boot. -/
theorem exists_reading (s : Statics) {e : ℕ} (he : e < 2 ^ 64) : ∃ t, s.cycles t = e := by
  refine ⟨s.bootTsc + BitVec.ofNat 64 e, ?_⟩
  unfold Statics.cycles
  rw [add_sub_cancel_left, BitVec.toNat_ofNat, Nat.mod_eq_of_lt he]

/-- Up to the reading `t` the clock is monotonic, and exact wherever the exact value fits in 64 bits,
    if and only if the product of the cycles and `10⁹` does not exceed 64 bits at `t`. -/
theorem clock_exact_iff (hb : s.bootTsc ≠ 0) (hf : s.tscFrequency ≠ 0) (cpuid : Cpuid)
    (first t : BitVec 64) :
    (∀ t₁ t₂, s.cycles t₁ ≤ s.cycles t₂ → s.cycles t₂ ≤ s.cycles t →
      (uacpiKernelGetNanosecondsSinceBoot s cpuid first t₁).1 ≤
        (uacpiKernelGetNanosecondsSinceBoot s cpuid first t₂).1 ∧
      (s.nanos t₁ < 2 ^ 64 →
        (uacpiKernelGetNanosecondsSinceBoot s cpuid first t₁).1.toNat = s.nanos t₁) ∧
      (s.nanos t₂ < 2 ^ 64 →
        (uacpiKernelGetNanosecondsSinceBoot s cpuid first t₂).1.toNat = s.nanos t₂)) ↔
    s.cycles t * 10 ^ 9 < 2 ^ 64 := by
  constructor
  · intro h
    by_contra hge
    -- the first cycle whose product does not fit, and the one before
    have hlast : 18446744074 ≤ s.cycles t := by omega
    have hbound : s.cycles t < 2 ^ 64 := (t - s.bootTsc).isLt
    obtain ⟨t₁, ht₁⟩ := exists_reading s (e := 18446744073) (by omega)
    obtain ⟨t₂, ht₂⟩ := exists_reading s (e := 18446744074) (by omega)
    obtain ⟨hmono, -, hexact⟩ := h t₁ t₂ (by omega) (by omega)
    by_cases hone : s.tscFrequency.toNat = 1
    · rw [BitVec.le_def, toNat_uacpiKernelGetNanosecondsSinceBoot hb,
        toNat_uacpiKernelGetNanosecondsSinceBoot hb, ht₁, ht₂, hone] at hmono
      omega
    · have hpos : s.tscFrequency.toNat ≠ 0 := fun h => hf (BitVec.eq_of_toNat_eq h)
      have hfits : s.nanos t₂ < 2 ^ 64 := by
        rw [Statics.nanos, ht₂]
        refine (Nat.div_le_div_left (by omega : 2 ≤ s.tscFrequency.toNat) two_pos).trans_lt ?_
        norm_num
      have hprod := (clock_eq_iff hb hf).mp (hexact hfits)
      rw [ht₂] at hprod
      omega
  · intro hfit t₁ t₂ h₁₂ h₂
    have hexact : ∀ {r}, s.cycles r ≤ s.cycles t →
        (uacpiKernelGetNanosecondsSinceBoot s cpuid first r).1.toNat = s.nanos r := fun hr =>
      (clock_eq_iff hb hf).mpr ((Nat.mul_le_mul_right _ hr).trans_lt hfit)
    have h₁' := hexact (h₁₂.trans h₂)
    have h₂' := hexact h₂
    refine ⟨?_, fun _ => h₁', fun _ => h₂'⟩
    rw [BitVec.le_def, h₁', h₂']
    exact nanos_mono h₁₂

/-- At 2 GHz, one second after the call that initialised the clock. -/
theorem clock_exact_iff_one_second :
    let s : Statics := ⟨1, 2000000000⟩
    s.bootTsc ≠ 0 ∧ s.tscFrequency ≠ 0 ∧
      ∀ t, s.cycles t ≤ 2000000000 →
        (uacpiKernelGetNanosecondsSinceBoot s ⟨0, 0, 0, 0⟩ 1 t).1.toNat = s.nanos t := by
  refine ⟨by decide, by decide, fun t ht => ?_⟩
  have hlast : Statics.cycles ⟨1, 2000000000⟩ 2000000001 = 2000000000 := by decide
  have hclock := (clock_exact_iff (s := ⟨1, 2000000000⟩) (by decide) (by decide) ⟨0, 0, 0, 0⟩ 1
    2000000001).mpr (by rw [hlast]; norm_num)
  rw [hlast] at hclock
  refine (hclock t t le_rfl ht).2.1 ?_
  have hnanos : Statics.nanos ⟨1, 2000000000⟩ t ≤ 2000000000 * 10 ^ 9 / 2000000000 :=
    Nat.div_le_div_right (Nat.mul_le_mul_right _ ht)
  exact hnanos.trans_lt (by norm_num)

/-- At 2 GHz the clock stands at 9.2 seconds at one cycle and at 0 at the next. -/
theorem clock_falls_back :
    let s : Statics := ⟨1, 2000000000⟩
    s.cycles 18446744074 = 18446744073 ∧ s.cycles 18446744075 = 18446744074 ∧
      (uacpiKernelGetNanosecondsSinceBoot s ⟨0, 0, 0, 0⟩ 1 18446744074).1 = 9223372036 ∧
      (uacpiKernelGetNanosecondsSinceBoot s ⟨0, 0, 0, 0⟩ 1 18446744075).1 = 0 ∧
      s.nanos 18446744075 = 9223372037 := by
  decide

end Clock

/-! ## The waits -/

section Wait

variable {s : Statics} {cpuid : Cpuid} {tsc : ℕ → BitVec 64}

/-- What the clock shows at a poll. -/
def Statics.now (s : Statics) (cpuid : Cpuid) (t : BitVec 64) : BitVec 64 :=
  (uacpiKernelGetNanosecondsSinceBoot s cpuid t t).1

/-- How often the product has exceeded 64 bits. -/
def Statics.wraps (s : Statics) (t : BitVec 64) : ℕ := s.cycles t * 10 ^ 9 / 2 ^ 64

theorem uacpiKernelGetNanosecondsSinceBoot_eq (hb : s.bootTsc ≠ 0) (t : BitVec 64) :
    uacpiKernelGetNanosecondsSinceBoot s cpuid t t = (s.now cpuid t, s) :=
  Prod.ext rfl (initialize_of_ne hb)

theorem busyWait_succ (hb : s.bootTsc ≠ 0) (target : BitVec 64) (fuel k : ℕ) :
    busyWait s cpuid target tsc (fuel + 1) k =
      if s.now cpuid (tsc k) < target then busyWait s cpuid target tsc fuel (k + 1) else some k := by
  rw [busyWait, uacpiKernelGetNanosecondsSinceBoot_eq hb]

/-- The loop is left by the first poll at which the clock shows the target. -/
theorem busyWait_of_le (hb : s.bootTsc ≠ 0) {target : BitVec 64} {last : ℕ}
    (hlast : target ≤ s.now cpuid (tsc last)) {fuel k : ℕ} (hk : k ≤ last) (hfuel : last < k + fuel) :
    ∃ j, k ≤ j ∧ j ≤ last ∧ busyWait s cpuid target tsc fuel k = some j := by
  induction fuel generalizing k with
  | zero => omega
  | succ fuel ih =>
    rw [busyWait_succ hb]
    split_ifs with hnow
    · have hne : k ≠ last := by
        rintro rfl
        exact absurd hlast (BitVec.not_le.mpr hnow)
      obtain ⟨j, hkj, hj, hwait⟩ := ih (by omega : k + 1 ≤ last) (by omega)
      exact ⟨j, by omega, hj, hwait⟩
    · exact ⟨k, le_rfl, hk, rfl⟩

/-- The loop is left at a poll at which the clock shows the target. -/
theorem le_of_busyWait (hb : s.bootTsc ≠ 0) {target : BitVec 64} {fuel k j : ℕ}
    (hwait : busyWait s cpuid target tsc fuel k = some j) : target ≤ s.now cpuid (tsc j) := by
  induction fuel generalizing k with
  | zero => exact absurd hwait (by simp [busyWait])
  | succ fuel ih =>
    rw [busyWait_succ hb] at hwait
    split_ifs at hwait with hnow
    · exact ih hwait
    · obtain rfl := Option.some.inj hwait
      exact BitVec.not_lt.mp hnow

theorem waitNanos_eq (hb : s.bootTsc ≠ 0) (nanos : BitVec 64) (fuel : ℕ) :
    waitNanos nanos s cpuid tsc fuel =
      busyWait s cpuid (s.now cpuid (tsc 0) + nanos) tsc fuel 1 := by
  rw [waitNanos, uacpiKernelGetNanosecondsSinceBoot_eq hb]

/-- Numbers with the same quotient are as far apart as their remainders. -/
theorem mod_add_le {x y d m : ℕ} (hd : 0 < d) (hle : d ≤ y - x) (hdiv : x / m = y / m) :
    x % m + d ≤ y % m := by
  have hx := Nat.div_add_mod x m
  have hy := Nat.div_add_mod y m
  rw [← hdiv] at hy
  omega

/-- If the product has not wrapped since the call when the time is over, the clock shows the target. -/
theorem target_le_of_wraps_eq (hb : s.bootTsc ≠ 0) (hf : s.tscFrequency ≠ 0) (nanos : BitVec 64)
    {last : ℕ} (hlate : (nanos.toNat + 1) * s.tscFrequency.toNat ≤
      (s.cycles (tsc last) - s.cycles (tsc 0)) * 10 ^ 9)
    (hwraps : s.wraps (tsc 0) = s.wraps (tsc last)) :
    1 ≤ last ∧ s.now cpuid (tsc 0) + nanos ≤ s.now cpuid (tsc last) := by
  have hpos : 0 < s.tscFrequency.toNat := Nat.pos_of_ne_zero fun h => hf (BitVec.eq_of_toNat_eq h)
  have hstart : (s.now cpuid (tsc 0)).toNat = _ := toNat_uacpiKernelGetNanosecondsSinceBoot hb
  have hend : (s.now cpuid (tsc last)).toNat = _ := toNat_uacpiKernelGetNanosecondsSinceBoot hb
  have hlast : 1 ≤ last := by
    refine Nat.one_le_iff_ne_zero.mpr fun h0 => ?_
    rw [h0, Nat.sub_self, Nat.zero_mul] at hlate
    exact absurd hlate (Nat.not_le.mpr (Nat.mul_pos (Nat.succ_pos _) hpos))
  rw [Nat.sub_mul] at hlate
  have hlow := mod_add_le (Nat.mul_pos (Nat.succ_pos _) hpos) hlate hwraps
  have hreach : (s.now cpuid (tsc 0)).toNat + nanos.toNat + 1 ≤ (s.now cpuid (tsc last)).toNat := by
    rw [hstart, hend]
    have hdiv := Nat.div_le_div_right (c := s.tscFrequency.toNat) hlow
    rwa [Nat.add_mul_div_right _ _ hpos] at hdiv
  refine ⟨hlast, ?_⟩
  rw [BitVec.le_def, BitVec.toNat_add]
  exact (Nat.mod_le _ _).trans (by omega)

/-- Then the wait is over by that poll. -/
theorem waitNanos_returns (hb : s.bootTsc ≠ 0) (hf : s.tscFrequency ≠ 0) (nanos : BitVec 64)
    {last : ℕ} (hlate : (nanos.toNat + 1) * s.tscFrequency.toNat ≤
      (s.cycles (tsc last) - s.cycles (tsc 0)) * 10 ^ 9)
    (hwraps : s.wraps (tsc 0) = s.wraps (tsc last)) :
    ∃ k, 1 ≤ k ∧ k ≤ last ∧ waitNanos nanos s cpuid tsc last = some k := by
  have htarget : 1 ≤ last ∧ s.now cpuid (tsc 0) + nanos ≤ s.now cpuid (tsc last) :=
    target_le_of_wraps_eq hb hf nanos hlate hwraps
  obtain ⟨hlast, hle⟩ := htarget
  rw [waitNanos_eq hb]
  exact busyWait_of_le hb hle hlast (by omega)

theorem toNat_stall (usec : BitVec 8) : (usec.setWidth 64 * 1000).toNat = usec.toNat * 1000 := by
  have hlt := usec.isLt
  have hlit : (1000 : BitVec 64).toNat = 1000 := rfl
  rw [BitVec.toNat_mul, BitVec.toNat_setWidth, hlit]
  omega

theorem toNat_sleep {msec : BitVec 64} (hm : msec.toNat * 10 ^ 6 < 2 ^ 63) :
    (msec * 1000000).toNat = msec.toNat * 10 ^ 6 := by
  have hlit : (1000000 : BitVec 64).toNat = 10 ^ 6 := rfl
  rw [BitVec.toNat_mul, hlit]
  exact Nat.mod_eq_of_lt (hm.trans (by norm_num))

/-- Let the requested time and one nanosecond have passed at the poll `last`, and let the product of
    the cycles and `10⁹` pass no multiple of `2⁶⁴` between the call and that poll. Then both waits are
    left by then. -/
theorem waits_return (hb : s.bootTsc ≠ 0) (hf : s.tscFrequency ≠ 0) (cpuid : Cpuid)
    (tsc : ℕ → BitVec 64) (last : ℕ) (hwraps : s.wraps (tsc 0) = s.wraps (tsc last)) :
    (∀ usec : BitVec 8,
      (usec.toNat * 1000 + 1) * s.tscFrequency.toNat ≤
        (s.cycles (tsc last) - s.cycles (tsc 0)) * 10 ^ 9 →
      ∃ k, 1 ≤ k ∧ k ≤ last ∧ uacpiKernelStall usec s cpuid tsc last = some k) ∧
    ∀ msec : BitVec 64, msec.toNat * 10 ^ 6 < 2 ^ 63 →
      (msec.toNat * 10 ^ 6 + 1) * s.tscFrequency.toNat ≤
        (s.cycles (tsc last) - s.cycles (tsc 0)) * 10 ^ 9 →
      ∃ k, 1 ≤ k ∧ k ≤ last ∧ uacpiKernelSleep msec s cpuid tsc last = some k := by
  constructor
  · intro usec hlate
    rw [← toNat_stall] at hlate
    exact waitNanos_returns hb hf _ hlate hwraps
  · intro msec hm hlate
    rw [← toNat_sleep hm] at hlate
    exact waitNanos_returns hb hf _ hlate hwraps

/-- `uacpi_kernel_stall(10)` and `uacpi_kernel_sleep(1)` at 2 GHz, polled every 2¹⁰ and every 2¹⁷
    cycles. -/
theorem waits_return_two_gigahertz :
    let s : Statics := ⟨1, 2000000000⟩
    (∃ k, 1 ≤ k ∧ k ≤ 20 ∧
      uacpiKernelStall 10 s ⟨0, 0, 0, 0⟩ (fun k => BitVec.ofNat 64 (1 + k * 2 ^ 10)) 20 = some k) ∧
    ∃ k, 1 ≤ k ∧ k ≤ 16 ∧
      uacpiKernelSleep 1 s ⟨0, 0, 0, 0⟩ (fun k => BitVec.ofNat 64 (1 + k * 2 ^ 17)) 16 = some k :=
  ⟨(waits_return (s := ⟨1, 2000000000⟩) (by decide) (by decide) ⟨0, 0, 0, 0⟩ _ 20 (by decide)).1 10
      (by decide),
    (waits_return (s := ⟨1, 2000000000⟩) (by decide) (by decide) ⟨0, 0, 0, 0⟩ _ 16 (by decide)).2 1
      (by decide) (by decide)⟩

/-- `uacpi_kernel_sleep(10000)` at 2 GHz, polled every 2³¹ cycles: at the tenth poll the ten seconds
    are over, and the loop is not left at any poll. -/
theorem sleep_ten_seconds_hangs :
    let s : Statics := ⟨1, 2000000000⟩
    let tsc : ℕ → BitVec 64 := fun k => BitVec.ofNat 64 (1 + k * 2 ^ 31)
    (10000 * 10 ^ 6 + 1) * s.tscFrequency.toNat ≤ (s.cycles (tsc 10) - s.cycles (tsc 0)) * 10 ^ 9 ∧
      ∀ fuel, uacpiKernelSleep 10000 s ⟨0, 0, 0, 0⟩ tsc fuel = none := by
  intro s tsc
  refine ⟨by decide, fun fuel => ?_⟩
  refine Option.eq_none_iff_forall_ne_some.mpr fun k hwait => ?_
  rw [uacpiKernelSleep, waitNanos_eq (by decide)] at hwait
  -- the clock shows less than 2⁶⁴ / (2 · 10⁹), and the target is 10¹⁰
  have hnow : (s.now ⟨0, 0, 0, 0⟩ (tsc k)).toNat = _ :=
    toNat_uacpiKernelGetNanosecondsSinceBoot (by decide)
  have hmax : (s.now ⟨0, 0, 0, 0⟩ (tsc k)).toNat ≤ (2 ^ 64 - 1) / 2000000000 := by
    rw [hnow]
    exact Nat.div_le_div_right (by omega)
  have hle := BitVec.le_def.mp (le_of_busyWait (by decide) hwait)
  have htarget : (s.now ⟨0, 0, 0, 0⟩ (tsc 0) + 10000 * 1000000).toNat = 10000000000 := by decide
  omega

end Wait

end HorizonOS.Uacpi
