import HorizonOS.Lib.Memory

/-!
# `memcpy`, `memmove`, `memset`, `strlen`, `strnlen` and `strncmp`

Models of the block and string operations of `libc/string/string.c` (lines 19–80). All are
byte loops. The models of the block operations that run upwards count the iterations done so far;
the downward loop of `memmove` counts those to go.

* `memcpy_apply`: with a source that the destination does not overlap, `memcpy`
  copies the source and changes nothing else.
* `memmove_snapshot`: `memmove` does the same for every source, since it runs in the direction in
  which a byte is read before it is overwritten.
* `memset_apply`: `memset` fills its range and changes nothing else.
* `strlen_eq`: `strlen` finds the end of a text.
* `strnlen_eq`: `strnlen` is the length of a text, cut at the bound.
* `strncmp_eq_zero_iff`: against a string without a NUL, `strncmp` compares its bytes.
-/

namespace HorizonOS.Libc

open HorizonOS.Lib

/-- A character constant. -/
def ascii (c : Char) : Byte := BitVec.ofNat 8 c.toNat

/-- `memcpy(dst, src, size)` (lines 19–26): `size` iterations of
    `dst[i] = src[i]`. -/
def memcpy (m : Mem) (dst src : Addr) : (size : ℕ) → Mem
  | 0 => m
  | i + 1 =>
    let m' := memcpy m dst src i
    Function.update m' (dst + BitVec.ofNat 64 i) (m' (src + BitVec.ofNat 64 i))

/-- `memset(buf, value, size)` (lines 43–49): `size` iterations of
    `buf[i] = (unsigned char)value`. -/
def memset (m : Mem) (buf : Addr) (value : Byte) : (size : ℕ) → Mem
  | 0 => m
  | i + 1 => Function.update (memset m buf value i) (buf + BitVec.ofNat 64 i) value

theorem within_succ_iff {a b : Addr} {i : ℕ} (hi : i < 2 ^ 64) :
    Within a (i + 1) b ↔ b = a + BitVec.ofNat 64 i ∨ Within a i b := by
  unfold Within
  constructor
  · intro h
    by_cases hb : (b - a).toNat = i
    · left; bv_omega
    · right; omega
  · rintro (rfl | h)
    · bv_omega
    · omega

theorem memset_apply (m : Mem) (buf : Addr) (value : Byte) {size : ℕ} (hs : size ≤ 2 ^ 64)
    (b : Addr) : memset m buf value size b = if Within buf size b then value else m b := by
  induction size with
  | zero => simp [memset, Within]
  | succ i ih =>
    simp only [memset, within_succ_iff (a := buf) (b := b) (by omega : i < 2 ^ 64)]
    by_cases hb : b = buf + BitVec.ofNat 64 i
    · subst hb; simp
    · rw [Function.update_of_ne hb, ih (by omega)]
      simp [hb]

/-- An upward copy whose writes stay behind its reads. -/
theorem memcpy_apply_of_behind (m : Mem) (dst src : Addr) {size : ℕ} (hs : size ≤ 2 ^ 64)
    (hbehind : ∀ i < size, ¬ Within dst i (src + BitVec.ofNat 64 i)) (b : Addr) :
    memcpy m dst src size b = if Within dst size b then m (src + (b - dst)) else m b := by
  induction size generalizing b with
  | zero => simp [memcpy, Within]
  | succ i ih =>
    have ih' := fun b => ih (by omega) (fun j hj => hbehind j (by omega)) b
    simp only [memcpy, within_succ_iff (a := dst) (b := b) (by omega : i < 2 ^ 64)]
    by_cases hb : b = dst + BitVec.ofNat 64 i
    · subst hb
      rw [Function.update_self, ih', if_neg (hbehind i (by omega)), if_pos (Or.inl rfl)]
      congr 2
      bv_omega
    · rw [Function.update_of_ne hb, ih']
      simp [hb]

/-- The source of a copy is not overwritten while it is read. -/
theorem memcpy_apply (m : Mem) (dst src : Addr) {size : ℕ} (hs : size ≤ 2 ^ 64)
    (hsep : ∀ i < size, ¬ Within dst size (src + BitVec.ofNat 64 i)) (b : Addr) :
    memcpy m dst src size b = if Within dst size b then m (src + (b - dst)) else m b :=
  memcpy_apply_of_behind m dst src hs
    (fun i hi h => hsep i hi (lt_of_lt_of_le h (by omega))) b

/-! ## `memmove` -/

/-- The downward loop of `memmove` (lines 36–38): `dst[i - 1] = src[i - 1]` for
    `i` from `size` to 1. -/
def copyDown (m : Mem) (dst src : Addr) : (size : ℕ) → Mem
  | 0 => m
  | i + 1 =>
    copyDown (Function.update m (dst + BitVec.ofNat 64 i) (m (src + BitVec.ofNat 64 i))) dst src i

/-- `memmove(dst, src, size)` (lines 28–41): the pointer it returns, and the
    memory. Its upward loop is the one of `memcpy`. -/
def memmove (m : Mem) (dst src : Addr) (size : ℕ) : Addr × Mem :=
  if dst < src then (dst, memcpy m dst src size) else (dst, copyDown m dst src size)

/-- A downward copy whose writes stay above its reads. -/
theorem copyDown_apply (m : Mem) (dst src : Addr) {size : ℕ} (hs : size ≤ 2 ^ 64)
    (habove : ∀ i < size, ∀ j < i, src + BitVec.ofNat 64 j ≠ dst + BitVec.ofNat 64 i) (b : Addr) :
    copyDown m dst src size b = if Within dst size b then m (src + (b - dst)) else m b := by
  induction size generalizing m with
  | zero => simp [copyDown, Within]
  | succ i ih =>
    rw [copyDown, ih _ (by omega) fun j hj => habove j (by omega)]
    simp only [within_succ_iff (a := dst) (b := b) (by omega : i < 2 ^ 64)]
    by_cases hin : Within dst i b
    · -- what is still to be read is below the byte just written
      obtain ⟨j, hj, rfl⟩ := exists_of_within hin
      rw [if_pos hin, if_pos (Or.inr hin), add_sub_cancel_left,
        Function.update_of_ne (habove i (by omega) j hj)]
    · rw [if_neg hin]
      by_cases hb : b = dst + BitVec.ofNat 64 i
      · subst hb
        rw [Function.update_self, if_pos (Or.inl rfl), add_sub_cancel_left]
      · rw [Function.update_of_ne hb, if_neg (by tauto)]

section Memmove

variable {dst src : Addr} {size : ℕ} (hdst : dst.toNat + size ≤ 2 ^ 64)
  (hsrc : src.toNat + size ≤ 2 ^ 64)
include hdst hsrc

/-- With the destination below the source, an upward copy writes behind its reads. -/
theorem behind_of_lt (hlt : dst < src) {i : ℕ} (hi : i < size) :
    ¬ Within dst i (src + BitVec.ofNat 64 i) := by
  rw [within_iff (by omega), toNat_add_ofNat (by omega)]
  have := BitVec.lt_def.mp hlt
  omega

/-- With the source at or below the destination, a downward copy writes above its reads. -/
theorem above_of_not_lt (hlt : ¬ dst < src) {i j : ℕ} (hi : i < size) (hj : j < i) :
    src + BitVec.ofNat 64 j ≠ dst + BitVec.ofNat 64 i := by
  intro heq
  have hnat := congrArg BitVec.toNat heq
  rw [toNat_add_ofNat (by omega), toNat_add_ofNat (by omega)] at hnat
  have := BitVec.not_lt.mp hlt
  rw [BitVec.le_def] at this
  omega

theorem memmove_apply (m : Mem) (b : Addr) :
    (memmove m dst src size).2 b = if Within dst size b then m (src + (b - dst)) else m b := by
  have hs : size ≤ 2 ^ 64 := by omega
  unfold memmove
  by_cases hlt : dst < src
  · rw [if_pos hlt]
    exact memcpy_apply_of_behind m dst src hs (fun i hi => behind_of_lt hdst hsrc hlt hi) b
  · rw [if_neg hlt]
    exact copyDown_apply m dst src hs (fun i hi j hj => above_of_not_lt hdst hsrc hlt hi hj) b

end Memmove

/-- **`memmove` copies as if through a snapshot**, however the two regions lie, as long as neither
    runs around the end of the address range. -/
theorem memmove_snapshot (m : Mem) (dst src : Addr) (size : ℕ)
    (hdst : dst.toNat + size ≤ 2 ^ 64) (hsrc : src.toNat + size ≤ 2 ^ 64) :
    (memmove m dst src size).1 = dst ∧
    (∀ i < size, (memmove m dst src size).2 (dst + BitVec.ofNat 64 i) =
      m (src + BitVec.ofNat 64 i)) ∧
    ∀ b : Addr, ¬(dst.toNat ≤ b.toNat ∧ b.toNat < dst.toNat + size) →
      (memmove m dst src size).2 b = m b := by
  refine ⟨?_, fun i hi => ?_, fun b hb => ?_⟩
  · unfold memmove
    split_ifs <;> rfl
  · have hin : Within dst size (dst + BitVec.ofNat 64 i) := by
      rw [within_iff hdst, toNat_add_ofNat (by omega)]
      omega
    rw [memmove_apply hdst hsrc, if_pos hin, add_sub_cancel_left]
  · rw [memmove_apply hdst hsrc, if_neg (mt (within_iff hdst).mp hb)]

/-- Three bytes moved up by one, and back. -/
theorem memmove_snapshot_overlap :
    (∀ i < 3, (memmove (fun a => a.setWidth 8) 0x1001 0x1000 3).2 (0x1001 + BitVec.ofNat 64 i) =
      (0x1000 + BitVec.ofNat 64 i).setWidth 8) ∧
    ∀ i < 3, (memmove (fun a => a.setWidth 8) 0x1000 0x1001 3).2 (0x1000 + BitVec.ofNat 64 i) =
      (0x1001 + BitVec.ofNat 64 i).setWidth 8 :=
  ⟨(memmove_snapshot _ 0x1001 0x1000 3 (by decide) (by decide)).2.1,
    (memmove_snapshot _ 0x1000 0x1001 3 (by decide) (by decide)).2.1⟩

/-! ## Strings -/

/-- `strlen(str)` (lines 51–57), at most `fuel` characters. -/
def strlen (str : ℕ → Byte) : (fuel : ℕ) → (len : ℕ) → Option ℕ
  | 0, _ => none
  | fuel + 1, len => if str len = 0 then some len else strlen str fuel (len + 1)

theorem strlen_eq {str : ℕ → Byte} {n : ℕ} (hstr : ∀ i < n, str i ≠ 0) (hend : str n = 0)
    {fuel len : ℕ} (hlen : len ≤ n) (hfuel : n < fuel + len) : strlen str fuel len = some n := by
  induction fuel generalizing len with
  | zero => omega
  | succ fuel ih =>
    rw [strlen]
    rcases Nat.lt_or_ge len n with hlt | hge
    · rw [if_neg (hstr len hlt), ih hlt (by omega)]
    · obtain rfl : len = n := by omega
      rw [if_pos hend]

/-- `strnlen(str, maxlen)` (lines 59–68) with `maxlen` iterations left. -/
def strnlen (str : ℕ → Byte) : (maxlen : ℕ) → (len : ℕ) → ℕ
  | 0, len => len
  | maxlen + 1, len => if str len = 0 then len else strnlen str maxlen (len + 1)

theorem strnlen_eq {str : ℕ → Byte} {text : List Byte} (htext : ∀ c ∈ text, c ≠ 0)
    (hstr : ∀ i ≤ text.length, str i = text.getD i 0) {len : ℕ} (hlen : len ≤ text.length)
    (maxlen : ℕ) : strnlen str maxlen len = min text.length (len + maxlen) := by
  induction maxlen generalizing len with
  | zero =>
    rw [strnlen]
    omega
  | succ maxlen ih =>
    rw [strnlen, hstr len hlen]
    rcases Nat.lt_or_ge len text.length with hlt | hge
    · have hne : text.getD len 0 ≠ 0 := by
        rw [List.getD_eq_getElem _ _ hlt]
        exact htext _ (List.getElem_mem hlt)
      rw [if_neg hne, ih hlt]
      omega
    · rw [if_pos (List.getD_eq_default _ _ hge)]
      omega

/-- `strncmp(s1, s2, n)` (lines 70–80) from the `i`-th character on. `char` is signed. -/
def strncmp (s1 s2 : ℕ → Byte) : (n : ℕ) → (i : ℕ) → ℤ
  | 0, _ => 0
  | n + 1, i =>
    if s1 i = 0 ∨ s2 i = 0 then (s1 i).toInt - (s2 i).toInt
    else if s1 i ≠ s2 i then (s1 i).toInt - (s2 i).toInt
    else strncmp s1 s2 n (i + 1)

theorem strncmp_eq_zero_iff {s1 s2 : ℕ → Byte} {n i : ℕ} (h : ∀ j < n, s2 (i + j) ≠ 0) :
    strncmp s1 s2 n i = 0 ↔ ∀ j < n, s1 (i + j) = s2 (i + j) := by
  induction n generalizing i with
  | zero => simp [strncmp]
  | succ n ih =>
    have hfirst : s2 i ≠ 0 := h 0 n.succ_pos
    have hrest := ih fun j hj => by
      rw [Nat.add_assoc]
      exact h (1 + j) (by omega)
    have hall : (∀ j < n + 1, s1 (i + j) = s2 (i + j)) ↔
        s1 i = s2 i ∧ ∀ j < n, s1 (i + 1 + j) = s2 (i + 1 + j) := by
      rw [Nat.forall_lt_succ_left]
      simp only [Nat.add_zero, Nat.add_assoc, Nat.add_comm 1]
    rw [hall, strncmp]
    by_cases heq : s1 i = s2 i
    · rw [if_neg (by rw [heq]; simpa using hfirst), if_neg (not_not.mpr heq), hrest]
      exact (and_iff_right heq).symm
    · have hne : (s1 i).toInt - (s2 i).toInt ≠ 0 := fun h0 =>
        heq (BitVec.eq_of_toInt_eq (sub_eq_zero.mp h0))
      rw [if_pos heq, ite_self]
      exact ⟨fun h0 => absurd h0 hne, fun hh => absurd hh.1 heq⟩

end HorizonOS.Libc
