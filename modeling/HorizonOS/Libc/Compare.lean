import HorizonOS.Libc.String
import Mathlib.Data.List.Lex

/-!
# `memcmp`, `strncmp` and `strcmp`

The three comparisons of `libc/string/string.c` (lines 6–17 and 70–95). Each stops where the two
strings part, at a byte in which they differ. `memcmp` compares the bytes there as unsigned numbers,
the other two subtract them as characters, and `char` is signed.

* `CString`: what can be passed to `strcmp` without a panic.
* `CString.parting`: two strings are equal or part somewhere.
* `strcmp_orders`: `strcmp` is the order of the characters, terminator included.
* `comparisons_agree_iff`: the three agree where the parting bytes lie in one half.
-/

namespace HorizonOS.Libc

open HorizonOS.Lib

/-- `memcmp(a, b, size)` (lines 6–17) from the `i`-th byte on. -/
def memcmp (a b : ℕ → Byte) : (size : ℕ) → (i : ℕ) → ℤ
  | 0, _ => 0
  | size + 1, i =>
    if a i < b i then -1
    else if b i < a i then 1
    else memcmp a b size (i + 1)

def maxStrcmpComparisons : ℕ := 1000

/-- The loop of `strcmp` (lines 84–92), with `left` comparisons left. `none` is the panic behind
    it. -/
def strcmpLoop (s1 s2 : ℕ → Byte) : (left : ℕ) → (i : ℕ) → Option ℤ
  | 0, _ => none
  | left + 1, i =>
    if s1 i = 0 ∨ s2 i = 0 then some ((s1 i).toInt - (s2 i).toInt)
    else if s1 i ≠ s2 i then some ((s1 i).toInt - (s2 i).toInt)
    else strcmpLoop s1 s2 left (i + 1)

/-- `strcmp(s1, s2)` (lines 82–95). -/
def strcmp (s1 s2 : ℕ → Byte) : Option ℤ := strcmpLoop s1 s2 maxStrcmpComparisons 0

/-! ## Strings in memory -/

/-- A string short enough for `strcmp`. -/
structure CString where
  text : List Byte
  no_nul : 0 ∉ text
  short : text.length < maxStrcmpComparisons

namespace CString

/-- The bytes of a string, terminator included. -/
def bytes (a : CString) : List Byte := a.text ++ [0]

@[simp] theorem length_bytes (a : CString) : a.bytes.length = a.text.length + 1 := by
  simp [bytes]

/-- Memory in which the string stands; what lies behind its terminator is arbitrary. -/
def At (a : CString) (s : ℕ → Byte) : Prop := ∀ i c, a.bytes[i]? = some c → s i = c

/-- The order of the characters as numbers, character by character. -/
def key (a : CString) : List ℤ := a.bytes.map BitVec.toInt

theorem eq_of_bytes {a b : CString} (h : a.bytes = b.bytes) : a = b := by
  obtain ⟨text, _, _⟩ := a
  obtain ⟨text', _, _⟩ := b
  obtain rfl : text = text' := List.append_cancel_right h
  rfl

/-- Where two strings part: behind `common` they go on with different bytes. -/
def Part (a b : CString) (common : List Byte) (x y : Byte) : Prop :=
  x ≠ y ∧ (∃ u, a.bytes = common ++ x :: u) ∧ ∃ v, b.bytes = common ++ y :: v

theorem parting_texts (l l' : List Byte) (hl : 0 ∉ l) (hl' : 0 ∉ l') : l = l' ∨
    ∃ common x y, x ≠ y ∧ (∃ u, l ++ [0] = common ++ x :: u) ∧
      ∃ v, l' ++ [0] = common ++ y :: v := by
  induction l generalizing l' with
  | nil =>
    cases l' with
    | nil => exact .inl rfl
    | cons c l' => exact .inr ⟨[], 0, c, fun h => hl' (by simp [h]), ⟨[], rfl⟩, ⟨_, rfl⟩⟩
  | cons c l ih =>
    cases l' with
    | nil => exact .inr ⟨[], c, 0, fun h => hl (by simp [h]), ⟨_, rfl⟩, ⟨[], rfl⟩⟩
    | cons c' l' =>
      by_cases hc : c = c'
      · subst hc
        rcases ih l' (fun h => hl (.tail _ h)) (fun h => hl' (.tail _ h)) with
          rfl | ⟨common, x, y, hxy, ⟨u, hu⟩, v, hv⟩
        · exact .inl rfl
        · exact .inr ⟨c :: common, x, y, hxy, ⟨u, congrArg (c :: ·) hu⟩, v, congrArg (c :: ·) hv⟩
      · exact .inr ⟨[], c, c', hc, ⟨_, rfl⟩, ⟨_, rfl⟩⟩

/-- Two strings are equal or part somewhere: no terminated string goes on behind the end of
    another. -/
theorem parting (a b : CString) : a = b ∨ ∃ common x y, a.Part b common x y := by
  rcases parting_texts a.text b.text a.no_nul b.no_nul with h | h
  · exact .inl (eq_of_bytes (congrArg (· ++ [0]) h))
  · exact .inr h

section Part

variable {a b : CString} {common : List Byte} {x y : Byte} (h : a.Part b common x y)

include h

theorem Part.symm : b.Part a common y x := ⟨h.1.symm, h.2.2, h.2.1⟩

theorem Part.length_le : common.length ≤ a.text.length := by
  obtain ⟨-, ⟨u, hu⟩, -⟩ := h
  have hlen := congrArg List.length hu
  rw [length_bytes, List.length_append, List.length_cons] at hlen
  omega

theorem Part.no_nul {c : Byte} (hc : c ∈ common) : c ≠ 0 := by
  obtain ⟨-, ⟨u, hu⟩, -⟩ := h
  rintro rfl
  -- the only zero byte is the last one, and `x` stands behind `common`
  have hmem : (0 : Byte) ∈ a.bytes.dropLast := by
    rw [hu, List.dropLast_append_of_ne_nil (List.cons_ne_nil x u)]
    exact List.mem_append_left _ hc
  rw [bytes, List.dropLast_concat] at hmem
  exact a.no_nul hmem

theorem Part.lt_iff : a.key < b.key ↔ x.toInt < y.toInt := by
  obtain ⟨hxy, ⟨u, hu⟩, v, hv⟩ := h
  have hne : x.toInt ≠ y.toInt := fun heq => hxy (BitVec.eq_of_toInt_eq heq)
  rw [key, key, hu, hv, List.map_append, List.map_append, List.map_cons, List.map_cons]
  induction common.map BitVec.toInt with
  | nil => simp [List.cons_lt_cons_iff, hne]
  | cons z zs ih => simpa [List.cons_lt_cons_iff] using ih

variable {s s' : ℕ → Byte} (hs : a.At s) (hs' : b.At s')

include hs hs'

theorem Part.at_parting : s common.length = x ∧ s' common.length = y := by
  obtain ⟨-, ⟨u, hu⟩, v, hv⟩ := h
  exact ⟨hs _ _ (by rw [hu]; simp), hs' _ _ (by rw [hv]; simp)⟩

theorem Part.before {i : ℕ} (hi : i < common.length) : s i = s' i ∧ s i ≠ 0 := by
  obtain ⟨-, ⟨u, hu⟩, v, hv⟩ := id h
  have hsi : s i = common[i] := hs _ _ (by rw [hu, List.getElem?_append_left hi]; simp [hi])
  have hsi' : s' i = common[i] := hs' _ _ (by rw [hv, List.getElem?_append_left hi]; simp [hi])
  exact ⟨hsi.trans hsi'.symm, hsi ▸ h.no_nul (List.getElem_mem hi)⟩

end Part

end CString

/-! ## The loops -/

/-- A loop that goes on in its first `k` rounds gets to the one behind them. -/
theorem loop_skip {β : Type*} {loop : ℕ → ℕ → β} {k : ℕ}
    (hstep : ∀ i < k, ∀ left, loop (left + 1) i = loop left (i + 1)) (left : ℕ) :
    loop (k + left) 0 = loop left k := by
  induction k generalizing left with
  | zero => rw [Nat.zero_add]
  | succ k ih =>
    rw [Nat.add_assoc, Nat.add_comm 1 left, ih fun i hi => hstep i (by omega)]
    exact hstep k (Nat.lt_succ_self k) left

section Loops

variable {s s' : ℕ → Byte} {i : ℕ}

theorem strncmp_go (heq : s i = s' i) (hne : s i ≠ 0) (n : ℕ) :
    strncmp s s' (n + 1) i = strncmp s s' n (i + 1) := by
  rw [strncmp, ← heq, if_neg (by rwa [or_self]), if_neg (not_not.mpr rfl)]

theorem strcmpLoop_go (heq : s i = s' i) (hne : s i ≠ 0) (left : ℕ) :
    strcmpLoop s s' (left + 1) i = strcmpLoop s s' left (i + 1) := by
  rw [strcmpLoop, ← heq, if_neg (by rwa [or_self]), if_neg (not_not.mpr rfl)]

theorem memcmp_go (heq : s i = s' i) (size : ℕ) :
    memcmp s s' (size + 1) i = memcmp s s' size (i + 1) := by
  rw [memcmp, ← heq, if_neg (BitVec.lt_irrefl _), if_neg (BitVec.lt_irrefl _)]

theorem strncmp_stop (h : s i ≠ s' i ∨ s i = 0) (n : ℕ) :
    strncmp s s' (n + 1) i = (s i).toInt - (s' i).toInt := by
  rw [strncmp]
  split_ifs with hnul hne
  · rfl
  · rfl
  · exact absurd h (not_or.mpr ⟨hne, (not_or.mp hnul).1⟩)

theorem strcmpLoop_stop (h : s i ≠ s' i ∨ s i = 0) (left : ℕ) :
    strcmpLoop s s' (left + 1) i = some ((s i).toInt - (s' i).toInt) := by
  rw [strcmpLoop]
  split_ifs with hnul hne
  · rfl
  · rfl
  · exact absurd h (not_or.mpr ⟨hne, (not_or.mp hnul).1⟩)

theorem memcmp_stop (h : s i ≠ s' i) (size : ℕ) :
    memcmp s s' (size + 1) i = if s i < s' i then -1 else 1 := by
  rw [memcmp]
  split_ifs with hlt hgt
  · rfl
  · rfl
  · exact absurd (BitVec.le_antisymm (BitVec.not_lt.mp hgt) (BitVec.not_lt.mp hlt)) h

/-- The loops over strings stop at the first difference or at the end. -/
theorem strcmp_stops {k : ℕ} (hbefore : ∀ i < k, s i = s' i ∧ s i ≠ 0)
    (hstop : s k ≠ s' k ∨ s k = 0) :
    (k < maxStrcmpComparisons → strcmp s s' = some ((s k).toInt - (s' k).toInt)) ∧
      ∀ n > k, strncmp s s' n 0 = (s k).toInt - (s' k).toInt := by
  refine ⟨fun hk => ?_, fun n hn => ?_⟩
  · obtain ⟨left, hleft⟩ := Nat.exists_eq_add_of_lt hk
    rw [strcmp, hleft, Nat.add_assoc, loop_skip fun i hi =>
      strcmpLoop_go (hbefore i hi).1 (hbefore i hi).2, strcmpLoop_stop hstop]
  · obtain ⟨left, rfl⟩ := Nat.exists_eq_add_of_lt hn
    rw [Nat.add_assoc, loop_skip fun i hi => strncmp_go (hbefore i hi).1 (hbefore i hi).2,
      strncmp_stop hstop]

end Loops

section Results

variable {a b : CString} {s s' : ℕ → Byte} (hs : a.At s) (hs' : b.At s')

include hs hs'

/-- What the three return for strings that part. -/
theorem CString.Part.results {common : List Byte} {x y : Byte} (h : a.Part b common x y) :
    strcmp s s' = some (x.toInt - y.toInt) ∧
    (∀ n > min a.text.length b.text.length, strncmp s s' n 0 = x.toInt - y.toInt) ∧
    memcmp s s' (min a.text.length b.text.length + 1) 0 = if x < y then -1 else 1 := by
  have hle : common.length ≤ min a.text.length b.text.length := le_min h.length_le h.symm.length_le
  have hshort : min a.text.length b.text.length < maxStrcmpComparisons :=
    (min_le_left _ _).trans_lt a.short
  obtain ⟨hx, hy⟩ := h.at_parting hs hs'
  have hstop : s common.length ≠ s' common.length := by
    rw [hx, hy]
    exact h.1
  obtain ⟨hstr, hstrn⟩ := strcmp_stops (fun _ => h.before hs hs') (.inl hstop)
  rw [hx, hy] at hstr hstrn
  refine ⟨hstr (hle.trans_lt hshort), fun n hn => hstrn n (hle.trans_lt hn), ?_⟩
  obtain ⟨left, hleft⟩ := Nat.exists_eq_add_of_le hle
  rw [hleft, Nat.add_assoc, loop_skip fun i hi => memcmp_go (h.before hs hs' hi).1,
    memcmp_stop hstop, hx, hy]

end Results

/-- And for equal ones. -/
theorem CString.results_self {a : CString} {s s' : ℕ → Byte} (hs : a.At s) (hs' : a.At s') :
    strcmp s s' = some 0 ∧ (∀ n > a.text.length, strncmp s s' n 0 = 0) ∧
    memcmp s s' (a.text.length + 1) 0 = 0 := by
  have hnul : s a.text.length = 0 ∧ s' a.text.length = 0 :=
    ⟨hs _ _ (by simp [bytes]), hs' _ _ (by simp [bytes])⟩
  have hbefore : ∀ i < a.text.length, s i = s' i ∧ s i ≠ 0 := by
    intro i hi
    have hbyte : a.bytes[i]? = some a.text[i] := by
      rw [bytes, List.getElem?_append_left hi, List.getElem?_eq_getElem hi]
    rw [hs i _ hbyte, hs' i _ hbyte]
    exact ⟨rfl, fun h0 => a.no_nul (h0 ▸ List.getElem_mem hi)⟩
  obtain ⟨hstr, hstrn⟩ := strcmp_stops hbefore (.inr hnul.1)
  rw [hnul.1, hnul.2, sub_self] at hstr hstrn
  refine ⟨hstr a.short, hstrn, ?_⟩
  rw [loop_skip fun i hi => memcmp_go (hbefore i hi).1, memcmp_go (hnul.1.trans hnul.2.symm),
    memcmp]

/-! ## Signs -/

/-- The signed difference and the unsigned comparison of two different bytes have one sign exactly
    for bytes of one half. -/
theorem sign_sub_eq_iff {x y : Byte} (hxy : x ≠ y) :
    (x.toInt - y.toInt).sign = (if x < y then -1 else 1 : ℤ).sign ↔ x.msb = y.msb := by
  have hne : x.toNat ≠ y.toNat := fun h => hxy (BitVec.eq_of_toNat_eq h)
  have hx := x.isLt
  have hy := y.isLt
  rw [BitVec.toInt_eq_msb_cond, BitVec.toInt_eq_msb_cond, BitVec.msb_eq_decide,
    BitVec.msb_eq_decide]
  rcases lt_or_gt_of_ne hne with hlt | hgt
  · rw [if_pos (BitVec.lt_def.mpr hlt), Int.sign_eq_neg_one_iff_neg.mpr (by decide : (-1 : ℤ) < 0),
      Int.sign_eq_neg_one_iff_neg]
    simp only [decide_eq_true_eq, decide_eq_decide]
    split_ifs <;> omega
  · rw [if_neg (fun h => absurd (BitVec.lt_def.mp h) hgt.not_gt), Int.sign_one, Int.sign_eq_one_iff_pos]
    simp only [decide_eq_true_eq, decide_eq_decide]
    split_ifs <;> omega

/-- The three comparisons of two strings have one sign. -/
def SameSign (a b : CString) (s s' : ℕ → Byte) : Prop :=
  ∃ r, strcmp s s' = some r ∧
    (∀ n > min a.text.length b.text.length, (strncmp s s' n 0).sign = r.sign) ∧
    (memcmp s s' (min a.text.length b.text.length + 1) 0).sign = r.sign

/-- Where the strings part, both bytes lie below 0x80 or both lie above. -/
def SameHalf (a b : CString) : Prop := ∀ common x y, a.Part b common x y → x.msb = y.msb

/-- `strcmp` is a total order of the strings: that of their characters, terminator included. -/
theorem strcmp_orders {a b : CString} {s s' : ℕ → Byte} (hs : a.At s) (hs' : b.At s') :
    ∃ r, strcmp s s' = some r ∧ (r < 0 ↔ a.key < b.key) ∧ (r = 0 ↔ a = b) ∧
      (0 < r ↔ b.key < a.key) := by
  rcases a.parting b with rfl | ⟨common, x, y, h⟩
  · exact ⟨0, (CString.results_self hs hs').1, by simp, by simp, by simp⟩
  · have hne : x.toInt - y.toInt ≠ 0 := fun h0 =>
      h.1 (BitVec.eq_of_toInt_eq (sub_eq_zero.mp h0))
    have hab : a ≠ b := by
      rintro rfl
      obtain ⟨hxy, ⟨u, hu⟩, v, hv⟩ := h
      exact hxy (List.cons.inj (List.append_cancel_left (hu.symm.trans hv))).1
    refine ⟨_, (h.results hs hs').1, ?_, iff_of_false hne hab, ?_⟩
    · rw [h.lt_iff, sub_neg]
    · rw [h.symm.lt_iff, sub_pos]

/-- **The comparisons agree for strings that part in one half.** For all strings `strcmp` is a total
    order; it has the sign of `strncmp` and `memcmp` exactly if the bytes in which the strings first
    differ are both below 0x80 or both above. -/
theorem comparisons_agree_iff {a b : CString} {s s' : ℕ → Byte} (hs : a.At s) (hs' : b.At s') :
    (SameSign a b s s' ↔ SameHalf a b) ∧
    ∃ r, strcmp s s' = some r ∧ (r < 0 ↔ a.key < b.key) ∧ (r = 0 ↔ a = b) ∧
      (0 < r ↔ b.key < a.key) := by
  refine ⟨⟨?_, fun hhalf => ?_⟩, strcmp_orders hs hs'⟩
  · rintro ⟨r, hr, -, hmem⟩ common x y h
    obtain ⟨hstr, -, hmemcmp⟩ := h.results hs hs'
    obtain rfl : x.toInt - y.toInt = r := Option.some.inj (hstr.symm.trans hr)
    rw [hmemcmp] at hmem
    exact (sign_sub_eq_iff h.1).mp hmem.symm
  · rcases a.parting b with rfl | ⟨common, x, y, h⟩
    · obtain ⟨hstr, hstrn, hmem⟩ := CString.results_self hs hs'
      rw [SameSign, min_self]
      exact ⟨0, hstr, fun n hn => by rw [hstrn n hn], by rw [hmem]⟩
    · obtain ⟨hstr, hstrn, hmem⟩ := h.results hs hs'
      refine ⟨_, hstr, fun n hn => by rw [hstrn n hn], ?_⟩
      rw [hmem]
      exact ((sign_sub_eq_iff h.1).mpr (hhalf common x y h)).symm

theorem CString.at_getD (a : CString) : a.At fun i => a.bytes.getD i 0 := fun i c hc => by
  dsimp only
  rw [List.getD_eq_getElem?_getD, hc, Option.getD_some]

/-- Strings of bytes below 0x80 part in one half. -/
theorem sameHalf_of_ascii {a b : CString} (ha : ∀ c ∈ a.bytes, c.msb = false)
    (hb : ∀ c ∈ b.bytes, c.msb = false) : SameHalf a b := by
  rintro common x y ⟨-, ⟨u, hu⟩, v, hv⟩
  rw [ha x (hu ▸ List.mem_append_right _ List.mem_cons_self),
    hb y (hv ▸ List.mem_append_right _ List.mem_cons_self)]

/-- Two commands of the shell that begin with the same letter. -/
theorem comparisons_agree_words :
    let peek : CString := ⟨['p', 'e', 'e', 'k'].map ascii, by decide, by decide⟩
    let pong : CString := ⟨['p', 'o', 'n', 'g'].map ascii, by decide, by decide⟩
    SameSign peek pong (fun i => peek.bytes.getD i 0) fun i => pong.bytes.getD i 0 := by
  intro peek pong
  exact (comparisons_agree_iff peek.at_getD pong.at_getD).1.mpr
    (sameHalf_of_ascii (by decide) (by decide))

/-- A byte from the upper half against one from the lower: `strcmp` and `memcmp` order them in
    opposite ways. -/
theorem comparisons_disagree :
    strcmp (fun i => if i = 0 then 0x80 else 0) (fun i => if i = 0 then 0x01 else 0) =
      some (-129) ∧
    strncmp (fun i => if i = 0 then 0x80 else 0) (fun i => if i = 0 then 0x01 else 0) 2 0 = -129 ∧
    memcmp (fun i => if i = 0 then 0x80 else 0) (fun i => if i = 0 then 0x01 else 0) 2 0 = 1 := by
  decide

end HorizonOS.Libc
