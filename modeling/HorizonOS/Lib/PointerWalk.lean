import Mathlib

/-!
# Following pointers and moving them

A loop that looks at the word in a slot and, while that word lies in some range, moves it and
goes on in the slot it now points to. What the words hold is arbitrary: the pointers may be
cyclic, or no pointers at all.

The loop ends if every word it moves leaves the range: a slot visited twice is then the last.
The measure is the number of slots whose words are in range.

* `Moves.step`: one iteration stays on the given slots and takes one word out of the range.
* `walk_returns`: the loop ends within as many iterations as there are slots.
* `words`: the slots of an array of words.
-/

namespace HorizonOS.Lib

section Walk

variable {M α : Type*} (load : M → α → α) (store : M → α → α → M)
  (inRange : α → Prop) [DecidablePred inRange] (move : α → α)

/-- `while (inRange *slot) { *slot = move *slot; slot = *slot; }`, at most `fuel` tests of the
    condition. -/
def walk : (fuel : ℕ) → M → (slot : α) → Option M
  | 0, _, _ => none
  | fuel + 1, m, slot =>
    if inRange (load m slot) then
      let m' := store m slot (move (load m slot))
      walk fuel m' (load m' slot)
    else some m

/-- The slots that the loop reads, in order. -/
def walkSlots : (fuel : ℕ) → M → (slot : α) → List α
  | 0, _, _ => []
  | fuel + 1, m, slot =>
    slot ::
      if inRange (load m slot) then
        let m' := store m slot (move (load m slot))
        walkSlots fuel m' (load m' slot)
      else []

/-- The slots of `S` are words of their own, a word that is moved leaves the range, and a word of
    `S` in the range is moved to a slot of `S`. -/
structure Moves (S : Finset α) (m : M) : Prop where
  load_self : ∀ m : M, ∀ a ∈ S, ∀ v, load (store m a v) a = v
  load_ne : ∀ m : M, ∀ a ∈ S, ∀ b ∈ S, a ≠ b → ∀ v, load (store m a v) b = load m b
  leaves : ∀ a ∈ S, inRange (load m a) → ¬ inRange (move (load m a))
  stays : ∀ a ∈ S, inRange (load m a) → move (load m a) ∈ S

/-- The slots of `S` whose words are in range. -/
def pointing (S : Finset α) (m : M) : Finset α := S.filter fun a => inRange (load m a)

variable {load store inRange move} {S : Finset α} {m : M} {slot : α}

/-- One iteration. -/
theorem Moves.step (h : Moves load store inRange move S m) (hslot : slot ∈ S)
    (hin : inRange (load m slot)) :
    let m' := store m slot (move (load m slot))
    Moves load store inRange move S m' ∧ load m' slot ∈ S ∧
      (pointing load inRange S m').card < (pointing load inRange S m).card := by
  intro m'
  have hself : load m' slot = move (load m slot) := h.load_self m slot hslot _
  have hout : ¬ inRange (load m' slot) := by
    rw [hself]
    exact h.leaves slot hslot hin
  have hne : ∀ a ∈ S, a ≠ slot → load m' a = load m a := fun a ha hne =>
    h.load_ne m slot hslot a ha hne.symm _
  -- a word of `S` that is in range after the iteration is not the one just moved
  have hkept : ∀ a ∈ S, inRange (load m' a) → load m' a = load m a := by
    intro a ha hr
    apply hne a ha
    rintro rfl
    exact hout hr
  refine ⟨⟨h.load_self, h.load_ne, ?_, ?_⟩, ?_, ?_⟩
  · intro a ha hr
    have heq := hkept a ha hr
    rw [heq] at hr ⊢
    exact h.leaves a ha hr
  · intro a ha hr
    have heq := hkept a ha hr
    rw [heq] at hr ⊢
    exact h.stays a ha hr
  · rw [hself]
    exact h.stays slot hslot hin
  · have hsub : pointing load inRange S m' ⊆ pointing load inRange S m := by
      intro a ha
      obtain ⟨ha, hr⟩ := Finset.mem_filter.mp ha
      rw [hkept a ha hr] at hr
      exact Finset.mem_filter.mpr ⟨ha, hr⟩
    refine Finset.card_lt_card ((Finset.ssubset_iff_of_subset hsub).mpr ⟨slot, ?_, ?_⟩)
    · exact Finset.mem_filter.mpr ⟨hslot, hin⟩
    · intro hmem
      exact hout (Finset.mem_filter.mp hmem).2

theorem walk_of_pointing_lt (h : Moves load store inRange move S m) (hslot : slot ∈ S) {fuel : ℕ}
    (hfuel : (pointing load inRange S m).card < fuel) :
    (∃ m', walk load store inRange move fuel m slot = some m') ∧
      ∀ a ∈ walkSlots load store inRange move fuel m slot, a ∈ S := by
  induction fuel generalizing m slot with
  | zero => exact absurd hfuel (Nat.not_lt_zero _)
  | succ fuel ih =>
    by_cases hin : inRange (load m slot)
    · obtain ⟨hmoves, hnext, hlt⟩ := h.step hslot hin
      obtain ⟨hwalk, hslots⟩ := ih hmoves hnext (by omega)
      simp only [walk, walkSlots, if_pos hin]
      refine ⟨hwalk, fun a ha => ?_⟩
      rcases List.mem_cons.mp ha with rfl | ha
      · exact hslot
      · exact hslots a ha
    · simp only [walk, walkSlots, if_neg hin]
      refine ⟨⟨m, rfl⟩, fun a ha => ?_⟩
      rwa [List.mem_singleton.mp ha]

/-- The loop ends within `S.card` iterations and reads only slots of `S`. -/
theorem walk_returns (h : Moves load store inRange move S m) (hslot : slot ∈ S) {fuel : ℕ}
    (hfuel : S.card < fuel) :
    (∃ m', walk load store inRange move fuel m slot = some m') ∧
      ∀ a ∈ walkSlots load store inRange move fuel m slot, a ∈ S :=
  walk_of_pointing_lt h hslot (lt_of_le_of_lt (Finset.card_filter_le _ _) hfuel)

end Walk

/-! ## Arrays of words -/

section Words

variable {w : ℕ} {base : BitVec w} {k n : ℕ}

/-- The addresses of `n` words of `k` bytes from `base` on. -/
def words (base : BitVec w) (k n : ℕ) : Finset (BitVec w) :=
  (Finset.range n).image fun i => base + BitVec.ofNat w (k * i)

theorem card_words_le (base : BitVec w) (k n : ℕ) : (words base k n).card ≤ n :=
  Finset.card_image_le.trans_eq (Finset.card_range n)

theorem mem_words {a : BitVec w} : a ∈ words base k n ↔ ∃ i < n, a = base + BitVec.ofNat w (k * i) := by
  simp only [words, Finset.mem_image, Finset.mem_range, eq_comm]

/-- An address that lies a whole number of words above `base`. -/
theorem mem_words_of_toNat {a : BitVec w} (hle : base.toNat ≤ a.toNat)
    (hlt : a.toNat < base.toNat + k * n) (hdvd : k ∣ a.toNat - base.toNat) : a ∈ words base k n := by
  obtain ⟨i, hi⟩ := hdvd
  refine mem_words.mpr ⟨i, ?_, ?_⟩
  · by_contra hge
    have := Nat.mul_le_mul_left k (Nat.le_of_not_lt hge)
    omega
  · apply BitVec.eq_of_toNat_eq
    have ha := a.isLt
    rw [BitVec.toNat_add, BitVec.toNat_ofNat, ← hi, Nat.mod_eq_of_lt (a := a.toNat - base.toNat)
      (by omega), Nat.add_sub_cancel' hle, Nat.mod_eq_of_lt ha]

theorem words_add (d : BitVec w) : words (base + d) k n = (words base k n).image (· + d) := by
  rw [words, words, Finset.image_image]
  exact Finset.image_congr fun i _ => add_right_comm _ _ _

end Words

end HorizonOS.Lib
