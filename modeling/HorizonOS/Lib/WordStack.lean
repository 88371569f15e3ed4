import HorizonOS.Lib.Memory

/-!
# Words on a stack

A downward growing stack of 64-bit words in a byte memory. `WordsAt m sp ws` says
that the words `ws` lie from `sp` upwards, the top of the stack first.

* `WordsAt.push`: a push puts its word in front.
* `WordsAt.pushWords`: so a row of pushes leaves its words in reverse order.
* `WordsAt.congr`: words depend only on their own bytes.
-/

namespace HorizonOS.Lib.Mem

/-- The words `ws` lie from `sp` upwards. -/
def WordsAt (m : Mem) : Addr → List Word → Prop
  | _, [] => True
  | sp, w :: ws => m.load sp = w ∧ WordsAt m (sp + 8#64) ws

/-- Store the words of `ws` one below the other, the first one right below `sp`. -/
def pushWords (m : Mem) (sp : Addr) : List Word → Mem
  | [] => m
  | w :: ws => pushWords (m.store (sp - 8#64) w) (sp - 8#64) ws

section

variable {m m' : Mem} {sp : Addr} {w : Word} {ws vs : List Word}

theorem wordsAt_append : WordsAt m sp (ws ++ vs) ↔
    WordsAt m sp ws ∧ WordsAt m (sp + BitVec.ofNat 64 (8 * ws.length)) vs := by
  induction ws generalizing sp with
  | nil => simp [WordsAt]
  | cons w ws ih =>
    have hsp : sp + 8#64 + BitVec.ofNat 64 (8 * ws.length) =
        sp + BitVec.ofNat 64 (8 * (w :: ws).length) := by
      rw [List.length_cons, Nat.mul_succ, Nat.add_comm, BitVec.ofNat_add, add_assoc]
    rw [List.cons_append, WordsAt, WordsAt, ih, hsp, and_assoc]

/-- Words depend only on their own bytes. -/
theorem WordsAt.congr (h : WordsAt m sp ws)
    (hm : ∀ k < 8 * ws.length, m' (sp + BitVec.ofNat 64 k) = m (sp + BitVec.ofNat 64 k)) :
    WordsAt m' sp ws := by
  induction ws generalizing sp with
  | nil => trivial
  | cons w ws ih =>
    obtain ⟨hw, hrest⟩ := h
    rw [List.length_cons] at hm
    refine ⟨?_, ih hrest fun k hk => ?_⟩
    · rw [← hw]
      exact load_congr fun i hi => hm i (by omega)
    · rw [add_assoc, ← BitVec.ofNat_add]
      exact hm (8 + k) (by omega)

theorem WordsAt.load (h : WordsAt m sp ws) {i : ℕ} {w : Word} (hi : ws[i]? = some w) :
    m.load (sp + BitVec.ofNat 64 (8 * i)) = w := by
  induction ws generalizing sp i with
  | nil => simp at hi
  | cons v ws ih =>
    cases i with
    | zero =>
      obtain rfl : v = w := by simpa using hi
      rw [Nat.mul_zero, BitVec.add_zero]
      exact h.1
    | succ i =>
      rw [Nat.mul_succ, Nat.add_comm, BitVec.ofNat_add, ← add_assoc]
      exact ih h.2 (by simpa using hi)

/-- A push puts its word in front, as long as the stack does not reach around the
    whole memory. -/
theorem WordsAt.push (h : WordsAt m sp ws) (w : Word) (hlen : 8 * ws.length + 8 ≤ 2 ^ 64) :
    WordsAt (m.store (sp - 8#64) w) (sp - 8#64) (w :: ws) := by
  refine ⟨load_store_self m _ w, ?_⟩
  rw [sub_add_cancel]
  refine h.congr fun k hk => store_apply_of_not_within ?_
  have hk' : (sp + BitVec.ofNat 64 k - (sp - 8#64)).toNat = 8 + k := by
    rw [show sp + BitVec.ofNat 64 k - (sp - 8#64) = BitVec.ofNat 64 (8 + k) by
      rw [BitVec.ofNat_add]; abel, BitVec.toNat_ofNat]
    omega
  unfold Within
  omega

theorem sub_ofNat_succ (sp : Addr) (n : ℕ) :
    sp - 8#64 - BitVec.ofNat 64 (8 * n) = sp - BitVec.ofNat 64 (8 * (n + 1)) := by
  rw [Nat.mul_succ, Nat.add_comm, BitVec.ofNat_add, sub_sub]

/-- A row of pushes leaves its words in reverse order on top of the stack. -/
theorem WordsAt.pushWords (h : WordsAt m sp ws) (vs : List Word)
    (hlen : 8 * (vs.length + ws.length) ≤ 2 ^ 64) :
    WordsAt (m.pushWords sp vs) (sp - BitVec.ofNat 64 (8 * vs.length)) (vs.reverse ++ ws) := by
  induction vs generalizing m sp ws with
  | nil => simpa [Mem.pushWords] using h
  | cons v vs ih =>
    rw [List.length_cons] at hlen
    have hpushed := ih (h.push v (by omega)) (by rw [List.length_cons]; omega)
    rw [sub_ofNat_succ] at hpushed
    rw [List.reverse_cons, List.append_assoc]
    exact hpushed

/-- Pushes write only below the stack pointer. -/
theorem pushWords_apply {b : Addr} (hlen : 8 * vs.length ≤ 2 ^ 64)
    (h : ¬ Within (sp - BitVec.ofNat 64 (8 * vs.length)) (8 * vs.length) b) :
    m.pushWords sp vs b = m b := by
  induction vs generalizing m sp with
  | nil => rfl
  | cons v vs ih =>
    rw [List.length_cons] at hlen h
    rw [← sub_ofNat_succ] at h
    have hb : ∀ k n : ℕ, k + n ≤ 8 * (vs.length + 1) →
        ¬ Within (sp - 8#64 - BitVec.ofNat 64 (8 * vs.length) + BitVec.ofNat 64 k) n b :=
      fun k n hk hw => h (within_of_within_add hw hk hlen)
    rw [pushWords, ih (by omega) (by simpa using hb 0 (8 * vs.length) (by omega))]
    apply store_apply_of_not_within
    simpa using hb (8 * vs.length) 8 (by omega)

end

end HorizonOS.Lib.Mem
