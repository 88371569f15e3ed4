import Mathlib.Data.Nat.Init
import Mathlib.Data.Sum.Basic

/-!
# Loops that may not end

A loop is given by its body: from a state, one round fails (`none`), returns a value, or goes on
with another state. `run body fuel` does at most `fuel` rounds.

* `Returns.unique`: it does not depend on the number of rounds what the loop returns.
* `Keeps body I Q`: from the states of `I`, one round does not fail, goes on in `I` only and returns
  values of `Q` only.
* `Keeps.run`: so does every number of rounds.
* `Keeps.returns`: with a variant the loop returns.
* `Keeps.not_returns`: if a round from `I` never returns, neither does the loop.
-/

namespace HorizonOS.Lib.Loop

variable {σ ρ : Type*}

/-- The loop with `fuel` rounds at most: what it returns, or the state it has come to. -/
def run (body : σ → Option (ρ ⊕ σ)) : (fuel : ℕ) → σ → Option (ρ ⊕ σ)
  | 0, s => some (.inr s)
  | fuel + 1, s =>
    match body s with
    | none => none
    | some (.inl r) => some (.inl r)
    | some (.inr s) => run body fuel s

/-- The loop returns `r`. -/
def Returns (body : σ → Option (ρ ⊕ σ)) (s : σ) (r : ρ) : Prop :=
  ∃ fuel, run body fuel s = some (.inl r)

/-- `I` is an invariant of the body, and what it returns satisfies `Q`. -/
def Keeps (body : σ → Option (ρ ⊕ σ)) (I : σ → Prop) (Q : ρ → Prop) : Prop :=
  ∀ s, I s → ∃ out, body s = some out ∧ out.elim Q I

variable {body : σ → Option (ρ ⊕ σ)} {I : σ → Prop} {Q : ρ → Prop} {s : σ}

theorem Returns.unique {r r' : ρ} (h : Returns body s r) (h' : Returns body s r') : r = r' := by
  obtain ⟨fuel, hrun⟩ := h
  obtain ⟨fuel', hrun'⟩ := h'
  induction fuel generalizing fuel' s with
  | zero => cases hrun
  | succ fuel ih =>
    cases fuel' with
    | zero => cases hrun'
    | succ fuel' =>
      rw [run] at hrun hrun'
      cases hbody : body s with
      | none =>
        rw [hbody] at hrun
        cases hrun
      | some out =>
        rw [hbody] at hrun hrun'
        cases out with
        | inl q =>
          cases hrun
          cases hrun'
          rfl
        | inr s' => exact ih hrun fuel' hrun'

namespace Keeps

theorem run (h : Keeps body I Q) (hs : I s) (fuel : ℕ) :
    ∃ out, run body fuel s = some out ∧ out.elim Q I := by
  induction fuel generalizing s with
  | zero => exact ⟨.inr s, rfl, hs⟩
  | succ fuel ih =>
    obtain ⟨out, hbody, hout⟩ := h s hs
    cases out with
    | inl r => exact ⟨.inl r, by rw [Loop.run, hbody], hout⟩
    | inr s' =>
      obtain ⟨out', hrun, hout'⟩ := ih hout
      exact ⟨out', by rw [Loop.run, hbody]; exact hrun, hout'⟩

theorem of_returns (h : Keeps body I Q) (hs : I s) {r : ρ} (hr : Returns body s r) : Q r := by
  obtain ⟨fuel, hrun⟩ := hr
  obtain ⟨out, hrun', hout⟩ := h.run hs fuel
  cases hrun.symm.trans hrun'
  exact hout

theorem not_returns (h : Keeps body I fun _ => False) (hs : I s) (r : ρ) : ¬Returns body s r :=
  h.of_returns hs

/-- A variant bounds the number of rounds. -/
theorem returns (h : Keeps body I Q) (variant : σ → ℕ)
    (hvar : ∀ s s', I s → body s = some (.inr s') → variant s' < variant s) (hs : I s) :
    ∃ r, Returns body s r ∧ Q r := by
  induction hn : variant s using Nat.strong_induction_on generalizing s with
  | _ n ih =>
    obtain ⟨out, hbody, hout⟩ := h s hs
    cases out with
    | inl r => exact ⟨r, ⟨1, by rw [Loop.run, hbody]⟩, hout⟩
    | inr s' =>
      obtain ⟨r, ⟨fuel, hrun⟩, hr⟩ := ih (variant s') (hn ▸ hvar s s' hs hbody) hout rfl
      exact ⟨r, ⟨fuel + 1, by rw [Loop.run, hbody]; exact hrun⟩, hr⟩

end Keeps

end HorizonOS.Lib.Loop
