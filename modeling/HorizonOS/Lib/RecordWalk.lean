import Mathlib

/-!
# Walks over records that carry their own length

A table is walked from an offset up to its end, each record saying how far away the next one is.
Nothing keeps a record from having length 0, or from reaching over the end of the table.

* `walk`: the loop, `Reached`: the records it comes by.
* `walk_returns`, `walk_eq_none`: the loop ends exactly if no record reached has length 0, and then
  after at most as many turns as the table has bytes.
* `walk_map`: a part of the state on its own; `mem_walk_iff`: what the turns add to a log.
* `walk_of_layout`: on records that lie side by side up to the end, the loop is a fold over them.
-/

namespace HorizonOS.Lib.RecordWalk

section Walk

variable {σ : Type*} (stride : ℕ → ℕ) (stop : ℕ) (body : ℕ → σ → σ)

/-- `while (off < stop) { body; off += stride; }`; `none` if it is not over after `fuel` turns. -/
def walk : (fuel : ℕ) → ℕ → σ → Option σ
  | 0, off, s => if off < stop then none else some s
  | fuel + 1, off, s => if off < stop then walk fuel (off + stride off) (body off s) else some s

/-- The offsets below the end that the walk from `start` comes by. -/
inductive Reached (start : ℕ) : ℕ → Prop
  | first (h : start < stop) : Reached start start
  | next {off : ℕ} (h : Reached start off) (hlt : off + stride off < stop) :
    Reached start (off + stride off)

variable {stride stop body} {start off fuel : ℕ} {s s' : σ}

theorem walk_of_le (h : stop ≤ off) (fuel : ℕ) (s : σ) : walk stride stop body fuel off s = some s := by
  cases fuel with
  | zero => exact if_neg (Nat.not_lt.mpr h)
  | succ fuel => exact if_neg (Nat.not_lt.mpr h)

theorem walk_succ (h : off < stop) (fuel : ℕ) (s : σ) :
    walk stride stop body (fuel + 1) off s =
      walk stride stop body fuel (off + stride off) (body off s) :=
  if_pos h

theorem Reached.lt (h : Reached stride stop start off) : off < stop := by
  cases h with
  | first h => exact h
  | next _ hlt => exact hlt

/-- Seen from the second record on. -/
theorem Reached.tail (hlt : start < stop) (h : Reached stride stop (start + stride start) off) :
    Reached stride stop start off := by
  induction h with
  | first hnext => exact .next (.first hlt) hnext
  | next _ hoff ih => exact .next ih hoff

theorem reached_iff : Reached stride stop start off ↔
    start < stop ∧ (off = start ∨ Reached stride stop (start + stride start) off) := by
  constructor
  · intro h
    induction h with
    | first h => exact ⟨h, .inl rfl⟩
    | next _ hlt ih =>
      refine ⟨ih.1, .inr ?_⟩
      obtain heq | hreached := ih.2
      · subst heq
        exact .first hlt
      · exact .next hreached hlt
  · intro ⟨hlt, hoff⟩
    obtain rfl | hreached := hoff
    · exact .first hlt
    · exact hreached.tail hlt

theorem walk_returns (hpos : ∀ off, Reached stride stop start off → stride off ≠ 0)
    (hfuel : stop - start ≤ fuel) (s : σ) : ∃ s', walk stride stop body fuel start s = some s' := by
  induction fuel generalizing start s with
  | zero => exact ⟨s, walk_of_le (by omega) 0 s⟩
  | succ fuel ih =>
    by_cases hlt : start < stop
    · have hstart := hpos start (.first hlt)
      obtain ⟨s', hwalk⟩ := ih (fun off hoff => hpos off (hoff.tail hlt)) (by omega) (body start s)
      exact ⟨s', (walk_succ hlt fuel s).trans hwalk⟩
    · exact ⟨s, walk_of_le (Nat.not_lt.mp hlt) _ s⟩

theorem walk_eq_none (hoff : Reached stride stop start off) (hzero : stride off = 0) (fuel : ℕ)
    (s : σ) : walk stride stop body fuel start s = none := by
  have hlt := (reached_iff.mp hoff).1
  induction fuel generalizing start s with
  | zero => exact if_pos hlt
  | succ fuel ih =>
    rw [walk_succ hlt]
    have hnext : Reached stride stop (start + stride start) off := by
      obtain heq | hreached := (reached_iff.mp hoff).2
      · -- the walk stays at the record of length 0
        rw [← heq, hzero, Nat.add_zero]
        exact .first hoff.lt
      · exact hreached
    exact ih hnext (body start s) (reached_iff.mp hnext).1

/-- A part of the state that the turns change on its own is what the walk over that part gives. -/
theorem walk_map {τ : Type*} {f : σ → τ} {body' : ℕ → τ → τ}
    (hbody : ∀ off s, f (body off s) = body' off (f s)) (fuel off : ℕ) (s : σ) :
    (walk stride stop body fuel off s).map f = walk stride stop body' fuel off (f s) := by
  by_cases hlt : off < stop
  · induction fuel generalizing off s with
    | zero => rw [walk, walk, if_pos hlt, if_pos hlt, Option.map_none]
    | succ fuel ih =>
      rw [walk_succ hlt, walk_succ hlt, ← hbody]
      by_cases hnext : off + stride off < stop
      · exact ih _ _ hnext
      · rw [walk_of_le (Nat.not_lt.mp hnext), walk_of_le (Nat.not_lt.mp hnext), Option.map_some]
  · rw [walk_of_le (Nat.not_lt.mp hlt), walk_of_le (Nat.not_lt.mp hlt), Option.map_some]

/-- If every turn adds `adds off` to a log, the walk adds that of every record reached. -/
theorem mem_walk_iff {β : Type*} {log : σ → List β} {adds : ℕ → List β}
    (hbody : ∀ off s b, b ∈ log (body off s) ↔ b ∈ log s ∨ b ∈ adds off)
    (hwalk : walk stride stop body fuel start s = some s') (b : β) :
    b ∈ log s' ↔ b ∈ log s ∨ ∃ off, Reached stride stop start off ∧ b ∈ adds off := by
  induction fuel generalizing start s with
  | zero =>
    have hle : stop ≤ start := by
      by_contra hlt
      exact absurd (hwalk.symm.trans (if_pos (Nat.not_le.mp hlt))) (by simp)
    obtain rfl := Option.some.inj ((walk_of_le hle 0 s).symm.trans hwalk)
    exact ⟨.inl, fun h => h.resolve_right fun ⟨_, hoff, _⟩ => by
      have := (reached_iff.mp hoff).1
      omega⟩
  | succ fuel ih =>
    by_cases hlt : start < stop
    · rw [walk_succ hlt] at hwalk
      rw [ih hwalk, hbody, or_assoc]
      refine or_congr_right ⟨fun h => ?_, fun ⟨off, hoff, hb⟩ => ?_⟩
      · obtain hb | ⟨off, hoff, hb⟩ := h
        · exact ⟨start, .first hlt, hb⟩
        · exact ⟨off, hoff.tail hlt, hb⟩
      · obtain heq | hreached := (reached_iff.mp hoff).2
        · exact .inl (heq ▸ hb)
        · exact .inr ⟨off, hreached, hb⟩
    · obtain rfl := Option.some.inj ((walk_of_le (Nat.not_lt.mp hlt) _ s).symm.trans hwalk)
      exact ⟨.inl, fun h => h.resolve_right fun ⟨_, hoff, _⟩ => hlt (reached_iff.mp hoff).1⟩

end Walk

section Layout

variable {σ ρ : Type*} {stride : ℕ → ℕ}

/-- The records lie side by side from an offset on, and fill the table up to `stop`. -/
def Layout (stride : ℕ → ℕ) (lies : ℕ → ρ → Prop) : ℕ → List ρ → ℕ → Prop
  | off, [], stop => off = stop
  | off, r :: rs, stop => lies off r ∧ stride off ≠ 0 ∧ Layout stride lies (off + stride off) rs stop

theorem Layout.length_le {lies : ℕ → ρ → Prop} {off stop : ℕ} {rs : List ρ}
    (h : Layout stride lies off rs stop) : off + rs.length ≤ stop := by
  induction rs generalizing off with
  | nil => exact Nat.le_of_eq h
  | cons r rs ih =>
    obtain ⟨_, hpos, hrest⟩ := h
    have hle := ih hrest
    rw [List.length_cons]
    omega

/-- The walk over a layout is the fold over its records. -/
theorem walk_of_layout {lies : ℕ → ρ → Prop} {body : ℕ → σ → σ} {step : σ → ρ → σ}
    (hbody : ∀ off r s, lies off r → body off s = step s r) {off stop fuel : ℕ} {rs : List ρ}
    (h : Layout stride lies off rs stop) (hfuel : rs.length ≤ fuel) (s : σ) :
    walk stride stop body fuel off s = some (rs.foldl step s) := by
  induction rs generalizing off fuel s with
  | nil => exact walk_of_le (Nat.le_of_eq (Eq.symm h)) fuel s
  | cons r rs ih =>
    have hle := h.length_le
    obtain ⟨hlies, hpos, hrest⟩ := h
    rw [List.length_cons] at hfuel hle
    obtain ⟨fuel, rfl⟩ := Nat.exists_eq_succ_of_ne_zero (by omega : fuel ≠ 0)
    rw [walk_succ (by omega), hbody off r s hlies]
    exact ih hrest (by omega) (step s r)

end Layout

end HorizonOS.Lib.RecordWalk
