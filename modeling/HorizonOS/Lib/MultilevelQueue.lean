import Mathlib

/-!
# Multilevel feedback queues

Items queue up on levels. The first item of the least level that is not empty is picked, is served,
and goes back to the tail of a later level, or of the same level if that is the last one; it may also
leave for good, and items not seen before may arrive at any level at any time.

* `Run.picks_nodup`, `Run.le_of_mem_picks`: while an item waits, every other one is picked at most once
  at each level up to its own.
* `Run.length_picks_le`: the number of picks it can have to wait for.
* `Run.picks_rotate`: items that are all on the last level are picked in rotation.
-/

namespace HorizonOS.Lib.MultilevelQueue

variable {α ι : Type*}

/-- The queues, the item that is served with the level it goes back to, and the items that have
    been queued before. -/
structure State (α ι : Type*) where
  queue : ι → List α
  hand : Option (α × ι)
  seen : Set α

inductive Op (α ι : Type*)
  | pick (a : α) (i : ι)
  | put (a : α) (i : ι)
  | drop (a : α)
  | arrive (a : α) (i : ι)

/-- The picks among the operations. -/
def picks (ops : List (Op α ι)) : List (α × ι) :=
  ops.filterMap fun op =>
    match op with
    | .pick a i => some (a, i)
    | _ => none

@[simp] theorem picks_append (ops ops' : List (Op α ι)) :
    picks (ops ++ ops') = picks ops ++ picks ops' := List.filterMap_append

section Step

variable [LinearOrder ι]

/-- One operation; `next i` is where an item goes back to that was picked at `i`. -/
inductive Step (next : ι → ι) (σ : State α ι) : Op α ι → State α ι → Prop
  | pick {a : α} {i : ι} {xs : List α} (hfirst : ∀ j < i, σ.queue j = []) (hi : σ.queue i = a :: xs)
      (hhand : σ.hand = none) :
      Step next σ (.pick a i)
        { σ with queue := Function.update σ.queue i xs, hand := some (a, next i) }
  | put {a : α} {i : ι} (hhand : σ.hand = some (a, i)) :
      Step next σ (.put a i)
        { σ with queue := Function.update σ.queue i (σ.queue i ++ [a]), hand := none }
  | drop {a : α} {i : ι} (hhand : σ.hand = some (a, i)) :
      Step next σ (.drop a) { σ with hand := none }
  | arrive {a : α} {i : ι} (hnew : a ∉ σ.seen) :
      Step next σ (.arrive a i)
        { σ with
          queue := Function.update σ.queue i (σ.queue i ++ [a])
          seen := insert a σ.seen }

inductive Run (next : ι → ι) (σ : State α ι) : List (Op α ι) → State α ι → Prop
  | nil : Run next σ [] σ
  | snoc {ops : List (Op α ι)} {op : Op α ι} {σ₁ σ₂ : State α ι} (hrun : Run next σ ops σ₁)
      (hstep : Step next σ₁ op σ₂) : Run next σ (ops ++ [op]) σ₂

/-- No item is in two places, and what is somewhere has been seen. -/
structure Valid (σ : State α ι) : Prop where
  nodup : ∀ i, (σ.queue i).Nodup
  unique : ∀ {a i j}, a ∈ σ.queue i → a ∈ σ.queue j → i = j
  hand : ∀ {a i}, σ.hand = some (a, i) → a ∈ σ.seen ∧ ∀ j, a ∉ σ.queue j
  seen : ∀ {a i}, a ∈ σ.queue i → a ∈ σ.seen

variable {next : ι → ι} {σ σ₁ σ₂ : State α ι} {op : Op α ι} {ops ops' : List (Op α ι)}

theorem mem_update_append {q : ι → List α} {a r : α} {i j : ι} :
    r ∈ Function.update q i (q i ++ [a]) j ↔ r ∈ q j ∨ r = a ∧ j = i := by
  by_cases hj : j = i
  · subst hj
    simp
  · simp [hj]

theorem mem_of_mem_update_tail {q : ι → List α} {a r : α} {xs : List α} {i j : ι}
    (hi : q i = a :: xs) (hr : r ∈ Function.update q i xs j) : r ∈ q j := by
  by_cases hj : j = i
  · subst hj
    rw [Function.update_self] at hr
    rw [hi]
    exact List.mem_cons_of_mem a hr
  · rwa [Function.update_of_ne hj] at hr

/-- The item that is picked is in no queue any more. -/
theorem Valid.not_mem_update_tail (h : Valid σ) {a : α} {xs : List α} {i : ι}
    (hi : σ.queue i = a :: xs) (j : ι) : a ∉ Function.update σ.queue i xs j := by
  intro hj
  obtain rfl := h.unique (mem_of_mem_update_tail hi hj) (hi ▸ List.mem_cons_self)
  rw [Function.update_self] at hj
  have hnodup := h.nodup j
  rw [hi, List.nodup_cons] at hnodup
  exact hnodup.1 hj

/-- An item that is nowhere goes to the tail of a level. -/
theorem Valid.append (h : Valid σ) {a : α} (ha : ∀ j, a ∉ σ.queue j) (i : ι) :
    (∀ j, (Function.update σ.queue i (σ.queue i ++ [a]) j).Nodup) ∧
      ∀ {r j k}, r ∈ Function.update σ.queue i (σ.queue i ++ [a]) j →
        r ∈ Function.update σ.queue i (σ.queue i ++ [a]) k → j = k := by
  constructor
  · intro j
    by_cases hj : j = i
    · subst hj
      rw [Function.update_self]
      exact (h.nodup j).append (List.nodup_singleton a) (by simpa using ha j)
    · rw [Function.update_of_ne hj]
      exact h.nodup j
  · intro r j k hj hk
    rw [mem_update_append] at hj hk
    rcases hj with hj | ⟨rfl, rfl⟩ <;> rcases hk with hk | ⟨hr, rfl⟩
    · exact h.unique hj hk
    · exact absurd (hr ▸ hj) (ha j)
    · exact absurd hk (ha k)
    · rfl

theorem Step.valid (h : Step next σ op σ₁) (hv : Valid σ) : Valid σ₁ := by
  cases h with
  | @pick a i xs hfirst hi hhand =>
    refine ⟨fun j => ?_, fun ha hb => ?_, fun ha => ?_, fun ha => ?_⟩
    · by_cases hj : j = i
      · subst hj
        have hnodup := hv.nodup j
        rw [hi, List.nodup_cons] at hnodup
        simpa using hnodup.2
      · simpa [Function.update_of_ne hj] using hv.nodup j
    · exact hv.unique (mem_of_mem_update_tail hi ha) (mem_of_mem_update_tail hi hb)
    · obtain ⟨rfl, -⟩ := Prod.mk.inj (Option.some.inj ha)
      exact ⟨hv.seen (hi ▸ List.mem_cons_self), hv.not_mem_update_tail hi⟩
    · exact hv.seen (mem_of_mem_update_tail hi ha)
  | @put a i hhand =>
    obtain ⟨hseen, hout⟩ := hv.hand hhand
    obtain ⟨hnodup, hunique⟩ := hv.append hout i
    refine ⟨hnodup, hunique, fun ha => absurd ha (by simp), fun {r j} ha => ?_⟩
    rcases mem_update_append.mp ha with ha | ⟨rfl, -⟩
    · exact hv.seen ha
    · exact hseen
  | drop hhand => exact ⟨hv.nodup, hv.unique, fun ha => absurd ha (by simp), hv.seen⟩
  | @arrive a i hnew =>
    obtain ⟨hnodup, hunique⟩ := hv.append (fun j hj => hnew (hv.seen hj)) i
    refine ⟨hnodup, hunique, fun {r j} ha => ?_, fun {r j} ha => ?_⟩
    · obtain ⟨hseen, hout⟩ := hv.hand ha
      refine ⟨Set.mem_insert_of_mem a hseen, fun k hk => ?_⟩
      rcases mem_update_append.mp hk with hk | ⟨rfl, -⟩
      · exact hout k hk
      · exact hnew hseen
    · rcases mem_update_append.mp ha with ha | ⟨rfl, -⟩
      · exact Set.mem_insert_of_mem a (hv.seen ha)
      · exact Set.mem_insert r _

theorem Run.valid (h : Run next σ ops σ₁) (hv : Valid σ) : Valid σ₁ := by
  induction h with
  | nil => exact hv
  | snoc _ hstep ih => exact hstep.valid ih

theorem Run.append (h : Run next σ ops σ₁) (h' : Run next σ₁ ops' σ₂) :
    Run next σ (ops ++ ops') σ₂ := by
  induction h' with
  | nil => simpa using h
  | snoc _ hstep ih =>
    rw [← List.append_assoc]
    exact ih.snoc hstep

theorem Run.snoc_inv (h : Run next σ (ops ++ [op]) σ₂) :
    ∃ σ₁, Run next σ ops σ₁ ∧ Step next σ₁ op σ₂ := by
  generalize hl : ops ++ [op] = l at h
  cases h with
  | nil => simp at hl
  | snoc hrun hstep =>
    obtain ⟨rfl, hop⟩ := List.append_inj' hl rfl
    obtain rfl := List.singleton_inj.mp hop
    exact ⟨_, hrun, hstep⟩

theorem Run.step_of_singleton (h : Run next σ [op] σ₁) : Step next σ op σ₁ := by
  obtain ⟨σ₀, hnil, hstep⟩ : ∃ σ₀, Run next σ [] σ₀ ∧ Step next σ₀ op σ₁ := h.snoc_inv
  generalize hl : ([] : List (Op α ι)) = l at hnil
  cases hnil with
  | nil => exact hstep
  | snoc => simp at hl

theorem Run.append_inv (h : Run next σ (ops ++ ops') σ₂) :
    ∃ σ₁, Run next σ ops σ₁ ∧ Run next σ₁ ops' σ₂ := by
  induction ops' using List.reverseRecOn generalizing σ₂ with
  | nil => exact ⟨σ₂, by simpa using h, .nil⟩
  | append_singleton ops' op ih =>
    rw [← List.append_assoc] at h
    obtain ⟨σ₁, hrun, hstep⟩ := h.snoc_inv
    obtain ⟨σ₀, hfirst, hsecond⟩ := ih hrun
    exact ⟨σ₀, hfirst, hsecond.snoc hstep⟩

theorem Step.seen_subset (h : Step next σ op σ₁) : σ.seen ⊆ σ₁.seen := by
  cases h with
  | arrive hnew => exact Set.subset_insert _ _
  | _ => exact subset_rfl

/-- Only an item that was not there before arrives. -/
theorem Run.arrive_not_seen {a : α} {i : ι} (h : Run next σ ops σ₁) :
    σ.seen ⊆ σ₁.seen ∧ (.arrive a i ∈ ops → a ∉ σ.seen) := by
  induction h with
  | nil => exact ⟨subset_rfl, fun ha => absurd ha List.not_mem_nil⟩
  | snoc _ hstep ih =>
    refine ⟨ih.1.trans hstep.seen_subset, fun ha => ?_⟩
    rcases List.mem_append.mp ha with ha | ha
    · exact ih.2 ha
    · obtain rfl := List.mem_singleton.mp ha
      cases hstep with
      | arrive hnew => exact fun hs => hnew (ih.1 hs)

/-- The item waits or is served. -/
def Present (σ : State α ι) (a : α) : Prop := (∃ i, a ∈ σ.queue i) ∨ ∃ i, σ.hand = some (a, i)

theorem Step.present (h : Step next σ op σ₁) (hop : ∀ a i, op ≠ .arrive a i) {a : α}
    (ha : Present σ₁ a) : Present σ a := by
  cases h with
  | pick hfirst hi hhand =>
    rcases ha with ⟨j, hj⟩ | ⟨j, hj⟩
    · exact .inl ⟨j, mem_of_mem_update_tail hi hj⟩
    · obtain ⟨rfl, -⟩ := Prod.mk.inj (Option.some.inj hj)
      exact .inl ⟨_, hi ▸ List.mem_cons_self⟩
  | put hhand =>
    rcases ha with ⟨j, hj⟩ | ⟨j, hj⟩
    · rcases mem_update_append.mp hj with hj | ⟨rfl, -⟩
      · exact .inl ⟨j, hj⟩
      · exact .inr ⟨_, hhand⟩
    · cases hj
  | drop hhand => exact ha.imp_right fun hj => by simp at hj
  | arrive hnew => exact absurd rfl (hop _ _)

/-- What leaves was there at the start if nothing arrived. -/
theorem Run.present_of_drop {a : α} (h : Run next σ ops σ₁)
    (hops : ∀ op ∈ ops, ∀ a i, op ≠ .arrive a i) :
    (Present σ₁ a → Present σ a) ∧ (.drop a ∈ ops → Present σ a) := by
  induction h with
  | nil => exact ⟨id, fun ha => absurd ha List.not_mem_nil⟩
  | snoc _ hstep ih =>
    obtain ⟨hpresent, hdrop⟩ := ih fun op hop => hops op (List.mem_append_left _ hop)
    refine ⟨fun ha => hpresent (hstep.present (hops _ (by simp)) ha), fun ha => ?_⟩
    rcases List.mem_append.mp ha with ha | ha
    · exact hdrop ha
    · obtain rfl := List.mem_singleton.mp ha
      cases hstep with
      | drop hhand => exact hpresent (.inr ⟨_, hhand⟩)

/-! ## Waiting -/

variable {p r : α} {L l : ι}

/-- A pick comes from a level no later than that of an item that waits. -/
theorem le_of_pick {i : ι} (hfirst : ∀ j < i, σ.queue j = []) (hp : p ∈ σ.queue L) :
    i ≤ L := by
  by_contra hlt
  rw [hfirst L (not_le.mp hlt)] at hp
  exact absurd hp List.not_mem_nil

/-- An item waits until it is picked. -/
theorem Step.waits (h : Step next σ op σ₁) (hp : p ∈ σ.queue L) (hop : ∀ i, op ≠ .pick p i) :
    p ∈ σ₁.queue L := by
  cases h with
  | @pick a i xs hfirst hi hhand =>
    have hap : p ≠ a := fun he => hop i (he ▸ rfl)
    by_cases hL : L = i
    · subst hL
      rw [hi] at hp
      simpa using (List.mem_cons.mp hp).resolve_left hap
    · simpa [Function.update_of_ne hL] using hp
  | put hhand => exact mem_update_append.mpr (.inl hp)
  | drop hhand => exact hp
  | arrive hnew => exact mem_update_append.mpr (.inl hp)

section Waiting

variable [DecidableEq α]

/-- While `p` waits on level `L`, the item `r` can still be picked at level `l` before it: on its
    own level only the items ahead of it, on an earlier level those that have not passed it. -/
def MayPick (σ : State α ι) (p : α) (L : ι) (r : α) (l : ι) : Prop :=
  (l = L ∧ r ∈ (σ.queue L).takeWhile (· ≠ p)) ∨
  (l < L ∧ (r ∉ σ.seen ∨ (∃ i ≤ l, r ∈ σ.queue i) ∨ ∃ i ≤ l, σ.hand = some (r, i)))

theorem MayPick.le (h : MayPick σ p L r l) : l ≤ L := by
  rcases h with ⟨rfl, -⟩ | ⟨hl, -⟩
  · exact le_rfl
  · exact hl.le

theorem takeWhile_append_of_mem {xs : List α} (hp : p ∈ xs) (ys : List α) :
    (xs ++ ys).takeWhile (· ≠ p) = xs.takeWhile (· ≠ p) := by
  induction xs with
  | nil => cases hp
  | cons x xs ih =>
    by_cases hx : x = p
    · simp [hx]
    · have hp' : p ∈ xs := (List.mem_cons.mp hp).resolve_left (Ne.symm hx)
      simpa [hx] using ih hp'

/-- What joins a level stands behind an item that waits there. -/
theorem takeWhile_update_append (hp : p ∈ σ.queue L) (a : α) (i : ι) :
    (Function.update σ.queue i (σ.queue i ++ [a]) L).takeWhile (· ≠ p) =
      (σ.queue L).takeWhile (· ≠ p) := by
  by_cases hi : L = i
  · subst hi
    rw [Function.update_self]
    exact takeWhile_append_of_mem hp [a]
  · rw [Function.update_of_ne hi]

/-- No step makes a pick possible. -/
theorem Step.mayPick (h : Step next σ op σ₁) (hp : p ∈ σ.queue L)
    (hop : ∀ i, op ≠ .pick p i) (hnext : ∀ i, i ≤ next i) (hmay : MayPick σ₁ p L r l) :
    MayPick σ p L r l := by
  cases h with
  | @pick a i xs hfirst hi hhand =>
    rcases hmay with ⟨hl, hr⟩ | ⟨hl, hr⟩
    · refine .inl ⟨hl, ?_⟩
      by_cases hL : L = i
      · subst hL
        have hap : a ≠ p := fun he => hop L (he ▸ rfl)
        have hr : r ∈ xs.takeWhile (· ≠ p) := by simpa using hr
        rw [hi, List.takeWhile_cons_of_pos (by simpa using hap)]
        exact List.mem_cons_of_mem a hr
      · simpa [Function.update_of_ne hL] using hr
    · refine .inr ⟨hl, ?_⟩
      rcases hr with hr | ⟨j, hj, hr⟩ | ⟨j, hj, hr⟩
      · exact .inl hr
      · exact .inr (.inl ⟨j, hj, mem_of_mem_update_tail hi hr⟩)
      · obtain ⟨rfl, rfl⟩ := Prod.mk.inj (Option.some.inj hr)
        exact .inr (.inl ⟨i, (hnext i).trans hj, hi ▸ List.mem_cons_self⟩)
  | @put a i hhand =>
    rcases hmay with ⟨hl, hr⟩ | ⟨hl, hr⟩
    · exact .inl ⟨hl, takeWhile_update_append hp a i ▸ hr⟩
    · refine .inr ⟨hl, ?_⟩
      rcases hr with hr | ⟨j, hj, hr⟩ | ⟨j, hj, hr⟩
      · exact .inl hr
      · rcases mem_update_append.mp hr with hr | ⟨rfl, rfl⟩
        · exact .inr (.inl ⟨j, hj, hr⟩)
        · exact .inr (.inr ⟨j, hj, hhand⟩)
      · cases hr
  | drop hhand =>
    refine hmay.imp_right (And.imp_right (Or.imp_right (Or.imp_right ?_)))
    intro hr
    obtain ⟨j, -, hr⟩ := hr
    cases hr
  | @arrive a i hnew =>
    rcases hmay with ⟨hl, hr⟩ | ⟨hl, hr⟩
    · exact .inl ⟨hl, takeWhile_update_append hp a i ▸ hr⟩
    · refine .inr ⟨hl, ?_⟩
      rcases hr with hr | ⟨j, hj, hr⟩ | hr
      · exact .inl fun hs => hr (Set.mem_insert_of_mem a hs)
      · rcases mem_update_append.mp hr with hr | ⟨rfl, -⟩
        · exact .inr (.inl ⟨j, hj, hr⟩)
        · exact .inl hnew
      · exact .inr (.inr hr)

/-- Each pick was possible and is not possible again. -/
theorem Step.mayPick_pick (h : Step next σ (.pick r l) σ₁) (hv : Valid σ) (hp : p ∈ σ.queue L)
    (hrp : r ≠ p) (hnext : ∀ i j, i < j → i < next i) :
    MayPick σ p L r l ∧ ¬MayPick σ₁ p L r l := by
  cases h with
  | @pick _ _ xs hfirst hi hhand =>
    have hmem : r ∈ σ.queue l := hi ▸ List.mem_cons_self
    have hgone := hv.not_mem_update_tail hi
    have hle : l ≤ L := le_of_pick hfirst hp
    constructor
    · rcases hle.eq_or_lt with rfl | hlt
      · refine .inl ⟨rfl, ?_⟩
        rw [hi]
        simp [hrp]
      · exact .inr ⟨hlt, .inr (.inl ⟨l, le_rfl, hmem⟩)⟩
    · intro hmay
      rcases hmay with ⟨-, hr⟩ | ⟨hlt, hr | ⟨j, -, hr⟩ | ⟨j, hj, hr⟩⟩
      · exact hgone L ((List.takeWhile_prefix _).subset hr)
      · exact hr (hv.seen hmem)
      · exact hgone j hr
      · obtain ⟨-, rfl⟩ := Prod.mk.inj (Option.some.inj hr)
        exact absurd hj (hnext l L hlt).not_ge

section Wait

variable (hrun : Run next σ ops σ₁) (hv : Valid σ) (hp : p ∈ σ.queue L)
  (hops : ∀ i, (p, i) ∉ picks ops) (hle : ∀ i, i ≤ next i) (hlt : ∀ i j, i < j → i < next i)

include hrun hv hp hops hle hlt

/-- Either `r` has not been picked at `l`, or once and no more from now on. -/
theorem Run.count_picks (hrp : r ≠ p) :
    p ∈ σ₁.queue L ∧
      (((picks ops).count (r, l) = 0 ∧ (MayPick σ₁ p L r l → MayPick σ p L r l)) ∨
        ((picks ops).count (r, l) = 1 ∧ MayPick σ p L r l ∧ ¬MayPick σ₁ p L r l)) := by
  induction hrun with
  | nil => exact ⟨hp, .inl ⟨rfl, id⟩⟩
  | @snoc ops op σ₁ σ₂ hrun hstep ih =>
    have hops₁ : ∀ i, (p, i) ∉ picks ops := fun i hi => hops i (by simp [hi])
    have hop : ∀ i, op ≠ .pick p i := by
      intro i he
      exact hops i (by simp [he, picks])
    obtain ⟨hwaits, hcount⟩ := ih hops₁
    refine ⟨hstep.waits hwaits hop, ?_⟩
    have hkeep := hstep.mayPick (r := r) (l := l) hwaits hop hle
    by_cases hpick : op = .pick r l
    · subst hpick
      obtain ⟨hbefore, hafter⟩ := hstep.mayPick_pick (hrun.valid hv) hwaits hrp hlt
      rcases hcount with ⟨hzero, himp⟩ | ⟨-, -, hnot⟩
      · refine .inr ⟨?_, himp hbefore, hafter⟩
        have hone : picks [Op.pick r l] = [(r, l)] := rfl
        rw [picks_append, hone, List.count_append, hzero, List.count_singleton_self]
      · exact absurd hbefore hnot
    · have hsame : (picks [op]).count (r, l) = 0 := by
        cases op with
        | pick a i =>
          refine List.count_eq_zero.mpr fun hmem => hpick ?_
          obtain ⟨rfl, rfl⟩ := Prod.mk.inj (List.mem_singleton.mp hmem)
          rfl
        | _ => rfl
      rw [picks_append, List.count_append, hsame, Nat.add_zero]
      rcases hcount with ⟨hzero, himp⟩ | ⟨hone, hbefore, hnot⟩
      · exact .inl ⟨hzero, fun h => himp (hkeep h)⟩
      · exact .inr ⟨hone, hbefore, fun h => hnot (hkeep h)⟩

theorem Run.picks_nodup : (picks ops).Nodup := by
  refine List.nodup_iff_count_le_one.mpr fun x => ?_
  obtain ⟨r, l⟩ := x
  by_cases hrp : r = p
  · rw [hrp, List.count_eq_zero.mpr (hops l)]
    exact Nat.zero_le 1
  · rcases (hrun.count_picks hv hp hops hle hlt hrp).2 with ⟨hzero, -⟩ | ⟨hone, -⟩
    · exact hzero.le.trans (Nat.zero_le 1)
    · exact hone.le

theorem Run.le_of_mem_picks (hmem : (r, l) ∈ picks ops) : r ≠ p ∧ l ≤ L := by
  have hrp : r ≠ p := fun he => hops l (he ▸ hmem)
  refine ⟨hrp, ?_⟩
  rcases (hrun.count_picks hv hp hops hle hlt hrp).2 with ⟨hzero, -⟩ | ⟨-, hmay, -⟩
  · exact absurd hmem (List.count_eq_zero.mp hzero)
  · exact hmay.le

/-- The picks of one item. -/
theorem Run.length_filter_picks_le [LocallyFiniteOrderBot ι] (r : α) :
    ((picks ops).filter (·.1 = r)).length ≤ (Finset.Iic L).card := by
  have hnodup := (hrun.picks_nodup hv hp hops hle hlt).filter (·.1 = r)
  rw [← List.toFinset_card_of_nodup hnodup]
  refine Finset.card_le_card_of_injOn Prod.snd (fun x hx => ?_) fun x hx y hy hxy => ?_
  · have hx := List.mem_filter.mp (List.mem_toFinset.mp hx)
    exact Finset.mem_coe.mpr (Finset.mem_Iic.mpr
      (hrun.le_of_mem_picks hv hp hops hle hlt hx.1).2)
  · have hx := List.mem_filter.mp (List.mem_toFinset.mp hx)
    have hy := List.mem_filter.mp (List.mem_toFinset.mp hy)
    have hfst : x.1 = y.1 := (of_decide_eq_true hx.2).trans (of_decide_eq_true hy.2).symm
    exact Prod.ext hfst hxy

/-- All picks. -/
theorem Run.length_picks_le [Fintype α] [LocallyFiniteOrderBot ι] :
    (picks ops).length ≤ (Fintype.card α - 1) * (Finset.Iic L).card := by
  have hnodup := hrun.picks_nodup hv hp hops hle hlt
  rw [← List.toFinset_card_of_nodup hnodup, ← Finset.card_univ, ← Finset.card_erase_of_mem
    (Finset.mem_univ p), ← Finset.card_product]
  refine Finset.card_le_card fun x hx => ?_
  obtain ⟨hxp, hxL⟩ := hrun.le_of_mem_picks hv hp hops hle hlt (List.mem_toFinset.mp hx)
  simp [hxp, hxL]

end Wait

end Waiting

/-! ## Rotation -/

/-- The state after some picks, when everything started on level `b`. -/
structure Rotated (ps : List α) (b : ι) (n : ℕ) (σ : State α ι) : Prop where
  other : ∀ i, i ≠ b → σ.queue i = []
  idle : σ.hand = none → σ.queue b = ps.rotate n
  busy : ∀ {a i}, σ.hand = some (a, i) → i = b ∧ σ.queue b ++ [a] = ps.rotate n

/-- Items that are all on the last level are picked in rotation, as long as none leaves and none
    arrives. -/
theorem Run.picks_rotate {ps : List α} {b : ι} (hrun : Run next σ ops σ₁) (hb : next b = b)
    (hstart : Rotated ps b 0 σ) (hops : ∀ op ∈ ops, (∀ a, op ≠ .drop a) ∧ ∀ a i, op ≠ .arrive a i) :
    Rotated ps b (picks ops).length σ₁ ∧
      ∀ k x, (picks ops)[k]? = some x → (ps.rotate k).head? = some x.1 ∧ x.2 = b := by
  induction hrun with
  | nil => exact ⟨hstart, fun k x hx => by simp [picks] at hx⟩
  | @snoc ops op σ₁ σ₂ hrun hstep ih =>
    obtain ⟨hrot, hpicks⟩ := ih fun op hop => hops op (List.mem_append_left _ hop)
    obtain ⟨hdrop, harrive⟩ := hops op (by simp)
    cases hstep with
    | @pick a i xs hfirst hi hhand =>
      have hib : i = b := by
        by_contra hne
        rw [hrot.other i hne] at hi
        cases hi
      subst hib
      have hrotate : ps.rotate (picks ops).length = a :: xs := (hrot.idle hhand).symm.trans hi
      have hone : picks [Op.pick a i] = [(a, i)] := rfl
      constructor
      · rw [picks_append, hone, List.length_append, List.length_singleton]
        refine ⟨fun j hj => ?_, fun h => absurd h (by simp), fun h => ?_⟩
        · simpa [Function.update_of_ne hj] using hrot.other j hj
        · obtain ⟨rfl, rfl⟩ := Prod.mk.inj (Option.some.inj h)
          refine ⟨hb, ?_⟩
          rw [← List.rotate_rotate, hrotate]
          simp [List.rotate_cons_succ]
      · intro k x hx
        rw [picks_append, hone] at hx
        rcases Nat.lt_or_ge k (picks ops).length with hk | hk
        · rw [List.getElem?_append_left hk] at hx
          exact hpicks k x hx
        · rw [List.getElem?_append_right hk] at hx
          have hk0 : k - (picks ops).length = 0 := by
            have hlt := (List.getElem?_eq_some_iff.mp hx).1
            simpa using hlt
          obtain rfl : k = (picks ops).length := by omega
          simp only [hk0, List.getElem?_cons_zero, Option.some_inj] at hx
          subst hx
          rw [hrotate]
          exact ⟨rfl, rfl⟩
    | @put a i hhand =>
      obtain ⟨rfl, hqueue⟩ := hrot.busy hhand
      have hnone : picks [Op.put a i] = [] := rfl
      rw [picks_append, hnone, List.append_nil]
      refine ⟨⟨fun j hj => ?_, fun _ => ?_, fun h => by cases h⟩, hpicks⟩
      · simpa [Function.update_of_ne hj] using hrot.other j hj
      · simpa using hqueue
    | @drop a i hhand => exact absurd rfl (hdrop a)
    | @arrive a i hnew => exact absurd rfl (harrive a i)

end Step

end HorizonOS.Lib.MultilevelQueue
