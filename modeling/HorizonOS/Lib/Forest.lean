import Mathlib.Data.Fintype.Card
import Mathlib.Logic.Function.Basic
import Mathlib.Logic.Relation

/-!
# Forests of parent links

A map `parent : α → α` in which every element leads to a root, an element that is its own parent,
describes a partition: two elements belong together if they have the same root.

* `Climb`, `RootOf`: the way up from an element.
* `RootOf.compress`: an element may be attached to its root directly.
* `RootOf.link_left`, `RootOf.link_other`: attaching a root to another one merges their trees.
* `eqvGen_insert`: the same merge in a generated equivalence.
-/

namespace HorizonOS.Lib

variable {α : Type*} {parent : α → α} {x y r s : α} {k : ℕ}

/-- The way from `x` up to the root `r` has `k` links. -/
inductive Climb (parent : α → α) : α → ℕ → α → Prop
  | root {r : α} (hr : parent r = r) : Climb parent r 0 r
  | up {x r : α} {k : ℕ} (hx : parent x ≠ x) (h : Climb parent (parent x) k r) :
    Climb parent x (k + 1) r

/-- `r` is the root of the tree of `x`. -/
def RootOf (parent : α → α) (x r : α) : Prop := ∃ k, Climb parent x k r

/-- Every element leads to a root. -/
def IsForest (parent : α → α) : Prop := ∀ x, ∃ r, RootOf parent x r

/-- Both lie in one tree. -/
def SameRoot (parent : α → α) (x y : α) : Prop := ∃ r, RootOf parent x r ∧ RootOf parent y r

/-! ## The way up -/

theorem Climb.isRoot (h : Climb parent x k r) : parent r = r := by
  induction h with
  | root hr => exact hr
  | up _ _ ih => exact ih

theorem Climb.unique {k' : ℕ} {r' : α} (h : Climb parent x k r) (h' : Climb parent x k' r') :
    k = k' ∧ r = r' := by
  induction h generalizing k' with
  | root hr =>
    cases h' with
    | root => exact ⟨rfl, rfl⟩
    | up hx _ => exact absurd hr hx
  | up hx _ ih =>
    cases h' with
    | root hr => exact absurd hr hx
    | up _ h' =>
      obtain ⟨rfl, rfl⟩ := ih h'
      exact ⟨rfl, rfl⟩

theorem Climb.exists_of_le (h : Climb parent x k r) {j : ℕ} (hj : j ≤ k) :
    ∃ y, Climb parent y j r := by
  induction h with
  | @root r hr =>
    obtain rfl : j = 0 := Nat.le_zero.mp hj
    exact ⟨r, .root hr⟩
  | @up x r k hx h ih =>
    rcases Nat.lt_or_eq_of_le hj with hlt | rfl
    · exact ih (Nat.le_of_lt_succ hlt)
    · exact ⟨x, .up hx h⟩

/-- A way up meets no element twice. -/
theorem Climb.lt_card [Fintype α] (h : Climb parent x k r) : k < Fintype.card α := by
  choose f hf using fun j : Fin (k + 1) => h.exists_of_le (Nat.le_of_lt_succ j.isLt)
  have hinj : Function.Injective f := fun i j hij =>
    Fin.ext ((hf i).unique (hij ▸ hf j)).1
  have hcard := Fintype.card_le_of_injective f hinj
  rwa [Fintype.card_fin] at hcard

namespace RootOf

theorem self (hr : parent r = r) : RootOf parent r r := ⟨0, .root hr⟩

theorem isRoot (h : RootOf parent x r) : parent r = r := h.elim fun _ h => h.isRoot

theorem unique (h : RootOf parent x r) (h' : RootOf parent x s) : r = s := by
  obtain ⟨k, h⟩ := h
  obtain ⟨k', h'⟩ := h'
  exact (h.unique h').2

theorem up (hx : parent x ≠ x) (h : RootOf parent (parent x) r) : RootOf parent x r :=
  h.elim fun k h => ⟨k + 1, .up hx h⟩

theorem eq_of_isRoot (h : RootOf parent x r) (hx : parent x = x) : r = x := h.unique (self hx)

variable [DecidableEq α]

/-- Path compression: an element attached to its root directly changes no root. -/
theorem compress (hx : RootOf parent x r) (h : RootOf parent y s) :
    RootOf (Function.update parent x r) y s := by
  obtain ⟨k, h⟩ := h
  induction h with
  | @root s hs =>
    refine self ?_
    by_cases hsx : s = x
    · subst hsx
      rw [Function.update_self, hx.eq_of_isRoot hs]
    · rw [Function.update_of_ne hsx, hs]
  | @up y s k hy h ih =>
    by_cases hyx : y = x
    · subst hyx
      obtain rfl : r = s := hx.unique ⟨k + 1, .up hy h⟩
      have hr : r ≠ y := fun h => hy (h ▸ hx.isRoot)
      have hroot : Function.update parent y r r = r := by
        rw [Function.update_of_ne hr, hx.isRoot]
      refine up ?_ ?_
      · rwa [Function.update_self]
      · rw [Function.update_self]
        exact self hroot
    · have hup : Function.update parent x r y = parent y := Function.update_of_ne hyx _ _
      exact up (hup ▸ hy) (hup ▸ ih)

/-- A root `r` attached to another root `s` takes its tree along … -/
theorem link_left (hr : parent r = r) (hs : parent s = s) (hne : r ≠ s)
    (h : RootOf parent x r) : RootOf (Function.update parent r s) x s := by
  obtain ⟨k, h⟩ := h
  induction h with
  | root hr =>
    refine up ?_ ?_
    · rw [Function.update_self]
      exact hne.symm
    · rw [Function.update_self]
      exact self (by rw [Function.update_of_ne hne.symm, hs])
  | @up x r k hx h ih =>
    have hxr : x ≠ r := fun h => hx (h ▸ hr)
    have hup : Function.update parent r s x = parent x := Function.update_of_ne hxr _ _
    exact up (hup ▸ hx) (hup ▸ ih hr hne)

/-- … and leaves the other trees as they are. -/
theorem link_other (hr : parent r = r) {t : α} (h : RootOf parent x t) (ht : t ≠ r) :
    RootOf (Function.update parent r s) x t := by
  obtain ⟨k, h⟩ := h
  induction h with
  | root ht' => exact self (by rw [Function.update_of_ne ht, ht'])
  | @up x t k hx h ih =>
    have hxr : x ≠ r := fun h => hx (h ▸ hr)
    have hup : Function.update parent r s x = parent x := Function.update_of_ne hxr _ _
    exact up (hup ▸ hx) (hup ▸ ih ht)

end RootOf

/-! ## One tree or two -/

namespace SameRoot

theorem refl (hf : IsForest parent) (x : α) : SameRoot parent x x :=
  (hf x).elim fun r h => ⟨r, h, h⟩

theorem symm (h : SameRoot parent x y) : SameRoot parent y x :=
  h.elim fun r h => ⟨r, h.2, h.1⟩

theorem iff_eq (hx : RootOf parent x r) (hy : RootOf parent y s) :
    SameRoot parent x y ↔ r = s := by
  constructor
  · rintro ⟨t, htx, hty⟩
    rw [hx.unique htx, hy.unique hty]
  · rintro rfl
    exact ⟨r, hx, hy⟩

/-- A map with the roots of another describes the same partition. -/
theorem congr {parent' : α → α} (hf : IsForest parent)
    (h : ∀ x r, RootOf parent x r → RootOf parent' x r) (x y : α) :
    SameRoot parent' x y ↔ SameRoot parent x y := by
  obtain ⟨r, hx⟩ := hf x
  obtain ⟨s, hy⟩ := hf y
  rw [iff_eq hx hy, iff_eq (h x r hx) (h y s hy)]

/-- After a root `r` has been attached to another root `s`, their two trees are one. -/
theorem link [DecidableEq α] (hf : IsForest parent) (hr : parent r = r) (hs : parent s = s)
    (hne : r ≠ s) (x y : α) : SameRoot (Function.update parent r s) x y ↔
      SameRoot parent x y ∨ SameRoot parent x r ∧ SameRoot parent s y ∨
        SameRoot parent x s ∧ SameRoot parent r y := by
  obtain ⟨t, hx⟩ := hf x
  obtain ⟨u, hy⟩ := hf y
  have hrr := RootOf.self hr
  have hss := RootOf.self hs
  rw [iff_eq hx hy, iff_eq hx hrr, iff_eq hss hy, iff_eq hx hss, iff_eq hrr hy]
  by_cases htr : t = r <;> by_cases hur : u = r
  · subst htr
    subst hur
    rw [iff_eq (hx.link_left hr hs hne) (hy.link_left hr hs hne)]
    simp
  · subst htr
    rw [iff_eq (hx.link_left hr hs hne) (hy.link_other hr hur)]
    simp [Ne.symm hur, hne]
  · subst hur
    rw [iff_eq (hx.link_other hr htr) (hy.link_left hr hs hne)]
    simp [htr, hne.symm]
  · rw [iff_eq (hx.link_other hr htr) (hy.link_other hr hur)]
    simp [htr, Ne.symm hur]

end SameRoot

theorem IsForest.of_rootOf {parent' : α → α} (hf : IsForest parent)
    (h : ∀ x r, RootOf parent x r → RootOf parent' x r) : IsForest parent' := fun x =>
  (hf x).elim fun r hx => ⟨r, h x r hx⟩

theorem IsForest.link [DecidableEq α] (hf : IsForest parent) (hr : parent r = r)
    (hs : parent s = s) (hne : r ≠ s) : IsForest (Function.update parent r s) := fun x => by
  obtain ⟨t, hx⟩ := hf x
  by_cases ht : t = r
  · subst ht
    exact ⟨s, hx.link_left hr hs hne⟩
  · exact ⟨t, hx.link_other hr ht⟩

/-! ## Generated equivalences -/

/-- One more pair in the relation that generates an equivalence. -/
theorem eqvGen_insert {rel : α → α → Prop} {a b : α} (x y : α) :
    Relation.EqvGen (fun u v => rel u v ∨ u = a ∧ v = b) x y ↔
      Relation.EqvGen rel x y ∨ Relation.EqvGen rel x a ∧ Relation.EqvGen rel b y ∨
        Relation.EqvGen rel x b ∧ Relation.EqvGen rel a y := by
  constructor
  · intro h
    induction h with
    | rel u v huv =>
      obtain huv | ⟨rfl, rfl⟩ := huv
      · exact .inl (.rel _ _ huv)
      · exact .inr (.inl ⟨.refl _, .refl _⟩)
    | refl u => exact .inl (.refl u)
    | symm u v _ ih =>
      obtain h | ⟨h, h'⟩ | ⟨h, h'⟩ := ih
      · exact .inl h.symm
      · exact .inr (.inr ⟨h'.symm, h.symm⟩)
      · exact .inr (.inl ⟨h'.symm, h.symm⟩)
    | trans u v w _ _ ih ih' =>
      obtain h | ⟨h, h'⟩ | ⟨h, h'⟩ := ih <;> obtain g | ⟨g, g'⟩ | ⟨g, g'⟩ := ih'
      · exact .inl (h.trans _ _ _ g)
      · exact .inr (.inl ⟨h.trans _ _ _ g, g'⟩)
      · exact .inr (.inr ⟨h.trans _ _ _ g, g'⟩)
      · exact .inr (.inl ⟨h, h'.trans _ _ _ g⟩)
      · exact .inr (.inl ⟨h, g'⟩)
      · exact .inl (h.trans _ _ _ g')
      · exact .inr (.inr ⟨h, h'.trans _ _ _ g⟩)
      · exact .inl (h.trans _ _ _ g')
      · exact .inr (.inr ⟨h, g'⟩)
  · have hmono : ∀ u v, Relation.EqvGen rel u v →
        Relation.EqvGen (fun u v => rel u v ∨ u = a ∧ v = b) u v := fun u v h =>
      h.mono fun _ _ => .inl
    have hab : Relation.EqvGen (fun u v => rel u v ∨ u = a ∧ v = b) a b :=
      .rel _ _ (.inr ⟨rfl, rfl⟩)
    rintro (h | ⟨h, h'⟩ | ⟨h, h'⟩)
    · exact hmono _ _ h
    · exact ((hmono _ _ h).trans _ _ _ hab).trans _ _ _ (hmono _ _ h')
    · exact ((hmono _ _ h).trans _ _ _ hab.symm).trans _ _ _ (hmono _ _ h')

end HorizonOS.Lib
