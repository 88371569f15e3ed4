import HorizonOS.Lib.LinkedTree
import Mathlib.Data.Int.Notation

/-!
# Tree rotations

Models of `left_rotate` and `right_rotate` (`libc/datastructures/trees/include/rotate.c`), over a
memory of linked nodes.

* `leftRotate_eq`: `left_rotate` is the rotation of a linked tree.
* `Holds.rightRotate_eq`: so is `right_rotate`, except at a node that is a left child.
* `rightRotate_left`, `Holds.rightRotate_cut`: there the parent gets the child of the node that
  moves up, in its place, and that node is cut off.
-/

namespace HorizonOS.Libc

open Lib.RedBlack Lib.RedBlack.RBTree Lib.LinkedTree

variable {ι : Type} [DecidableEq ι]

/-- Model of `left_rotate` (rotate.c:10–33): the links and the return value. `none` is `NULL`. -/
def leftRotate (nodes : Nodes ι) : Option ι → Nodes ι × ℤ
  | none => (nodes, -1)
  | some n =>
    match (nodes n).right with
    | none => (nodes, -1)
    | some m =>
      let nodes := nodes.setChild .right n (nodes m).left
      let nodes := match (nodes n).right with
        | some b => nodes.setParent b (some n)
        | none => nodes
      let nodes := nodes.setParent m (nodes n).parent
      let nodes := match (nodes n).parent with
        | some p =>
          if (nodes p).left = some n then nodes.setChild .left p (some m)
          else nodes.setChild .right p (some m)
        | none => nodes
      let nodes := nodes.setChild .left m (some n)
      (nodes.setParent n (some m), 0)

/-- Model of `right_rotate` (rotate.c:42–65). The link of a parent whose left child is `n` is set to
`m->left` (rotate.c:57), not to `m`. -/
def rightRotate (nodes : Nodes ι) : Option ι → Nodes ι × ℤ
  | none => (nodes, -1)
  | some n =>
    match (nodes n).left with
    | none => (nodes, -1)
    | some m =>
      let nodes := nodes.setChild .left n (nodes m).right
      let nodes := match (nodes n).left with
        | some b => nodes.setParent b (some n)
        | none => nodes
      let nodes := nodes.setParent m (nodes n).parent
      let nodes := match (nodes n).parent with
        | some p =>
          if (nodes p).left = some n then nodes.setChild .left p (nodes m).left
          else nodes.setChild .right p (some m)
        | none => nodes
      let nodes := nodes.setChild .right m (some n)
      (nodes.setParent n (some m), 0)

variable {nodes : Nodes ι} {n m q root : ι} {fs : List (Frame ι)} {c d : Color}
  {t a b e : RBTree ι}

theorem leftRotate_eq (nodes : Nodes ι) (n : ι) :
    (leftRotate nodes (some n)).1 = rotate .left nodes n := by
  simp only [leftRotate, rotate, Node.child, Side.other]
  cases (nodes n).right <;> rfl

/-! ## The link of the parent -/

/-- The memory of `right_rotate` before the parent of `n` is written (rotate.c:50–54). -/
def raised (nodes : Nodes ι) (n m : ι) : Nodes ι :=
  let nodes := nodes.setChild .left n (nodes m).right
  let nodes := nodes.adopt (nodes n).left n
  nodes.setParent m (nodes n).parent

/-- Only `n` has another left child by then. -/
theorem left_raised (hq : q ≠ n) : (raised nodes n m q).left = (nodes q).left := by
  simp only [raised, Nodes.setParent_apply, Nodes.adopt_apply, Nodes.setChild_apply, if_neg hq]
  split_ifs <;> rfl

theorem parent_raised (hnm : n ≠ m) (hb : (nodes m).right ≠ some n) :
    (raised nodes n m n).parent = (nodes n).parent := by
  simp only [raised, Nodes.setParent_apply, Nodes.adopt_apply, Nodes.setChild_apply, if_neg hnm,
    if_pos, Node.setChild, if_neg hb]

theorem rotate_right_eq (hm : (nodes n).left = some m) : rotate .right nodes n =
    (((raised nodes n m).relink n m).setChild .right m (some n)).setParent n (some m) := by
  simp only [rotate, Node.child, Side.other, hm]
  rfl

theorem rightRotate_raised (hm : (nodes n).left = some m) : (rightRotate nodes (some n)).1 =
    ((match (raised nodes n m n).parent with
      | some q => if (raised nodes n m q).left = some n
        then (raised nodes n m).setChild .left q (raised nodes n m m).left
        else (raised nodes n m).setChild .right q (some m)
      | none => raised nodes n m).setChild .right m (some n)).setParent n (some m) := by
  simp only [rightRotate, hm]
  rfl

section Linked

variable (hm : (nodes n).left = some m) (hnm : n ≠ m) (hb : (nodes m).right ≠ some n)
include hm hnm hb

/-- At a node that is not a left child, `right_rotate` is the rotation of a linked tree. -/
theorem rightRotate_eq
    (hq : ∀ q, (nodes n).parent = some q → q ≠ n ∧ (nodes q).left ≠ some n) :
    (rightRotate nodes (some n)).1 = rotate .right nodes n := by
  rw [rotate_right_eq hm, rightRotate_raised hm, Nodes.relink, parent_raised hnm hb]
  cases hp : (nodes n).parent with
  | none => rfl
  | some q =>
    obtain ⟨hqn, hleft⟩ := hq q hp
    simp only [left_raised hqn, if_neg hleft]

/-- At a left child, the parent gets the child of the node that moves up instead of that node. -/
theorem rightRotate_left (hp : (nodes n).parent = some q) (hqn : q ≠ n) (hqm : q ≠ m)
    (hleft : (nodes q).left = some n) : (rightRotate nodes (some n)).1 =
      (rotate .right nodes n).setChild .left q (nodes m).left := by
  rw [rotate_right_eq hm, rightRotate_raised hm, Nodes.relink, parent_raised hnm hb, hp]
  simp only [left_raised hqn, if_pos hleft, left_raised hnm.symm]
  funext y
  simp only [Nodes.setParent_apply, Nodes.setChild_apply]
  by_cases hy : y = q
  · subst hy
    simp only [if_neg hqn, if_neg hqm, if_true, Node.setChild]
  · simp only [if_neg hy]

end Linked

/-! ## Rotations of a tree in memory -/

/-- The node `x` is no child of the node it has as its parent. -/
def Cut (nodes : Nodes ι) (x : ι) : Prop :=
  ∃ q, (nodes x).parent = some q ∧ ∀ s, (nodes q).child s ≠ some x

omit [DecidableEq ι] in
theorem Cut.not_mem {x : ι} (h : Cut nodes x) (hm : Holds nodes root t) : x ∉ t.toList := by
  obtain ⟨q, hparent, hchild⟩ := h
  intro hx
  obtain ⟨s, hs⟩ := hm.child_parent hx hparent
  exact hchild s hs

section Holding

variable (hm : Holds nodes root (plug fs (fork .right c e n (fork .right d b m a))))
include hm

omit [DecidableEq ι] in
/-- What `right_rotate` reads at the node and at its left child. -/
theorem links_right : (nodes n).left = some m ∧ n ≠ m ∧ (nodes m).right ≠ some n ∧
    (nodes m).left = a.top := by
  have hn := hm.lookup
  have hm' : Holds nodes root (plug (⟨.left, c, n, e⟩ :: fs) (fork .right d b m a)) := hm
  have hkey : n ∉ (fork .right d b m a).toList := fun h =>
    List.disjoint_of_nodup_append hm'.perm_nodup h List.mem_cons_self
  rw [mem_fork, not_or, not_or] at hkey
  rw [hn, hm'.lookup, top_fork]
  exact ⟨rfl, hkey.1, fun h => hkey.2.1 (mem_of_top h), rfl⟩

omit [DecidableEq ι] in
theorem above_ne (hq : above fs = some q) : q ≠ n ∧ q ≠ m ∧ (nodes n).parent = some q := by
  have hdis := List.disjoint_of_nodup_append hm.perm_nodup
  have hk := mem_keys_of_above hq
  refine ⟨?_, ?_, by rw [hm.lookup, Node.parent_of, hq]⟩
  · rintro rfl
    exact hdis (mem_fork.mpr (.inl rfl)) hk
  · rintro rfl
    exact hdis (mem_fork.mpr (.inr (.inr (mem_fork.mpr (.inl rfl))))) hk

theorem rightRotate_rotate (hside : sideOf fs = .right) :
    (rightRotate nodes (some n)).1 = rotate .right nodes n := by
  obtain ⟨hleft, hnm, hb, -⟩ := links_right hm
  refine rightRotate_eq hleft hnm hb fun q hq => ?_
  rw [hm.lookup, Node.parent_of] at hq
  refine ⟨(above_ne hm hq).1, fun h => ?_⟩
  rw [hm.left_above_iff top_fork hq, hside] at h
  cases h

theorem rightRotate_misplaces (hq : above fs = some q) (hside : sideOf fs = .left) :
    (rightRotate nodes (some n)).1 = (rotate .right nodes n).setChild .left q a.top := by
  obtain ⟨hleft, hnm, hb, ha⟩ := links_right hm
  obtain ⟨hqn, hqm, hp⟩ := above_ne hm hq
  rw [← ha]
  exact rightRotate_left hleft hnm hb hp hqn hqm ((hm.left_above_iff top_fork hq).mpr hside)

/-- The child that moves up is cut off. -/
theorem cut_misplaced (hq : above fs = some q) (hside : sideOf fs = .left) :
    Cut ((rotate .right nodes n).setChild .left q a.top) m := by
  obtain ⟨root', hroot⟩ := exists_top_plug fs .right d (fork .right c e n b) a m
  have hr := hm.rotate hroot
  have hqm := (above_ne hm hq).2.1
  obtain _ | ⟨f, fs⟩ := fs
  · cases hq
  obtain ⟨_, cf, k, sib⟩ := f
  cases hq
  cases hside
  have hk : rotate .right nodes n k = .of .left (above fs) (some m) sib.top cf :=
    (rep_plug.mp hr.rep).2.1.trans (by rw [top_fork])
  have hdis := List.disjoint_of_nodup_append hr.perm_nodup
  have hmem : m ∈ (fork .right d (fork .right c e n b) m a).toList := mem_fork.mpr (.inl rfl)
  refine ⟨k, ?_, fun s => ?_⟩
  · rw [Nodes.setChild_apply, if_neg hqm.symm, hr.lookup, Node.parent_of]
    rfl
  · rw [Nodes.setChild_apply, if_pos rfl, hk]
    cases s with
    | left =>
      intro h
      have hnd := perm_fork.nodup_iff.mp hr.perm_nodup.of_append_left
      exact (List.nodup_cons.mp hnd).1 (List.mem_append_right _ (mem_of_top h))
    | right =>
      intro h
      exact hdis hmem (List.mem_append_left _ (List.mem_cons_of_mem _ (mem_of_top h)))

end Holding

/-- The rotation leaves a tree in memory with the nodes of `t` in the same order. -/
def SameOrder (nodes : Nodes ι) (t : RBTree ι) : Prop :=
  ∃ root t', Holds nodes root t' ∧ t'.toList = t.toList

/-- `left_rotate` keeps the nodes of a tree and their order. -/
theorem leftRotate_sameOrder (hm : Holds nodes root t) (hn : n ∈ t.toList)
    (hright : (nodes n).right ≠ none) : SameOrder (leftRotate nodes (some n)).1 t := by
  obtain ⟨fs, c, l, r, rfl⟩ := exists_plug hn
  have hlook : nodes n = .of .left (above fs) l.top r.top c := hm.lookup
  cases r with
  | nil => rw [hlook] at hright; exact absurd rfl hright
  | node d b m e =>
    have hm : Holds nodes root (plug fs (fork .left c l n (fork .left d b m e))) := hm
    obtain ⟨root', hroot⟩ := exists_top_plug fs .left d (fork .left c l n b) e m
    rw [leftRotate_eq]
    exact ⟨root', _, hm.rotate hroot, toList_plug_congr toList_rotate⟩

/-- `right_rotate` keeps them exactly at a node that is not a left child. -/
theorem rightRotate_sameOrder_iff (hm : Holds nodes root t) (hn : n ∈ t.toList)
    (hleft : (nodes n).left ≠ none) : SameOrder (rightRotate nodes (some n)).1 t ↔
      ¬∃ q, (nodes n).parent = some q ∧ (nodes q).left = some n := by
  obtain ⟨fs, c, l, r, rfl⟩ := exists_plug hn
  have hlook : nodes n = .of .left (above fs) l.top r.top c := hm.lookup
  cases l with
  | nil => rw [hlook] at hleft; exact absurd rfl hleft
  | node d a m b =>
    have hm' : Holds nodes root (plug fs (fork .right c r n (fork .right d b m a))) := hm
    cases hside : sideOf fs with
    | right =>
      refine iff_of_true ?_ ?_
      · obtain ⟨root', hroot⟩ := exists_top_plug fs .right d (fork .right c r n b) a m
        rw [rightRotate_rotate hm' hside]
        exact ⟨root', _, hm'.rotate hroot, toList_plug_congr toList_rotate⟩
      · rintro ⟨q, hq, hqn⟩
        rw [hlook, Node.parent_of] at hq
        rw [hm'.left_above_iff top_fork hq, hside] at hqn
        cases hqn
    | left =>
      obtain _ | ⟨f, fs⟩ := fs
      · cases hside
      refine iff_of_false ?_ ?_
      · rintro ⟨root', t', ht', hlist⟩
        rw [rightRotate_misplaces hm' rfl hside] at ht'
        refine (cut_misplaced hm' rfl hside).not_mem ht' (hlist ▸ mem_plug.mpr (.inl ?_))
        simp [toList]
      · exact not_not.mpr ⟨f.key, by rw [hlook, Node.parent_of]; rfl,
          (hm'.left_above_iff top_fork rfl).mpr hside⟩

end HorizonOS.Libc
