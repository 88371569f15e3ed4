import Mathlib.Data.List.Perm.Basic
import Mathlib.Data.Tree.Basic

/-!
# Search trees

Insertion into a binary search tree that keeps duplicates, for an arbitrary relation: an element
goes to the left of those it is related to. The order of a tree is the order of the list of its
elements, from left to right.

* `perm_insert`: an insertion adds one element.
* `sorted_node_iff`: the order of the list is the order of a search tree.
* `sorted_insert`: a sorted tree stays sorted if the relation is total and transitive.
* `perm_insertAll`, `sorted_insertAll`: the same for a sequence of insertions.
-/

namespace HorizonOS.Lib.SearchTree

open BinaryTree

variable {ι : Type*}

/-- The elements from left to right. -/
def inorder : BinaryTree ι → List ι
  | .nil => []
  | .node x l r => inorder l ++ x :: inorder r

@[simp] theorem mem_inorder_node {x y : ι} {l r : BinaryTree ι} :
    y ∈ inorder (.node x l r) ↔ y ∈ inorder l ∨ y = x ∨ y ∈ inorder r := by
  simp [inorder]

section Insert

variable (le : ι → ι → Prop) [DecidableRel le]

/-- The tree with `x` as a new leaf. -/
def insert (x : ι) : BinaryTree ι → BinaryTree ι
  | .nil => .node x .nil .nil
  | .node y l r => if le x y then .node y (insert x l) r else .node y l (insert x r)

variable {le} {x : ι}

theorem perm_insert (t : BinaryTree ι) : (inorder (insert le x t)).Perm (x :: inorder t) := by
  induction t with
  | nil => exact .refl _
  | node y l r ihl ihr =>
    rw [insert]
    split_ifs
    · exact ihl.append_right _
    · refine (List.Perm.append_left _ (ihr.cons y)).trans ?_
      refine (List.Perm.append_left _ (.swap x y _)).trans ?_
      exact List.perm_middle

theorem forall_mem_insert {p : ι → Prop} {t : BinaryTree ι} :
    (∀ a ∈ inorder (insert le x t), p a) ↔ p x ∧ ∀ a ∈ inorder t, p a := by
  rw [← List.forall_mem_cons]
  exact forall_congr' fun a => imp_congr_left (perm_insert t).mem_iff

omit [DecidableRel le] in
/-- A sorted tree is a search tree: nothing on the left is above the top, nothing on the right is
below it, and both sides are search trees. -/
theorem sorted_node_iff (htrans : ∀ x y z, le x y → le y z → le x z) {l r : BinaryTree ι} :
    (inorder (.node x l r)).Pairwise le ↔ ((inorder l).Pairwise le ∧ ∀ a ∈ inorder l, le a x) ∧
      (inorder r).Pairwise le ∧ ∀ b ∈ inorder r, le x b := by
  rw [inorder, List.pairwise_append, List.pairwise_cons]
  constructor
  · rintro ⟨hl, ⟨hxr, hr⟩, hcross⟩
    exact ⟨⟨hl, fun a ha => hcross a ha x List.mem_cons_self⟩, hr, hxr⟩
  · rintro ⟨⟨hl, hlx⟩, hr, hxr⟩
    refine ⟨hl, ⟨hxr, hr⟩, fun a ha => List.forall_mem_cons.mpr ⟨hlx a ha, fun b hb => ?_⟩⟩
    exact htrans a x b (hlx a ha) (hxr b hb)

theorem sorted_insert (htotal : ∀ x y, le x y ∨ le y x)
    (htrans : ∀ x y z, le x y → le y z → le x z) {t : BinaryTree ι}
    (hsorted : (inorder t).Pairwise le) : (inorder (insert le x t)).Pairwise le := by
  induction t with
  | nil => exact List.pairwise_singleton le x
  | node y l r ihl ihr =>
    obtain ⟨⟨hl, hly⟩, hr, hyr⟩ := (sorted_node_iff htrans).mp hsorted
    rw [insert]
    split_ifs with hle
    · exact (sorted_node_iff htrans).mpr ⟨⟨ihl hl, forall_mem_insert.mpr ⟨hle, hly⟩⟩, hr, hyr⟩
    · have hyx : le y x := (htotal x y).resolve_left hle
      exact (sorted_node_iff htrans).mpr ⟨⟨hl, hly⟩, ihr hr, forall_mem_insert.mpr ⟨hyx, hyr⟩⟩

variable (le) in
/-- The tree with the elements of a list inserted one after the other. -/
def insertAll (t : BinaryTree ι) : List ι → BinaryTree ι
  | [] => t
  | x :: xs => insertAll (insert le x t) xs

theorem perm_insertAll {t : BinaryTree ι} (xs : List ι) :
    (inorder (insertAll le t xs)).Perm (xs ++ inorder t) := by
  induction xs generalizing t with
  | nil => exact .refl _
  | cons x xs ih => exact ih.trans (((perm_insert t).append_left xs).trans List.perm_middle)

theorem sorted_insertAll (htotal : ∀ x y, le x y ∨ le y x)
    (htrans : ∀ x y z, le x y → le y z → le x z) {t : BinaryTree ι} (xs : List ι)
    (hsorted : (inorder t).Pairwise le) : (inorder (insertAll le t xs)).Pairwise le := by
  induction xs generalizing t with
  | nil => exact hsorted
  | cons x xs ih => exact ih (sorted_insert htotal htrans hsorted)

end Insert

end HorizonOS.Lib.SearchTree
