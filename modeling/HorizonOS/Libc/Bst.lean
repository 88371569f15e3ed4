import HorizonOS.Lib.SearchTree
import Mathlib.Data.Int.Basic
import Mathlib.Data.List.Nodup

/-!
# Search trees whose missing children are self links

Models of `bst_ins` and `bst_do_inorder` (`libc/datastructures/trees/bst/new/bst.h`). A node has no
`NULL` links: where it has no child, the link leads back to the node, and so does the parent link of
the root. Both functions return 0.

* `Rep`, `Holds`: the memory holds a given tree.
* `descend_spec`: the search ends, at the node where the new one belongs.
* `bstIns_spec`: one call of `bst_ins` is an insertion into the search tree.
* `bstDoInorder_spec`: the traversal visits the elements of the tree from left to right.
* `bst_inorder_sorted`: the traversal after every sequence of insertions.
-/

namespace HorizonOS.Libc.Bst

open Lib Lib.SearchTree

/-! ## Model -/

/-- `struct tree` (libc/datastructures/trees/include/node.h:8–10). -/
structure Node (ι : Type) where
  parent : ι
  left : ι
  right : ι

/-- The memory: the node at every address. -/
abbrev Nodes (ι : Type) := ι → Node ι

variable {ι α σ : Type}

/-- `BST_INIT(root)` (bst.h:4). -/
def bstInit (root : ι) : Node ι := ⟨root, root, root⟩

section Model

variable [DecidableEq ι] (containerOf : ι → α) (comp : α → α → ℤ)

/-- The loop of `bst_ins` (bst.h:27–43), with `fuel` rounds at most: `cur` at the `break`, which is
`child` then. -/
def descend (nodes : Nodes ι) (leaf : ι) : (fuel : ℕ) → (child : ι) → Option ι
  | 0, _ => none
  | fuel + 1, child =>
    if comp (containerOf leaf) (containerOf child) ≤ 0 then
      if (nodes child).left ≠ child then descend nodes leaf fuel (nodes child).left
      else some child
    else if comp (containerOf leaf) (containerOf child) > 0 then
      if (nodes child).right ≠ child then descend nodes leaf fuel (nodes child).right
      else some child
    else descend nodes leaf fuel child

/-- `bst_ins` after its loop (bst.h:45–50). -/
def link (nodes : Nodes ι) (leaf cur : ι) : Nodes ι :=
  let nodes := Function.update nodes leaf { nodes leaf with parent := cur }
  if comp (containerOf leaf) (containerOf cur) ≤ 0 then
    Function.update nodes cur { nodes cur with left := leaf }
  else if comp (containerOf leaf) (containerOf cur) > 0 then
    Function.update nodes cur { nodes cur with right := leaf }
  else nodes

/-- `leaf->left = leaf->right = leaf` (bst.h:24). -/
def unlink (nodes : Nodes ι) (leaf : ι) : Nodes ι :=
  Function.update nodes leaf { nodes leaf with left := leaf, right := leaf }

/-- `bst_ins(root, leaf, container_of, comp)` (bst.h:20–53). -/
def bstIns (fuel : ℕ) (nodes : Nodes ι) (root leaf : ι) : Option (Nodes ι) := do
  let nodes := unlink nodes leaf
  let cur ← descend containerOf comp nodes leaf fuel root
  return link containerOf comp nodes leaf cur

/-- A sequence of calls of `bst_ins`. -/
def bstInsAll (fuel : ℕ) (nodes : Nodes ι) (root : ι) : List ι → Option (Nodes ι)
  | [] => some nodes
  | leaf :: leaves => do
    let nodes ← bstIns containerOf comp fuel nodes root leaf
    bstInsAll fuel nodes root leaves

/-- `bst_do_inorder(root, container_of, func)` (bst.h:84–95), with `fuel` nested calls at most. What
`func` does to the rest of the program is a function of a state `s`. -/
def bstDoInorder (func : σ → α → σ) (nodes : Nodes ι) : (fuel : ℕ) → (root : ι) → σ → Option σ
  | 0, _, _ => none
  | fuel + 1, root, s => do
    let s ← (if (nodes root).left ≠ root then bstDoInorder func nodes fuel (nodes root).left s
      else some s)
    let s := func s (containerOf root)
    if (nodes root).right ≠ root then bstDoInorder func nodes fuel (nodes root).right s else some s

end Model

/-! ## Trees in memory -/

/-- What a link of `x` to the top of `t` contains. -/
def top (x : ι) : BinaryTree ι → ι
  | .nil => x
  | .node y _ _ => y

/-- The memory holds `t`, with `p` as the parent of its top. -/
def Rep (nodes : Nodes ι) : ι → BinaryTree ι → Prop
  | _, .nil => True
  | p, .node x l r => nodes x = ⟨p, top x l, top x r⟩ ∧ Rep nodes x l ∧ Rep nodes x r

/-- The memory holds `t` below `root`, every node once. The root is its own parent. -/
structure Holds (nodes : Nodes ι) (root : ι) (t : BinaryTree ι) : Prop where
  exists_node : ∃ l r, t = .node root l r
  rep : Rep nodes root t
  nodup : (inorder t).Nodup

variable {nodes nodes' : Nodes ι} {root leaf p x : ι} {t l r : BinaryTree ι}

theorem Rep.congr (h : Rep nodes p t) (heq : ∀ y ∈ inorder t, nodes' y = nodes y) :
    Rep nodes' p t := by
  induction t generalizing p with
  | nil => trivial
  | node x l r ihl ihr =>
    obtain ⟨hx, hl, hr⟩ := h
    exact ⟨(heq x (by simp)).trans hx, ihl hl fun y hy => heq y (by simp [hy]),
      ihr hr fun y hy => heq y (by simp [hy])⟩

theorem top_mem (h : t ≠ .nil) : top x t ∈ inorder t := by
  cases t with
  | nil => exact absurd rfl h
  | node y l r => simp [top]

/-- The link leads somewhere else exactly if there is a child. -/
theorem top_ne_iff (hx : x ∉ inorder t) : top x t ≠ x ↔ t ≠ .nil := by
  constructor
  · rintro h rfl
    exact h rfl
  · intro h heq
    exact hx (heq ▸ top_mem h)

theorem nodup_node : (inorder (.node x l r)).Nodup ↔ (inorder l).Nodup ∧ (inorder r).Nodup ∧
    x ∉ inorder l ∧ x ∉ inorder r ∧ (inorder l).Disjoint (inorder r) := by
  rw [inorder, List.nodup_append', List.nodup_cons, List.disjoint_cons_right]
  tauto

theorem top_eq (h : t ≠ .nil) (y : ι) : top x t = top y t := by
  cases t with
  | nil => exact absurd rfl h
  | node => rfl

theorem Rep.parent_top (hrep : Rep nodes p t) (h : t ≠ .nil) : (nodes (top x t)).parent = p := by
  cases t with
  | nil => exact absurd rfl h
  | node y l r => exact congrArg Node.parent hrep.1

/-! ## One insertion -/

section Insertion

variable [DecidableEq ι] {containerOf : ι → α} {comp : α → α → ℤ} {cur y : ι}

/-- The order of the nodes: `x` goes to the left of `y`. -/
abbrev AtMost (containerOf : ι → α) (comp : α → α → ℤ) (x y : ι) : Prop :=
  comp (containerOf x) (containerOf y) ≤ 0

theorem descend_succ (nodes : Nodes ι) (leaf x : ι) (fuel : ℕ) :
    descend containerOf comp nodes leaf (fuel + 1) x = if AtMost containerOf comp leaf x then
      if (nodes x).left ≠ x then descend containerOf comp nodes leaf fuel (nodes x).left else some x
      else if (nodes x).right ≠ x then descend containerOf comp nodes leaf fuel (nodes x).right
      else some x := by
  rw [descend]
  split_ifs <;> first | rfl | omega

theorem link_apply (hne : cur ≠ leaf) : link containerOf comp nodes leaf cur y =
    if y = cur then
      if AtMost containerOf comp leaf cur then { nodes cur with left := leaf }
      else { nodes cur with right := leaf }
    else if y = leaf then { nodes leaf with parent := cur } else nodes y := by
  unfold link
  split_ifs <;> simp_all

theorem link_of_ne (hne : cur ≠ leaf) (hcur : y ≠ cur) (hleaf : y ≠ leaf) :
    link containerOf comp nodes leaf cur y = nodes y := by
  rw [link_apply hne, if_neg hcur, if_neg hleaf]

/-- A subtree with neither the new node nor its parent. -/
theorem Rep.link (hrep : Rep nodes p t) (hne : cur ≠ leaf) (hcur : cur ∉ inorder t)
    (hleaf : leaf ∉ inorder t) : Rep (link containerOf comp nodes leaf cur) p t :=
  hrep.congr fun _ hy =>
    link_of_ne hne (ne_of_mem_of_not_mem hy hcur) (ne_of_mem_of_not_mem hy hleaf)

/-- The new node below its parent. -/
theorem rep_link_leaf (hlinks : (nodes leaf).left = leaf ∧ (nodes leaf).right = leaf)
    (hne : cur ≠ leaf) :
    Rep (link containerOf comp nodes leaf cur) cur (.node leaf .nil .nil) := by
  refine ⟨?_, trivial, trivial⟩
  rw [link_apply hne, if_neg hne.symm, if_pos rfl]
  exact congrArg₂ (Node.mk cur) hlinks.1 hlinks.2

omit [DecidableEq ι] in
theorem top_insert {le : ι → ι → Prop} [DecidableRel le] (h : t ≠ .nil) :
    top x (SearchTree.insert le leaf t) = top x t := by
  cases t with
  | nil => exact absurd rfl h
  | node y l r =>
    rw [SearchTree.insert]
    split_ifs <;> rfl

/-- The loop finds the node `cur` of `t` below which `leaf` belongs, and linked there it makes the
memory hold the tree with `leaf` in it. -/
def Places (containerOf : ι → α) (comp : α → α → ℤ) (nodes : Nodes ι) (leaf p : ι)
    (t : BinaryTree ι) (cur : ι) : Prop :=
  cur ∈ inorder t ∧
  (∀ fuel ≥ (inorder t).length,
    descend containerOf comp nodes leaf fuel (top leaf t) = some cur) ∧
  Rep (link containerOf comp nodes leaf cur) p (SearchTree.insert (AtMost containerOf comp) leaf t)

/-- The search at a node `x` that leads to its subtree `a` and leaves the subtree `b` alone: it ends
in `a`, or at `x` where `a` is empty. -/
theorem exists_descend {a b : BinaryTree ι}
    (hlinks : (nodes leaf).left = leaf ∧ (nodes leaf).right = leaf)
    (hround : ∀ fuel, descend containerOf comp nodes leaf (fuel + 1) x =
      if top x a ≠ x then descend containerOf comp nodes leaf fuel (top x a) else some x)
    (hb : Rep nodes x b) (hnd : (inorder (.node x a b)).Nodup)
    (hleaf : leaf ∉ inorder (.node x a b))
    (ih : a ≠ .nil → ∃ cur, Places containerOf comp nodes leaf x a cur) :
    ∃ cur ∈ inorder (.node x a b),
      (∀ fuel > (inorder a).length, descend containerOf comp nodes leaf fuel x = some cur) ∧
      Rep (link containerOf comp nodes leaf cur) x
        (SearchTree.insert (AtMost containerOf comp) leaf a) ∧
      Rep (link containerOf comp nodes leaf cur) x b ∧
      link containerOf comp nodes leaf cur x =
        if a = .nil then link containerOf comp nodes leaf x x else nodes x := by
  obtain ⟨-, -, hxa, hxb, hdis⟩ := nodup_node.mp hnd
  simp only [mem_inorder_node, not_or] at hleaf
  obtain ⟨hleafa, hleafx, hleafb⟩ := hleaf
  by_cases hnil : a = .nil
  · subst hnil
    refine ⟨x, by simp, fun fuel hfuel => ?_, rep_link_leaf hlinks (Ne.symm hleafx),
      hb.link (Ne.symm hleafx) hxb hleafb, (if_pos rfl).symm⟩
    obtain ⟨fuel, rfl⟩ := Nat.exists_eq_add_one_of_ne_zero (Nat.ne_zero_of_lt hfuel)
    exact (hround fuel).trans (if_neg (not_not.mpr rfl))
  · obtain ⟨cur, hcur, hrun, hrep⟩ := ih hnil
    have hne : cur ≠ leaf := ne_of_mem_of_not_mem hcur hleafa
    refine ⟨cur, by simp [hcur], fun fuel hfuel => ?_, hrep,
      hb.link hne (fun h => hdis hcur h) hleafb, ?_⟩
    · obtain ⟨fuel, rfl⟩ := Nat.exists_eq_add_one_of_ne_zero (Nat.ne_zero_of_lt hfuel)
      rw [hround, if_pos ((top_ne_iff hxa).mpr hnil), top_eq hnil leaf]
      exact hrun fuel (Nat.le_of_lt_succ hfuel)
    · rw [if_neg hnil, link_of_ne hne (ne_of_mem_of_not_mem hcur hxa).symm (Ne.symm hleafx)]

theorem descend_spec (hlinks : (nodes leaf).left = leaf ∧ (nodes leaf).right = leaf)
    (hrep : Rep nodes p t) (hnd : (inorder t).Nodup) (hleaf : leaf ∉ inorder t) (hne : t ≠ .nil) :
    ∃ cur, Places containerOf comp nodes leaf p t cur := by
  induction t generalizing p with
  | nil => exact absurd rfl hne
  | node x l r ihl ihr =>
    obtain ⟨hx, hl, hr⟩ := hrep
    obtain ⟨hndl, hndr, -, -, -⟩ := nodup_node.mp hnd
    have hleaf' := hleaf
    simp only [mem_inorder_node, not_or] at hleaf'
    obtain ⟨hleafl, hleafx, hleafr⟩ := hleaf'
    have hlen : (inorder (.node x l r)).length = (inorder l).length + (inorder r).length + 1 := by
      simp [inorder]
      omega
    unfold Places
    rw [SearchTree.insert, hlen]
    by_cases hle : AtMost containerOf comp leaf x
    · obtain ⟨cur, hcur, hrun, hl', hr', hx'⟩ := exists_descend hlinks
        (fun fuel => by rw [descend_succ, if_pos hle, hx]) hr hnd hleaf
        fun h => ihl hl hndl hleafl h
      rw [if_pos hle]
      refine ⟨cur, hcur, fun fuel h => hrun fuel (by omega), ?_, hl', hr'⟩
      rw [hx']
      split_ifs with hnil
      · rw [link_apply (Ne.symm hleafx), if_pos rfl, if_pos hle, hx, hnil]
        rfl
      · rw [hx, top_insert hnil]
    · -- the other side: the subtrees change their roles
      have hswap : (inorder (.node x r l)).Perm (inorder (.node x l r)) := by
        refine List.perm_middle.trans (.trans ?_ List.perm_middle.symm)
        exact List.perm_append_comm.cons x
      obtain ⟨cur, hcur, hrun, hr', hl', hx'⟩ := exists_descend hlinks
        (fun fuel => by rw [descend_succ, if_neg hle, hx]) hl (hswap.nodup_iff.mpr hnd)
        (fun h => hleaf (hswap.mem_iff.mp h)) fun h => ihr hr hndr hleafr h
      rw [if_neg hle]
      refine ⟨cur, hswap.mem_iff.mp hcur, fun fuel h => hrun fuel (by omega), ?_, hl', hr'⟩
      rw [hx']
      split_ifs with hnil
      · rw [link_apply (Ne.symm hleafx), if_pos rfl, if_neg hle, hx, hnil]
        rfl
      · rw [hx, top_insert hnil]

/-- `bst_ins` inserts a fresh node into the tree that the memory holds. -/
theorem bstIns_spec (hm : Holds nodes root t) (hleaf : leaf ∉ inorder t) :
    ∃ nodes', (∀ fuel ≥ (inorder t).length,
        bstIns containerOf comp fuel nodes root leaf = some nodes') ∧
      Holds nodes' root (SearchTree.insert (AtMost containerOf comp) leaf t) := by
  obtain ⟨⟨l, r, rfl⟩, hrep, hnd⟩ := hm
  have hrep' : Rep (unlink nodes leaf) root (.node root l r) := hrep.congr fun y hy => by
    rw [unlink, Function.update_of_ne (ne_of_mem_of_not_mem hy hleaf)]
  obtain ⟨cur, -, hrun, hins⟩ := @descend_spec ι α (unlink nodes leaf) leaf root _ _ containerOf
    comp (by simp [unlink]) hrep' hnd hleaf nofun
  refine ⟨_, fun fuel hfuel => ?_, ?_, hins, ?_⟩
  · rw [bstIns]
    exact congrArg (Option.bind · _) (hrun fuel hfuel)
  · rw [SearchTree.insert]
    split_ifs
    · exact ⟨_, _, rfl⟩
    · exact ⟨_, _, rfl⟩
  · exact (perm_insert _).nodup_iff.mpr (List.nodup_cons.mpr ⟨hleaf, hnd⟩)

/-- Every sequence of insertions of fresh nodes. -/
theorem bstInsAll_spec {leaves : List ι} (hm : Holds nodes root t)
    (hnd : (leaves ++ inorder t).Nodup) :
    ∃ nodes', (∀ fuel ≥ leaves.length + (inorder t).length,
        bstInsAll containerOf comp fuel nodes root leaves = some nodes') ∧
      Holds nodes' root (insertAll (AtMost containerOf comp) t leaves) := by
  induction leaves generalizing nodes t with
  | nil => exact ⟨nodes, fun _ _ => rfl, hm⟩
  | cons leaf leaves ih =>
    rw [List.cons_append, List.nodup_cons, List.mem_append, not_or] at hnd
    obtain ⟨hleaf, hnd⟩ := hnd
    obtain ⟨nodes₁, hrun₁, hm₁⟩ := @bstIns_spec ι α nodes root leaf t _ containerOf comp hm hleaf.2
    have hperm := @perm_insert ι (AtMost containerOf comp) _ leaf t
    have hnd₁ := ((hperm.append_left leaves).trans List.perm_middle).nodup_iff.mpr
      (List.nodup_cons.mpr ⟨by simp [hleaf], hnd⟩)
    obtain ⟨nodes', hrun', hm'⟩ := ih hm₁ hnd₁
    refine ⟨nodes', fun fuel hfuel => ?_, hm'⟩
    rw [List.length_cons] at hfuel
    rw [hperm.length_eq, List.length_cons] at hrun'
    rw [bstInsAll, hrun₁ fuel (by omega)]
    exact hrun' fuel (by omega)

end Insertion

/-! ## Traversal -/

/-- The traversal of a tree in memory calls `func` for the elements from left to right. -/
theorem bstDoInorder_spec [DecidableEq ι] {containerOf : ι → α} (func : σ → α → σ)
    (hrep : Rep nodes p t) (hnd : (inorder t).Nodup) (hne : t ≠ .nil) {fuel : ℕ}
    (hfuel : (inorder t).length ≤ fuel) (s : σ) :
    bstDoInorder containerOf func nodes fuel (top x t) s =
      some (((inorder t).map containerOf).foldl func s) := by
  induction t generalizing p x fuel s with
  | nil => exact absurd rfl hne
  | node y l r ihl ihr =>
    obtain ⟨hy, hl, hr⟩ := hrep
    obtain ⟨hndl, hndr, hyl, hyr, -⟩ := nodup_node.mp hnd
    rw [inorder, List.length_append, List.length_cons] at hfuel
    obtain ⟨fuel, rfl⟩ := Nat.exists_eq_add_one_of_ne_zero (by omega : fuel ≠ 0)
    -- a subtree is visited as a whole, also if it is empty
    have hvisit : ∀ {a : BinaryTree ι} (_ : y ∉ inorder a) (_ : a ≠ .nil → ∀ s,
        bstDoInorder containerOf func nodes fuel (top y a) s =
          some (((inorder a).map containerOf).foldl func s)) (s : σ),
        (if top y a ≠ y then bstDoInorder containerOf func nodes fuel (top y a) s else some s) =
          some (((inorder a).map containerOf).foldl func s) := by
      intro a hya hrun s
      by_cases hnil : a = .nil
      · subst hnil
        exact if_neg (not_not.mpr rfl)
      · rw [if_pos ((top_ne_iff hya).mpr hnil), hrun hnil]
    rw [top, bstDoInorder, hy]
    simp only [hvisit hyl fun h s => ihl hl hndl h (by omega) s, Option.bind_eq_bind,
      Option.bind_some, hvisit hyr fun h s => ihr hr hndr h (by omega) s]
    rw [inorder, List.map_append, List.foldl_append, List.map_cons, List.foldl_cons]

theorem Holds.bstDoInorder_eq [DecidableEq ι] {containerOf : ι → α} (hm : Holds nodes root t)
    (func : σ → α → σ) {fuel : ℕ} (hfuel : (inorder t).length ≤ fuel) (s : σ) :
    bstDoInorder containerOf func nodes fuel root s =
      some (((inorder t).map containerOf).foldl func s) := by
  obtain ⟨⟨l, r, rfl⟩, hrep, hnd⟩ := hm
  exact bstDoInorder_spec (x := root) func hrep hnd nofun hfuel s

/-! ## Sequences of insertions -/

/-- The links of the nodes `ins` are those of a tree: a link of a node to itself means that there is
no child, and every other child is a node of the tree with this node as its parent. -/
structure WellFormed (nodes : Nodes ι) (root : ι) (ins : List ι) : Prop where
  root_parent : (nodes root).parent = root
  left : ∀ x ∈ ins, (nodes x).left ≠ x →
    (nodes x).left ∈ ins ∧ (nodes (nodes x).left).parent = x
  right : ∀ x ∈ ins, (nodes x).right ≠ x →
    (nodes x).right ∈ ins ∧ (nodes (nodes x).right).parent = x

theorem Rep.children (hrep : Rep nodes p t) (hx : x ∈ inorder t) :
    ((nodes x).left ≠ x → (nodes x).left ∈ inorder t ∧ (nodes (nodes x).left).parent = x) ∧
    ((nodes x).right ≠ x → (nodes x).right ∈ inorder t ∧ (nodes (nodes x).right).parent = x) := by
  induction t generalizing p with
  | nil => cases hx
  | node y l r ihl ihr =>
    obtain ⟨hy, hl, hr⟩ := hrep
    have hchild : ∀ {a : BinaryTree ι}, Rep nodes y a → top y a ≠ y →
        top y a ∈ inorder a ∧ (nodes (top y a)).parent = y := by
      intro a ha hne
      have hnil : a ≠ .nil := by
        rintro rfl
        exact hne rfl
      exact ⟨top_mem hnil, ha.parent_top hnil⟩
    rcases mem_inorder_node.mp hx with hx | rfl | hx
    · exact ⟨fun h => ((ihl hl hx).1 h).imp_left fun h => by simp [h],
        fun h => ((ihl hl hx).2 h).imp_left fun h => by simp [h]⟩
    · rw [hy]
      exact ⟨fun h => (hchild hl h).imp_left fun h => by simp [h],
        fun h => (hchild hr h).imp_left fun h => by simp [h]⟩
    · exact ⟨fun h => ((ihr hr hx).1 h).imp_left fun h => by simp [h],
        fun h => ((ihr hr hx).2 h).imp_left fun h => by simp [h]⟩

theorem Holds.wellFormed (hm : Holds nodes root t) {ins : List ι} (hperm : (inorder t).Perm ins) :
    WellFormed nodes root ins := by
  obtain ⟨⟨l, r, rfl⟩, hrep, -⟩ := hm
  refine ⟨congrArg Node.parent hrep.1, fun x hx h => ?_, fun x hx h => ?_⟩
  · exact ((hrep.children (hperm.mem_iff.mpr hx)).1 h).imp_left hperm.mem_iff.mp
  · exact ((hrep.children (hperm.mem_iff.mpr hx)).2 h).imp_left hperm.mem_iff.mp

/-- `comp` decides a total preorder: `x` is at most `y` if `comp x y ≤ 0`. -/
structure TotalPreorder (comp : α → α → ℤ) : Prop where
  total : ∀ x y, comp x y ≤ 0 ∨ comp y x ≤ 0
  trans : ∀ x y z, comp x y ≤ 0 → comp y z ≤ 0 → comp x z ≤ 0

/-- **The traversal after every sequence of insertions.** Every call of `bst_ins` ends, the tree is
well formed, and `bst_do_inorder` calls `func` once for every node, in the order of the elements. -/
theorem bst_inorder_sorted [DecidableEq ι] (containerOf : ι → α) (comp : α → α → ℤ)
    (hcomp : TotalPreorder comp) (nodes : Nodes ι) (root : ι) (hroot : nodes root = bstInit root)
    (leaves : List ι) (hnd : (root :: leaves).Nodup) :
    ∃ (nodes' : Nodes ι) (visited : List ι),
      (∀ fuel > leaves.length,
        bstInsAll containerOf comp fuel nodes root leaves = some nodes') ∧
      WellFormed nodes' root (root :: leaves) ∧
      visited.Perm (root :: leaves) ∧
      (visited.Pairwise fun x y => comp (containerOf x) (containerOf y) ≤ 0) ∧
      ∀ (σ : Type) (func : σ → α → σ) (s : σ), ∀ fuel > leaves.length,
        bstDoInorder containerOf func nodes' fuel root s =
          some ((visited.map containerOf).foldl func s) := by
  have hstart : Holds nodes root (.node root .nil .nil) :=
    ⟨⟨_, _, rfl⟩, ⟨hroot, trivial, trivial⟩, List.nodup_singleton root⟩
  have hperm : (inorder (insertAll (AtMost containerOf comp) (.node root .nil .nil) leaves)).Perm
      (root :: leaves) := (perm_insertAll leaves).trans (List.perm_append_singleton root leaves)
  have hsorted := @sorted_insertAll ι (AtMost containerOf comp) _ (fun _ _ => hcomp.total _ _)
    (fun _ _ _ => hcomp.trans _ _ _) (.node root .nil .nil) leaves (List.pairwise_singleton _ root)
  obtain ⟨nodes', hrun, hm⟩ := @bstInsAll_spec ι α nodes root _ _ containerOf comp leaves hstart
    ((List.perm_append_singleton root leaves).nodup_iff.mpr hnd)
  refine ⟨nodes', _, fun fuel hfuel => hrun fuel hfuel, hm.wellFormed hperm, hperm, hsorted,
    fun σ func s fuel hfuel => ?_⟩
  exact hm.bstDoInorder_eq func (by rw [hperm.length_eq, List.length_cons]; omega) s

/-- Three insertions with a duplicate: the nodes 4 and 5 have the same element. -/
theorem bst_inorder_sorted_four : ∃ (nodes' : Nodes ℕ) (visited : List ℕ),
    bstInsAll (fun x => ((x / 2 : ℕ) : ℤ)) (fun x y => x - y) 4 bstInit 4 [5, 2, 9] = some nodes' ∧
    visited.Perm [4, 5, 2, 9] ∧
    bstDoInorder (fun x => ((x / 2 : ℕ) : ℤ)) (fun s x => s ++ [x]) nodes' 4 4 [] =
      some ((visited.map fun x => ((x / 2 : ℕ) : ℤ)).foldl (fun s x => s ++ [x]) []) := by
  obtain ⟨nodes', visited, hrun, -, hperm, -, hvisit⟩ := bst_inorder_sorted
    (fun x : ℕ => ((x / 2 : ℕ) : ℤ)) (fun x y => x - y)
    ⟨fun x y => by omega, fun x y z h h' => by omega⟩ bstInit 4 rfl [5, 2, 9] (by decide)
  exact ⟨nodes', visited, hrun 4 (by decide), hperm, hvisit _ _ _ 4 (by decide)⟩

end HorizonOS.Libc.Bst
