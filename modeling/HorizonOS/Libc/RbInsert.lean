import HorizonOS.Libc.RbFix

/-!
# Insertion into a red-black tree

Model of `rb_ins` (`libc/datastructures/trees/rb/rb.c`) and proofs about every sequence of
insertions from a single node.

* `descend_spec`: the search ends at the place of the new node.
* `hang_spec`: linked there, the tree is red-black but for the new red node.
* `insert_spec`, `allValid_iff`: an insertion, and a sequence of them, keeps a red-black tree exactly
  if `rb_fix` never rotates a left child to the right.
-/

namespace HorizonOS.Libc.Rb

open Lib.RedBlack Lib.RedBlack.RBTree Lib.LinkedTree

/-! ## `rb_ins` -/

section Model

variable {ι α : Type} [DecidableEq ι] (containerOf : ι → α) (comp : α → α → ℤ)

/-- The side `rb_ins` takes at `i` (rb.c:123–124 and 142–143). -/
def sideFor (leaf i : ι) : Side :=
  if comp (containerOf leaf) (containerOf i) < 0 then .left else .right

/-- The loop of `rb_ins` (rb.c:122–137), with the number of its tests as fuel: `i` at the `break`. -/
def descend (nodes : Nodes ι) (leaf : ι) : ℕ → ι → Option ι
  | 0, _ => none
  | fuel + 1, i =>
    match (nodes i).child (sideFor containerOf comp leaf i) with
    | some j => if j ≠ i then descend nodes leaf fuel j else some i
    | none => some i

/-- `rb_ins` up to its call of `rb_fix` (rb.c:118–148). -/
def hang (fuel : ℕ) (nodes : Nodes ι) (root leaf : ι) : Option (Nodes ι) := do
  let nodes := (nodes.setColor root .black).setColor leaf .red
  let i ← descend containerOf comp nodes leaf fuel root
  let nodes := nodes.setParent leaf (some i)
  return nodes.setChild (sideFor containerOf comp leaf i) i (some leaf)

/-- Model of `rb_ins` (rb.c:115–151). -/
def rbIns (fuel : ℕ) (nodes : Nodes ι) (root leaf : ι) : Option (Nodes ι × ι) := do
  let nodes ← hang containerOf comp fuel nodes root leaf
  rbFix fuel nodes root leaf

/-- `elem->rbt.node.left = elem->rbt.node.right = NULL`
(libc/datastructures/trees/rb/main.c:130). -/
def fresh (nodes : Nodes ι) (leaf : ι) : Nodes ι :=
  (nodes.setChild .right leaf none).setChild .left leaf none

/-- The insertion of a fresh node into a tree with the nodes `ins`. Every loop has fuel for one turn
more than there are nodes. -/
def insert (nodes : Nodes ι) (root : ι) (ins : List ι) (leaf : ι) : Option (Nodes ι × ι) :=
  rbIns containerOf comp (ins.length + 1) (fresh nodes leaf) root leaf

end Model

/-! ## The order of the nodes -/

/-- `comp` decides a total preorder: `x` is at most `y` unless `comp y x < 0`. -/
structure TotalPreorder {α : Type} (comp : α → α → ℤ) : Prop where
  total : ∀ x y, comp x y < 0 → ¬comp y x < 0
  trans : ∀ x y z, ¬comp y x < 0 → ¬comp z y < 0 → ¬comp z x < 0

variable {ι α : Type} {containerOf : ι → α} {comp : α → α → ℤ}

/-- The nodes come in the order of their elements. -/
def Ordered (containerOf : ι → α) (comp : α → α → ℤ) (l : List ι) : Prop :=
  l.Pairwise fun x y => ¬comp (containerOf y) (containerOf x) < 0

/-- The place of `leaf` is the focus: it belongs after the nodes on the left and before those on the
right. -/
def Between (containerOf : ι → α) (comp : α → α → ℤ) (leaf : ι) (fs : List (Frame ι)) : Prop :=
  (∀ y ∈ before fs, ¬comp (containerOf leaf) (containerOf y) < 0) ∧
    ∀ y ∈ after fs, comp (containerOf leaf) (containerOf y) < 0

section Order

variable (hcomp : TotalPreorder comp) {fs : List (Frame ι)} {leaf i : ι} {c : Color}
  {a b : RBTree ι}
include hcomp

/-- Going down on the side of the comparison keeps the place. -/
theorem Between.cons (hbet : Between containerOf comp leaf fs)
    (hord : Ordered containerOf comp
      (plug fs (fork (sideFor containerOf comp leaf i) c a i b)).toList) :
    Between containerOf comp leaf (⟨sideFor containerOf comp leaf i, c, i, b⟩ :: fs) := by
  rw [Ordered, toList_plug, List.pairwise_append] at hord
  have hin := (List.pairwise_append.mp hord.2.1).1
  by_cases hlt : comp (containerOf leaf) (containerOf i) < 0
  · simp only [sideFor, if_pos hlt] at hin ⊢
    refine ⟨hbet.1, fun y hy => ?_⟩
    rcases List.mem_append.mp hy with hy | hy
    · rcases List.mem_cons.mp hy with rfl | hy
      · exact hlt
      · have hiy := (List.pairwise_cons.mp (List.pairwise_append.mp hin).2.1).1 y hy
        exact not_not.mp fun h => hcomp.trans _ _ _ hiy h hlt
    · exact hbet.2 y hy
  · simp only [sideFor, if_neg hlt] at hin ⊢
    refine ⟨fun y hy => ?_, hbet.2⟩
    rcases List.mem_append.mp hy with hy | hy
    · exact hbet.1 y hy
    · rcases List.mem_append.mp hy with hy | hy
      · have hyi := (List.pairwise_append.mp hin).2.2 y hy i List.mem_cons_self
        exact hcomp.trans _ _ _ hyi hlt
      · rw [List.mem_singleton.mp hy]
        exact hlt

/-- A node put in its place. -/
theorem Between.ordered (hbet : Between containerOf comp leaf fs)
    (hord : Ordered containerOf comp (plug fs .nil).toList) :
    Ordered containerOf comp (plug fs (.node c .nil leaf .nil)).toList := by
  rw [Ordered, toList_plug, List.pairwise_append] at hord ⊢
  refine ⟨hord.1, List.pairwise_cons.mpr ⟨fun y hy => ?_, hord.2.1⟩, fun x hx y hy => ?_⟩
  · exact hcomp.total _ _ (hbet.2 y hy)
  · rcases List.mem_cons.mp hy with rfl | hy
    · exact hbet.1 x hx
    · exact hord.2.2 x hx y hy

end Order

/-! ## One insertion -/

section Insertion

variable [DecidableEq ι] (hcomp : TotalPreorder comp) {nodes : Nodes ι} {root leaf i : ι}
  {fs : List (Frame ι)} {t : RBTree ι} {ins : List ι}

include hcomp in
/-- The loop finds the place of `leaf`. -/
theorem descend_spec {fuel : ℕ} (hm : Holds nodes root (plug fs t))
    (ht : t.top = some i) (hord : Ordered containerOf comp (plug fs t).toList)
    (hbet : Between containerOf comp leaf fs) (hfuel : t.toList.length ≤ fuel) :
    ∃ j gs, descend containerOf comp nodes leaf fuel i = some j ∧ plug gs .nil = plug fs t ∧
      above gs = some j ∧ sideOf gs = sideFor containerOf comp leaf j ∧
      Between containerOf comp leaf gs := by
  induction fuel generalizing fs t i with
  | zero =>
    cases t with
    | nil => cases ht
    | node => simp [toList] at hfuel
  | succ fuel ih =>
    obtain _ | ⟨c, l, x, r⟩ := t
    · cases ht
    cases ht
    obtain ⟨a, b, heq⟩ := exists_fork (sideFor containerOf comp leaf i) c l i r
    rw [heq] at hm hord hfuel ⊢
    have hbet' := hbet.cons hcomp hord
    have hchild := congrArg (Node.child (sideFor containerOf comp leaf i)) hm.lookup
    rw [Node.child_of] at hchild
    rw [perm_fork.length_eq, List.length_cons, List.length_append] at hfuel
    cases a with
    | nil =>
      refine ⟨i, _ :: fs, ?_, rfl, rfl, rfl, hbet'⟩
      rw [descend, hchild]
      rfl
    | node d l' j r' =>
      have hne : j ≠ i := by
        rintro rfl
        have hnd := perm_fork.nodup_iff.mp hm.perm_nodup.of_append_left
        exact (List.nodup_cons.mp hnd).1 (List.mem_append_left _ (mem_of_top rfl))
      obtain ⟨j', gs, hrun, hgs⟩ :=
        @ih j (⟨sideFor containerOf comp leaf i, c, i, b⟩ :: fs) (.node d l' j r') hm rfl hord hbet'
          (by omega)
      refine ⟨j', gs, ?_, hgs⟩
      rw [descend, hchild]
      exact (if_pos hne).trans hrun

/-- The state before an insertion: a red-black tree of the nodes `ins` but for the colour of its
root. -/
def Ready (containerOf : ι → α) (comp : α → α → ℤ) (nodes : Nodes ι) (root : ι) (ins : List ι) :
    Prop :=
  ∃ t h, Holds nodes root t ∧ RB (t.paint .black) .black h ∧ t.toList.Perm ins ∧
    Ordered containerOf comp t.toList

/-- The two colours set first, for a node that is not in the tree. -/
theorem Ready.paint (hready : Ready containerOf comp nodes root ins) (hleaf : leaf ∉ ins) :
    ∃ t h, Holds ((nodes.setColor root .black).setColor leaf .red) root t ∧ RB t .black h ∧
      t.toList.Perm ins ∧ Ordered containerOf comp t.toList ∧
      (nodes.setColor root .black).setColor leaf .red leaf = { nodes leaf with color := .red } := by
  obtain ⟨t, h, hm, hrb, hperm, hord⟩ := hready
  have hpaint := @Holds.paint ι nodes t [] root root _ hm hm.top .black
  refine ⟨t.paint .black, h, hpaint.congr fun y hy => ?_, hrb, by rwa [toList_paint],
    by rwa [toList_paint], ?_⟩
  · rw [plug, toList_paint] at hy
    rw [Nodes.setColor_apply, if_neg (ne_of_mem_of_not_mem (hperm.mem_iff.mp hy) hleaf)]
  · have hroot : root ∈ ins := hperm.mem_iff.mp (mem_of_top hm.top)
    rw [Nodes.setColor_apply, if_pos rfl, Nodes.setColor_apply,
      if_neg (ne_of_mem_of_not_mem hroot hleaf).symm]

include hcomp in
/-- The node is hung in its place, red and below some node of the tree. -/
theorem hang_spec (hready : Ready containerOf comp nodes root ins) (hleaf : leaf ∉ ins)
    (hlinks : (nodes leaf).left = none ∧ (nodes leaf).right = none) :
    ∃ nodes' fs l, hang containerOf comp (ins.length + 1) nodes root leaf = some nodes' ∧
      Fixing nodes' root leaf fs l ∧ l.Perm (leaf :: ins) ∧ Ordered containerOf comp l ∧
      fs.length < ins.length + 1 := by
  obtain ⟨t, h, hm, hrb, hperm, hord, hnew⟩ := hready.paint hleaf
  obtain ⟨j, gs, hrun, hgs, habove, hside, hbet⟩ := @descend_spec ι α containerOf comp _ hcomp _ root
    leaf root [] t (ins.length + 1) hm hm.top hord ⟨nofun, nofun⟩ (by rw [hperm.length_eq]; omega)
  obtain rfl : plug gs .nil = t := hgs
  have hkeys : (keys gs).Perm ins := (perm_plug gs .nil).symm.trans hperm
  have hne : gs ≠ [] := by rintro rfl; cases habove
  have hholds := hm.attach habove (fun h => hleaf (hperm.mem_iff.mp h))
    (hnew.trans (by simp only [hlinks.1, hlinks.2]; rfl))
  obtain ⟨c, d, h', hnil, hfits, -⟩ := hrb.unplug
  cases hnil
  rw [hside] at hholds
  refine ⟨_, gs, _, ?_, ⟨_, hholds, rfl, rfl, .inl ⟨hne, d, 0, .red .nil .nil, hfits⟩⟩,
    (perm_plug gs _).trans (hkeys.cons leaf), hbet.ordered hcomp hord, ?_⟩
  · rw [hang, hrun]
    rfl
  · have := length_le_keys gs
    rw [hkeys.length_eq] at this
    omega

/-- What an insertion has to leave: the nodes below `root` are those of `ins`, each once and with its
links, in the order of their elements; the root is black, no red node has a red child and every way
down passes as many black nodes. -/
def Valid (containerOf : ι → α) (comp : α → α → ℤ) (nodes : Nodes ι) (root : ι) (ins : List ι) :
    Prop :=
  ∃ t h, Holds nodes root t ∧ RB t .black h ∧ t.toList.Perm ins ∧ Ordered containerOf comp t.toList

/-- The insertion of `leaf` rotates no left child to the right. -/
def ClearInsert (containerOf : ι → α) (comp : α → α → ℤ) (nodes : Nodes ι) (root : ι)
    (ins : List ι) (leaf : ι) : Prop :=
  ∀ nodes', hang containerOf comp (ins.length + 1) (fresh nodes leaf) root leaf = some nodes' →
    Clear (ins.length + 1) nodes' root leaf

omit [DecidableEq ι] in
theorem Valid.ready (hvalid : Valid containerOf comp nodes root ins) :
    Ready containerOf comp nodes root ins := by
  obtain ⟨t, h, hm, hrb, hperm, hord⟩ := hvalid
  exact ⟨t, h, hm, by rwa [hrb.paint_self], hperm, hord⟩

theorem fresh_apply {y : ι} : fresh nodes leaf y =
    if y = leaf then { nodes y with left := none, right := none } else nodes y := by
  rw [fresh, Nodes.setChild_apply, Nodes.setChild_apply]
  split_ifs <;> rfl

theorem Ready.fresh (hready : Ready containerOf comp nodes root ins) (hleaf : leaf ∉ ins) :
    Ready containerOf comp (fresh nodes leaf) root ins := by
  obtain ⟨t, h, hm, hrb, hperm, hord⟩ := hready
  refine ⟨t, h, hm.congr fun y hy => ?_, hrb, hperm, hord⟩
  rw [fresh_apply, if_neg (ne_of_mem_of_not_mem (hperm.mem_iff.mp hy) hleaf)]

include hcomp in
/-- One insertion returns, and it leaves a red-black tree exactly where it rotates no left child to
the right. -/
theorem insert_spec (hready : Ready containerOf comp nodes root ins) (hleaf : leaf ∉ ins) :
    ∃ nodes' root', insert containerOf comp nodes root ins leaf = some (nodes', root') ∧
      (Valid containerOf comp nodes' root' (leaf :: ins) ↔
        ClearInsert containerOf comp nodes root ins leaf) := by
  obtain ⟨nodes₁, fs, l, hrun₁, hfix, hperm, hord, hlen⟩ :=
    hang_spec hcomp (hready.fresh hleaf) hleaf (by rw [fresh_apply, if_pos rfl]; exact ⟨rfl, rfl⟩)
  obtain ⟨nodes', root', hrun, hres⟩ := rbFix_spec hfix hlen
  have hclear : ClearInsert containerOf comp nodes root ins leaf ↔
      Clear (ins.length + 1) nodes₁ root leaf := by
    refine ⟨fun h => h nodes₁ hrun₁, fun h nodes' heq => ?_⟩
    cases hrun₁.symm.trans heq
    exact h
  refine ⟨nodes', root', ?_, ?_⟩
  · rw [insert, rbIns, hrun₁]
    exact hrun
  · rw [hclear]
    rcases hres with ⟨hc, t, h, hm, hrb, rfl⟩ | ⟨hc, x, hx, hcut⟩
    · exact iff_of_true ⟨t, h, hm, hrb, hperm, hord⟩ hc
    · refine iff_of_false ?_ hc
      rintro ⟨t, h, hm, -, hperm', -⟩
      exact hcut.not_mem hm ((hperm'.trans hperm.symm).mem_iff.mpr hx)

end Insertion

/-! ## Sequences of insertions -/

variable [DecidableEq ι]

/-- Every insertion returns and leaves a red-black tree of the nodes inserted so far. -/
def AllValid (containerOf : ι → α) (comp : α → α → ℤ) : Nodes ι → ι → List ι → List ι → Prop
  | _, _, _, [] => True
  | nodes, root, ins, leaf :: leaves => ∃ nodes' root',
    insert containerOf comp nodes root ins leaf = some (nodes', root') ∧
      Valid containerOf comp nodes' root' (leaf :: ins) ∧
      AllValid containerOf comp nodes' root' (leaf :: ins) leaves

/-- No insertion rotates a left child to the right. -/
def AllClear (containerOf : ι → α) (comp : α → α → ℤ) : Nodes ι → ι → List ι → List ι → Prop
  | _, _, _, [] => True
  | nodes, root, ins, leaf :: leaves => ClearInsert containerOf comp nodes root ins leaf ∧
    ∀ nodes' root', insert containerOf comp nodes root ins leaf = some (nodes', root') →
      AllClear containerOf comp nodes' root' (leaf :: ins) leaves

/-- A sequence of insertions. -/
def insertAll (containerOf : ι → α) (comp : α → α → ℤ) :
    Nodes ι → ι → List ι → List ι → Option (Nodes ι × ι)
  | nodes, root, _, [] => some (nodes, root)
  | nodes, root, ins, leaf :: leaves => do
    let (nodes, root) ← insert containerOf comp nodes root ins leaf
    insertAll containerOf comp nodes root (leaf :: ins) leaves

/-- The state at the end of a sequence of insertions. -/
theorem AllValid.last {nodes : Nodes ι} {root leaf : ι} {ins leaves : List ι}
    (h : AllValid containerOf comp nodes root ins (leaf :: leaves)) :
    ∃ nodes' root',
      insertAll containerOf comp nodes root ins (leaf :: leaves) = some (nodes', root') ∧
      Valid containerOf comp nodes' root' (leaves.reverse ++ leaf :: ins) := by
  induction leaves generalizing nodes root ins leaf with
  | nil =>
    obtain ⟨nodes', root', hrun, hvalid, -⟩ := h
    refine ⟨nodes', root', ?_, hvalid⟩
    rw [insertAll, hrun]
    rfl
  | cons leaf' leaves ih =>
    obtain ⟨nodes₁, root₁, hrun, -, hall⟩ := h
    obtain ⟨nodes', root', hrun', hvalid⟩ := ih hall
    refine ⟨nodes', root', ?_, ?_⟩
    · rw [insertAll, hrun]
      exact hrun'
    · rwa [List.reverse_cons, List.append_assoc]

theorem allValid_iff (hcomp : TotalPreorder comp) {nodes : Nodes ι} {root : ι} {ins leaves : List ι}
    (hready : Ready containerOf comp nodes root ins) (hnd : leaves.Nodup)
    (hdis : ∀ x ∈ leaves, x ∉ ins) :
    AllValid containerOf comp nodes root ins leaves ↔
      AllClear containerOf comp nodes root ins leaves := by
  induction leaves generalizing nodes root ins with
  | nil => exact Iff.rfl
  | cons leaf leaves ih =>
    obtain ⟨hleaf, hnd⟩ := List.nodup_cons.mp hnd
    obtain ⟨nodes', root', hrun, hiff⟩ := insert_spec hcomp hready (hdis leaf List.mem_cons_self)
    have hdis' : ∀ x ∈ leaves, x ∉ leaf :: ins := fun x hx h =>
      (List.mem_cons.mp h).elim (fun h => hleaf (h ▸ hx)) (hdis x (List.mem_cons_of_mem _ hx))
    constructor
    · rintro ⟨nodes'', root'', heq, hvalid, hall⟩
      cases hrun.symm.trans heq
      refine ⟨hiff.mp hvalid, fun _ _ heq => ?_⟩
      cases hrun.symm.trans heq
      exact (ih hvalid.ready hnd hdis').mp hall
    · rintro ⟨hclear, hall⟩
      have hvalid := hiff.mpr hclear
      exact ⟨nodes', root', hrun, hvalid, (ih hvalid.ready hnd hdis').mpr (hall _ _ hrun)⟩

/-- Insertion keeps a red-black tree through every sequence of insertions in which no iteration
rotates a left child to the right, and through no other. `left_rotate` keeps the nodes and their
order at every node with a right child; `right_rotate` does at the nodes with a left child that are
not left children themselves. -/
theorem red_black_iff (hcomp : TotalPreorder comp) (nodes : Nodes ι) (root : ι) (c : Color)
    (hroot : nodes root = ⟨none, none, none, c⟩) (leaves : List ι)
    (hnd : (root :: leaves).Nodup) :
    (AllValid containerOf comp nodes root [root] leaves ↔
      AllClear containerOf comp nodes root [root] leaves) ∧
    ∀ (nodes : Nodes ι) (root : ι) (t : RBTree ι) (n : ι), Holds nodes root t → n ∈ t.toList →
      ((nodes n).right ≠ none → SameOrder (leftRotate nodes (some n)).1 t) ∧
      ((nodes n).left ≠ none → (SameOrder (rightRotate nodes (some n)).1 t ↔
        ¬∃ q, (nodes n).parent = some q ∧ (nodes q).left = some n)) := by
  obtain ⟨hleaves, hnd⟩ := List.nodup_cons.mp hnd
  refine ⟨allValid_iff hcomp ⟨.node c .nil root .nil, 1, ⟨rfl, ⟨hroot, trivial, trivial⟩, by
    simp [toList]⟩, .black .nil .nil, .refl _, List.pairwise_singleton _ _⟩ hnd ?_, ?_⟩
  · intro x hx h
    rw [List.mem_singleton.mp h] at hx
    exact hleaves hx
  · intro nodes root t n hm hn
    exact ⟨leftRotate_sameOrder hm hn, rightRotate_sameOrder_iff hm hn⟩

/-- The comparator of the test program (libc/datastructures/trees/rb/main.c:50–53), for data whose
differences are in range. -/
theorem totalPreorder_sub : TotalPreorder fun x y : ℤ => x - y :=
  ⟨fun x y h => by omega, fun x y z h h' => by omega⟩

instance (nodes : Nodes ι) (leaf : ι) : Decidable (Misplaces nodes leaf) :=
  decidable_of_iff ((nodes leaf).parent.any fun p => (nodes p).parent.any fun g =>
    (nodes g).left = some p ∧ isRed nodes (nodes g).right = false ∧
      (nodes g).parent.any fun q => (nodes q).left = some g) (by
    unfold Misplaces
    simp [Option.any_eq_true])

instance decidableClear : (fuel : ℕ) → (nodes : Nodes ι) → (root leaf : ι) →
    Decidable (Clear fuel nodes root leaf)
  | 0, _, _, _ => isTrue trivial
  | fuel + 1, nodes, root, leaf =>
    have (r : Nodes ι × ι × ι) := decidableClear fuel r.1 r.2.1 r.2.2
    decidable_of_iff (Loops nodes root leaf → ¬Misplaces nodes leaf ∧
      ∀ r ∈ rbFixBody nodes root leaf, Clear fuel r.1 r.2.1 r.2.2) (by simp [Clear])

instance decidableAllClear (containerOf : ι → α) (comp : α → α → ℤ) :
    (leaves : List ι) → (nodes : Nodes ι) → (root : ι) → (ins : List ι) →
      Decidable (AllClear containerOf comp nodes root ins leaves)
  | [], _, _, _ => isTrue trivial
  | leaf :: leaves, nodes, root, ins =>
    have (r : Nodes ι × ι) := decidableAllClear containerOf comp leaves r.1 r.2 (leaf :: ins)
    decidable_of_iff
      ((∀ nodes' ∈ hang containerOf comp (ins.length + 1) (fresh nodes leaf) root leaf,
        Clear (ins.length + 1) nodes' root leaf) ∧
      ∀ r ∈ insert containerOf comp nodes root ins leaf,
        AllClear containerOf comp r.1 r.2 (leaf :: ins) leaves) (by simp [AllClear, ClearInsert])

/-- Inserting 2, 3, 4, 5 into the tree of the node 1: the loop of `rb_fix` rotates for 3 and 5 and
recolours for 4. -/
theorem red_black_ascending : AllValid (Nat.cast : ℕ → ℤ) (fun x y => x - y)
    (fun _ => ⟨none, none, none, .red⟩) 1 [1] [2, 3, 4, 5] :=
  (red_black_iff totalPreorder_sub _ 1 .red rfl [2, 3, 4, 5] (by decide)).1.mpr (by decide +kernel)

/-- Inserting 4, 3, 2, 1 into the tree of the node 5 cuts the node 2 off: it has 4 as its parent,
whose left child is 1. -/
theorem red_black_descending : ¬AllValid (Nat.cast : ℕ → ℤ) (fun x y => x - y)
    (fun _ => ⟨none, none, none, .black⟩) 5 [5] [4, 3, 2, 1] := by
  intro h
  obtain ⟨nodes, root, hrun, t, h, hm, -, hperm, -⟩ := h.last
  have hlinks : (insertAll (Nat.cast : ℕ → ℤ) (fun x y => x - y)
      (fun _ => ⟨none, none, none, .black⟩) 5 [5] [4, 3, 2, 1]).map
      (fun r => ((r.1 2).parent, (r.1 4).left, (r.1 4).right)) = some (some 4, some 1, some 5) := by
    decide +kernel
  rw [hrun, Option.map_some, Option.some_inj, Prod.mk.injEq, Prod.mk.injEq] at hlinks
  obtain ⟨hparent, hleft, hright⟩ := hlinks
  have hcut : Cut nodes 2 := by
    refine ⟨4, hparent, fun s => ?_⟩
    cases s with
    | left => exact fun h => absurd (hleft.symm.trans h) (by decide)
    | right => exact fun h => absurd (hright.symm.trans h) (by decide)
  exact hcut.not_mem hm (hperm.mem_iff.mpr (by decide))

end HorizonOS.Libc.Rb
