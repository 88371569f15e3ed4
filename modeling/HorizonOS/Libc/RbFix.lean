import HorizonOS.Libc.Rotate

/-!
# Repairing a red-black tree

Model of `rb_fix` (`libc/datastructures/trees/rb/rb.c`) over a memory of linked nodes. The loop
climbs from a red leaf; `right_rotate` misplaces the link of a parent whose left child it rotates,
so it is followed with both outcomes.

* `fixSide_recolor`, `fixSide_turn`: the two kinds of iteration, for either side.
* `Misplaces`, `misplaces_iff`: the states in which an iteration rotates a left child to the right.
* `rbFixBody_spec`: one iteration goes on at the grandparent, or ends the loop with a red-black tree
  or with a node cut off.
* `rbFix_spec`: so does the loop.
-/

namespace HorizonOS.Libc.Rb

open Lib.RedBlack Lib.RedBlack.RBTree Lib.LinkedTree

variable {ι : Type} [DecidableEq ι]

/-! ## `rb_fix` -/

/-- The test `y && y->color == RED`. -/
def isRed (nodes : Nodes ι) : Option ι → Bool
  | none => false
  | some y => (nodes y).color = .red

/-- The rotation to the side `s`. -/
def rotateTo : Side → Nodes ι → Option ι → Nodes ι × ℤ
  | .left => leftRotate
  | .right => rightRotate

/-- The rotation at `parent(leaf)` where `leaf` is its child on the inner side (rb.c:73–77 and
94–98), with the new `leaf`. -/
def straighten (s : Side) (nodes : Nodes ι) (leaf p : ι) : Nodes ι × ι :=
  if (nodes p).child s.other = some leaf then ((rotateTo s nodes (some p)).1, p) else (nodes, leaf)

/-- The new colours, the new root and the rotation at the grandparent (rb.c:78–85 and 99–106). -/
def lift (s : Side) (nodes : Nodes ι) (root leaf : ι) : Option (Nodes ι × ι × ι) := do
  let p ← (nodes leaf).parent
  let nodes := nodes.setColor p .black
  let g ← (nodes p).parent
  let nodes := nodes.setColor g .red
  let root ← if root = g then (nodes g).child s else some root
  return ((rotateTo s.other nodes (some g)).1, root, leaf)

/-- One branch of the loop body of `rb_fix` (rb.c:67–86 and 88–107): `s` is the side of
`parent(leaf)`, and the other child of the grandparent is `y`. -/
def fixSide (s : Side) (nodes : Nodes ι) (root leaf p g : ι) : Option (Nodes ι × ι × ι) := do
  if isRed nodes ((nodes g).child s.other) then
    let y ← (nodes g).child s.other
    return (((nodes.setColor y .black).setColor p .black).setColor g .red, root, g)
  else
    let (nodes, leaf) := straighten s nodes leaf p
    lift s nodes root leaf

/-- The loop body of `rb_fix` (rb.c:64–110). `none` is a read or a write through `NULL`. -/
def rbFixBody (nodes : Nodes ι) (root leaf : ι) : Option (Nodes ι × ι × ι) := do
  let p ← (nodes leaf).parent
  let g ← (nodes p).parent
  let (nodes, root, leaf) ←
    if (nodes g).left = some p then fixSide .left nodes root leaf p g
    else fixSide .right nodes root leaf p g
  return (nodes.setColor root .black, root, leaf)

/-- The loop test of `rb_fix` (rb.c:63). -/
def Loops (nodes : Nodes ι) (root leaf : ι) : Prop := leaf ≠ root ∧ isRed nodes (nodes leaf).parent

instance (nodes : Nodes ι) (root leaf : ι) : Decidable (Loops nodes root leaf) :=
  inferInstanceAs (Decidable (_ ∧ _))

/-- Model of `rb_fix` (rb.c:62–113), with the number of loop tests as fuel: the memory and `*root`.
The return value is always 0. -/
def rbFix : ℕ → Nodes ι → ι → ι → Option (Nodes ι × ι)
  | 0, _, _, _ => none
  | fuel + 1, nodes, root, leaf =>
    if Loops nodes root leaf then do
      let (nodes, root, leaf) ← rbFixBody nodes root leaf
      rbFix fuel nodes root leaf
    else some (nodes, root)

/-! ## One iteration -/

variable {nodes : Nodes ι} {root leaf p g q : ι} {fs : List (Frame ι)} {s sp : Side} {c d : Color}
  {t tp u a b e : RBTree ι} {h : ℕ}

omit [DecidableEq ι] in
theorem isRed_top {par : Option ι} (hrep : Rep nodes par u) (hu : RB u c h) :
    isRed nodes u.top = true ↔ c = .red := by
  cases hu with
  | nil => simp [isRed, top]
  | red => simp [isRed, top, hrep.1]
  | black => simp [isRed, top, hrep.1]

/-- `left_rotate`, and `right_rotate` at a node that is not a left child. -/
theorem rotateTo_eq {n x : ι} (hm : Holds nodes root (plug fs (fork s c a n (fork s d b x e))))
    (hside : s = .left ∨ sideOf fs = .right) :
    (rotateTo s nodes (some n)).1 = rotate s nodes n := by
  cases s with
  | left => exact leftRotate_eq nodes n
  | right => exact rightRotate_rotate hm (hside.resolve_left nofun)

omit [DecidableEq ι] in
theorem parent_leaf {f : Frame ι} (hm : Holds nodes root (plug (f :: fs) t))
    (ht : t.top = some leaf) : (nodes leaf).parent = some f.key := by
  cases t with
  | nil => cases ht
  | node c l x r => cases ht; rw [(rep_plug.mp hm.rep).1.1]; rfl

omit [DecidableEq ι] in
theorem node_above {f : Frame ι} (hm : Holds nodes root (plug (f :: fs) t)) :
    nodes f.key = .of f.side (above fs) t.top f.sib.top f.color := (rep_plug.mp hm.rep).2.1

theorem straighten_spec
    (hm : Holds nodes root (plug (⟨sp, .red, p, tp⟩ :: ⟨s, .black, g, u⟩ :: fs) t))
    (ht : t.top = some leaf) (hrb : RB t .red h) (htp : RB tp .black h) :
    ∃ t' p' tp', Holds (straighten s nodes leaf p).1 root
        (plug (⟨s, .red, p', tp'⟩ :: ⟨s, .black, g, u⟩ :: fs) t') ∧
      t'.top = some (straighten s nodes leaf p).2 ∧ RB t' .red h ∧ RB tp' .black h ∧
      (plug (⟨s, .red, p', tp'⟩ :: ⟨s, .black, g, u⟩ :: fs) t').toList =
        (plug (⟨sp, .red, p, tp⟩ :: ⟨s, .black, g, u⟩ :: fs) t).toList := by
  have hp := node_above hm
  rcases s.eq_or_eq_other sp with rfl | rfl
  · have hne : (nodes p).child sp.other ≠ some leaf := by
      rw [hp, Node.child_other_of]
      intro htop
      exact List.disjoint_of_nodup_append hm.perm_nodup (mem_of_top ht)
        (List.mem_append_left _ (List.mem_cons_of_mem _ (mem_of_top htop)))
    rw [straighten, if_neg hne]
    exact ⟨t, p, tp, hm, ht, hrb, htp, rfl⟩
  · obtain ⟨b, x, e, rfl, hb, he⟩ := hrb.exists_fork s
    rw [top_fork] at ht
    cases ht
    have hm : Holds nodes root
        (plug (⟨s, .black, g, u⟩ :: fs) (fork s .red tp p (fork s .red b leaf e))) := by
      rwa [plug_cons, fork_other] at hm
    have heq : (nodes p).child s.other = some leaf := by
      rw [hm.lookup, Node.child_other_of, top_fork]
    rw [straighten, if_pos heq, rotateTo_eq hm (by cases s <;> simp [sideOf])]
    refine ⟨fork s .red tp p b, leaf, e,
      hm.rotate ((top_plug_of_ne (List.cons_ne_nil _ fs) _ _).trans hm.top), top_fork,
      .fork_red htp hb, he, ?_⟩
    calc (plug (⟨s, .black, g, u⟩ :: fs) (fork s .red (fork s .red tp p b) leaf e)).toList
        = (plug (⟨s, .black, g, u⟩ :: fs) (fork s .red tp p (fork s .red b leaf e))).toList :=
          toList_plug_congr toList_rotate
      _ = _ := by rw [← fork_other]; rfl

/-- The run of `lift` up to its rotation. -/
theorem lift_run (hm : Holds nodes root (plug (⟨s, .red, p, tp⟩ :: ⟨s, .black, g, u⟩ :: fs) t))
    (ht : t.top = some leaf) : ∃ nodes' root',
      lift s nodes root leaf = some ((rotateTo s.other nodes' (some g)).1, root', leaf) ∧
      Holds nodes' root
        (plug fs (fork s.other .red u g (fork s.other .black tp p t))) ∧
      (plug fs (fork s.other .black (fork s.other .red u g tp) p t)).top = some root' := by
  have hp := parent_leaf hm ht
  have h₁ := @Holds.paint_fork ι nodes t tp (⟨s, .black, g, u⟩ :: fs) root p s .red _ hm .black
  have hg := parent_leaf h₁ top_fork
  have h₂ := @Holds.paint_fork ι _ _ u fs root g s .black _ h₁ .red
  have hchild : ((nodes.setColor p .black).setColor g .red g).child s = some p := by
    rw [h₂.lookup, Node.child_of, top_fork]
  rw [← fork_other, ← fork_other s .black] at h₂
  have hroot := h₂.root_eq_iff top_fork
  by_cases hfs : fs = []
  · refine ⟨_, p, ?_, h₂, by rw [hfs]; exact top_fork⟩
    rw [lift, hp]
    simp only [Option.bind_eq_bind, Option.bind_some, hg, if_pos (hroot.mpr hfs), hchild]
    rfl
  · refine ⟨_, root, ?_, h₂, (top_plug_of_ne hfs _ _).trans h₂.top⟩
    rw [lift, hp]
    simp only [Option.bind_eq_bind, Option.bind_some, hg, if_neg (mt hroot.mp hfs)]
    rfl

/-! ## The condition -/

/-- The iteration rotates a left child to the right: `parent(leaf)` is a left child, the other child
of the grandparent is not red, and the grandparent is a left child itself. -/
def Misplaces (nodes : Nodes ι) (leaf : ι) : Prop :=
  ∃ p g q, (nodes leaf).parent = some p ∧ (nodes p).parent = some g ∧ (nodes g).left = some p ∧
    isRed nodes (nodes g).right = false ∧ (nodes g).parent = some q ∧ (nodes q).left = some g

omit [DecidableEq ι] in
theorem misplaces_iff
    (hm : Holds nodes root (plug (⟨sp, .red, p, tp⟩ :: ⟨s, .black, g, u⟩ :: fs) t))
    (ht : t.top = some leaf) (hu : RB u c h) :
    Misplaces nodes leaf ↔ s = .left ∧ c = .black ∧ sideOf fs = .left := by
  have hp := parent_leaf hm ht
  have hm₁ : Holds nodes root (plug (⟨s, .black, g, u⟩ :: fs) (fork sp .red t p tp)) := hm
  have hg := parent_leaf hm₁ top_fork
  have hm₂ : Holds nodes root (plug fs (fork s .black (fork sp .red t p tp) g u)) := hm
  have hrep := (rep_fork.mp (rep_plug.mp hm₂.rep).1).2.2
  have hleft : (nodes g).left = some p ↔ s = .left := hm₁.left_above_iff top_fork rfl
  have hnode := hm₂.lookup
  constructor
  · rintro ⟨p', g', q, hp', hg', hside, hred, hq, hqleft⟩
    cases hp.symm.trans hp'
    cases hg.symm.trans hg'
    cases hleft.mp hside
    rw [hnode] at hq hred
    refine ⟨rfl, ?_, (hm₂.left_above_iff top_fork hq).mp hqleft⟩
    cases c with
    | red =>
      exact nomatch (show isRed nodes u.top = false from hred).symm.trans
        ((isRed_top hrep hu).mpr rfl)
    | black => rfl
  · rintro ⟨rfl, rfl, hside⟩
    obtain _ | ⟨f, fs⟩ := fs
    · cases hside
    refine ⟨p, g, f.key, hp, hg, hleft.mpr rfl, ?_, by rw [hnode]; rfl,
      (hm₂.left_above_iff top_fork rfl).mpr hside⟩
    rw [hnode, ← Bool.not_eq_true]
    exact fun h => nomatch (isRed_top hrep hu).mp h

/-! ## What an iteration does -/

/-- The memory holds a red-black tree with the nodes of `l` in this order. -/
def Kept (nodes : Nodes ι) (root : ι) (l : List ι) : Prop :=
  ∃ t h, Holds nodes root t ∧ RB t .black h ∧ t.toList = l

/-- The loop of `rb_fix` at `leaf`: the tree is red-black but for the red node `leaf` at the focus,
or `leaf` is the root again. -/
def Fixing (nodes : Nodes ι) (root leaf : ι) (fs : List (Frame ι)) (l : List ι) : Prop :=
  ∃ t, Holds nodes root (plug fs t) ∧ t.top = some leaf ∧ (plug fs t).toList = l ∧
    (fs ≠ [] ∧ (∃ d h, RB t .red h ∧ Fits fs d h) ∨ fs = [] ∧ ∃ h, RB t .black h)

theorem fixSide_recolor
    (hm : Holds nodes root (plug (⟨sp, .red, p, tp⟩ :: ⟨s, .black, g, u⟩ :: fs) t))
    (hu : RB u .red h) :
    ∃ nodes', fixSide s nodes root leaf p g = some (nodes', root, g) ∧
      Holds nodes' root (plug fs (fork s .red (fork sp .black t p tp) g (u.paint .black))) := by
  have hm₂ : Holds nodes root (plug fs (fork s .black (fork sp .red t p tp) g u)) := hm
  have hy : (nodes g).child s.other = u.top := by rw [hm₂.lookup, Node.child_other_of]
  have hrep := (rep_fork.mp (rep_plug.mp hm₂.rep).1).2.2
  obtain ⟨y, hytop⟩ : ∃ y, u.top = some y := by cases hu; exact ⟨_, rfl⟩
  rw [← fork_other] at hm₂
  have h₁ := @Holds.paint ι nodes u (⟨s.other, .black, g, fork sp .red t p tp⟩ :: fs) root y _ hm₂
    hytop .black
  rw [plug_cons, fork_other] at h₁
  have h₂ := @Holds.paint_fork ι _ t tp (⟨s, .black, g, u.paint .black⟩ :: fs) root p sp .red _ h₁
    .black
  have h₃ := @Holds.paint_fork ι _ _ (u.paint .black) fs root g s .black _ h₂ .red
  refine ⟨_, ?_, h₃⟩
  rw [fixSide, hy, if_pos ((isRed_top hrep hu).mpr rfl), hytop]
  rfl

theorem fixSide_turn
    (hm : Holds nodes root (plug (⟨sp, .red, p, tp⟩ :: ⟨s, .black, g, u⟩ :: fs) t))
    (ht : t.top = some leaf) (hrb : RB t .red h) (htp : RB tp .black h) (hu : RB u .black h) :
    ∃ nodes' root' leaf' t' p' tp',
      fixSide s nodes root leaf p g = some ((rotateTo s.other nodes' (some g)).1, root', leaf') ∧
      Holds nodes' root (plug fs (fork s.other .red u g (fork s.other .black tp' p' t'))) ∧
      (plug fs (fork s.other .black (fork s.other .red u g tp') p' t')).top = some root' ∧
      t'.top = some leaf' ∧ RB t' .red h ∧ RB tp' .black h ∧
      (plug fs (fork s.other .black (fork s.other .red u g tp') p' t')).toList =
        (plug (⟨sp, .red, p, tp⟩ :: ⟨s, .black, g, u⟩ :: fs) t).toList := by
  have hm₂ : Holds nodes root (plug fs (fork s .black (fork sp .red t p tp) g u)) := hm
  have hy : (nodes g).child s.other = u.top := by rw [hm₂.lookup, Node.child_other_of]
  have hrep := (rep_fork.mp (rep_plug.mp hm₂.rep).1).2.2
  obtain ⟨t', p', tp', hm', ht', hrb', htp', hlist⟩ := straighten_spec hm ht hrb htp
  obtain ⟨nodes', root', hrun, hnodes, htop⟩ := lift_run hm' ht'
  refine ⟨nodes', root', _, t', p', tp', ?_, hnodes, htop, ht', hrb', htp', ?_⟩
  · rw [fixSide, hy, if_neg fun h => nomatch (isRed_top hrep hu).mp h]
    exact hrun
  · rw [← hlist, toList_plug_congr toList_rotate, plug_cons, plug_cons]
    refine toList_plug_congr ?_
    rw [fork_other, fork_other]
    cases s <;> rfl

theorem rbFixBody_run {nodes' : Nodes ι} {root' leaf' : ι}
    (hm : Holds nodes root (plug (⟨sp, .red, p, tp⟩ :: ⟨s, .black, g, u⟩ :: fs) t))
    (ht : t.top = some leaf)
    (hrun : fixSide s nodes root leaf p g = some (nodes', root', leaf')) :
    rbFixBody nodes root leaf = some (nodes'.setColor root' .black, root', leaf') := by
  have hm₁ : Holds nodes root (plug (⟨s, .black, g, u⟩ :: fs) (fork sp .red t p tp)) := hm
  have hleft : (nodes g).left = some p ↔ s = .left := hm₁.left_above_iff top_fork rfl
  rw [rbFixBody, parent_leaf hm ht, Option.bind_eq_bind, Option.bind_some,
    parent_leaf hm₁ top_fork, Option.bind_some]
  cases s with
  | left => rw [if_pos (hleft.mpr rfl), hrun]; rfl
  | right => rw [if_neg (fun h => nomatch hleft.mp h), hrun]; rfl

omit [DecidableEq ι] in
/-- Below a black parent the loop ends. -/
theorem not_loops (hleaf : (nodes leaf).parent = some p) (hp : (nodes p).color = .black) :
    ¬Loops nodes root leaf := by
  rintro ⟨-, h⟩
  rw [hleaf, isRed, hp] at h
  cases h

theorem parent_setColor {x y : ι} : (nodes.setColor x c y).parent = (nodes y).parent := by
  rw [Nodes.setColor_apply]; split_ifs <;> rfl

theorem child_setColor {x y : ι} : (nodes.setColor x c y).child s = (nodes y).child s := by
  rw [Nodes.setColor_apply]; split_ifs <;> cases s <;> rfl

theorem color_setColor_black {x y : ι} (hy : (nodes y).color = .black) :
    (nodes.setColor x .black y).color = .black := by
  rw [Nodes.setColor_apply]; split_ifs <;> [rfl; exact hy]

theorem cut_setColor {x y : ι} (hcut : Cut nodes y) : Cut (nodes.setColor x c) y := by
  obtain ⟨q, hq, hchild⟩ := hcut
  exact ⟨q, parent_setColor.trans hq, fun s => by rw [child_setColor]; exact hchild s⟩

/-- The whole tree once the focus is red-black, with the root painted black. -/
theorem kept_of_rotated {l : List ι} (hm : Holds nodes root (plug fs t)) (ht : RB t .black h)
    (hfs : Fits fs d h) (hl : (plug fs t).toList = l) : Kept (nodes.setColor root .black) root l := by
  obtain ⟨h', hrb⟩ := RB.plug hfs ht nofun
  have hpaint := @Holds.paint ι nodes (plug fs t) [] root root _ hm hm.top .black
  exact ⟨plug fs t, h', by rwa [hrb.paint_self] at hpaint, hrb, hl⟩

/-- The next state after a recolouring, with the root painted black. -/
theorem fixing_of_recolored {l : List ι} (hm : Holds nodes root (plug fs t)) (ht : RB t .red h)
    (htop : t.top = some g) (hfs : Fits fs d h) (hl : (plug fs t).toList = l) :
    Fixing (nodes.setColor root .black) root g fs l := by
  have hpaint := @Holds.paint ι nodes (plug fs t) [] root root _ hm hm.top .black
  by_cases hne : fs = []
  · subst hne
    exact ⟨t.paint .black, hpaint, top_paint.trans htop, toList_paint.trans hl,
      .inr ⟨rfl, _, ht.paint_black⟩⟩
  · exact ⟨t, by rwa [hfs.paint_plug hne] at hpaint, htop, hl, .inl ⟨hne, d, h, ht, hfs⟩⟩

section Turn

variable (hm : Holds nodes root (plug fs (fork s.other .red u g (fork s.other .black tp p t))))
  {root' : ι} (htop : (plug fs (fork s.other .black (fork s.other .red u g tp) p t)).top = some root')
  (ht : t.top = some leaf)
include hm htop ht

/-- After the rotation `leaf` hangs below a black node. -/
theorem rotated_below_black : (rotate s.other nodes g leaf).parent = some p ∧
    (rotate s.other nodes g p).color = .black := by
  have hr := hm.rotate htop
  have hr' : Holds (rotate s.other nodes g) root'
      (plug (⟨s, .black, p, fork s.other .red u g tp⟩ :: fs) t) := by
    rw [plug_cons, ← fork_other]
    exact hr
  exact ⟨parent_leaf hr' ht, by rw [hr.lookup, Node.color_of]⟩

theorem turn_kept (hrb : RB t .red h) (htp : RB tp .black h) (hu : RB u .black h)
    (hfs : Fits fs d (h + 1)) (hside : s.other = .left ∨ sideOf fs = .right) :
    ¬Loops ((rotateTo s.other nodes (some g)).1.setColor root' .black) root' leaf ∧
      Kept ((rotateTo s.other nodes (some g)).1.setColor root' .black) root'
        (plug fs (fork s.other .black (fork s.other .red u g tp) p t)).toList := by
  obtain ⟨hparent, hcolor⟩ := rotated_below_black hm htop ht
  rw [rotateTo_eq hm hside]
  exact ⟨not_loops (parent_setColor.trans hparent) (color_setColor_black hcolor),
    kept_of_rotated (hm.rotate htop) (.fork_black (.fork_red hu htp) hrb) hfs rfl⟩

theorem turn_cut (hs : s = .left) (hside : sideOf fs = .left) :
    ¬Loops ((rotateTo s.other nodes (some g)).1.setColor root' .black) root' leaf ∧
      Cut ((rotateTo s.other nodes (some g)).1.setColor root' .black) p := by
  subst hs
  obtain ⟨hparent, hcolor⟩ := rotated_below_black hm htop ht
  obtain _ | ⟨f, fs⟩ := fs
  · cases hside
  have hrot : (rotateTo Side.left.other nodes (some g)).1 =
      (rotate .right nodes g).setChild .left f.key t.top := rightRotate_misplaces hm rfl hside
  rw [hrot]
  refine ⟨not_loops (p := p) ?_ (color_setColor_black ?_),
    cut_setColor (cut_misplaced hm rfl hside)⟩
  · rw [parent_setColor, Nodes.setChild_apply, apply_ite Node.parent, Node.parent_setChild,
      ite_self]
    exact hparent
  · rw [Nodes.setChild_apply, apply_ite Node.color, Node.color_setChild, ite_self]
    exact hcolor

end Turn

/-- An iteration goes on at the grandparent, or it is the last one. It leaves a red-black tree, or
it cuts a node off, which happens exactly where it rotates a left child to the right. -/
theorem rbFixBody_spec
    (hm : Holds nodes root (plug (⟨sp, .red, p, tp⟩ :: ⟨s, .black, g, u⟩ :: fs) t))
    (ht : t.top = some leaf) (hrb : RB t .red h) (htp : RB tp .black h) (hu : RB u c h)
    (hfs : Fits fs d (h + 1)) {l : List ι}
    (hl : (plug (⟨sp, .red, p, tp⟩ :: ⟨s, .black, g, u⟩ :: fs) t).toList = l) :
    ∃ nodes' root' leaf', rbFixBody nodes root leaf = some (nodes', root', leaf') ∧
      (¬Misplaces nodes leaf ∧ Fixing nodes' root' leaf' fs l ∨
        ¬Loops nodes' root' leaf' ∧ (¬Misplaces nodes leaf ∧ Kept nodes' root' l ∨
          Misplaces nodes leaf ∧ ∃ x ∈ l, Cut nodes' x)) := by
  have hmis := misplaces_iff hm ht hu
  cases c with
  | red =>
    obtain ⟨nodes', hrun, hnodes⟩ := @fixSide_recolor _ _ _ _ leaf _ _ _ _ _ _ _ _ _ hm hu
    refine ⟨_, _, _, rbFixBody_run hm ht hrun, .inl ⟨(fun h => nomatch (hmis.mp h).2.1), ?_⟩⟩
    refine fixing_of_recolored hnodes (.fork_red (.fork_black hrb htp) hu.paint_black) top_fork hfs ?_
    rw [← hl, plug_cons, plug_cons]
    refine toList_plug_congr ?_
    cases s <;> cases sp <;> simp [fork, toList, toList_paint]
  | black =>
    obtain ⟨nodes', root', leaf', t', p', tp', hrun, hnodes, htop, ht', hrb', htp', hlist⟩ :=
      fixSide_turn hm ht hrb htp hu
    refine ⟨_, _, _, rbFixBody_run hm ht hrun, .inr ?_⟩
    rw [hmis, ← hl, ← hlist]
    by_cases hbad : s = .left ∧ sideOf fs = .left
    · obtain ⟨hend, hcut⟩ := turn_cut hnodes htop ht' hbad.1 hbad.2
      exact ⟨hend, .inr ⟨⟨hbad.1, rfl, hbad.2⟩, p', mem_plug.mpr (.inl (mem_fork.mpr (.inl rfl))),
        hcut⟩⟩
    · have hgood : s.other = .left ∨ sideOf fs = .right := by
        cases s with
        | left => exact .inr ((Side.eq_or_eq_other .left _).resolve_left fun h => hbad ⟨rfl, h⟩)
        | right => exact .inl rfl
      obtain ⟨hend, hkept⟩ := turn_kept hnodes htop ht' hrb' htp' hu hfs hgood
      exact ⟨hend, .inl ⟨fun h => hbad ⟨h.1, h.2.2⟩, hkept⟩⟩

/-! ## The loop -/

variable {l : List ι}

/-- No iteration of the loop rotates a left child to the right. -/
def Clear : ℕ → Nodes ι → ι → ι → Prop
  | 0, _, _, _ => True
  | fuel + 1, nodes, root, leaf => Loops nodes root leaf → ¬Misplaces nodes leaf ∧
    ∀ nodes' root' leaf', rbFixBody nodes root leaf = some (nodes', root', leaf') →
      Clear fuel nodes' root' leaf'

omit [DecidableEq ι] in
theorem fixing_cases (hfix : Fixing nodes root leaf fs l) :
    ¬Loops nodes root leaf ∧ Kept nodes root l ∨
      Loops nodes root leaf ∧ ∃ sp p tp s g u fs' t c d h,
        fs = ⟨sp, .red, p, tp⟩ :: ⟨s, .black, g, u⟩ :: fs' ∧ Holds nodes root (plug fs t) ∧
        t.top = some leaf ∧ (plug fs t).toList = l ∧ RB t .red h ∧ RB tp .black h ∧ RB u c h ∧
        Fits fs' d (h + 1) := by
  obtain ⟨t, hm, ht, hl, ⟨hne, d, h, hrb, hfits⟩ | ⟨rfl, h, hrb⟩⟩ := hfix
  · have hroot : leaf ≠ root := fun h => hne ((hm.root_eq_iff ht).mp h.symm)
    cases hfits with
    | root => exact absurd rfl hne
    | black hb hfs =>
      obtain ⟨h', hrb'⟩ := RB.plug (.black hb hfs) hrb fun _ => rfl
      refine .inl ⟨not_loops (parent_leaf hm ht) ?_, _, h', hm, hrb', hl⟩
      rw [node_above hm, Node.color_of]
    | red htp hfs =>
      cases hfs with
      | black hu hfs =>
        refine .inr ⟨⟨hroot, ?_⟩, _, _, _, _, _, _, _, t, _, _, h, rfl, hm, ht, hl, hrb, htp, hu,
          hfs⟩
        rw [parent_leaf hm ht, isRed, node_above hm, Node.color_of]
        rfl
  · exact .inl ⟨fun h => h.1 ((hm.root_eq_iff ht).mpr rfl).symm, t, h, hm, hrb, hl⟩

/-- The loop ends with a red-black tree, or with a node cut off; the latter exactly where one of its
iterations rotates a left child to the right. -/
theorem rbFix_spec {fuel : ℕ} (hfix : Fixing nodes root leaf fs l) (hfuel : fs.length < fuel) :
    ∃ nodes' root', rbFix fuel nodes root leaf = some (nodes', root') ∧
      (Clear fuel nodes root leaf ∧ Kept nodes' root' l ∨
        ¬Clear fuel nodes root leaf ∧ ∃ x ∈ l, Cut nodes' x) := by
  induction fuel generalizing nodes root leaf fs with
  | zero => omega
  | succ fuel ih =>
    rcases fixing_cases hfix with ⟨hend, hkept⟩ | ⟨hloop, sp, p, tp, s, g, u, fs', t, c, d, h, rfl,
      hm, ht, hl, hrb, htp, hu, hfits⟩
    · exact ⟨nodes, root, if_neg hend, .inl ⟨fun h => absurd h hend, hkept⟩⟩
    obtain ⟨nodes', root', leaf', hrun, hnext⟩ := rbFixBody_spec hm ht hrb htp hu hfits hl
    have hstep : rbFix (fuel + 1) nodes root leaf = rbFix fuel nodes' root' leaf' := by
      rw [rbFix, if_pos hloop, hrun]; rfl
    have hclear : Clear (fuel + 1) nodes root leaf ↔
        ¬Misplaces nodes leaf ∧ Clear fuel nodes' root' leaf' := by
      refine ⟨fun h => ⟨(h hloop).1, (h hloop).2 _ _ _ hrun⟩, fun h _ => ⟨h.1, ?_⟩⟩
      rintro _ _ _ heq
      cases hrun.symm.trans heq
      exact h.2
    rw [hstep, hclear]
    simp only [List.length_cons] at hfuel
    rcases hnext with ⟨hmis, hfix'⟩ | ⟨hend, hnext⟩
    · obtain ⟨nodes'', root'', hrun', hres⟩ := ih hfix' (by omega)
      refine ⟨nodes'', root'', hrun', ?_⟩
      rwa [not_and, imp_iff_right hmis, and_iff_right hmis]
    -- The loop test fails after a rotation.
    obtain ⟨fuel, rfl⟩ : ∃ k, fuel = k + 1 := ⟨fuel - 1, by omega⟩
    refine ⟨nodes', root', if_neg hend, ?_⟩
    rcases hnext with ⟨hmis, hkept⟩ | ⟨hmis, hcut⟩
    · exact .inl ⟨⟨hmis, fun h => absurd h hend⟩, hkept⟩
    · exact .inr ⟨fun h => h.1 hmis, hcut⟩

end HorizonOS.Libc.Rb
