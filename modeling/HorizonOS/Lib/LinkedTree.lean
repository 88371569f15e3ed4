import HorizonOS.Lib.RedBlack
import Mathlib.Data.List.Nodup
import Mathlib.Logic.Function.Basic

/-!
# Trees of linked nodes

A tree in memory: every node stores its parent, its two children and its colour. `Holds` says that
a memory holds a given tree; the operations on the memory are then read as operations on the tree.

* `Holds.lookup`, `Holds.paint`: reading a node and painting it.
* `Holds.attach`: hanging a new node below the frames.
* `rotate`, `Holds.rotate`: a rotation to either side, with the link of the parent.
-/

namespace HorizonOS.Lib.LinkedTree

open RedBlack RedBlack.RBTree

/-- A node with its links. -/
structure Node (ι : Type*) where
  parent : Option ι
  left : Option ι
  right : Option ι
  color : Color

namespace Node

variable {ι : Type*} {s : Side} {p a b v : Option ι} {c : Color}

/-- The child on the side `s`. -/
def child (s : Side) (nd : Node ι) : Option ι :=
  match s with
  | .left => nd.left
  | .right => nd.right

/-- The node with the child `v` on the side `s`. -/
def setChild (s : Side) (v : Option ι) (nd : Node ι) : Node ι :=
  match s with
  | .left => { nd with left := v }
  | .right => { nd with right := v }

/-- The node with the child `a` on the side `s` and `b` on the other side. -/
def of (s : Side) (p a b : Option ι) (c : Color) : Node ι :=
  match s with
  | .left => ⟨p, a, b, c⟩
  | .right => ⟨p, b, a, c⟩

@[simp] theorem child_setChild (nd : Node ι) : (nd.setChild s v).child s = v := by cases s <;> rfl

@[simp] theorem parent_setChild (nd : Node ι) : (nd.setChild s v).parent = nd.parent := by
  cases s <;> rfl

@[simp] theorem color_setChild (nd : Node ι) : (nd.setChild s v).color = nd.color := by
  cases s <;> rfl

@[simp] theorem child_of : (of s p a b c).child s = a := by cases s <;> rfl

@[simp] theorem child_other_of : (of s p a b c).child s.other = b := by cases s <;> rfl

@[simp] theorem parent_of : (of s p a b c).parent = p := by cases s <;> rfl

@[simp] theorem color_of : (of s p a b c).color = c := by cases s <;> rfl

@[simp] theorem setChild_of : (of s p a b c).setChild s v = of s p v b c := by cases s <;> rfl

@[simp] theorem setChild_other_of : (of s p a b c).setChild s.other v = of s p a v c := by
  cases s <;> rfl

@[simp] theorem setParent_of : { of s p a b c with parent := v } = of s v a b c := by
  cases s <;> rfl

end Node

/-- The memory: the node at every address. -/
abbrev Nodes (ι : Type*) := ι → Node ι

variable {ι : Type*}

/-! ## Trees in memory -/

/-- The memory holds `t`, with `p` as the parent of its top. -/
def Rep (m : Nodes ι) : Option ι → RBTree ι → Prop
  | _, .nil => True
  | p, .node c l x r => m x = ⟨p, l.top, r.top, c⟩ ∧ Rep m (some x) l ∧ Rep m (some x) r

/-- The memory holds the frames, with `p` as the node at the focus. -/
def RepFrames (m : Nodes ι) : Option ι → List (Frame ι) → Prop
  | _, [] => True
  | p, f :: fs => m f.key = .of f.side (above fs) p f.sib.top f.color ∧
    Rep m (some f.key) f.sib ∧ RepFrames m (some f.key) fs

/-- The memory holds `t` below `root`, every node once. -/
structure Holds (m : Nodes ι) (root : ι) (t : RBTree ι) : Prop where
  top : t.top = some root
  rep : Rep m none t
  nodup : t.toList.Nodup

variable {m m' : Nodes ι} {p p' : Option ι} {t a b e : RBTree ι} {fs : List (Frame ι)}
  {root x y n : ι} {s : Side} {c d : Color}

theorem rep_fork : Rep m p (fork s c a x b) ↔
    m x = .of s p a.top b.top c ∧ Rep m (some x) a ∧ Rep m (some x) b := by
  cases s with
  | left => exact Iff.rfl
  | right => exact and_congr_right' and_comm

theorem rep_plug : Rep m none (plug fs t) ↔ Rep m (above fs) t ∧ RepFrames m t.top fs := by
  induction fs generalizing t with
  | nil => simp [plug, above, RepFrames]
  | cons f fs ih =>
    rw [plug_cons, ih, rep_fork, top_fork]
    simp only [RepFrames, above]
    tauto

theorem Rep.congr (h : Rep m p t) (heq : ∀ y ∈ t.toList, m' y = m y) : Rep m' p t := by
  induction t generalizing p with
  | nil => trivial
  | node c l x r ihl ihr =>
    obtain ⟨hx, hl, hr⟩ := h
    simp only [toList, List.mem_append, List.mem_cons] at heq
    exact ⟨(heq x (by simp)).trans hx, ihl hl fun y hy => heq y (by simp [hy]),
      ihr hr fun y hy => heq y (by simp [hy])⟩

/-- A subtree whose top gets a new parent. -/
theorem Rep.adopt (h : Rep m p t) (hnd : t.toList.Nodup)
    (htop : ∀ y, t.top = some y → m' y = { m y with parent := p' })
    (heq : ∀ y ∈ t.toList, t.top ≠ some y → m' y = m y) : Rep m' p' t := by
  cases t with
  | nil => trivial
  | node c l x r =>
    obtain ⟨hx, hl, hr⟩ := h
    simp only [toList, List.nodup_append, List.nodup_cons, List.mem_cons] at hnd
    obtain ⟨-, ⟨hxr, -⟩, hdis⟩ := hnd
    refine ⟨by rw [htop x rfl, hx], hl.congr fun y hy => ?_, hr.congr fun y hy => ?_⟩
    · exact heq y (List.mem_append_left _ hy)
        fun h => hdis y hy y (.inl (Option.some.inj h).symm) rfl
    · exact heq y (List.mem_append_right _ (List.mem_cons_of_mem _ hy))
        fun h => hxr (by rwa [Option.some.inj h])

theorem RepFrames.congr (h : RepFrames m p fs) (heq : ∀ y ∈ keys fs, m' y = m y) :
    RepFrames m' p fs := by
  induction fs generalizing p with
  | nil => trivial
  | cons f fs ih =>
    obtain ⟨hx, hsib, hfs⟩ := h
    simp only [keys, List.cons_append, List.mem_cons, List.mem_append] at heq
    exact ⟨(heq _ (by simp)).trans hx, hsib.congr fun y hy => heq y (by simp [hy]),
      ih hfs fun y hy => heq y (by simp [hy])⟩

/-- The side of the focus below its parent; `right` where it has none. -/
def sideOf : List (Frame ι) → Side
  | [] => .right
  | f :: _ => f.side

/-- Another node at the focus. -/
theorem RepFrames.point (h : RepFrames m p fs) (hnd : (keys fs).Nodup)
    (htop : ∀ y, above fs = some y → m' y = (m y).setChild (sideOf fs) p')
    (heq : ∀ y ∈ keys fs, above fs ≠ some y → m' y = m y) : RepFrames m' p' fs := by
  cases fs with
  | nil => trivial
  | cons f fs =>
    obtain ⟨hx, hsib, hfs⟩ := h
    simp only [keys, List.cons_append, List.nodup_cons, List.mem_append, not_or] at hnd
    obtain ⟨⟨hks, hkf⟩, -⟩ := hnd
    refine ⟨?_, hsib.congr fun y hy => ?_, hfs.congr fun y hy => ?_⟩
    · rw [htop f.key rfl, hx]
      exact Node.setChild_of
    · exact heq y (by simp [keys, hy]) fun h => hks (by rwa [Option.some.inj h])
    · exact heq y (by simp [keys, hy]) fun h => hkf (by rwa [Option.some.inj h])

namespace Holds

theorem congr (hm : Holds m root t) (heq : ∀ y ∈ t.toList, m' y = m y) : Holds m' root t :=
  ⟨hm.top, hm.rep.congr heq, hm.nodup⟩

theorem perm_nodup (hm : Holds m root (plug fs t)) : (t.toList ++ keys fs).Nodup :=
  (perm_plug fs t).nodup_iff.mp hm.nodup

theorem lookup (hm : Holds m root (plug fs (fork s c a x b))) :
    m x = .of s (above fs) a.top b.top c := (rep_fork.mp (rep_plug.mp hm.rep).1).1

/-- The focus is the root exactly where there is no frame. -/
theorem root_eq_iff (hm : Holds m root (plug fs t)) (ht : t.top = some x) : root = x ↔ fs = [] := by
  constructor
  · rintro rfl
    by_contra hfs
    exact List.disjoint_of_nodup_append hm.perm_nodup (mem_of_top ht)
      (top_plug_mem_keys hfs hm.top)
  · rintro rfl
    exact Option.some.inj (hm.top.symm.trans ht)

/-- A node of the tree is a child of its parent. -/
theorem child_parent (hm : Holds m root t) (hx : x ∈ t.toList) (hy : (m x).parent = some y) :
    ∃ s, (m y).child s = some x := by
  suffices h : ∀ p, Rep m p t → p = some y ∧ t.top = some x ∨ ∃ s, (m y).child s = some x from
    (h none hm.rep).resolve_left fun h => by cases h.1
  clear hm
  induction t with
  | nil => cases hx
  | node c l z r ihl ihr =>
    rintro p ⟨hz, hl, hr⟩
    rcases List.mem_append.mp hx with h | h
    · rcases ihl h _ hl with ⟨hzy, htop⟩ | h
      · cases hzy
        exact .inr ⟨.left, by rw [hz]; exact htop⟩
      · exact .inr h
    rcases List.mem_cons.mp h with rfl | h
    · rw [hz] at hy
      exact .inl ⟨hy, rfl⟩
    · rcases ihr h _ hr with ⟨hzy, htop⟩ | h
      · cases hzy
        exact .inr ⟨.right, by rw [hz]; exact htop⟩
      · exact .inr h

end Holds

/-! ## Operations -/

variable [DecidableEq ι]

namespace Nodes

/-- `x->parent = v`. -/
def setParent (m : Nodes ι) (x : ι) (v : Option ι) : Nodes ι :=
  Function.update m x { m x with parent := v }

/-- The child of `x` on the side `s` is set to `v`. -/
def setChild (m : Nodes ι) (s : Side) (x : ι) (v : Option ι) : Nodes ι :=
  Function.update m x ((m x).setChild s v)

/-- `x->color = c`. -/
def setColor (m : Nodes ι) (x : ι) (c : Color) : Nodes ι :=
  Function.update m x { m x with color := c }

/-- The node `b`, if it is one, gets the parent `n`. -/
def adopt (m : Nodes ι) (b : Option ι) (n : ι) : Nodes ι :=
  match b with
  | some b => m.setParent b (some n)
  | none => m

/-- The parent of `n`, if it has one, gets the child `x` in its place. -/
def relink (m : Nodes ι) (n x : ι) : Nodes ι :=
  match (m n).parent with
  | some q => if (m q).left = some n then m.setChild .left q (some x)
    else m.setChild .right q (some x)
  | none => m

theorem setParent_apply : m.setParent x p y = if y = x then { m y with parent := p } else m y := by
  rw [setParent, Function.update_apply]
  split_ifs with h
  · rw [h]
  · rfl

theorem setChild_apply : m.setChild s x p y = if y = x then (m y).setChild s p else m y := by
  rw [setChild, Function.update_apply]
  split_ifs with h
  · rw [h]
  · rfl

theorem setColor_apply : m.setColor x c y = if y = x then { m y with color := c } else m y := by
  rw [setColor, Function.update_apply]
  split_ifs with h
  · rw [h]
  · rfl

theorem adopt_apply : m.adopt p n y = if p = some y then { m y with parent := some n } else m y := by
  cases p with
  | none => rfl
  | some b =>
    rw [adopt, setParent_apply]
    exact if_congr (by rw [Option.some_inj, eq_comm]) rfl rfl

theorem relink_apply {side : Side}
    (h : ∀ q, (m n).parent = some q → ((m q).left = some n ↔ side = .left)) :
    m.relink n x y = if (m n).parent = some y then (m y).setChild side (some x) else m y := by
  rw [relink]
  cases hq : (m n).parent with
  | none => rfl
  | some q =>
    have hside := h q hq
    cases side with
    | left =>
      simp only [hside, if_true, setChild_apply, Option.some_inj]
      exact if_congr eq_comm rfl rfl
    | right =>
      simp only [hside, reduceCtorEq, if_false, setChild_apply, Option.some_inj]
      exact if_congr eq_comm rfl rfl

end Nodes

/-- The rotation at `n` that moves it down to the side `s`: its child on the other side takes its
place and hands over the child between them. -/
def rotate (s : Side) (m : Nodes ι) (n : ι) : Nodes ι :=
  match (m n).child s.other with
  | none => m
  | some x =>
    let m := m.setChild s.other n ((m x).child s)
    let m := m.adopt ((m n).child s.other) n
    let m := m.setParent x (m n).parent
    let m := m.relink n x
    let m := m.setChild s x (some n)
    m.setParent n (some x)

/-- The rotation node by node, where the nodes it writes are distinct. -/
theorem rotate_apply {side : Side} (hx : (m n).child s.other = some x) (hnx : n ≠ x)
    (hbn : (m x).child s ≠ some n) (hbx : (m x).child s ≠ some x)
    (hqn : (m n).parent ≠ some n) (hqx : (m n).parent ≠ some x)
    (hq : ∀ q, (m n).parent = some q →
      (m x).child s ≠ some q ∧ ((m q).left = some n ↔ side = .left)) (y : ι) :
    rotate s m n y =
      if y = n then { (m n).setChild s.other ((m x).child s) with parent := some x }
      else if y = x then ({ m x with parent := (m n).parent } : Node ι).setChild s (some n)
      else if (m x).child s = some y then { m y with parent := some n }
      else if (m n).parent = some y then (m y).setChild side (some x)
      else m y := by
  simp only [rotate, hx]
  set m₁ := m.setChild s.other n ((m x).child s) with h₁
  have h₁n : m₁ n = (m n).setChild s.other ((m x).child s) := by
    rw [h₁, Nodes.setChild_apply, if_pos rfl]
  have h₁y : ∀ y ≠ n, m₁ y = m y := fun y hy => by rw [h₁, Nodes.setChild_apply, if_neg hy]
  simp only [h₁n, Node.child_setChild]
  set m₂ := m₁.adopt ((m x).child s) n with h₂
  have h₂y : ∀ y, m₂ y = if (m x).child s = some y then { m₁ y with parent := some n } else m₁ y :=
    fun y => Nodes.adopt_apply
  have h₂n : m₂ n = m₁ n := by rw [h₂y, if_neg hbn]
  simp only [h₂n, h₁n, Node.parent_setChild]
  set m₃ := m₂.setParent x (m n).parent with h₃
  have h₃x : m₃ x = { m x with parent := (m n).parent } := by
    rw [h₃, Nodes.setParent_apply, if_pos rfl, h₂y, if_neg hbx, h₁y x hnx.symm]
  have h₃y : ∀ y ≠ x, m₃ y = m₂ y := fun y hy => by rw [h₃, Nodes.setParent_apply, if_neg hy]
  have h₃n : m₃ n = (m n).setChild s.other ((m x).child s) := by rw [h₃y n hnx, h₂n, h₁n]
  have hparent : (m₃ n).parent = (m n).parent := by rw [h₃n, Node.parent_setChild]
  have h₄y : ∀ y, m₃.relink n x y =
      if (m n).parent = some y then (m₃ y).setChild side (some x) else m₃ y := by
    intro y
    rw [Nodes.relink_apply, hparent]
    intro q hpq
    rw [hparent] at hpq
    obtain ⟨hb, hside⟩ := hq q hpq
    rw [h₃y q fun h => hqx (h ▸ hpq), h₂y, if_neg hb, h₁y q fun h => hqn (h ▸ hpq), hside]
  rw [Nodes.setParent_apply, Nodes.setChild_apply, h₄y]
  by_cases hyn : y = n
  · subst hyn
    rw [if_pos rfl, if_neg hnx, if_neg hqn, h₃n, if_pos rfl]
  rw [if_neg hyn, if_neg hyn]
  by_cases hyx : y = x
  · subst hyx
    rw [if_pos rfl, if_neg hqx, h₃x, if_pos rfl]
  rw [if_neg hyx, if_neg hyx, h₃y y hyx, h₂y, h₁y y hyn]
  by_cases hb : (m x).child s = some y
  · rw [if_pos hb, if_pos hb, if_neg fun hpq => (hq y hpq).1 hb]
  · rw [if_neg hb, if_neg hb]

namespace Holds

omit [DecidableEq ι] in
/-- The left link of the parent tells the side of the focus. -/
theorem left_above_iff (hm : Holds m root (plug fs t)) (ht : t.top = some n) {q : ι}
    (hq : above fs = some q) : (m q).left = some n ↔ sideOf fs = .left := by
  cases fs with
  | nil => cases hq
  | cons f fs =>
    cases hq
    obtain ⟨hkey, -⟩ := (rep_plug.mp hm.rep).2
    obtain ⟨_ | _, c, x, sib⟩ := f
    · exact ⟨fun _ => rfl, fun _ => by rw [hkey]; exact ht⟩
    · refine ⟨fun h => ?_, nofun⟩
      rw [hkey] at h
      exact absurd (List.mem_append_left _ (List.mem_cons_of_mem _ (mem_of_top h)))
        (List.disjoint_of_nodup_append hm.perm_nodup (mem_of_top ht))

/-- A new node at an empty focus. -/
theorem attach {leaf q : ι} (hm : Holds m root (plug fs .nil)) (hq : above fs = some q)
    (hleaf : leaf ∉ (plug fs .nil).toList) (hlinks : m leaf = ⟨p, none, none, c⟩) :
    Holds ((m.setParent leaf (some q)).setChild (sideOf fs) q (some leaf)) root
      (plug fs (.node c .nil leaf .nil)) := by
  have hne : fs ≠ [] := by rintro rfl; cases hq
  have hkey : leaf ∉ keys fs := fun h => hleaf (mem_plug.mpr (.inr h))
  have hql : q ≠ leaf := ne_of_mem_of_not_mem (mem_keys_of_above hq) hkey
  refine ⟨(top_plug_of_ne hne _ _).trans hm.top, rep_plug.mpr ⟨⟨?_, trivial, trivial⟩, ?_⟩, ?_⟩
  · rw [Nodes.setChild_apply, if_neg hql.symm, Nodes.setParent_apply, if_pos rfl, hlinks, hq]
    rfl
  · refine (rep_plug.mp hm.rep).2.point hm.perm_nodup (fun y hy => ?_) fun y hy hyq => ?_
    · cases hq.symm.trans hy
      rw [Nodes.setChild_apply, if_pos rfl, Nodes.setParent_apply, if_neg hql]
      rfl
    · have hne : y ≠ q := by rintro rfl; exact hyq hq
      rw [Nodes.setChild_apply, if_neg hne, Nodes.setParent_apply,
        if_neg (ne_of_mem_of_not_mem hy hkey)]
  · exact (perm_plug fs _).nodup_iff.mpr (List.nodup_cons.mpr ⟨hkey, hm.perm_nodup⟩)

/-- Painting the node at the focus. -/
theorem paint (hm : Holds m root (plug fs t)) (ht : t.top = some x) (c : Color) :
    Holds (m.setColor x c) root (plug fs (t.paint c)) := by
  have hnd := hm.perm_nodup
  have hdis := List.disjoint_of_nodup_append hnd
  obtain ⟨hrep, hfs⟩ := rep_plug.mp hm.rep
  cases t with
  | nil => cases ht
  | node c' l z r =>
    cases ht
    obtain ⟨hx, hl, hr⟩ := hrep
    have hother : ∀ y, y ≠ x → m.setColor x c y = m y := fun y hy => by
      rw [Nodes.setColor_apply, if_neg hy]
    have htl := hnd.of_append_left
    simp only [toList, List.nodup_append, List.nodup_cons, List.mem_cons] at htl
    obtain ⟨-, ⟨hxr, -⟩, hlr⟩ := htl
    refine ⟨?_, rep_plug.mpr ⟨⟨?_, hl.congr fun y hy => hother y ?_, hr.congr fun y hy =>
      hother y ?_⟩, hfs.congr fun y hy => hother y ?_⟩, ?_⟩
    · by_cases h : fs = []
      · subst h; exact hm.top
      · rw [top_plug_of_ne h _ (.node c' l x r)]; exact hm.top
    · rw [Nodes.setColor_apply, if_pos rfl, hx]
    · exact hlr y hy x (.inl rfl)
    · rintro rfl; exact hxr hy
    · rintro rfl; exact hdis (mem_of_top rfl) hy
    · rw [toList_plug_congr toList_paint]
      exact hm.nodup

theorem paint_fork (hm : Holds m root (plug fs (fork s c a x b))) (d : Color) :
    Holds (m.setColor x d) root (plug fs (fork s d a x b)) := by
  simpa only [RBTree.paint_fork] using hm.paint top_fork d

/-- A rotation at the focus. -/
theorem rotate {root' : ι} (hm : Holds m root (plug fs (fork s c a n (fork s d b x e))))
    (hroot : (plug fs (fork s d (fork s c a n b) x e)).top = some root') :
    Holds (rotate s m n) root' (plug fs (fork s d (fork s c a n b) x e)) := by
  have hnd := ((perm_fork.trans ((perm_fork.append_left a.toList).cons n)).append_right
    (keys fs)).nodup_iff.mp hm.perm_nodup
  simp only [List.cons_append, List.append_assoc, List.nodup_cons, List.nodup_append,
    List.mem_append, List.mem_cons, not_or] at hnd
  obtain ⟨⟨hna, hnx, hnb, hne, hnk⟩, -, ⟨⟨hxb, hxe, hxk⟩, hndb, ⟨-, hndk, hek⟩, hbr⟩, har⟩ := hnd
  obtain ⟨hrep, hfs⟩ := rep_plug.mp hm.rep
  obtain ⟨hn, ha, hrep'⟩ := rep_fork.mp hrep
  obtain ⟨hx, hb, he⟩ := rep_fork.mp hrep'
  rw [top_fork] at hn
  have happly := @rotate_apply ι m x n s _ (sideOf fs) (by rw [hn, Node.child_other_of]) hnx
    (by rw [hx, Node.child_of]; exact fun h => hnb (mem_of_top h))
    (by rw [hx, Node.child_of]; exact fun h => hxb (mem_of_top h))
    (by rw [hn, Node.parent_of]; exact fun h => hnk (mem_keys_of_above h))
    (by rw [hn, Node.parent_of]; exact fun h => hxk (mem_keys_of_above h))
    (by
      rw [hn, hx, Node.parent_of, Node.child_of]
      exact fun q hq => ⟨fun h => hbr q (mem_of_top h) q (.inr (mem_keys_of_above hq)) rfl,
        hm.left_above_iff top_fork hq⟩)
  rw [hn, hx, Node.parent_of, Node.child_of, Node.setChild_other_of, Node.setParent_of,
    Node.setParent_of, Node.setChild_of] at happly
  -- Away from the two nodes, the child handed over and the parent, nothing is written.
  have hsame : ∀ y, y ≠ n → y ≠ x → b.top ≠ some y → above fs ≠ some y →
      LinkedTree.rotate s m n y = m y := fun y h₁ h₂ h₃ h₄ => by
    rw [happly, if_neg h₁, if_neg h₂, if_neg h₃, if_neg h₄]
  refine ⟨hroot, rep_plug.mpr ⟨rep_fork.mpr ⟨?_, rep_fork.mpr ⟨?_, ha.congr fun y hy => ?_, ?_⟩,
    he.congr fun y hy => ?_⟩, ?_⟩, ?_⟩
  · rw [happly, if_neg (Ne.symm hnx), if_pos rfl, top_fork]
  · rw [happly, if_pos rfl]
  · exact hsame y (ne_of_mem_of_not_mem hy hna) (har y hy x (.inl rfl))
      (fun h => har y hy y (.inr (.inl (mem_of_top h))) rfl)
      fun h => har y hy y (.inr (.inr (.inr (mem_keys_of_above h)))) rfl
  · refine hb.adopt hndb (fun y hy => ?_) fun y hy hne => ?_
    · have hyb := mem_of_top hy
      rw [happly, if_neg (ne_of_mem_of_not_mem hyb hnb), if_neg (ne_of_mem_of_not_mem hyb hxb),
        if_pos hy]
    · exact hsame y (ne_of_mem_of_not_mem hy hnb) (ne_of_mem_of_not_mem hy hxb) hne
        fun h => hbr y hy y (.inr (mem_keys_of_above h)) rfl
  · exact hsame y (ne_of_mem_of_not_mem hy hne) (ne_of_mem_of_not_mem hy hxe)
      (fun h => hbr y (mem_of_top h) y (.inl hy) rfl) fun h => hek y hy y (mem_keys_of_above h) rfl
  · rw [top_fork]
    refine hfs.point hndk (fun y hy => ?_) fun y hy hne => ?_
    · have hyk := mem_keys_of_above hy
      rw [happly, if_neg (ne_of_mem_of_not_mem hyk hnk), if_neg (ne_of_mem_of_not_mem hyk hxk),
        if_neg fun h => hbr y (mem_of_top h) y (.inr hyk) rfl, if_pos hy]
    · exact hsame y (ne_of_mem_of_not_mem hy hnk) (ne_of_mem_of_not_mem hy hxk)
        (fun h => hbr y (mem_of_top h) y (.inr hy) rfl) hne
  · rw [toList_plug_congr toList_rotate]
    exact hm.nodup

end Holds

end HorizonOS.Lib.LinkedTree
