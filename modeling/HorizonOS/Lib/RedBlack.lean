import Mathlib.Data.List.Basic
import Mathlib.Data.List.Perm.Basic

/-!
# Red-black trees with a focus

Binary trees with a colour at every node, and a tree taken apart at one of its positions: the
subtree there and the frames on the way up from it. The two sides are a parameter, so that a fact
and its mirror image are one statement.

* `RBTree.fork`: a node given by the child on one side and the child on the other.
* `plug`: a subtree put back under its frames.
* `RB`: no red node has a red child, and every way down passes as many black nodes.
* `Fits`: what the frames ask of the subtree at the focus; `RB.plug` and `RB.unplug` put the two
  halves together and take them apart.
-/

namespace HorizonOS.Lib.RedBlack

/-- The colour of a node. -/
inductive Color
  | red
  | black
  deriving DecidableEq, Repr

/-- The side of a child. -/
inductive Side
  | left
  | right
  deriving DecidableEq, Repr

/-- The opposite side. -/
def Side.other : Side → Side
  | left => right
  | right => left

@[simp] theorem Side.other_other (s : Side) : s.other.other = s := by cases s <;> rfl

theorem Side.eq_or_eq_other (s s' : Side) : s' = s ∨ s' = s.other := by
  cases s <;> cases s' <;> simp [Side.other]

/-- A binary tree with a colour at every node. -/
inductive RBTree (ι : Type*)
  | nil
  | node (c : Color) (l : RBTree ι) (x : ι) (r : RBTree ι)

/-- What lies above a subtree: the side it hangs on, and the parent with its other child. -/
structure Frame (ι : Type*) where
  side : Side
  color : Color
  key : ι
  sib : RBTree ι

variable {ι : Type*} {s : Side} {c d : Color} {a b e t : RBTree ι} {x y n : ι} {h : ℕ}

namespace RBTree

/-- The node with the child `a` on the side `s` and `b` on the other side. -/
def fork (s : Side) (c : Color) (a : RBTree ι) (x : ι) (b : RBTree ι) : RBTree ι :=
  match s with
  | .left => node c a x b
  | .right => node c b x a

theorem fork_other (s : Side) (c : Color) (a : RBTree ι) (x : ι) (b : RBTree ι) :
    fork s.other c a x b = fork s c b x a := by cases s <;> rfl

/-- The nodes from left to right. -/
def toList : RBTree ι → List ι
  | nil => []
  | node _ l x r => l.toList ++ x :: r.toList

/-- The node at the top. -/
def top : RBTree ι → Option ι
  | nil => none
  | node _ _ x _ => some x

/-- Paints the node at the top. -/
def paint (c : Color) : RBTree ι → RBTree ι
  | nil => nil
  | node _ l x r => node c l x r

@[simp] theorem top_fork : (fork s c a x b).top = some x := by cases s <;> rfl

@[simp] theorem paint_fork : (fork s c a x b).paint d = fork s d a x b := by cases s <;> rfl

@[simp] theorem toList_paint : (t.paint c).toList = t.toList := by cases t <;> rfl

@[simp] theorem top_paint : (t.paint c).top = t.top := by cases t <;> rfl

/-- Every node has its children on either side. -/
theorem exists_fork (s : Side) (c : Color) (l : RBTree ι) (x : ι) (r : RBTree ι) :
    ∃ a b, node c l x r = fork s c a x b := by
  cases s with
  | left => exact ⟨l, r, rfl⟩
  | right => exact ⟨r, l, rfl⟩

theorem perm_fork : (fork s c a x b).toList.Perm (x :: (a.toList ++ b.toList)) := by
  cases s with
  | left => exact List.perm_middle
  | right => exact List.perm_middle.trans (List.perm_append_comm.cons x)

theorem mem_fork : y ∈ (fork s c a x b).toList ↔ y = x ∨ y ∈ a.toList ∨ y ∈ b.toList := by
  rw [perm_fork.mem_iff, List.mem_cons, List.mem_append]

theorem mem_of_top (ht : t.top = some x) : x ∈ t.toList := by
  cases t with
  | nil => cases ht
  | node c l z r => cases ht; exact List.mem_append_right _ (List.mem_cons_self)

/-- A rotation keeps the order of the nodes. -/
theorem toList_rotate :
    (fork s d (fork s c a n b) x e).toList = (fork s c a n (fork s d b x e)).toList := by
  cases s <;> simp [fork, toList]

end RBTree

open RedBlack.RBTree

/-! ## Frames -/

/-- The subtree `t` under its frames, the nearest one first. -/
def plug : List (Frame ι) → RBTree ι → RBTree ι
  | [], t => t
  | f :: fs, t => plug fs (fork f.side f.color t f.key f.sib)

variable {f : Frame ι} {fs : List (Frame ι)}

@[simp] theorem plug_cons : plug (f :: fs) t = plug fs (fork f.side f.color t f.key f.sib) := rfl

/-- The parent of the focus. -/
def above : List (Frame ι) → Option ι
  | [] => none
  | f :: _ => some f.key

/-- The nodes to the left of the focus. -/
def before : List (Frame ι) → List ι
  | [] => []
  | ⟨.left, _, _, _⟩ :: fs => before fs
  | ⟨.right, _, x, l⟩ :: fs => before fs ++ (l.toList ++ [x])

/-- The nodes to the right of the focus. -/
def after : List (Frame ι) → List ι
  | [] => []
  | ⟨.left, _, x, r⟩ :: fs => x :: r.toList ++ after fs
  | ⟨.right, _, _, _⟩ :: fs => after fs

theorem toList_plug (fs : List (Frame ι)) (t : RBTree ι) :
    (plug fs t).toList = before fs ++ (t.toList ++ after fs) := by
  induction fs generalizing t with
  | nil => simp [plug, before, after]
  | cons f fs ih =>
    obtain ⟨_ | _, c, x, sib⟩ := f <;> simp [plug, ih, before, after, fork, toList]

theorem toList_plug_congr {t' : RBTree ι} (ht : t.toList = t'.toList) :
    (plug fs t).toList = (plug fs t').toList := by rw [toList_plug, toList_plug, ht]

/-- The nodes of the frames. -/
def keys : List (Frame ι) → List ι
  | [] => []
  | f :: fs => f.key :: f.sib.toList ++ keys fs

theorem length_le_keys (fs : List (Frame ι)) : fs.length ≤ (keys fs).length := by
  induction fs with
  | nil => exact Nat.le_refl _
  | cons f fs ih => simp only [keys, List.length_cons, List.length_append]; omega

theorem perm_plug (fs : List (Frame ι)) (t : RBTree ι) :
    (plug fs t).toList.Perm (t.toList ++ keys fs) := by
  induction fs generalizing t with
  | nil => simp [plug, keys]
  | cons f fs ih =>
    refine (ih _).trans ((perm_fork.append_right _).trans ?_)
    simp only [keys, List.cons_append, List.append_assoc]
    exact List.perm_middle.symm

theorem mem_plug : y ∈ (plug fs t).toList ↔ y ∈ t.toList ∨ y ∈ keys fs := by
  rw [(perm_plug fs t).mem_iff, List.mem_append]

theorem mem_keys_of_above (hy : above fs = some y) : y ∈ keys fs := by
  cases fs with
  | nil => cases hy
  | cons f fs => cases hy; exact List.mem_append_left _ List.mem_cons_self

/-- The top of the whole is that of the focus exactly where there is no frame. -/
theorem top_plug_of_ne (hfs : fs ≠ []) (t t' : RBTree ι) : (plug fs t).top = (plug fs t').top := by
  induction fs generalizing t t' with
  | nil => exact absurd rfl hfs
  | cons f fs ih =>
    by_cases h : fs = []
    · subst h; simp [plug]
    · exact ih h _ _

theorem top_plug_mem_keys (hfs : fs ≠ []) (ht : (plug fs t).top = some x) : x ∈ keys fs := by
  rw [top_plug_of_ne hfs t .nil] at ht
  simpa [mem_plug, toList] using mem_of_top ht

theorem exists_top_plug (fs : List (Frame ι)) (s : Side) (c : Color) (a b : RBTree ι) (x : ι) :
    ∃ root, (plug fs (fork s c a x b)).top = some root := by
  induction fs generalizing s c a b x with
  | nil => exact ⟨x, top_fork⟩
  | cons f fs ih => exact ih _ _ _ _ _

/-- Every node of a tree is the focus under some frames. -/
theorem exists_plug (hx : x ∈ t.toList) : ∃ fs c l r, t = plug fs (.node c l x r) := by
  suffices h : ∀ gs : List (Frame ι), ∃ fs c l r, plug gs t = plug fs (.node c l x r) from h []
  induction t with
  | nil => cases hx
  | node c l z r ihl ihr =>
    intro gs
    rcases List.mem_append.mp hx with h | h
    · exact ihl h (⟨.left, c, z, r⟩ :: gs)
    rcases List.mem_cons.mp h with rfl | h
    · exact ⟨gs, c, l, r, rfl⟩
    · exact ihr h (⟨.right, c, z, l⟩ :: gs)

/-! ## The colours -/

/-- `RB t c h`: the top of `t` has the colour `c`, no red node below it has a red child, and every
way down from it passes `h` black nodes. -/
inductive RB : RBTree ι → Color → ℕ → Prop
  | nil : RB .nil .black 0
  | red {l r : RBTree ι} {x : ι} {h : ℕ} (hl : RB l .black h) (hr : RB r .black h) :
    RB (.node .red l x r) .red h
  | black {l r : RBTree ι} {x : ι} {c d : Color} {h : ℕ} (hl : RB l c h) (hr : RB r d h) :
    RB (.node .black l x r) .black (h + 1)

/-- `Fits fs c h`: the frames make a red-black tree with a black top out of every subtree with `h`
black nodes on every way down whose top is black, or red where `c` is black. The colour `c` is that
of the parent; with no frame left it is red, since the top of the whole has to be black. -/
inductive Fits : List (Frame ι) → Color → ℕ → Prop
  | root {h : ℕ} : Fits [] .red h
  | red {s : Side} {x : ι} {b : RBTree ι} {fs : List (Frame ι)} {h : ℕ} (hb : RB b .black h)
    (hfs : Fits fs .black h) : Fits (⟨s, .red, x, b⟩ :: fs) .red h
  | black {s : Side} {x : ι} {b : RBTree ι} {fs : List (Frame ι)} {c d : Color} {h : ℕ}
    (hb : RB b c h) (hfs : Fits fs d (h + 1)) : Fits (⟨s, .black, x, b⟩ :: fs) .black h

theorem RB.fork_red (ha : RB a .black h) (hb : RB b .black h) : RB (fork s .red a x b) .red h := by
  cases s with
  | left => exact .red ha hb
  | right => exact .red hb ha

theorem RB.fork_black (ha : RB a c h) (hb : RB b d h) : RB (fork s .black a x b) .black (h + 1) := by
  cases s with
  | left => exact .black ha hb
  | right => exact .black hb ha

theorem RB.of_fork (ht : RB (fork s c a x b) d h) :
    c = d ∧ (d = .red ∧ RB a .black h ∧ RB b .black h ∨
      d = .black ∧ ∃ ca cb h', h = h' + 1 ∧ RB a ca h' ∧ RB b cb h') := by
  cases s with
  | left =>
    cases ht with
    | red hl hr => exact ⟨rfl, .inl ⟨rfl, hl, hr⟩⟩
    | black hl hr => exact ⟨rfl, .inr ⟨rfl, _, _, _, rfl, hl, hr⟩⟩
  | right =>
    cases ht with
    | red hl hr => exact ⟨rfl, .inl ⟨rfl, hr, hl⟩⟩
    | black hl hr => exact ⟨rfl, .inr ⟨rfl, _, _, _, rfl, hr, hl⟩⟩

theorem RB.exists_fork (ht : RB t .red h) (s : Side) :
    ∃ a x b, t = fork s .red a x b ∧ RB a .black h ∧ RB b .black h := by
  cases ht with
  | red hl hr =>
    cases s with
    | left => exact ⟨_, _, _, rfl, hl, hr⟩
    | right => exact ⟨_, _, _, rfl, hr, hl⟩

/-- A red top may be painted black. -/
theorem RB.paint_black (ht : RB t .red h) : RB (t.paint .black) .black (h + 1) := by
  cases ht with
  | red hl hr => exact .black hl hr

theorem RB.paint_self (ht : RB t c h) : t.paint c = t := by cases ht <;> rfl

theorem RB.plug (hfs : Fits fs d h) (ht : RB t c h) (hcd : c = .red → d = .black) :
    ∃ h', RB (RedBlack.plug fs t) .black h' := by
  induction hfs generalizing t c with
  | root =>
    cases c with
    | red => cases hcd rfl
    | black => exact ⟨_, ht⟩
  | red hb _ ih =>
    cases c with
    | red => cases hcd rfl
    | black => exact ih (RB.fork_red ht hb) fun _ => rfl
  | black hb _ ih => exact ih (RB.fork_black ht hb) nofun

/-- Under frames that ask for a black top, the top is black. -/
theorem Fits.paint_plug (hfs : Fits fs d h) (hne : fs ≠ []) (t : RBTree ι) :
    (RedBlack.plug fs t).paint .black = RedBlack.plug fs t := by
  induction hfs generalizing t with
  | root => exact absurd rfl hne
  | @red _ _ _ fs _ _ hfs ih =>
    refine ih ?_ _
    rintro rfl
    cases hfs
  | @black s x b fs _ _ _ _ _ ih =>
    by_cases h : fs = []
    · subst h; exact paint_fork
    · exact ih h _

theorem RB.unplug (ht : RB (RedBlack.plug fs t) .black h) :
    ∃ c d h', RB t c h' ∧ Fits fs d h' ∧ (c = .red → d = .black) := by
  induction fs generalizing t with
  | nil => exact ⟨_, _, _, ht, .root, nofun⟩
  | cons f fs ih =>
    obtain ⟨c, d, h', hfork, hfs, hcd⟩ := ih ht
    obtain ⟨hc, ⟨rfl, ha, hb⟩ | ⟨rfl, ca, cb, h'', rfl, ha, hb⟩⟩ := hfork.of_fork
    · obtain ⟨s, _, x, b⟩ := f
      cases hc
      cases hcd rfl
      exact ⟨_, _, _, ha, .red hb hfs, nofun⟩
    · obtain ⟨s, _, x, b⟩ := f
      cases hc
      exact ⟨_, _, _, ha, .black hb hfs, fun _ => rfl⟩

end HorizonOS.Lib.RedBlack
