import Mathlib
import HorizonOS.Lib.TreeGrowth

/-!
# The maze generator of the i386 shell

`generate_maze` (arch/i386/drivers/shell/builtins/maze.c:269–393) is a randomised backtracker
with an explicit stack: look at the top cell, pick one of its unvisited neighbours, open the
wall between them and push it; pop when there is none. A wall is stored once, with the cell to
its left or above it, and `can_move_to` (395–417) reads it from there in all four directions.
Coordinates are the source's `int`s; the sizes are parameters, 39 by 10 in maze.h.

* `canMoveTo_iff`: `can_move_to` reads the wall between the two cells.
* `passages_openWall`: opening a wall adds one edge to the graph that `can_move_to` describes.
* `carve_carved`: one iteration keeps the open walls a tree on the visited cells.
* `generateMaze_perfect`: the result is a spanning tree of the grid, for every sequence of draws.
-/

namespace HorizonOS.I386.Maze

open HorizonOS.Lib

/-! ## The arrays -/

/-- `type` of a cell (maze.h:6–11). -/
inductive CellType
  | wall
  | corridor
  | visited
  | path
  | source
  | sink
  deriving DecidableEq, Repr

/-- `struct cell` (maze.h:18–23); the walls are "bools - has wall". -/
structure Cell where
  type : CellType
  rightWall : Bool
  bottomWall : Bool
  deriving DecidableEq, Repr

/-- `maze`, with `maze[y][x]` at `(x, y)`. -/
abbrev Cells := ℤ × ℤ → Cell

/-- The cells of `maze[H][W]`. -/
def grid (W H : ℕ) : Finset (ℤ × ℤ) :=
  (Finset.range W ×ˢ Finset.range H).image fun p => (p.1, p.2)

theorem mem_grid {W H : ℕ} {p : ℤ × ℤ} :
    p ∈ grid W H ↔ (0 ≤ p.1 ∧ p.1 < W) ∧ 0 ≤ p.2 ∧ p.2 < H := by
  simp only [grid, Finset.mem_image, Finset.mem_product, Finset.mem_range]
  constructor
  · intro h
    obtain ⟨a, ha, rfl⟩ := h
    simp only
    omega
  · intro h
    refine ⟨(p.1.toNat, p.2.toNat), by simp only; omega, ?_⟩
    ext <;> simp only <;> omega

theorem card_grid (W H : ℕ) : (grid W H).card = W * H := by
  rw [grid, Finset.card_image_of_injective, Finset.card_product, Finset.card_range,
    Finset.card_range]
  intro a b h
  simp only [Prod.mk.injEq, Nat.cast_inj] at h
  exact Prod.ext h.1 h.2

/-- `can_move_to(from_x, from_y, to_x, to_y)` (maze.c:395–417). -/
def canMoveTo (W H : ℕ) (maze : Cells) (fromX fromY toX toY : ℤ) : Bool :=
  if toX < 0 ∨ toX ≥ W ∨ toY < 0 ∨ toY ≥ H then false
  else if toX = fromX + 1 ∧ toY = fromY then !(maze (fromX, fromY)).rightWall
  else if toX = fromX - 1 ∧ toY = fromY then !(maze (toX, toY)).rightWall
  else if toY = fromY + 1 ∧ toX = fromX then !(maze (fromX, fromY)).bottomWall
  else if toY = fromY - 1 ∧ toX = fromX then !(maze (toX, toY)).bottomWall
  else false

/-! ## Walls -/

/-- The two walls that a cell stores. -/
inductive Side
  | right
  | bottom
  deriving DecidableEq, Repr

/-- A wall: its side and the cell that stores it. -/
abbrev Wall := Side × (ℤ × ℤ)

/-- The cell behind the wall. -/
def Wall.far : Wall → ℤ × ℤ
  | (.right, p) => (p.1 + 1, p.2)
  | (.bottom, p) => (p.1, p.2 + 1)

/-- The wall stands between `p` and `q`. -/
def Wall.Joins (w : Wall) (p q : ℤ × ℤ) : Prop :=
  (w.2 = p ∧ Wall.far w = q) ∨ (w.2 = q ∧ Wall.far w = p)

theorem Wall.Joins.symm {w : Wall} {p q : ℤ × ℤ} (h : Wall.Joins w p q) : Wall.Joins w q p :=
  Or.symm h

theorem Wall.far_ne (w : Wall) : Wall.far w ≠ w.2 := by
  obtain ⟨side, x, y⟩ := w
  cases side <;> simp [Wall.far]

theorem Wall.Joins.ne {w : Wall} {p q : ℤ × ℤ} (h : Wall.Joins w p q) : p ≠ q := by
  rcases h with ⟨rfl, rfl⟩ | ⟨rfl, rfl⟩
  · exact (Wall.far_ne w).symm
  · exact Wall.far_ne w

/-- A wall has only two sides. -/
theorem Wall.Joins.eq_or {w : Wall} {p q a b : ℤ × ℤ} (h : Wall.Joins w p q)
    (h' : Wall.Joins w a b) : (a = p ∧ b = q) ∨ (a = q ∧ b = p) := by
  rcases h with ⟨rfl, rfl⟩ | ⟨rfl, rfl⟩ <;> rcases h' with ⟨rfl, rfl⟩ | ⟨rfl, rfl⟩ <;> simp

/-- The flag of a wall. -/
def stands (maze : Cells) : Wall → Bool
  | (.right, p) => (maze p).rightWall
  | (.bottom, p) => (maze p).bottomWall

/-- `maze[y][x].right_wall = 0` or `maze[y][x].bottom_wall = 0`. -/
def openWall (maze : Cells) : Wall → Cells
  | (.right, p) => Function.update maze p { maze p with rightWall := false }
  | (.bottom, p) => Function.update maze p { maze p with bottomWall := false }

theorem stands_openWall (maze : Cells) (w v : Wall) :
    stands (openWall maze w) v = if v = w then false else stands maze v := by
  obtain ⟨side, p⟩ := w
  obtain ⟨side', q⟩ := v
  by_cases hq : q = p
  · subst hq
    cases side <;> cases side' <;> simp [stands, openWall]
  · cases side <;> cases side' <;> simp [stands, openWall, hq]

/-- The walls of the grid's cells that are open. -/
def openWalls (W H : ℕ) (maze : Cells) : Finset Wall :=
  ({.right, .bottom} ×ˢ grid W H).filter fun w => stands maze w = false

theorem mem_openWalls {W H : ℕ} {maze : Cells} {w : Wall} :
    w ∈ openWalls W H maze ↔ w.2 ∈ grid W H ∧ stands maze w = false := by
  have hside : w.1 ∈ ({.right, .bottom} : Finset Side) := by
    cases w.1 <;> decide
  simp only [openWalls, Finset.mem_filter, Finset.mem_product, hside, true_and]

theorem openWalls_openWall {W H : ℕ} {maze : Cells} {w : Wall} (hw : w.2 ∈ grid W H) :
    openWalls W H (openWall maze w) = insert w (openWalls W H maze) := by
  ext v
  rw [Finset.mem_insert, mem_openWalls, mem_openWalls, stands_openWall]
  by_cases hv : v = w
  · simp [hv, hw]
  · simp [hv]

/-- `can_move_to` finds the wall on the side that stores it, whichever way the move goes. -/
theorem canMoveTo_iff (W H : ℕ) (maze : Cells) (p q : ℤ × ℤ) :
    canMoveTo W H maze p.1 p.2 q.1 q.2 = true ↔
      q ∈ grid W H ∧ ∃ w, Wall.Joins w p q ∧ stands maze w = false := by
  obtain ⟨px, py⟩ := p
  obtain ⟨qx, qy⟩ := q
  have hgrid : (qx, qy) ∈ grid W H ↔ ¬(qx < 0 ∨ qx ≥ W ∨ qy < 0 ∨ qy ≥ H) := by
    rw [mem_grid]
    simp only
    omega
  have hwalls : (∃ w, Wall.Joins w (px, py) (qx, qy) ∧ stands maze w = false) ↔
      (qx = px + 1 ∧ qy = py ∧ (maze (px, py)).rightWall = false) ∨
      (qx = px - 1 ∧ qy = py ∧ (maze (qx, qy)).rightWall = false) ∨
      (qy = py + 1 ∧ qx = px ∧ (maze (px, py)).bottomWall = false) ∨
      (qy = py - 1 ∧ qx = px ∧ (maze (qx, qy)).bottomWall = false) := by
    constructor
    · rintro ⟨⟨side, x, y⟩, hjoin, hopen⟩
      cases side <;> simp only [Wall.Joins, Wall.far, Prod.mk.injEq, stands] at hjoin hopen <;>
        rcases hjoin with ⟨⟨rfl, rfl⟩, rfl, rfl⟩ | ⟨⟨rfl, rfl⟩, rfl, rfl⟩ <;> simp [hopen]
    · intro h
      rcases h with ⟨rfl, rfl, h⟩ | ⟨rfl, rfl, h⟩ | ⟨rfl, rfl, h⟩ | ⟨rfl, rfl, h⟩
      · exact ⟨(.right, px, qy), Or.inl ⟨rfl, rfl⟩, h⟩
      · exact ⟨(.right, px - 1, qy), Or.inr ⟨rfl, by simp [Wall.far]⟩, h⟩
      · exact ⟨(.bottom, qx, py), Or.inl ⟨rfl, rfl⟩, h⟩
      · exact ⟨(.bottom, qx, py - 1), Or.inr ⟨rfl, by simp [Wall.far]⟩, h⟩
  rw [hwalls, hgrid]
  unfold canMoveTo
  split_ifs <;> simp only [Bool.not_eq_true', false_iff] <;> grind

/-- The graph of the moves that `can_move_to` allows between cells of the grid. -/
def passages (W H : ℕ) (maze : Cells) : SimpleGraph (grid W H) where
  Adj p q := canMoveTo W H maze p.1.1 p.1.2 q.1.1 q.1.2 = true
  symm := by
    constructor
    intro p q h
    rw [canMoveTo_iff] at h ⊢
    obtain ⟨-, w, hjoin, hopen⟩ := h
    exact ⟨p.2, w, hjoin.symm, hopen⟩
  loopless := by
    constructor
    intro p h
    rw [canMoveTo_iff] at h
    obtain ⟨-, w, hjoin, -⟩ := h
    exact hjoin.ne rfl

theorem passages_adj {W H : ℕ} {maze : Cells} {p q : grid W H} :
    (passages W H maze).Adj p q ↔ ∃ w, Wall.Joins w p.1 q.1 ∧ stands maze w = false := by
  change canMoveTo W H maze p.1.1 p.1.2 q.1.1 q.1.2 = true ↔ _
  rw [canMoveTo_iff]
  simp only [q.2, true_and]

/-- Opening the wall between two cells adds the edge between them. -/
theorem passages_openWall {W H : ℕ} {maze : Cells} {w : Wall} {p q : grid W H}
    (hw : Wall.Joins w p.1 q.1) :
    passages W H (openWall maze w) = passages W H maze ⊔ SimpleGraph.edge p q := by
  ext a b
  rw [SimpleGraph.sup_adj, SimpleGraph.edge_adj, passages_adj, passages_adj]
  constructor
  · rintro ⟨v, hjoin, hopen⟩
    rw [stands_openWall] at hopen
    by_cases hv : v = w
    · subst hv
      have hne : a ≠ b := fun hab => hjoin.ne (congrArg Subtype.val hab)
      have hends := hw.eq_or hjoin
      simp only [← Subtype.ext_iff] at hends
      exact Or.inr ⟨hends, hne⟩
    · rw [if_neg hv] at hopen
      exact Or.inl ⟨v, hjoin, hopen⟩
  · rintro (⟨v, hjoin, hopen⟩ | ⟨⟨rfl, rfl⟩ | ⟨rfl, rfl⟩, -⟩)
    · refine ⟨v, hjoin, ?_⟩
      rw [stands_openWall, hopen, ite_self]
    · exact ⟨w, hw, by rw [stands_openWall, if_pos rfl]⟩
    · exact ⟨w, hw.symm, by rw [stands_openWall, if_pos rfl]⟩

theorem passages_congr {W H : ℕ} {maze maze' : Cells} (h : ∀ w, stands maze' w = stands maze w) :
    passages W H maze' = passages W H maze := by
  ext a b
  rw [passages_adj, passages_adj]
  simp only [h]

theorem openWalls_congr {W H : ℕ} {maze maze' : Cells}
    (h : ∀ w, stands maze' w = stands maze w) : openWalls W H maze' = openWalls W H maze := by
  ext w
  rw [mem_openWalls, mem_openWalls, h]

/-! ## The generator -/

/-- `random_range(max)` (arch/i386/common/rand.c:20–25) when `random_next` yields `r`. -/
def randomRange (r : BitVec 32) (max : ℕ) : ℕ :=
  if max = 0 then 0 else r.toNat % max

theorem randomRange_lt (r : BitVec 32) {max : ℕ} (h : 0 < max) : randomRange r max < max := by
  rw [randomRange, if_neg h.ne']
  exact Nat.mod_lt _ h

/-- `neighbors_dir`: "0=up, 1=right, 2=down, 3=left". -/
inductive Dir
  | up
  | right
  | down
  | left
  deriving DecidableEq, Repr

/-- The unvisited neighbours of `(x, y)` in the order up, down, right, left (maze.c:317–347). -/
def neighbors (W H : ℕ) (visited : ℤ × ℤ → Bool) (x y : ℤ) : List ((ℤ × ℤ) × Dir) :=
  (if y > 0 ∧ !visited (x, y - 1) then [((x, y - 1), Dir.up)] else []) ++
  (if y < H - 1 ∧ !visited (x, y + 1) then [((x, y + 1), Dir.down)] else []) ++
  (if x < W - 1 ∧ !visited (x + 1, y) then [((x + 1, y), Dir.right)] else []) ++
  (if x > 0 ∧ !visited (x - 1, y) then [((x - 1, y), Dir.left)] else [])

/-- The wall that is removed for a move in a direction (maze.c:355–368). -/
def removedWall (current next : ℤ × ℤ) : Dir → Wall
  | .up => (.bottom, next)
  | .right => (.right, current)
  | .down => (.bottom, current)
  | .left => (.right, next)

/-- The locals of the loop, with the top of the stack first, and the number of calls of
    `random_next` so far. -/
structure Backtracker where
  maze : Cells
  visited : ℤ × ℤ → Bool
  stack : List (ℤ × ℤ)
  draws : ℕ

/-- The body of the `while` loop (maze.c:307–379). `next k` is the `k`-th value of
    `random_next`. -/
def carve (W H : ℕ) (next : ℕ → BitVec 32) (s : Backtracker) : Backtracker :=
  match s.stack with
  | [] => s
  | (x, y) :: rest =>
    let nb := neighbors W H s.visited x y
    if h : 0 < nb.length then
      let chosen := nb.get ⟨randomRange (next s.draws) nb.length, randomRange_lt _ h⟩
      { maze := openWall s.maze (removedWall (x, y) chosen.1 chosen.2)
        visited := Function.update s.visited chosen.1 true
        stack := chosen.1 :: s.stack
        draws := s.draws + 1 }
    else { s with stack := rest }

/-- `while (stack_size > 0)`, at most `fuel` iterations. -/
def backtrack (W H : ℕ) (next : ℕ → BitVec 32) : (fuel : ℕ) → Backtracker → Option Backtracker
  | 0, s => if s.stack = [] then some s else none
  | fuel + 1, s => if s.stack = [] then some s else backtrack W H next fuel (carve W H next s)

/-- The loops of maze.c:277–283: whatever the array held, all walls stand. -/
def wallsUp (W H : ℕ) (old : Cells) : Cells :=
  fun p => if p ∈ grid W H then ⟨.corridor, true, true⟩ else old p

/-- The locals before the loop (maze.c:285–305). -/
def start (W H : ℕ) (old : Cells) : Backtracker where
  maze := wallsUp W H old
  visited := Function.update (fun _ => false) (0, 0) true
  stack := [(0, 0)]
  draws := 0

/-- `maze[y][x].type = type`. -/
def setType (maze : Cells) (p : ℤ × ℤ) (type : CellType) : Cells :=
  Function.update maze p { maze p with type := type }

/-- "Set start and end points" (maze.c:381–383). -/
def markEnds (W H : ℕ) (maze : Cells) : Cells :=
  setType (setType maze (0, 0) .source) (W - 1, H - 1) .sink

/-- The array that `generate_maze` leaves (maze.c:269–393); the loop makes at most `fuel`
    iterations. -/
def generateMaze (fuel W H : ℕ) (next : ℕ → BitVec 32) (old : Cells) : Option Cells :=
  (backtrack W H next fuel (start W H old)).map fun s => markEnds W H s.maze

/-- `s` is reached by the loop of `generate_maze`. -/
def Generating (W H : ℕ) (next : ℕ → BitVec 32) (old : Cells) (s : Backtracker) : Prop :=
  Relation.ReflTransGen (fun s s' => s.stack ≠ [] ∧ s' = carve W H next s) (start W H old) s

theorem stands_setType (maze : Cells) (p : ℤ × ℤ) (type : CellType) (w : Wall) :
    stands (setType maze p type) w = stands maze w := by
  obtain ⟨side, q⟩ := w
  by_cases hq : q = p
  · subst hq
    cases side <;> simp [stands, setType]
  · cases side <;> simp [stands, setType, hq]

theorem stands_markEnds (W H : ℕ) (maze : Cells) (w : Wall) :
    stands (markEnds W H maze) w = stands maze w := by
  rw [markEnds, stands_setType, stands_setType]

theorem stands_wallsUp {W H : ℕ} (old : Cells) {w : Wall} (hw : w.2 ∈ grid W H) :
    stands (wallsUp W H old) w = true := by
  obtain ⟨side, p⟩ := w
  have hp : p ∈ grid W H := hw
  cases side <;> simp [stands, wallsUp, hp]

/-! ## One iteration -/

section Step

variable {W H : ℕ} {visited : ℤ × ℤ → Bool} {p q : ℤ × ℤ} {d : Dir}

/-- A listed neighbour is an unvisited cell of the grid, and the wall removed for it is the one
    between. -/
theorem of_mem_neighbors (hp : p ∈ grid W H) (h : (q, d) ∈ neighbors W H visited p.1 p.2) :
    q ∈ grid W H ∧ visited q = false ∧ Wall.Joins (removedWall p q d) p q := by
  obtain ⟨x, y⟩ := p
  rw [mem_grid] at hp ⊢
  simp only [neighbors, List.mem_append, List.mem_ite_nil_right, List.mem_singleton,
    Prod.mk.injEq, Bool.not_eq_true', gt_iff_lt] at h hp
  rcases h with ((⟨⟨hb, hv⟩, rfl, rfl⟩ | ⟨⟨hb, hv⟩, rfl, rfl⟩) | ⟨⟨hb, hv⟩, rfl, rfl⟩) |
    ⟨⟨hb, hv⟩, rfl, rfl⟩
  all_goals
    refine ⟨?_, hv, ?_⟩
    · simp only
      omega
    · simp [Wall.Joins, removedWall, Wall.far]

/-- Every unvisited cell of the grid behind one of the cell's walls is listed. -/
theorem exists_mem_neighbors {w : Wall} (hq : q ∈ grid W H)
    (hw : Wall.Joins w p q) (hv : visited q = false) :
    ∃ d, (q, d) ∈ neighbors W H visited p.1 p.2 := by
  obtain ⟨x, y⟩ := p
  obtain ⟨side, c⟩ := w
  rw [mem_grid] at hq
  cases side <;> simp only [Wall.Joins, Wall.far] at hw <;> rcases hw with ⟨rfl, rfl⟩ | ⟨rfl, h⟩
  · refine ⟨.right, ?_⟩
    simp only at hq
    simp [neighbors, hv]
    omega
  · obtain ⟨rfl, rfl⟩ := Prod.mk.inj h
    refine ⟨.left, ?_⟩
    simp [neighbors, hv]
    omega
  · refine ⟨.down, ?_⟩
    simp only at hq
    simp [neighbors, hv]
    omega
  · obtain ⟨rfl, rfl⟩ := Prod.mk.inj h
    refine ⟨.up, ?_⟩
    simp [neighbors, hv]
    omega

/-- What an iteration does: enter a neighbour or pop. -/
theorem carve_cases (next : ℕ → BitVec 32) {s : Backtracker} {rest : List (ℤ × ℤ)} (hs : s.stack = p :: rest) :
    (∃ q d, (q, d) ∈ neighbors W H s.visited p.1 p.2 ∧
      carve W H next s =
        { maze := openWall s.maze (removedWall p q d)
          visited := Function.update s.visited q true
          stack := q :: s.stack
          draws := s.draws + 1 }) ∨
    (neighbors W H s.visited p.1 p.2 = [] ∧ carve W H next s = { s with stack := rest }) := by
  unfold carve
  rw [hs]
  by_cases h : 0 < (neighbors W H s.visited p.1 p.2).length
  · simp only [dif_pos h]
    refine Or.inl ⟨_, _, List.get_mem _ _, rfl⟩
  · refine Or.inr ⟨by simpa using h, ?_⟩
    simp only [dif_neg h]

/-- What holds at each test of the loop's condition: the open walls make a tree on the visited
    cells, and only cells on the stack can still have unvisited neighbours. -/
structure Carved (W H : ℕ) (s : Backtracker) : Prop where
  visited_grid : ∀ {q}, s.visited q = true → q ∈ grid W H
  origin : s.visited (0, 0) = true
  stack_visited : ∀ {q}, q ∈ s.stack → s.visited q = true
  stack_nodup : s.stack.Nodup
  finished : ∀ {p q w}, s.visited p = true → p ∉ s.stack → q ∈ grid W H → Wall.Joins w p q →
    s.visited q = true
  tree : TreeOn (passages W H s.maze) {p | s.visited p.1 = true}
  inside : ∀ {w}, w ∈ openWalls W H s.maze → Wall.far w ∈ grid W H
  count : (openWalls W H s.maze).card + 1 = ((grid W H).filter (s.visited ·)).card

theorem start_carved (hW : 0 < W) (hH : 0 < H) (old : Cells) : Carved W H (start W H old) := by
  have horigin : ((0, 0) : ℤ × ℤ) ∈ grid W H := by
    rw [mem_grid]
    simp only
    omega
  have hvisited : ∀ q, (start W H old).visited q = true ↔ q = (0, 0) := by
    intro q
    by_cases hq : q = (0, 0) <;> simp [start, hq]
  have hclosed : openWalls W H (start W H old).maze = ∅ := by
    ext w
    rw [mem_openWalls]
    have hup : w.2 ∈ grid W H → stands (start W H old).maze w = true := stands_wallsUp old
    grind
  have hbot : passages W H (start W H old).maze = ⊥ := by
    ext a b
    rw [passages_adj]
    constructor
    · intro h
      obtain ⟨w, hjoin, hopen⟩ := h
      have hw : w.2 ∈ grid W H := by
        rcases hjoin with ⟨hw, -⟩ | ⟨hw, -⟩
        · exact hw ▸ a.2
        · exact hw ▸ b.2
      have hmem : w ∈ openWalls W H (start W H old).maze := mem_openWalls.mpr ⟨hw, hopen⟩
      rw [hclosed] at hmem
      exact absurd hmem (Finset.notMem_empty w)
    · intro h
      exact absurd h (by simp)
  exact {
    visited_grid := by
      intro q hq
      rw [(hvisited q).mp hq]
      exact horigin
    origin := (hvisited _).mpr rfl
    stack_visited := by
      intro q hq
      exact (hvisited q).mpr (List.mem_singleton.mp hq)
    stack_nodup := List.nodup_singleton _
    finished := by
      intro p q w hp hns
      rw [(hvisited p).mp hp] at hns
      exact absurd (List.mem_singleton_self _) hns
    tree := by
      have hset : {p : grid W H | (start W H old).visited p.1 = true} = {⟨(0, 0), horigin⟩} := by
        ext p
        simp only [Set.mem_ofPred_eq, hvisited, Set.mem_singleton_iff, Subtype.ext_iff]
      rw [hbot, hset]
      exact TreeOn.singleton _
    inside := by
      intro w hw
      rw [hclosed] at hw
      exact absurd hw (Finset.notMem_empty w)
    count := by
      have hone : (grid W H).filter ((start W H old).visited ·) = {(0, 0)} := by
        ext q
        rw [Finset.mem_filter, hvisited, Finset.mem_singleton]
        exact ⟨And.right, fun h => ⟨h ▸ horigin, h⟩⟩
      rw [hclosed, hone, Finset.card_empty, Finset.card_singleton] }

/-- Entering an unvisited neighbour of the top cell. -/
theorem Carved.enter {s : Backtracker} {rest : List (ℤ × ℤ)} (h : Carved W H s)
    (hs : s.stack = p :: rest) (hnb : (q, d) ∈ neighbors W H s.visited p.1 p.2) (draws : ℕ) :
    Carved W H
      { maze := openWall s.maze (removedWall p q d)
        visited := Function.update s.visited q true
        stack := q :: s.stack
        draws := draws } := by
  have hpv : s.visited p = true := h.stack_visited (hs ▸ List.mem_cons_self)
  have hp : p ∈ grid W H := h.visited_grid hpv
  obtain ⟨hq, hqv, hjoin⟩ := of_mem_neighbors hp hnb
  have hkeep : ∀ a, Function.update s.visited q true a = true ↔ a = q ∨ s.visited a = true := by
    intro a
    by_cases ha : a = q <;> simp [ha]
  have hw : (removedWall p q d).2 ∈ grid W H := by
    rcases hjoin with ⟨hw, -⟩ | ⟨hw, -⟩ <;> rw [hw] <;> assumption
  have hfar : Wall.far (removedWall p q d) ∈ grid W H := by
    rcases hjoin with ⟨-, hw⟩ | ⟨-, hw⟩ <;> rw [hw] <;> assumption
  -- were the wall open already, the tree would have an edge to an unvisited cell
  have hnew : removedWall p q d ∉ openWalls W H s.maze := by
    intro hopen
    have hadj : (passages W H s.maze).Adj ⟨q, hq⟩ ⟨p, hp⟩ :=
      passages_adj.mpr ⟨_, hjoin.symm, (mem_openWalls.mp hopen).2⟩
    have := h.tree.within hadj
    rw [Set.mem_ofPred_eq, hqv] at this
    exact absurd this (by decide)
  exact {
    visited_grid := by
      intro a ha
      rcases (hkeep a).mp ha with rfl | ha
      · exact hq
      · exact h.visited_grid ha
    origin := (hkeep _).mpr (Or.inr h.origin)
    stack_visited := by
      intro a ha
      rcases List.mem_cons.mp ha with rfl | ha
      · exact (hkeep a).mpr (Or.inl rfl)
      · exact (hkeep a).mpr (Or.inr (h.stack_visited ha))
    stack_nodup := by
      refine List.nodup_cons.mpr ⟨fun hmem => ?_, h.stack_nodup⟩
      rw [h.stack_visited hmem] at hqv
      exact absurd hqv (by decide)
    finished := by
      intro a b w ha hns hb hab
      rcases (hkeep a).mp ha with rfl | ha
      · exact absurd List.mem_cons_self hns
      · exact (hkeep b).mpr
          (Or.inr (h.finished ha (fun hmem => hns (List.mem_cons_of_mem q hmem)) hb hab))
    tree := by
      have hset : {a : grid W H | Function.update s.visited q true a.1 = true} =
          insert ⟨q, hq⟩ {a | s.visited a.1 = true} := by
        ext a
        simp only [Set.mem_ofPred_eq, hkeep, Set.mem_insert_iff, Subtype.ext_iff]
      have hjoin' : Wall.Joins (removedWall p q d) (⟨p, hp⟩ : grid W H).1 (⟨q, hq⟩ : grid W H).1 :=
        hjoin
      simp only
      rw [passages_openWall hjoin', hset]
      refine h.tree.grow hpv ?_
      simp [hqv]
    inside := by
      intro w hmem
      rw [openWalls_openWall hw, Finset.mem_insert] at hmem
      rcases hmem with rfl | hmem
      · exact hfar
      · exact h.inside hmem
    count := by
      have hfilter : (grid W H).filter (Function.update s.visited q true ·) =
          insert q ((grid W H).filter (s.visited ·)) := by
        ext a
        simp only [Finset.mem_filter, hkeep, Finset.mem_insert]
        constructor
        · intro ha
          tauto
        · intro ha
          rcases ha with rfl | ha
          · exact ⟨hq, Or.inl rfl⟩
          · exact ⟨ha.1, Or.inr ha.2⟩
      have hfresh : q ∉ (grid W H).filter (s.visited ·) := by simp [hqv]
      simp only
      rw [openWalls_openWall hw, Finset.card_insert_of_notMem hnew, h.count, hfilter,
        Finset.card_insert_of_notMem hfresh] }

/-- Popping a cell whose neighbours are all visited. -/
theorem Carved.pop {s : Backtracker} {rest : List (ℤ × ℤ)} (h : Carved W H s)
    (hs : s.stack = p :: rest) (hnb : neighbors W H s.visited p.1 p.2 = []) :
    Carved W H { s with stack := rest } := by
  have hnodup := h.stack_nodup
  rw [hs, List.nodup_cons] at hnodup
  exact {
    visited_grid := h.visited_grid
    origin := h.origin
    stack_visited := fun ha => h.stack_visited (hs ▸ List.mem_cons_of_mem p ha)
    stack_nodup := hnodup.2
    finished := by
      intro a b w ha hns hb hab
      by_cases hap : a = p
      · -- the popped cell has no unvisited neighbour left
        by_contra hbv
        obtain ⟨d, hd⟩ := exists_mem_neighbors hb (hap ▸ hab) (Bool.eq_false_iff.mpr hbv)
        rw [hnb] at hd
        exact absurd hd List.not_mem_nil
      · refine h.finished ha (fun hmem => ?_) hb hab
        rw [hs, List.mem_cons] at hmem
        exact hmem.elim hap hns
    tree := h.tree
    inside := h.inside
    count := h.count }

theorem carve_carved (next : ℕ → BitVec 32) {s : Backtracker} (h : Carved W H s) : Carved W H (carve W H next s) := by
  cases hs : s.stack with
  | nil =>
    have hsame : carve W H next s = s := by simp only [carve, hs]
    rw [hsame]
    exact h
  | cons p rest =>
    obtain ⟨q, d, hnb, hc⟩ | ⟨hnb, hc⟩ := carve_cases next hs
    · rw [hc]
      exact h.enter hs hnb _
    · rw [hc]
      exact h.pop hs hnb

/-- Iterations left: every unvisited cell is entered and popped, every stacked one popped. -/
def pending (W H : ℕ) (s : Backtracker) : ℕ :=
  2 * ((grid W H).filter (s.visited · = false)).card + s.stack.length

theorem carve_pending (next : ℕ → BitVec 32) {s : Backtracker} (h : Carved W H s) (hne : s.stack ≠ []) :
    pending W H (carve W H next s) < pending W H s := by
  obtain ⟨p, rest, hs⟩ := List.exists_cons_of_ne_nil hne
  obtain ⟨q, d, hnb, hc⟩ | ⟨-, hc⟩ := carve_cases next hs
  · have hp : p ∈ grid W H := h.visited_grid (h.stack_visited (hs ▸ List.mem_cons_self))
    obtain ⟨hq, hqv, -⟩ := of_mem_neighbors hp hnb
    have hfilter : (grid W H).filter (Function.update s.visited q true · = false) =
        ((grid W H).filter (s.visited · = false)).erase q := by
      ext a
      by_cases ha : a = q <;> simp [ha]
    have hmem : q ∈ (grid W H).filter (s.visited · = false) := Finset.mem_filter.mpr ⟨hq, hqv⟩
    have hcard := Finset.card_erase_add_one hmem
    rw [hc]
    simp only [pending, hfilter, List.length_cons]
    omega
  · rw [hc]
    simp only [pending, hs, List.length_cons]
    omega

end Step

/-! ## The loop -/

section Loop

variable {W H : ℕ} {next : ℕ → BitVec 32}

theorem backtrack_returns (next : ℕ → BitVec 32) {fuel : ℕ} {s : Backtracker} (h : Carved W H s)
    (hfuel : pending W H s ≤ fuel) :
    ∃ s', backtrack W H next fuel s = some s' ∧ Carved W H s' ∧ s'.stack = [] := by
  induction fuel generalizing s with
  | zero =>
    have hs : s.stack = [] := List.eq_nil_of_length_eq_zero (by unfold pending at hfuel; omega)
    exact ⟨s, by rw [backtrack, if_pos hs], h, hs⟩
  | succ fuel ih =>
    by_cases hs : s.stack = []
    · exact ⟨s, by rw [backtrack, if_pos hs], h, hs⟩
    · have hless := carve_pending next h hs
      rw [backtrack, if_neg hs]
      exact ih (carve_carved next h) (by omega)

/-- Further iterations change nothing. -/
theorem backtrack_more {fuel more : ℕ} {s s' : Backtracker}
    (h : backtrack W H next fuel s = some s') (hle : fuel ≤ more) :
    backtrack W H next more s = some s' := by
  induction fuel generalizing s more with
  | zero =>
    by_cases hs : s.stack = []
    · cases more <;> simpa [backtrack, hs] using h
    · simp [backtrack, hs] at h
  | succ fuel ih =>
    obtain ⟨more, rfl⟩ := Nat.exists_eq_add_of_le' (Nat.le_trans (Nat.le_add_left 1 fuel) hle)
    by_cases hs : s.stack = []
    · simpa [backtrack, hs] using h
    · rw [backtrack, if_neg hs] at h ⊢
      exact ih h (by omega)

theorem generating_carved {old : Cells} {s : Backtracker} (hW : 0 < W) (hH : 0 < H)
    (h : Generating W H next old s) : Carved W H s := by
  induction h with
  | refl => exact start_carved hW hH old
  | tail _ hstep ih =>
    obtain ⟨-, rfl⟩ := hstep
    exact carve_carved next ih

theorem Carved.stack_le {s : Backtracker} (h : Carved W H s) : s.stack.length ≤ W * H := by
  rw [← card_grid, ← List.toFinset_card_of_nodup h.stack_nodup]
  refine Finset.card_le_card fun q hq => ?_
  exact h.visited_grid (h.stack_visited (List.mem_toFinset.mp hq))

/-- A set of cells that is closed under stepping to a neighbour and holds the corner is the
    whole grid. -/
theorem Carved.all_visited {s : Backtracker} (h : Carved W H s) (hs : s.stack = []) {p : ℤ × ℤ}
    (hp : p ∈ grid W H) : s.visited p = true := by
  have hstep : ∀ {p q : ℤ × ℤ} {w : Wall}, s.visited p = true → q ∈ grid W H →
      Wall.Joins w p q → s.visited q = true := by
    intro p q w hp
    exact h.finished hp (hs ▸ List.not_mem_nil)
  obtain ⟨⟨x, hx⟩, ⟨y, hy⟩⟩ : (∃ x : ℕ, p.1 = x) ∧ ∃ y : ℕ, p.2 = y := by
    rw [mem_grid] at hp
    exact ⟨Int.eq_ofNat_of_zero_le hp.1.1, Int.eq_ofNat_of_zero_le hp.2.1⟩
  obtain ⟨hxW, hyH⟩ : x < W ∧ y < H := by
    rw [mem_grid] at hp
    omega
  rw [show p = ((x : ℤ), (y : ℤ)) from Prod.ext hx hy]
  clear hx hy
  have hrow : s.visited (x, 0) = true := by
    induction x with
    | zero => exact h.origin
    | succ x ih =>
      have hjoin : Wall.Joins (.right, ((x : ℤ), (0 : ℤ))) (x, 0) ((x + 1 : ℕ), 0) :=
        Or.inl ⟨rfl, by simp [Wall.far]⟩
      refine hstep (ih (by omega)) ?_ hjoin
      rw [mem_grid]
      simp only
      omega
  induction y with
  | zero => exact hrow
  | succ y ih =>
    have hjoin : Wall.Joins (.bottom, ((x : ℤ), (y : ℤ))) (x, y) (x, (y + 1 : ℕ)) :=
      Or.inl ⟨rfl, by simp [Wall.far]⟩
    refine hstep (ih (by omega)) ?_ hjoin
    rw [mem_grid]
    simp only
    omega

/-- `generate_maze` makes a perfect maze: whatever `random_next` yields and whatever the array
    held before, the loop ends, its stack stays within the arrays, and the passages are a
    spanning tree of the grid with no way out of it. -/
theorem generateMaze_perfect (hW : 0 < W) (hH : 0 < H) (next : ℕ → BitVec 32) (old : Cells) :
    ∃ maze,
      (∀ fuel, 2 * (W * H) ≤ fuel → generateMaze fuel W H next old = some maze) ∧
      (∀ s, Generating W H next old s → s.stack.length ≤ W * H) ∧
      (passages W H maze).IsTree ∧
      (∀ p q, ∃! walk : (passages W H maze).Walk p q, walk.IsPath) ∧
      (openWalls W H maze).card = W * H - 1 ∧
      ∀ w ∈ openWalls W H maze, Wall.far w ∈ grid W H := by
  have hstart := start_carved hW hH old
  have hfuel : pending W H (start W H old) ≤ 2 * (W * H) := by
    have hopen := hstart.count
    have hsplit := Finset.card_filter_add_card_filter_not (s := grid W H)
      ((start W H old).visited · = true)
    simp only [Bool.not_eq_true, card_grid] at hsplit
    have hstack : (start W H old).stack.length = 1 := rfl
    unfold pending
    omega
  obtain ⟨s, hret, hs, hempty⟩ := backtrack_returns next hstart hfuel
  have hwalls := stands_markEnds W H s.maze
  have htree : (passages W H s.maze).IsTree :=
    hs.tree.isTree fun p => hs.all_visited hempty p.2
  refine ⟨markEnds W H s.maze, fun fuel hle => ?_, fun s' hs' => (generating_carved hW hH hs').stack_le, ?_⟩
  · rw [generateMaze, backtrack_more hret hle, Option.map_some]
  rw [passages_congr hwalls, openWalls_congr hwalls]
  refine ⟨htree, htree.existsUnique_path, ?_, fun w hw => hs.inside hw⟩
  have hall : (grid W H).filter (s.visited ·) = grid W H :=
    Finset.filter_true_of_mem fun p hp => hs.all_visited hempty hp
  have hcount := hs.count
  rw [hall, card_grid] at hcount
  omega

/-- The maze of the shell, 39 by 10, when every draw is 0. -/
theorem generateMaze_perfect_shell :
    ∃ maze,
      (∀ fuel, 2 * (39 * 10) ≤ fuel →
        generateMaze fuel 39 10 (fun _ => 0) (fun _ => ⟨.wall, false, false⟩) = some maze) ∧
      (∀ s, Generating 39 10 (fun _ => 0) (fun _ => ⟨.wall, false, false⟩) s →
        s.stack.length ≤ 39 * 10) ∧
      (passages 39 10 maze).IsTree ∧
      (∀ p q, ∃! walk : (passages 39 10 maze).Walk p q, walk.IsPath) ∧
      (openWalls 39 10 maze).card = 39 * 10 - 1 ∧
      ∀ w ∈ openWalls 39 10 maze, Wall.far w ∈ grid 39 10 :=
  generateMaze_perfect (by decide) (by decide) _ _

end Loop

end HorizonOS.I386.Maze
