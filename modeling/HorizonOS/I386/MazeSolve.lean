import HorizonOS.I386.Maze
import HorizonOS.Lib.DepthFirst

/-!
# The maze solver of the i386 shell

`dfs_solve` and `solve_maze` (arch/i386/drivers/shell/builtins/maze.c:419–505) look for a way from
the source to the sink. The type of a cell is both the mark that the search has been there and, on
the way back from the sink, the result. `draw_maze` only reads the array and is left out. The array
is painted from three things at any time, the two ends, the cells that have been seen and the path:
`dfs_solve` is the depth-first search of `HorizonOS.Lib.search` on the moves of `can_move_to`, and
the painting is what it leaves.

* `dfsSolve_eq`: the painting after `dfs_solve`.
* `reset_eq`: the loops before the search leave the painting with nothing seen, whatever an earlier
  solve has left.
* `solveMaze_correct`: the solver returns, finds a way if there is one, paints a simple path, and
  does the same when it runs again.
-/

namespace HorizonOS.I386.Maze

open HorizonOS.Lib

/-! ## Model -/

/-- `directions` of `dfs_solve` (maze.c:432–434): down, right, up, left. -/
def directions : List (ℤ × ℤ) := [(0, 1), (1, 0), (0, -1), (-1, 0)]

/-- The loop over the directions from `(x, y) = p` (maze.c:436–452); `solve` is the recursive
    call. -/
def tryDirections (W H : ℕ) (solve : Cells → ℤ × ℤ → Option (Bool × Cells)) (p : ℤ × ℤ) :
    List (ℤ × ℤ) → Cells → Option (Bool × Cells)
  | [], maze => some (false, maze)
  | d :: ds, maze =>
    let next := (p.1 + d.1, p.2 + d.2)
    if canMoveTo W H maze p.1 p.2 next.1 next.2 ∧
        ((maze next).type = .corridor ∨ (maze next).type = .sink) then
      match solve maze next with
      | none => none
      | some (true, maze) =>
        some (true, if (maze p).type ≠ .source then setType maze p .path else maze)
      | some (false, maze) => tryDirections W H solve p ds maze
    else tryDirections W H solve p ds maze

/-- `dfs_solve(x, y, target_x, target_y)` (maze.c:419–455), at most `fuel` calls deep. -/
def dfsSolve (W H : ℕ) (target : ℤ × ℤ) : (fuel : ℕ) → Cells → ℤ × ℤ → Option (Bool × Cells)
  | 0, _, _ => none
  | fuel + 1, maze, p =>
    let maze := if (maze p).type = .corridor then setType maze p .visited else maze
    if p = target then some (true, setType maze p .sink)
    else tryDirections W H (dfsSolve W H target fuel) p directions maze

/-- The order in which `solve_maze` looks at the cells. -/
def cellOrder (W H : ℕ) : List (ℤ × ℤ) :=
  (List.range H).flatMap fun y : ℕ => (List.range W).map fun x : ℕ => ((x : ℤ), (y : ℤ))

/-- "Find start and end positions" (maze.c:462–476). -/
def findEnds (W H : ℕ) (maze : Cells) : (ℤ × ℤ) × (ℤ × ℤ) :=
  (cellOrder W H).foldl (fun e p =>
    if (maze p).type = .source then (p, e.2)
    else if (maze p).type = .sink then (e.1, p)
    else e) ((-1, -1), (-1, -1))

/-- "Reset any previous solve attempts" (maze.c:483–491). -/
def reset (W H : ℕ) (maze : Cells) : Cells :=
  fun p =>
    if p ∈ grid W H ∧ ((maze p).type = .visited ∨ (maze p).type = .path) then
      { maze p with type := .corridor }
    else maze p

/-- How `solve_maze` ends: without an end of the way, or with what `dfs_solve` returns. -/
inductive SolveResult
  | noEnds
  | searched (found : Bool)
  deriving DecidableEq, Repr

/-- What `solve_maze` prints (maze.c:479 and 501). -/
def SolveResult.printed : SolveResult → String
  | .noEnds => "Error: Could not find start or end position\n"
  | .searched true => ""
  | .searched false => "No solution found!\n"

/-- `solve_maze()` (maze.c:461–505), with `dfs_solve` at most `fuel` calls deep. -/
def solveMaze (fuel W H : ℕ) (maze : Cells) : Option (SolveResult × Cells) :=
  let (start, stop) := findEnds W H maze
  if start.1 = -1 ∨ stop.1 = -1 then some (.noEnds, maze)
  else
    let maze := setType (setType (reset W H maze) start .source) stop .sink
    match dfsSolve W H stop fuel maze start with
    | none => none
    | some (true, maze) => some (.searched true, setType maze start .source)
    | some (false, maze) => some (.searched false, maze)

/-! ## The painting -/

variable {W H : ℕ}

/-- The type of a cell. -/
def mark (source sink : grid W H) (seen : Finset (grid W H)) (path : List (grid W H))
    (q : grid W H) : CellType :=
  if q = source then .source
  else if q = sink then .sink
  else if q ∈ path then .path
  else if q ∈ seen then .visited
  else .corridor

/-- The array with the walls of `maze`. -/
def paint (maze : Cells) (source sink : grid W H) (seen : Finset (grid W H))
    (path : List (grid W H)) : Cells :=
  fun q => if h : q ∈ grid W H then { maze q with type := mark source sink seen path ⟨q, h⟩ }
    else maze q

variable {maze : Cells} {source sink : grid W H} {seen : Finset (grid W H)}
  {path : List (grid W H)}

theorem paint_type (q : grid W H) :
    (paint maze source sink seen path q).type = mark source sink seen path q := by
  simp [paint]

theorem mark_eq_path_iff {q : grid W H} :
    mark source sink seen path q = .path ↔ q ∈ path ∧ q ≠ source ∧ q ≠ sink := by
  unfold mark
  split_ifs <;> simp_all

theorem stands_paint (w : Wall) : stands (paint maze source sink seen path) w = stands maze w := by
  obtain ⟨side, q⟩ := w
  cases side <;> simp only [stands, paint] <;> split_ifs <;> rfl

theorem canMoveTo_paint (p q : ℤ × ℤ) :
    canMoveTo W H (paint maze source sink seen path) p.1 p.2 q.1 q.2 =
      canMoveTo W H maze p.1 p.2 q.1 q.2 := by
  rw [Bool.eq_iff_iff, canMoveTo_iff, canMoveTo_iff]
  simp only [stands_paint]

/-- Painting a cell anew. -/
theorem setType_paint {v : grid W H} {type : CellType} {seen' : Finset (grid W H)}
    {path' : List (grid W H)} (hv : mark source sink seen' path' v = type)
    (hother : ∀ q ≠ v, mark source sink seen' path' q = mark source sink seen path q) :
    setType (paint maze source sink seen path) v type = paint maze source sink seen' path' := by
  funext q
  by_cases hq : q ∈ grid W H
  · by_cases hqv : q = v
    · subst hqv
      simp [setType, paint, hv]
    · have hne : (⟨q, hq⟩ : grid W H) ≠ v := fun h => hqv (congrArg Subtype.val h)
      simp [setType, paint, hq, hqv, hother _ hne]
  · have hqv : q ≠ v := fun h => hq (h ▸ v.2)
    simp [setType, paint, hq, hqv]

/-! ## The search -/

/-- The cell in direction `d`, if `can_move_to` allows it. -/
def step (maze : Cells) (p : grid W H) (d : ℤ × ℤ) : Option (grid W H) :=
  if h : canMoveTo W H maze p.1.1 p.1.2 (p.1.1 + d.1) (p.1.2 + d.2) = true then
    some ⟨(p.1.1 + d.1, p.1.2 + d.2), ((canMoveTo_iff W H maze p.1 (_, _)).mp h).1⟩
  else none

/-- The moves from a cell, in the order in which `dfs_solve` tries them. -/
def moves (maze : Cells) (p : grid W H) : List (grid W H) := directions.filterMap (step maze p)

/-- The search and the painting it leaves. -/
def render (maze : Cells) (source sink : grid W H) (r : Found (grid W H)) : Bool × Cells :=
  (r.2.isSome, paint maze source sink r.1 (r.2.getD []))

/-- A cell that is not seen can be entered, the sink included. -/
theorem enterable_iff (hsource : source ∈ seen) (hsink : sink ∉ seen) (q : grid W H) :
    ((paint maze source sink seen [] q).type = .corridor ∨
      (paint maze source sink seen [] q).type = .sink) ↔ q ∉ seen := by
  rw [paint_type]
  unfold mark
  split_ifs with h1 h2 h3 h4
  · simp [h1, hsource]
  · simp [h2, hsink]
  · simp at h3
  · simp [h4]
  · simp [h4]

/-- Entering a cell: only a corridor gets a mark. -/
theorem enter_paint (v : grid W H) (seen : Finset (grid W H)) :
    (if (paint maze source sink seen [] v).type = .corridor
      then setType (paint maze source sink seen []) v .visited
      else paint maze source sink seen []) = paint maze source sink (insert v seen) [] := by
  rw [paint_type]
  split_ifs with hcorridor
  · refine setType_paint ?_ fun q hq => ?_
    · unfold mark at hcorridor ⊢
      split_ifs at hcorridor ⊢ <;> simp_all
    · simp [mark, hq]
  · have hmark : ∀ q, mark source sink seen [] q = mark source sink (insert v seen) [] q := by
      intro q
      by_cases hq : q = v
      · subst hq
        unfold mark at hcorridor ⊢
        split_ifs at hcorridor ⊢ <;> simp_all
      · simp [mark, hq]
    funext q
    simp only [paint, hmark]

/-- Leaving a cell on the way back. -/
theorem leave_paint {v : grid W H} (hv : v ≠ sink) (seen : Finset (grid W H))
    (path : List (grid W H)) :
    (if (paint maze source sink seen path v).type ≠ .source
      then setType (paint maze source sink seen path) v .path
      else paint maze source sink seen path) = paint maze source sink seen (v :: path) := by
  rw [paint_type]
  by_cases hsource : v = source
  · have hmark : ∀ q, mark source sink seen path q = mark source sink seen (v :: path) q := by
      intro q
      by_cases hq : q = v
      · simp [mark, hq, hsource]
      · simp [mark, hq]
    rw [if_neg (by simp [mark, hsource])]
    funext q
    simp only [paint, hmark]
  · rw [if_pos (by unfold mark; split_ifs <;> simp)]
    refine setType_paint ?_ fun q hq => ?_
    · simp [mark, hsource, hv]
    · simp [mark, hq]

theorem step_cases (maze : Cells) (p : grid W H) (d : ℤ × ℤ) :
    (canMoveTo W H maze p.1.1 p.1.2 (p.1.1 + d.1) (p.1.2 + d.2) = false ∧ step maze p d = none) ∨
    ∃ u : grid W H, canMoveTo W H maze p.1.1 p.1.2 (p.1.1 + d.1) (p.1.2 + d.2) = true ∧
      u.1 = (p.1.1 + d.1, p.1.2 + d.2) ∧ step maze p d = some u := by
  unfold step
  split_ifs with h
  · exact .inr ⟨_, h, rfl, rfl⟩
  · exact .inl ⟨by simpa using h, rfl⟩

theorem tryDirections_eq {solve : Cells → ℤ × ℤ → Option (Bool × Cells)}
    {visit : Finset (grid W H) → grid W H → Option (Found (grid W H))} {p : grid W H}
    (hp : p ≠ sink)
    (hsolve : ∀ seen (u : grid W H), source ∈ seen → sink ∉ seen → u ∉ seen →
      solve (paint maze source sink seen []) u = (visit seen u).map (render maze source sink))
    (hvisit : ∀ seen u seen', sink ∉ seen → u ∉ seen → visit seen u = some (seen', none) →
      seen ⊆ seen' ∧ sink ∉ seen')
    (ds : List (ℤ × ℤ)) (hsource : source ∈ seen) (hsink : sink ∉ seen) :
    tryDirections W H solve p ds (paint maze source sink seen []) =
      (tryEach visit (ds.filterMap (step maze p)) seen).map fun r =>
        render maze source sink (r.1, r.2.map (p :: ·)) := by
  induction ds generalizing seen with
  | nil => rfl
  | cons d ds ih =>
    simp only [tryDirections, canMoveTo_paint p.1 (p.1.1 + d.1, p.1.2 + d.2)]
    obtain ⟨hmove, hstep⟩ | ⟨u, hmove, hu, hstep⟩ := step_cases maze p d
    · rw [List.filterMap_cons_none hstep, if_neg (by simp [hmove]), ih hsource hsink]
    · rw [List.filterMap_cons_some hstep, tryEach, ← hu]
      by_cases hseen : u ∈ seen
      · rw [if_neg fun h => (enterable_iff hsource hsink u).mp h.2 hseen, if_pos hseen,
          ih hsource hsink]
      · rw [if_pos ⟨hmove, (enterable_iff hsource hsink u).mpr hseen⟩,
          if_neg hseen, hsolve seen u hsource hsink hseen]
        rcases hrun : visit seen u with _ | ⟨seen', _ | path⟩
        · rfl
        · obtain ⟨hsub, hsink'⟩ := hvisit seen u seen' hsink hseen hrun
          exact ih (hsub hsource) hsink'
        · simp only [Option.map_some, render, Option.isSome_some, Option.getD_some]
          rw [leave_paint hp]

/-- **The painting after `dfs_solve`.** -/
theorem dfsSolve_eq (hne : source ≠ sink) {fuel : ℕ} {v : grid W H}
    (hsource : source ∈ insert v seen) (hsink : sink ∉ seen) (hv : v ∉ seen) :
    dfsSolve W H sink fuel (paint maze source sink seen []) v =
      (search (moves maze) sink fuel seen v).map (render maze source sink) := by
  induction fuel generalizing seen v with
  | zero => rfl
  | succ fuel ih =>
    simp only [dfsSolve, search, enter_paint]
    by_cases heq : v = sink
    · subst heq
      rw [if_pos rfl, if_pos rfl, setType_paint]
      · rfl
      · simp [mark, hne.symm]
      · intro q hq
        simp [mark, hq]
    · rw [if_neg fun h => heq (Subtype.ext h), if_neg heq, Option.map_map]
      have hsink' : sink ∉ insert v seen := by
        rw [Finset.mem_insert, not_or]
        exact ⟨Ne.symm heq, hsink⟩
      refine tryDirections_eq heq (fun s u hs hsnk hu => ih (Finset.mem_insert_of_mem hs) hsnk hu)
        (fun s u s' hsnk hu hrun => ?_) directions hsource hsink'
      have hout := search_outcome hsnk hu hrun
      exact ⟨fun a ha => hout.grows (Finset.mem_insert_of_mem ha), (hout.fails rfl).1⟩

/-! ## The whole solver -/

/-- One cell is the source, one the sink, and the others are free or marked by an earlier solve. -/
structure Ends (maze : Cells) (source sink : grid W H) : Prop where
  source_iff : ∀ q : grid W H, (maze q).type = .source ↔ q = source
  sink_iff : ∀ q : grid W H, (maze q).type = .sink ↔ q = sink
  other : ∀ q : grid W H, q ≠ source → q ≠ sink →
    (maze q).type = .corridor ∨ (maze q).type = .visited ∨ (maze q).type = .path

theorem Ends.ne (h : Ends maze source sink) : source ≠ sink := by
  rintro rfl
  have hsource := (h.source_iff source).mpr rfl
  rw [(h.sink_iff source).mpr rfl] at hsource
  exact absurd hsource (by decide)

theorem ends_paint (hne : source ≠ sink) : Ends (paint maze source sink seen path) source sink := by
  refine ⟨fun q => ?_, fun q => ?_, fun q hq hq' => ?_⟩ <;> rw [paint_type] <;> unfold mark
  · split_ifs <;> simp_all
  · split_ifs <;> simp_all
  · rw [if_neg hq, if_neg hq']
    split_ifs <;> simp

theorem mem_cellOrder {p : ℤ × ℤ} : p ∈ cellOrder W H ↔ p ∈ grid W H := by
  rw [mem_grid]
  simp only [cellOrder, List.mem_flatMap, List.mem_map, List.mem_range]
  constructor
  · rintro ⟨y, hy, x, hx, rfl⟩
    simp only
    omega
  · intro h
    refine ⟨p.2.toNat, by omega, p.1.toNat, by omega, ?_⟩
    ext <;> simp only <;> omega

theorem findEnds_eq (h : Ends maze source sink) : findEnds W H maze = (source.1, sink.1) := by
  -- after any part of the cells, an end has been found exactly if it is among them
  have hfold : ∀ (cells : List (ℤ × ℤ)) (e : (ℤ × ℤ) × (ℤ × ℤ)), (∀ p ∈ cells, p ∈ grid W H) →
      cells.foldl (fun e p =>
        if (maze p).type = .source then (p, e.2)
        else if (maze p).type = .sink then (e.1, p)
        else e) e =
      (if source.1 ∈ cells then source.1 else e.1, if sink.1 ∈ cells then sink.1 else e.2) := by
    intro cells
    induction cells with
    | nil => simp
    | cons p cells ih =>
      intro e hcells
      obtain ⟨hp, hcells⟩ := List.forall_mem_cons.mp hcells
      have hsource := h.source_iff ⟨p, hp⟩
      have hsink := h.sink_iff ⟨p, hp⟩
      rw [Subtype.ext_iff] at hsource hsink
      rw [List.foldl_cons, ih _ hcells]
      have hne : source.1 ≠ sink.1 := fun heq => h.ne (Subtype.ext heq)
      by_cases h1 : p = source.1
      · subst h1
        simp [hsource.mpr rfl, hne.symm]
      · by_cases h2 : p = sink.1
        · subst h2
          simp [hsink.mpr rfl, hne]
        · rw [if_neg fun ht => h1 (hsource.mp ht), if_neg fun ht => h2 (hsink.mp ht)]
          simp [Ne.symm h1, Ne.symm h2]
  rw [findEnds, hfold _ _ fun p hp => mem_cellOrder.mp hp, if_pos (mem_cellOrder.mpr source.2),
    if_pos (mem_cellOrder.mpr sink.2)]

/-- The array at the start of the search. -/
theorem reset_eq (h : Ends maze source sink) :
    setType (setType (reset W H maze) source .source) sink .sink =
      paint maze source sink ∅ [] := by
  funext q
  by_cases hq : q ∈ grid W H
  · have hne : source.1 ≠ sink.1 := fun heq => h.ne (Subtype.ext heq)
    by_cases h1 : q = source.1
    · subst h1
      simp [setType, reset, paint, mark, hne, (h.source_iff source).mpr rfl]
    · by_cases h2 : q = sink.1
      · subst h2
        simp [setType, reset, paint, mark, hne.symm, h.ne.symm, (h.sink_iff sink).mpr rfl]
      · have hsource : (⟨q, hq⟩ : grid W H) ≠ source := fun heq => h1 (congrArg Subtype.val heq)
        have hsink : (⟨q, hq⟩ : grid W H) ≠ sink := fun heq => h2 (congrArg Subtype.val heq)
        have hother := h.other ⟨q, hq⟩ hsource hsink
        simp only [setType, Function.update_of_ne h2, Function.update_of_ne h1, reset, paint, hq,
          mark, hsource, hsink, true_and, dif_pos, if_false, List.not_mem_nil, Finset.notMem_empty]
        rcases hother with ht | ht | ht
        · rw [if_neg (by simp [ht]), ← ht]
        · rw [if_pos (.inl ht)]
        · rw [if_pos (.inr ht)]
  · have h1 : q ≠ source.1 := fun heq => hq (heq ▸ source.2)
    have h2 : q ≠ sink.1 := fun heq => hq (heq ▸ sink.2)
    simp [setType, reset, paint, hq, h1, h2]

theorem mem_moves_iff (p q : grid W H) : q ∈ moves maze p ↔ (passages W H maze).Adj p q := by
  rw [moves, List.mem_filterMap]
  constructor
  · rintro ⟨d, -, hstep⟩
    obtain ⟨-, hnone⟩ | ⟨u, hmove, hu, hsome⟩ := step_cases maze p d
    · rw [hnone] at hstep
      exact absurd hstep (by simp)
    · obtain rfl : u = q := Option.some.inj (hsome.symm.trans hstep)
      change canMoveTo W H maze p.1.1 p.1.2 u.1.1 u.1.2 = true
      rw [hu]
      exact hmove
  · intro hadj
    have hmove : canMoveTo W H maze p.1.1 p.1.2 q.1.1 q.1.2 = true := hadj
    obtain ⟨w, hjoins, -⟩ := passages_adj.mp hadj
    obtain ⟨d, hd, hq⟩ : ∃ d ∈ directions, q.1 = (p.1.1 + d.1, p.1.2 + d.2) := by
      obtain ⟨side, x, y⟩ := w
      rcases hjoins with ⟨hp, hq⟩ | ⟨hq, hp⟩ <;> cases side <;> rw [← hp, ← hq]
      · exact ⟨(1, 0), by decide, by simp [Wall.far]⟩
      · exact ⟨(0, 1), by decide, by simp [Wall.far]⟩
      · exact ⟨(-1, 0), by decide, by simp [Wall.far]⟩
      · exact ⟨(0, -1), by decide, by simp [Wall.far]⟩
    refine ⟨d, hd, ?_⟩
    rw [hq] at hmove
    obtain ⟨hfalse, -⟩ | ⟨u, -, hu, hsome⟩ := step_cases maze p d
    · rw [hmove] at hfalse
      exact absurd hfalse (by decide)
    · rw [hsome, Option.some_inj]
      exact Subtype.ext (hu.trans hq.symm)

/-- A path of the search is one of the grid's graph. -/
theorem walk_of_freshPath {p : List (grid W H)} (h : FreshPath (moves maze) sink ∅ source p) :
    ∃ walk : (passages W H maze).Walk source sink, walk.IsPath ∧ walk.support = p := by
  have hne : p ≠ [] := by
    rintro rfl
    exact absurd h.head (by simp)
  have hchain : p.IsChain (passages W H maze).Adj := h.chain.imp fun a b => (mem_moves_iff a b).mp
  have hhead : p.head hne = source := by
    have := h.head
    rwa [List.head?_eq_some_head hne, Option.some_inj] at this
  have hlast : p.getLast hne = sink := by
    have := h.last
    rwa [List.getLast?_eq_some_getLast hne, Option.some_inj] at this
  refine ⟨(SimpleGraph.Walk.ofSupport p hne hchain).copy hhead hlast, ?_, ?_⟩
  · rw [SimpleGraph.Walk.isPath_copy, SimpleGraph.Walk.isPath_def,
      SimpleGraph.Walk.support_ofSupport]
    exact h.nodup
  · rw [SimpleGraph.Walk.support_copy, SimpleGraph.Walk.support_ofSupport]

/-- The solver is the search from the source. -/
theorem solveMaze_eq (h : Ends maze source sink) (fuel : ℕ) :
    solveMaze fuel W H maze = (search (moves maze) sink fuel ∅ source).map fun r =>
      (.searched r.2.isSome, paint maze source sink r.1 (r.2.getD [])) := by
  have hstart : ¬(source.1.1 = -1 ∨ sink.1.1 = -1) := by
    have hsource := mem_grid.mp source.2
    have hsink := mem_grid.mp sink.2
    omega
  simp only [solveMaze, findEnds_eq h, if_neg hstart, reset_eq h]
  rw [dfsSolve_eq h.ne (Finset.mem_insert_self _ _) (Finset.notMem_empty _) (Finset.notMem_empty _)]
  rcases search (moves maze) sink fuel ∅ source with _ | ⟨seen, _ | path⟩
  · rfl
  · rfl
  · simp only [Option.map_some, render, Option.isSome_some, Option.getD_some]
    rw [setType_paint (by simp [mark]) fun _ _ => rfl]

theorem moves_paint (p : grid W H) : moves (paint maze source sink seen path) p = moves maze p := by
  have hstep : ∀ d, step (paint maze source sink seen path) p d = step maze p d := by
    intro d
    unfold step
    simp only [canMoveTo_paint p.1 (_, _)]
  simp only [moves, hstep]

theorem paint_paint (seen' : Finset (grid W H)) (path' : List (grid W H)) :
    paint (paint maze source sink seen path) source sink seen' path' =
      paint maze source sink seen' path' := by
  funext q
  by_cases hq : q ∈ grid W H <;> simp [paint, hq]

/-- **The solver is sound, complete and repeatable.** -/
theorem solveMaze_correct (h : Ends maze source sink) {fuel : ℕ} (hfuel : W * H ≤ fuel) :
    ∃ found maze', solveMaze fuel W H maze = some (.searched found, maze') ∧
      (found = true ↔ (passages W H maze).Reachable source sink) ∧
      (found = true → ∃ walk : (passages W H maze).Walk source sink, walk.IsPath ∧
        ∀ q : grid W H, (maze' q).type = .path ↔ q ∈ walk.support ∧ q ≠ source ∧ q ≠ sink) ∧
      Ends maze' source sink ∧ (∀ w, stands maze' w = stands maze w) ∧
      (∀ q ∉ grid W H, maze' q = maze q) ∧
      solveMaze fuel W H maze' = some (.searched found, maze') := by
  have hcard : (∅ : Finset (grid W H))ᶜ.card ≤ fuel := by
    rw [Finset.compl_empty, Finset.card_univ, Fintype.card_coe, card_grid]
    exact hfuel
  obtain ⟨⟨seen, found⟩, hrun⟩ := Option.isSome_iff_exists.mp
    (search_isSome (moves maze) (Finset.notMem_empty sink) (Finset.notMem_empty source) hcard)
  have hout := search_outcome (Finset.notMem_empty _) (Finset.notMem_empty _) hrun
  have hends : Ends (paint maze source sink seen (found.getD [])) source sink := ends_paint h.ne
  refine ⟨found.isSome, paint maze source sink seen (found.getD []), ?_, ?_, ?_, hends,
    stands_paint, fun q hq => dif_neg hq, ?_⟩
  · rw [solveMaze_eq h, hrun]
    rfl
  · rw [hout.isSome_iff, SimpleGraph.reachable_iff_reflTransGen]
    simp only [mem_moves_iff]
  · intro hfound
    obtain ⟨p, rfl⟩ := Option.isSome_iff_exists.mp hfound
    obtain ⟨walk, hwalk, hsupport⟩ := walk_of_freshPath (hout.finds p rfl)
    refine ⟨walk, hwalk, fun q => ?_⟩
    rw [paint_type, hsupport, Option.getD_some, mark_eq_path_iff]
  · -- the second search starts from the same painting and sees the same walls
    have hmoves : moves (W := W) (H := H) (paint maze source sink seen (found.getD [])) =
        moves maze := funext moves_paint
    rw [solveMaze_eq hends, hmoves, hrun]
    simp only [Option.map_some, paint_paint]

/-- An array of the source's size without walls. -/
theorem solveMaze_correct_open :
    let maze : Cells := fun p => ⟨if p = (0, 0) then .source else if p = (38, 9) then .sink
      else .corridor, false, false⟩
    ∃ found maze', solveMaze 390 39 10 maze = some (.searched found, maze') ∧
      solveMaze 390 39 10 maze' = some (.searched found, maze') := by
  intro maze
  have hends : Ends maze (⟨(0, 0), mem_grid.mpr (by decide)⟩ : grid 39 10)
      ⟨(38, 9), mem_grid.mpr (by decide)⟩ := by
    refine ⟨fun q => ?_, fun q => ?_, fun q hq hq' => ?_⟩
    iterate 2
      · rw [Subtype.ext_iff]
        simp only [maze]
        split_ifs <;> simp_all
    · left
      simp only [maze]
      rw [if_neg fun heq => hq (Subtype.ext heq), if_neg fun heq => hq' (Subtype.ext heq)]
  obtain ⟨found, maze', hrun, -, -, -, -, -, hagain⟩ :=
    solveMaze_correct hends (by decide : 39 * 10 ≤ 390)
  exact ⟨found, maze', hrun, hagain⟩

end HorizonOS.I386.Maze
