import Mathlib

/-!
# Depth-first search

A search that enters a vertex, tries its successors in order, enters those it has not seen and
returns the first path to the goal that it meets. It remembers the vertices it has seen across
failed attempts, so it finds one path if there is any, but enters every vertex at most once.

* `search_outcome`: what holds of every result, by induction on the depth.
* `Outcome.isSome_iff`: started with nothing seen it finds a path exactly if there is one.
* `search_isSome`: on finitely many vertices it returns.
-/

namespace HorizonOS.Lib

variable {V : Type*} [DecidableEq V]

/-- The vertices seen, and the path found. -/
abbrev Found (V : Type*) := Finset V × Option (List V)

/-- Tries vertices in order; `visit` searches from one of them. -/
def tryEach (visit : Finset V → V → Option (Found V)) : List V → Finset V → Option (Found V)
  | [], seen => some (seen, none)
  | u :: us, seen =>
    if u ∈ seen then tryEach visit us seen
    else
      match visit seen u with
      | none => none
      | some (seen', some path) => some (seen', some path)
      | some (seen', none) => tryEach visit us seen'

/-- The search from `v`, at most `fuel` vertices deep. -/
def search (next : V → List V) (goal : V) : (fuel : ℕ) → Finset V → V → Option (Found V)
  | 0, _, _ => none
  | fuel + 1, seen, v =>
    if v = goal then some (insert v seen, some [v])
    else (tryEach (search next goal fuel) (next v) (insert v seen)).map fun r =>
      (r.1, r.2.map (v :: ·))

variable {next : V → List V} {goal : V}

/-- The path leads from `v` to the goal through vertices that had not been seen. -/
structure FreshPath (next : V → List V) (goal : V) (seen : Finset V) (v : V) (path : List V) :
    Prop where
  head : path.head? = some v
  last : path.getLast? = some goal
  chain : path.IsChain fun a b => b ∈ next a
  nodup : path.Nodup
  fresh : ∀ a ∈ path, a ∉ seen

/-- Every vertex of `seen'` that is new has its successors there too. -/
def Closed (next : V → List V) (seen seen' : Finset V) : Prop :=
  ∀ a ∈ seen', a ∉ seen → ∀ b ∈ next a, b ∈ seen'

/-- What holds of a search from `v`. -/
structure Outcome (next : V → List V) (goal : V) (seen : Finset V) (v : V) (r : Found V) :
    Prop where
  grows : insert v seen ⊆ r.1
  fails : r.2 = none → goal ∉ r.1 ∧ Closed next seen r.1
  finds : ∀ path ∈ r.2, FreshPath next goal seen v path

/-- What holds of trying the vertices `us`. -/
structure Tried (next : V → List V) (goal : V) (seen : Finset V) (us : List V) (r : Found V) :
    Prop where
  grows : seen ⊆ r.1
  fails : r.2 = none → goal ∉ r.1 ∧ (∀ u ∈ us, u ∈ r.1) ∧ Closed next seen r.1
  finds : ∀ path ∈ r.2, ∃ u ∈ us, FreshPath next goal seen u path

omit [DecidableEq V] in
theorem FreshPath.mono {seen seen' : Finset V} {v : V} {path : List V} (hsub : seen ⊆ seen')
    (h : FreshPath next goal seen' v path) : FreshPath next goal seen v path :=
  { h with fresh := fun a ha hseen => h.fresh a ha (hsub hseen) }

theorem FreshPath.cons {seen : Finset V} {v u : V} {path : List V} (hv : v ∉ seen) (hu : u ∈ next v)
    (h : FreshPath next goal (insert v seen) u path) : FreshPath next goal seen v (v :: path) := by
  obtain ⟨a, rest, rfl⟩ : ∃ a rest, path = a :: rest := by
    cases path with
    | nil => exact absurd h.head (by simp)
    | cons a rest => exact ⟨a, rest, rfl⟩
  obtain rfl : a = u := by simpa using h.head
  have hfresh : ∀ b ∈ a :: rest, b ≠ v ∧ b ∉ seen := fun b hb => by
    simpa [not_or] using h.fresh b hb
  refine ⟨rfl, ?_, List.isChain_cons_cons.mpr ⟨hu, h.chain⟩, ?_, ?_⟩
  · rw [List.getLast?_cons_cons]
    exact h.last
  · exact List.nodup_cons.mpr ⟨fun hmem => (hfresh v hmem).1 rfl, h.nodup⟩
  · intro b hb
    rcases List.mem_cons.mp hb with rfl | hb
    · exact hv
    · exact (hfresh b hb).2

theorem Closed.trans {s t u : Finset V} (hst : Closed next s t) (htu : t ⊆ u)
    (h : Closed next t u) : Closed next s u := by
  intro a ha has b hb
  by_cases hat : a ∈ t
  · exact htu (hst a hat has b hb)
  · exact h a ha hat b hb

theorem tryEach_tried {visit : Finset V → V → Option (Found V)}
    (hvisit : ∀ seen u r, goal ∉ seen → u ∉ seen → visit seen u = some r →
      Outcome next goal seen u r)
    {us : List V} {seen : Finset V} {r : Found V} (hgoal : goal ∉ seen)
    (h : tryEach visit us seen = some r) : Tried next goal seen us r := by
  induction us generalizing seen with
  | nil =>
    obtain rfl : (seen, none) = r := by simpa [tryEach] using h
    exact ⟨le_rfl, fun _ => ⟨hgoal, by simp, fun a ha hna => absurd ha hna⟩, by simp⟩
  | cons u us ih =>
    rw [tryEach] at h
    split_ifs at h with hu
    · have htried := ih hgoal h
      refine ⟨htried.grows, fun hr => ?_, fun path hpath => ?_⟩
      · obtain ⟨hg, hus, hclosed⟩ := htried.fails hr
        exact ⟨hg, List.forall_mem_cons.mpr ⟨htried.grows hu, hus⟩, hclosed⟩
      · obtain ⟨w, hw, hfresh⟩ := htried.finds path hpath
        exact ⟨w, List.mem_cons_of_mem u hw, hfresh⟩
    · rcases hrun : visit seen u with _ | ⟨seen', _ | path⟩
      · simp [hrun] at h
      · -- nothing behind `u`: go on with what it has seen
        have hout := hvisit seen u _ hgoal hu hrun
        obtain ⟨hg, hclosed⟩ := hout.fails rfl
        have hsub : seen ⊆ seen' := fun a ha => hout.grows (Finset.mem_insert_of_mem ha)
        simp only [hrun] at h
        have htried := ih hg h
        refine ⟨hsub.trans htried.grows, fun hr => ?_, fun path hpath => ?_⟩
        · obtain ⟨hg', hus, hclosed'⟩ := htried.fails hr
          refine ⟨hg', List.forall_mem_cons.mpr ⟨?_, hus⟩, hclosed.trans htried.grows hclosed'⟩
          exact htried.grows (hout.grows (Finset.mem_insert_self u seen))
        · obtain ⟨w, hw, hfresh⟩ := htried.finds path hpath
          exact ⟨w, List.mem_cons_of_mem u hw, hfresh.mono hsub⟩
      · have hout := hvisit seen u _ hgoal hu hrun
        obtain rfl : (seen', some path) = r := by simpa [hrun] using h
        refine ⟨fun a ha => hout.grows (Finset.mem_insert_of_mem ha), by simp, fun p hp => ?_⟩
        exact ⟨u, List.mem_cons_self, hout.finds p hp⟩

theorem search_outcome {fuel : ℕ} {seen : Finset V} {v : V} {r : Found V} (hgoal : goal ∉ seen)
    (hv : v ∉ seen) (h : search next goal fuel seen v = some r) : Outcome next goal seen v r := by
  induction fuel generalizing seen v r with
  | zero => simp [search] at h
  | succ fuel ih =>
    rw [search] at h
    split_ifs at h with heq
    · obtain rfl : (insert v seen, some [v]) = r := by simpa using h
      refine ⟨le_rfl, by simp, fun path hpath => ?_⟩
      obtain rfl : [v] = path := by simpa using hpath
      exact ⟨rfl, by simp [heq], by simp, by simp, by simpa using hv⟩
    · obtain ⟨⟨seen', found⟩, htry, rfl⟩ := Option.map_eq_some_iff.mp h
      have hgoal' : goal ∉ insert v seen := by
        rw [Finset.mem_insert, not_or]
        exact ⟨Ne.symm heq, hgoal⟩
      have htried := tryEach_tried (fun s u r hs hu hr => ih hs hu hr) hgoal' htry
      refine ⟨htried.grows, fun hr => ?_, fun path hpath => ?_⟩
      · obtain ⟨hg, hus, hclosed⟩ := htried.fails (by simpa using hr)
        refine ⟨hg, fun a ha hna b hb => ?_⟩
        by_cases hav : a = v
        · subst hav
          exact hus b hb
        · exact hclosed a ha (by simp [hav, hna]) b hb
      · obtain ⟨p, hp, rfl⟩ := Option.mem_map.mp hpath
        obtain ⟨u, hu, hfresh⟩ := htried.finds p hp
        exact hfresh.cons hv hu

theorem Outcome.isSome_iff {v : V} {r : Found V} (h : Outcome next goal ∅ v r) :
    r.2.isSome ↔ Relation.ReflTransGen (fun a b => b ∈ next a) v goal := by
  constructor
  · intro hsome
    obtain ⟨path, hpath⟩ := Option.isSome_iff_exists.mp hsome
    have hfresh := h.finds path hpath
    obtain ⟨rest, rfl⟩ : ∃ rest, path = v :: rest := by
      cases path with
      | nil => exact absurd hfresh.head (by simp)
      | cons a rest => exact ⟨rest, by rw [Option.some.inj hfresh.head]⟩
    refine List.relationReflTransGen_of_exists_isChain_cons rest hfresh.chain ?_
    have hlast := hfresh.last
    rwa [List.getLast?_eq_some_getLast (List.cons_ne_nil v rest), Option.some_inj] at hlast
  · intro hreach
    by_contra hnone
    obtain ⟨hgoal, hclosed⟩ := h.fails (by simpa using hnone)
    -- what has been seen is closed under successors, and the start is among it
    have hall : ∀ a, Relation.ReflTransGen (fun a b => b ∈ next a) v a → a ∈ r.1 := by
      intro a ha
      induction ha with
      | refl => exact h.grows (Finset.mem_insert_self v ∅)
      | tail _ hstep ih => exact hclosed _ ih (Finset.notMem_empty _) _ hstep
    exact hgoal (hall goal hreach)

variable [Fintype V]

theorem tryEach_isSome {visit : Finset V → V → Option (Found V)} {n : ℕ}
    (hvisit : ∀ seen u r, goal ∉ seen → u ∉ seen → visit seen u = some r →
      Outcome next goal seen u r)
    (hsome : ∀ seen u, goal ∉ seen → u ∉ seen → seenᶜ.card ≤ n → (visit seen u).isSome)
    (us : List V) {seen : Finset V} (hgoal : goal ∉ seen) (hcard : seenᶜ.card ≤ n) :
    (tryEach visit us seen).isSome := by
  induction us generalizing seen with
  | nil => rfl
  | cons u us ih =>
    rw [tryEach]
    split_ifs with hu
    · exact ih hgoal hcard
    · obtain ⟨⟨seen', found⟩, hrun⟩ := Option.isSome_iff_exists.mp (hsome seen u hgoal hu hcard)
      rw [hrun]
      cases found with
      | some path => rfl
      | none =>
        have hout := hvisit seen u _ hgoal hu hrun
        have hsub : seen ⊆ seen' := fun a ha => hout.grows (Finset.mem_insert_of_mem ha)
        refine ih (hout.fails rfl).1 ((Finset.card_le_card ?_).trans hcard)
        exact Finset.compl_subset_compl.mpr hsub

/-- Every vertex that is entered is one less that can be. -/
theorem search_isSome (next : V → List V) {fuel : ℕ} {seen : Finset V} {v : V} (hgoal : goal ∉ seen)
    (hv : v ∉ seen) (hfuel : seenᶜ.card ≤ fuel) : (search next goal fuel seen v).isSome := by
  induction fuel generalizing seen v with
  | zero =>
    have hpos : 0 < seenᶜ.card := Finset.card_pos.mpr ⟨v, Finset.mem_compl.mpr hv⟩
    omega
  | succ fuel ih =>
    rw [search]
    split_ifs with heq
    · rfl
    · rw [Option.isSome_map]
      have hgoal' : goal ∉ insert v seen := by
        rw [Finset.mem_insert, not_or]
        exact ⟨Ne.symm heq, hgoal⟩
      have hlt : (insert v seen)ᶜ.card < seenᶜ.card :=
        Finset.card_lt_card (Finset.compl_ssubset_compl.mpr (Finset.ssubset_insert hv))
      exact tryEach_isSome (fun s u r hs hu hr => search_outcome hs hu hr)
        (fun s u hs hu hcard => ih hs hu hcard) (next v) hgoal' (by omega)

end HorizonOS.Lib
