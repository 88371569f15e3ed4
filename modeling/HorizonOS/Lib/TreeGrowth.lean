import Mathlib

/-!
# Growing a tree

A graph that is a tree on a set of its vertices and has no edge elsewhere. Joining one further
vertex to the set by a single edge keeps this, so an algorithm that starts from one vertex and
only ever does that ends with a tree.

* `TreeOn.singleton`, `TreeOn.grow`: the first vertex and each further one.
* `TreeOn.isTree`: once the set is everything, the graph is a tree.
-/

namespace HorizonOS.Lib

open SimpleGraph

variable {V : Type*}

/-- `G` is a tree on the vertices `S` and has no edge outside them. -/
structure TreeOn (G : SimpleGraph V) (S : Set V) : Prop where
  nonempty : S.Nonempty
  within : ∀ {u v}, G.Adj u v → u ∈ S
  connected : ∀ {u v}, u ∈ S → v ∈ S → G.Reachable u v
  acyclic : G.IsAcyclic

namespace TreeOn

variable {G : SimpleGraph V} {S : Set V} {u v : V}

theorem singleton (r : V) : TreeOn ⊥ {r} where
  nonempty := Set.singleton_nonempty r
  within h := absurd h (by simp)
  connected := by
    intro u v hu hv
    rw [Set.mem_singleton_iff.mp hu, Set.mem_singleton_iff.mp hv]
  acyclic := isAcyclic_bot

/-- A vertex outside the set has no edges, so nothing else can be reached from it. -/
theorem eq_of_reachable (h : TreeOn G S) (hv : v ∉ S) (hr : G.Reachable v u) : u = v := by
  obtain ⟨w⟩ := hr
  cases w with
  | nil => rfl
  | cons hadj _ => exact absurd (h.within hadj) hv

theorem not_reachable (h : TreeOn G S) (hu : u ∈ S) (hv : v ∉ S) : ¬G.Reachable u v := by
  intro hr
  have huv := h.eq_of_reachable hv hr.symm
  exact hv (huv ▸ hu)

/-- One more vertex, joined by one edge. -/
theorem grow (h : TreeOn G S) (hu : u ∈ S) (hv : v ∉ S) :
    TreeOn (G ⊔ edge u v) (insert v S) where
  nonempty := Set.insert_nonempty v S
  within := by
    intro a b hab
    rw [sup_adj, edge_adj] at hab
    rcases hab with hab | ⟨⟨rfl, -⟩ | ⟨rfl, -⟩, -⟩
    · exact Set.mem_insert_of_mem v (h.within hab)
    · exact Set.mem_insert_of_mem v hu
    · exact Set.mem_insert a S
  connected := by
    have hne : u ≠ v := fun huv => hv (huv ▸ hu)
    have hedge : (G ⊔ edge u v).Adj u v := by
      rw [sup_adj, edge_adj]
      exact Or.inr ⟨Or.inl ⟨rfl, rfl⟩, hne⟩
    -- every vertex is reached from `u`: the old ones as before, the new one by its edge
    have hfrom : ∀ a ∈ insert v S, (G ⊔ edge u v).Reachable u a := by
      intro a ha
      rcases Set.mem_insert_iff.mp ha with rfl | ha
      · exact hedge.reachable
      · exact (h.connected hu ha).mono le_sup_left
    intro a b ha hb
    exact (hfrom a ha).symm.trans (hfrom b hb)
  acyclic := h.acyclic.sup_edge_of_not_reachable (h.not_reachable hu hv)

theorem isTree (h : TreeOn G S) (hS : ∀ v, v ∈ S) : G.IsTree := by
  obtain ⟨r, -⟩ := h.nonempty
  have hconn : G.Connected :=
    { preconnected := fun u v => h.connected (hS u) (hS v), nonempty := ⟨r⟩ }
  exact ⟨hconn, h.acyclic⟩

end TreeOn

end HorizonOS.Lib
