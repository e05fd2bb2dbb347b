import Geodesic.Proofs.Paths.Renamed
import Geodesic.Proofs.Paths.Reuse
import Geodesic.Schedule

/-!
# Tallies are sums over the sources

A source adds the same amounts to a tally wherever it stands in a schedule: its tables do not depend
on the sources before it, and dependencies are cleared in between.
-/

namespace Geodesic

open Paths (Counted Recorded Renamed)

/-! ## One source after another -/

section Steady

variable {D S : Type} [Distance D] [Zero S] [One S] [Add S] {g : Graph}

/-- A search that leaves the same on all tidy tables, and leaves them tidy. -/
structure Steady (g : Graph)
    (search : g.Vertex → Paths D S g.vertexCount g.edgeCount →
      Paths D S g.vertexCount g.edgeCount) : Prop where
  tidy : ∀ (s : g.Vertex) (p : Paths D S g.vertexCount g.edgeCount), p.Tidy → (search s p).Tidy
  eq_fresh : ∀ (s : g.Vertex) (p : Paths D S g.vertexCount g.edgeCount), p.Tidy →
    search s p = search s (Paths.fresh D S _ _)
  counted : ∀ s : g.Vertex, Counted g.outEdges s (search s (Paths.fresh D S _ _))

theorem steady_breadthFirst (g : Graph) :
    Steady g fun s (p : Paths Hops S g.vertexCount g.edgeCount) =>
      p.breadthFirst g.outEdges s where
  tidy s _ hp := Paths.tidy_breadthFirst hp g.nodup_outEdges s
  eq_fresh s _ hp := hp.breadthFirst_eq g.outEdges s
  counted s := Paths.counted_breadthFirst Paths.tidy_fresh g.nodup_outEdges s

theorem steady_weighted (weights : Table D g.edgeCount) :
    Steady g fun s (p : Paths D S g.vertexCount g.edgeCount) =>
      p.weighted g.outEdges weights s where
  tidy s _ hp := Paths.tidy_weighted hp g.nodup_outEdges s
  eq_fresh s _ hp := hp.weighted_eq g.outEdges weights s
  counted s := Paths.counted_weighted Paths.tidy_fresh g.nodup_outEdges s

theorem Steady.size_order_le {search : g.Vertex → Paths D S g.vertexCount g.edgeCount →
    Paths D S g.vertexCount g.edgeCount} (h : Steady g search) (s : g.Vertex) :
    (search s (Paths.fresh D S _ _)).order.size ≤ g.vertexCount := by
  have hle := (h.counted s).nodup.length_le_card
  rwa [Fintype.card_fin] at hle

/-- Tidy tables, and no dependency left over. -/
structure Worker.Ready {n m : Nat} (w : Worker D S n m) : Prop where
  tidy : w.paths.Tidy
  cleared : ∀ v : Fin n, w.dependency.delta[v] = 0

omit [One S] [Add S] in
theorem Worker.ready_fresh {n m : Nat} : (Worker.fresh D S n m).Ready :=
  ⟨Paths.tidy_fresh, Table.getElem_replicate 0⟩

variable [Mul S] [Div S] [LE S] [DecidableLE S]
  {search : g.Vertex → Paths D S g.vertexCount g.edgeCount → Paths D S g.vertexCount g.edgeCount}
  {Q : List g.Vertex → Tally S g.vertexCount g.edgeCount → Prop}
  {w : Worker D S g.vertexCount g.edgeCount}

/-- Whatever came before, a worker searches as on fresh tables. -/
theorem Steady.take_eq (h : Steady g search) (hw : w.Ready) (s : g.Vertex) :
    w.take search s = ⟨search s (Paths.fresh D S _ _),
      w.dependency.accumulate (search s (Paths.fresh D S _ _))⟩ := by
  unfold Worker.take
  rw [h.eq_fresh s w.paths hw.tidy]

theorem Steady.ready_take (h : Steady g search) (hw : w.Ready) (s : g.Vertex) :
    (w.take search s).Ready := by
  rw [h.take_eq hw]
  exact ⟨h.tidy s _ Paths.tidy_fresh,
    Dependency.delta_accumulate hw.cleared (h.counted s).toSearched⟩

theorem Steady.batch (h : Steady g search) (hzero : Q [] (Tally.zero _ _))
    (htake : ∀ (ss : List g.Vertex) (s : g.Vertex) (d : Dependency S g.vertexCount g.edgeCount),
      (∀ v : g.Vertex, d.delta[v] = 0) → Q ss d.tally →
        Q (ss ++ [s]) (d.accumulate (search s (Paths.fresh D S _ _))).tally)
    (ss : List g.Vertex) :
    let w := ss.foldl (Worker.take search) (Worker.fresh D S _ _)
    w.Ready ∧ Q ss w.dependency.tally := by
  induction ss using List.reverseRecOn with
  | nil => exact ⟨Worker.ready_fresh, hzero⟩
  | append_singleton ss s ih =>
      obtain ⟨hready, hQ⟩ := ih
      rw [List.foldl_append, List.foldl_cons, List.foldl_nil]
      generalize ss.foldl (Worker.take search) (Worker.fresh D S _ _) = w at *
      refine ⟨h.ready_take hready s, ?_⟩
      rw [h.take_eq hready]
      exact htake ss s w.dependency hready.cleared hQ

/-- What holds of the empty tally and what neither a source nor a merge breaks holds of every
tally. -/
theorem Steady.tally_induction (h : Steady g search) (hzero : Q [] (Tally.zero _ _))
    (htake : ∀ (ss : List g.Vertex) (s : g.Vertex) (d : Dependency S g.vertexCount g.edgeCount),
      (∀ v : g.Vertex, d.delta[v] = 0) → Q ss d.tally →
        Q (ss ++ [s]) (d.accumulate (search s (Paths.fresh D S _ _))).tally)
    (hmerge : ∀ (ss ts : List g.Vertex) (a b : Tally S g.vertexCount g.edgeCount),
      Q ss a → Q ts b → Q (ss ++ ts) (a.merge b))
    (plan : Schedule g.vertexCount) : Q plan.sources (plan.tally search) := by
  induction plan with
  | idle => exact hzero
  | batch ss => exact (h.batch hzero htake ss).2
  | join l r ihl ihr => exact hmerge _ _ _ _ ihl ihr

end Steady

/-! ## Exact amounts -/

variable {D : Type} [Distance D] {g : Graph}

/-- An entry of a tally, with the amount that each source adds to it. -/
structure Additive (search : g.Vertex → Paths D ℚ g.vertexCount g.edgeCount →
      Paths D ℚ g.vertexCount g.edgeCount)
    (x : Tally ℚ g.vertexCount g.edgeCount → ℚ) (amount : g.Vertex → ℚ) : Prop where
  zero : x (Tally.zero _ _) = 0
  merge : ∀ a b : Tally ℚ g.vertexCount g.edgeCount, x (a.merge b) = x a + x b
  accumulate : ∀ (s : g.Vertex) (d : Dependency ℚ g.vertexCount g.edgeCount),
    (∀ v : g.Vertex, d.delta[v] = 0) →
      x (d.accumulate (search s (Paths.fresh D ℚ _ _))).tally = x d.tally + amount s

variable {search : g.Vertex → Paths D ℚ g.vertexCount g.edgeCount →
  Paths D ℚ g.vertexCount g.edgeCount}

theorem Steady.recorded (h : Steady g search) (s : g.Vertex) :
    Recorded g.outEdges s (search s (Paths.fresh D ℚ _ _)) :=
  (h.counted s).recorded

theorem Steady.tally_eq {x : Tally ℚ g.vertexCount g.edgeCount → ℚ} {amount : g.Vertex → ℚ}
    (h : Steady g search) (hx : Additive search x amount) (plan : Schedule g.vertexCount) :
    x (plan.tally search) = (plan.sources.map amount).sum := by
  refine h.tally_induction (Q := fun ss t => x t = (ss.map amount).sum) hx.zero ?_ ?_ plan
  · intro ss s d hcleared hsum
    rw [hx.accumulate s d hcleared, hsum, List.map_append, List.sum_append, List.map_singleton,
      List.sum_singleton]
  · intro ss ts a b ha hb
    rw [hx.merge, ha, hb, List.map_append, List.sum_append]

/-! ## Every source once -/

theorem Steady.additive_vertices (h : Steady g search) (v : g.Vertex) :
    Additive search (fun t => t.vertices[v]) fun s => if v = s then 0 else
      ∑ t : g.Vertex, (search s (Paths.fresh D ℚ _ _)).share s (fun a => a.2 = v) t where
  zero := Tally.vertices_zero v
  merge a b := Tally.vertices_merge a b v
  accumulate s _ hzero := Dependency.vertices_accumulate hzero (h.recorded s) v

theorem Steady.additive_edges (h : Steady g search) (e : g.EdgeId) :
    Additive search (fun t => t.edges[e]) fun s =>
      ∑ t : g.Vertex, (search s (Paths.fresh D ℚ _ _)).share s (fun a => a.1 = e) t where
  zero := Tally.edges_zero e
  merge a b := Tally.edges_merge a b e
  accumulate s _ hzero :=
    Dependency.edges_accumulate hzero (h.recorded s) (h.recorded s).edge_unique e

variable {plan : Schedule g.vertexCount}

theorem Steady.vertices_tally (h : Steady g search) (hplan : plan.Complete) (v : g.Vertex) :
    (plan.tally search).vertices[v] = ∑ s : g.Vertex, if v = s then 0 else
      ∑ t : g.Vertex, (search s (Paths.fresh D ℚ _ _)).share s (fun a => a.2 = v) t := by
  rw [h.tally_eq (h.additive_vertices v), hplan, Fin.sum_univ_def]

theorem Steady.edges_tally (h : Steady g search) (hplan : plan.Complete) (e : g.EdgeId) :
    (plan.tally search).edges[e] = ∑ s : g.Vertex, ∑ t : g.Vertex,
      (search s (Paths.fresh D ℚ _ _)).share s (fun a => a.1 = e) t := by
  rw [h.tally_eq (h.additive_edges e), hplan, Fin.sum_univ_def]

section Renamed

variable {D' : Type} [Distance D'] {h : Graph} {plan' : Schedule h.vertexCount}
  {search' : h.Vertex → Paths D' ℚ h.vertexCount h.edgeCount →
    Paths D' ℚ h.vertexCount h.edgeCount}
  (hsearch : Steady g search) (hsearch' : Steady h search') (vertex : g.Vertex ≃ h.Vertex)
  {step : g.Step → h.Step} (hplan : plan.Complete) (hplan' : plan'.Complete)
  (hrenamed : ∀ s : g.Vertex, Renamed vertex step (search s (Paths.fresh D ℚ _ _))
    (search' (vertex s) (Paths.fresh D' ℚ _ _)))

include hsearch hsearch' hplan hplan' hrenamed

/-- Where the same steps are recorded under other names, vertices are credited the same. -/
theorem Steady.vertices_tally_renamed (v : g.Vertex) :
    (plan'.tally search').vertices[vertex v] = (plan.tally search).vertices[v] := by
  rw [hsearch'.vertices_tally hplan', hsearch.vertices_tally hplan, ← vertex.sum_comp]
  apply Finset.sum_congr rfl
  intro s _
  apply if_congr vertex.injective.eq_iff rfl
  rw [← vertex.sum_comp]
  apply Finset.sum_congr rfl
  intro t _
  apply (hrenamed s).share_eq
  intro a
  rw [(hrenamed s).origin, vertex.injective.eq_iff]

theorem Steady.edges_tally_renamed {e : g.EdgeId} {e' : h.EdgeId}
    (hedge : ∀ a : g.Step, (step a).1 = e' ↔ a.1 = e) :
    (plan'.tally search').edges[e'] = (plan.tally search).edges[e] := by
  rw [hsearch'.edges_tally hplan', hsearch.edges_tally hplan, ← vertex.sum_comp]
  apply Finset.sum_congr rfl
  intro s _
  rw [← vertex.sum_comp]
  apply Finset.sum_congr rfl
  intro t _
  exact (hrenamed s).share_eq hedge s t

end Renamed

end Geodesic
