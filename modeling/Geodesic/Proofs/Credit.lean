import Geodesic.Number
import Geodesic.Proofs.Dependency
import Geodesic.Proofs.Paths.BreadthFirst.Final
import Geodesic.Proofs.Paths.Weighted.Final

/-!
# Dependencies after either search

The recorded steps of a search are credited exactly, whatever the lengths of the edges are: zero,
infinite or even negative.
-/

namespace Geodesic.Dependency

open Paths (Recorded)

variable {D : Type}

/-- What handing back from the tables `p` of a search from `s` adds to a tally. Trails are the paths
along recorded steps; a trail passes a vertex other than its ends when one of its steps leaves it. -/
structure Credited {n m : Nat} (s : Fin n) (p : Paths D ℚ n m) (d d' : Dependency ℚ n m) : Prop where
  vertices : ∀ v : Fin n, p.reaches v = true → v ≠ s → d'.tally.vertices[v] = d.tally.vertices[v] +
    ∑ t : Fin n with p.reaches t = true ∧ t ≠ s ∧ t ≠ v,
      ((p.trailsBy s (fun a => a.2 = v) t).ncard : ℚ) / (p.trails s t).ncard
  edges : ∀ e : Fin m, d'.tally.edges[e] = d.tally.edges[e] +
    ∑ t : Fin n with p.reaches t = true ∧ t ≠ s,
      ((p.trailsBy s (fun a => a.1 = e) t).ncard : ℚ) / (p.trails s t).ncard
  source : d'.tally.vertices[s] = d.tally.vertices[s]
  unreached : ∀ v : Fin n, p.reaches v = false → d'.tally.vertices[v] = d.tally.vertices[v]
  unrecorded : ∀ e : Fin m, (∀ v : Fin n, ∀ a ∈ p.preds[v].toList, a.1 ≠ e) →
    d'.tally.edges[e] = d.tally.edges[e]
  delta : ∀ v : Fin n, d'.delta[v] = 0

theorem reaches_iff_visited {n m : Nat} {out : Fin n → List (Fin m × Fin n)} {s : Fin n}
    {p : Paths D ℚ n m} (h : Recorded out s p) (v : Fin n) :
    p.reaches v = true ↔ v ∈ p.order.toList := by
  unfold Paths.reaches
  rw [decide_eq_true_iff]
  constructor
  · intro hpos
    by_contra hv
    rw [h.sigma_of_not_visited hv] at hpos
    exact lt_irrefl 0 hpos
  · exact sigma_pos h

theorem distance?_eq {n m : Nat} {out : Fin n → List (Fin m × Fin n)} {s : Fin n}
    {p : Paths D ℚ n m} (h : Recorded out s p) (v : Fin n) :
    p.distance? v = if v ∈ p.order.toList then some p.dist[v] else none :=
  if_congr (reaches_iff_visited h v) rfl rfl

theorem sum_share_of_imp {n m : Nat} {p : Paths D ℚ n m} {s : Fin n} {hit : Fin m × Fin n → Prop}
    {P : Fin n → Prop} [DecidablePred P] (h : ∀ t : Fin n, ¬ P t → p.share s hit t = 0) :
    ∑ t : Fin n, p.share s hit t =
      ∑ t : Fin n with P t, ((p.trailsBy s hit t).ncard : ℚ) / (p.trails s t).ncard := by
  rw [Finset.sum_filter]
  refine Finset.sum_congr rfl fun t _ => ?_
  split
  · rfl
  · rename_i ht
    exact h t ht

section Recorded

variable {g : Graph} {s : g.Vertex} {p : Paths D ℚ g.vertexCount g.edgeCount}

theorem share_of_not_reached (h : Recorded g.outEdges s p) (hit : g.Step → Prop) {t : g.Vertex}
    (ht : ¬ (p.reaches t = true ∧ t ≠ s)) : p.share s hit t = 0 := by
  rw [reaches_iff_visited h] at ht
  by_cases hts : t = s
  · rw [hts]
    exact share_eq_zero h.trailsBy_source
  · exact share_of_not_visited h fun hvisited => ht ⟨hvisited, hts⟩

theorem credited_of_recorded (h : Recorded g.outEdges s p)
    {d : Dependency ℚ g.vertexCount g.edgeCount} (hzero : ∀ v : g.Vertex, d.delta[v] = 0) :
    Credited s p d (d.accumulate p) := by
  have hvertices := vertices_accumulate hzero h
  have hedges := edges_accumulate hzero h h.edge_unique
  constructor
  · intro v _ hvs
    rw [hvertices, if_neg hvs]
    refine congrArg (d.tally.vertices[v] + ·) (sum_share_of_imp fun t ht => ?_)
    by_cases htv : t = v
    · rw [htv]
      exact share_eq_zero (h.trailsBy_origin_eq_empty (Before.irrefl h.nodup))
    · exact share_of_not_reached h _ fun hreach => ht ⟨hreach.1, hreach.2, htv⟩
  · intro e
    rw [hedges]
    exact congrArg (d.tally.edges[e] + ·) (sum_share_of_imp fun t => share_of_not_reached h _)
  · rw [hvertices, if_pos rfl, add_zero]
  · intro v hv
    have hnone : ∑ t : g.Vertex, p.share s (fun a => a.2 = v) t = 0 := by
      refine Finset.sum_eq_zero fun t _ => share_eq_zero (h.trailsBy_origin_eq_empty ?_)
      intro hbefore
      rw [← Bool.not_eq_true, reaches_iff_visited h] at hv
      exact hv hbefore.left_mem
    rw [hvertices, hnone, ite_self, add_zero]
  · intro e he
    have hnone : ∑ t : g.Vertex, p.share s (fun a => a.1 = e) t = 0 := by
      refine Finset.sum_eq_zero fun t _ => share_eq_zero ?_
      rw [Set.eq_empty_iff_forall_notMem]
      rintro l ⟨hl, a, ha, hedge⟩
      obtain ⟨v, hv, _⟩ := h.recorded_of_trail hl ha
      exact he v a hv hedge
    rw [hedges, hnone, add_zero]
  · exact delta_accumulate hzero h.toSearched

end Recorded

/-- After either search, on any tables that earlier searches left, handing back is exact. -/
theorem credited_accumulate [Distance D] (g : Graph) (s : g.Vertex)
    (d : Dependency ℚ g.vertexCount g.edgeCount) (hzero : ∀ v : g.Vertex, d.delta[v] = 0) :
    (∀ p : Paths Hops ℚ g.vertexCount g.edgeCount, p.Tidy →
      Credited s (p.breadthFirst g.outEdges s) d (d.accumulate (p.breadthFirst g.outEdges s))) ∧
    (∀ (weights : Table D g.edgeCount) (p : Paths D ℚ g.vertexCount g.edgeCount), p.Tidy →
      Credited s (p.weighted g.outEdges weights s) d
        (d.accumulate (p.weighted g.outEdges weights s))) := by
  constructor
  · intro p hp
    exact credited_of_recorded (Paths.recorded_breadthFirst hp g.nodup_outEdges s) hzero
  · intro weights p hp
    exact credited_of_recorded (Paths.recorded_weighted hp g.nodup_outEdges s) hzero

attribute [local instance] neZero_four

/-- Two ways from `0` to `3`, both of length zero by weight. -/
abbrev flatDiamond : Graph where
  directed := true
  vertexCount := 4
  edges := #[⟨0, 1⟩, ⟨0, 2⟩, ⟨1, 3⟩, ⟨2, 3⟩]

theorem credited_flatDiamond :
    (∀ v : Fin 4, (fresh ℚ 4 4).delta[v] = 0) ∧
      (Paths.fresh Hops ℚ 4 4).Tidy ∧ (Paths.fresh Float ℚ 4 4).Tidy ∧
      Credited 0 ((Paths.fresh Hops ℚ 4 4).breadthFirst flatDiamond.outEdges 0) (fresh ℚ 4 4)
        ((fresh ℚ 4 4).accumulate ((Paths.fresh Hops ℚ 4 4).breadthFirst flatDiamond.outEdges 0)) ∧
      Credited 0 ((Paths.fresh Float ℚ 4 4).weighted flatDiamond.outEdges (Table.replicate 4 0.0) 0)
        (fresh ℚ 4 4)
        ((fresh ℚ 4 4).accumulate ((Paths.fresh Float ℚ 4 4).weighted flatDiamond.outEdges
          (Table.replicate 4 0.0) 0)) := by
  have hzero : ∀ v : Fin 4, (fresh ℚ 4 4).delta[v] = 0 := Table.getElem_replicate 0
  obtain ⟨hhops, hweighted⟩ := credited_accumulate (D := Float) flatDiamond (0 : Fin 4)
    (fresh ℚ 4 4) hzero
  exact ⟨hzero, Paths.tidy_fresh, Paths.tidy_fresh, hhops _ Paths.tidy_fresh,
    hweighted _ _ Paths.tidy_fresh⟩

end Geodesic.Dependency
