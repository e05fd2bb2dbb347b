import Geodesic.Proofs.Betweenness
import Geodesic.Proofs.Paths.BreadthFirst.Shortest

/-!
# Edges of one length

Where all edges are of the same positive length, a search by total weight agrees with a breadth-first
search: both are exact, and there is only one exact answer. Only the order of what they record may
differ, so the scores are the same.
-/

namespace Geodesic

open Paths (Exact)
open Schedule (complete_sequential)

/-! ## One source -/

namespace Paths

/-- The first tables hold what the second do, with every hop of the length `c`. -/
structure Scaled {n m : Nat} (c : ℚ) (p : Paths Length ℚ n m) (q : Paths Hops ℚ n m) : Prop where
  distance : ∀ v : Fin n, p.distance? v = (q.distance? v).map (Hops.times c)
  sigma : ∀ v : Fin n, p.sigma[v] = q.sigma[v]
  preds : ∀ v : Fin n, p.preds[v].toList.Perm q.preds[v].toList

section Search

variable {g : Graph} {lengths : Table Length g.edgeCount} {c : ℚ}
  (hconst : ∀ e : g.EdgeId, lengths[e] = c) (hc : 0 < c)

include hconst hc

theorem pos_of_const (e : g.EdgeId) : 0 < lengths[e] := by
  rw [hconst]
  exact_mod_cast hc

theorem scaled_weighted {p : Paths Length ℚ g.vertexCount g.edgeCount} (hp : p.Tidy)
    {q : Paths Hops ℚ g.vertexCount g.edgeCount} (hq : q.Tidy) (s : g.Vertex) :
    Scaled c (p.weighted g.outEdges lengths s) (q.breadthFirst g.outEdges s) := by
  have hweighted := exact_weighted (pos_of_const hconst hc) hp s
  have hbreadth := exact_breadthFirst_of_const hc hconst hq s
  have hdist : ∀ v : g.Vertex, (p.weighted g.outEdges lengths s).dist[v] =
      (q.breadthFirst g.outEdges s).levelTimes c v :=
    congrFun (hweighted.dist_unique hbreadth.toMeasured)
  obtain ⟨u, hswept⟩ := exists_swept hq g.nodup_outEdges s
  have hrecorded := hbreadth.recorded
  constructor
  · intro v
    have hv : v ∈ (p.weighted g.outEdges lengths s).order.toList ↔
        v ∈ (q.breadthFirst g.outEdges s).order.toList := by
      rw [hweighted.visited_iff, hbreadth.visited_iff, hdist]
    rw [Dependency.distance?_eq hweighted.recorded, map_distance?_of_swept hrecorded hswept]
    exact if_congr hv (congrArg some (hdist v)) rfl
  · exact hweighted.sigma_unique hbreadth
  · exact hweighted.preds_perm hbreadth

end Search

end Paths

/-! ## The whole computation -/

section Computation

variable {F R : Type} [Distance F] [Precision F Length] [Zero R] [Add R] [Mul R] [Precision R ℚ]
  {g : Graph} {lengths : Table Length g.edgeCount} {c : ℚ}

omit [Zero R] [Add R] [Mul R] [Precision R ℚ] in
theorem totals_of_const (hconst : ∀ e : g.EdgeId, lengths[e] = c) (hc : 0 < c)
    {plan plan' : Schedule g.vertexCount} (hplan : plan.Complete) (hplan' : plan'.Complete)
    (xs : Array ℚ) (slots : Slots R ℚ) :
    totals (F := F) g plan (some lengths) (.double xs : Slots R ℚ) =
      totals (F := F) g plan' (none : Option (Table Length g.edgeCount)) slots := by
  have hweighted : ∀ s : g.Vertex, ∃ dist, Exact lengths s dist
      ((Paths.fresh Length ℚ _ _).weighted g.outEdges lengths s) :=
    fun s => ⟨_, Paths.exact_weighted (Paths.pos_of_const hconst hc) Paths.tidy_fresh s⟩
  have hbreadth : ∀ s : g.Vertex, ∃ dist, Exact lengths s dist
      ((Paths.fresh Hops ℚ _ _).breadthFirst g.outEdges s) :=
    fun s => ⟨_, Paths.exact_breadthFirst_of_const hc hconst Paths.tidy_fresh s⟩
  rw [totals_some, totals_none]
  -- Both are the scores by pairs of ends.
  apply Tally.eq_of_entries
  · intro v
    rw [vertices_countedOnce (steady_weighted lengths) hplan hweighted,
      vertices_countedOnce (steady_breadthFirst g) hplan' hbreadth]
  · intro e
    rw [edges_countedOnce (steady_weighted lengths) hplan hweighted,
      edges_countedOnce (steady_breadthFirst g) hplan' hbreadth]

omit [Zero R] [Add R] [Mul R] [Precision R ℚ] in
/-- Without weights too the totals come from searches along the lengths. -/
theorem totals_of_hasLengths {plan : Schedule g.vertexCount} (hplan : plan.Complete)
    {weight : Option (EdgeMap F Length)} (hlengths : HasLengths g weight lengths) (xs : Array ℚ) :
    totals (F := F) g plan (weight.map fun _ => lengths) (.double xs : Slots R ℚ) =
      countedOnce g (g.weightTally lengths plan) := by
  rw [Graph.weightTally_eq, ← totals_some (F := F) (R := R) plan lengths xs]
  cases weight with
  | none => exact (totals_of_const hlengths zero_lt_one hplan hplan xs _).symm
  | some map => rfl

theorem betweenness_of_hasLengths {plan : Schedule g.vertexCount} (hplan : plan.Complete)
    {weight : Option (EdgeMap F Length)} (hlengths : HasLengths g weight lengths)
    (hnonneg : ∀ e : g.EdgeId, 0 ≤ lengths[e]) (normalize : Bool) :
    (betweenness g plan weight normalize : Except (Fault Length) (Betweenness R ℚ)) =
      let total := countedOnce g (g.weightTally lengths plan)
      let factors : Factors ℚ := normalizationFactors g.vertexCount g.directed
      .ok ⟨⟨.double (Array.ofFn fun v : g.Vertex =>
          finishedScore normalize factors.vertex total.vertices[v])⟩,
        ⟨.double (Array.ofFn fun e : g.EdgeId =>
          finishedScore normalize factors.edge total.edges[e])⟩⟩ := by
  rw [betweenness_eq_entries plan (admitted_of_hasLengths hlengths hnonneg) normalize,
    totals_of_hasLengths hplan hlengths]

/-- With positive lengths the scores are those by pairs of ends, scaled if asked to. -/
theorem betweenness_of_pos {plan : Schedule g.vertexCount} (hplan : plan.Complete)
    {weight : Option (EdgeMap F Length)} (hlengths : HasLengths g weight lengths)
    (hpos : ∀ e : g.EdgeId, 0 < lengths[e]) (normalize : Bool) :
    (betweenness g plan weight normalize : Except (Fault Length) (Betweenness R ℚ)) =
      let factors : Factors ℚ := normalizationFactors g.vertexCount g.directed
      .ok ⟨⟨.double (Array.ofFn fun v : g.Vertex =>
          finishedScore normalize factors.vertex (g.vertexScore lengths v))⟩,
        ⟨.double (Array.ofFn fun e : g.EdgeId =>
          finishedScore normalize factors.edge (g.edgeScore lengths e))⟩⟩ := by
  have hexact : ∀ s : g.Vertex, ∃ dist, Exact lengths s dist
      ((Paths.fresh Length ℚ _ _).weighted g.outEdges lengths s) :=
    fun s => ⟨_, Paths.exact_weighted hpos Paths.tidy_fresh s⟩
  have hvertices := vertices_countedOnce (steady_weighted lengths) hplan hexact
  have hedges := edges_countedOnce (steady_weighted lengths) hplan hexact
  rw [betweenness_of_hasLengths hplan hlengths (fun e => (hpos e).le) normalize]
  simp only [Graph.weightTally_eq, hvertices, hedges]

/-- Searches along edges of one positive length agree with breadth-first searches from every source,
and the scores are those without weights. -/
theorem betweenness_uniform {c : ℚ} (hc : 0 < c) (hconst : ∀ e : g.EdgeId, lengths[e] = c) :
    (∀ (s : g.Vertex) (p : Paths Length ℚ g.vertexCount g.edgeCount)
      (q : Paths Hops ℚ g.vertexCount g.edgeCount), p.Tidy → q.Tidy →
        Paths.Scaled c (p.weighted g.outEdges lengths s) (q.breadthFirst g.outEdges s)) ∧
    ∀ (plan plan' : Schedule g.vertexCount), plan.Complete → plan'.Complete →
      ∀ (map : EdgeMap F Length), map.values.numbers? = some lengths.toArray → ∀ normalize : Bool,
        ∃ b : Betweenness R ℚ,
          (betweenness g plan (some map) normalize : Except (Fault Length) (Betweenness R ℚ)) =
            .ok b ∧
          (betweenness g plan' (none : Option (EdgeMap F Length)) normalize :
            Except (Fault Length) (Betweenness R ℚ)) = .ok b := by
  constructor
  · intro s p q hp hq
    exact Paths.scaled_weighted hconst hc hp hq s
  · intro plan plan' hplan hplan' map hmap normalize
    have hnonneg : ∀ e : g.EdgeId, 0 ≤ lengths[e] :=
      fun e => (Paths.pos_of_const hconst hc e).le
    have hweights : (some map).mapM (admitWeights g) = .ok (some lengths) :=
      admitted_of_hasLengths hmap hnonneg
    have hnoWeights : (none : Option (EdgeMap F Length)).mapM (admitWeights g) = .ok none := rfl
    have hsome := betweenness_eq_entries (R := R) plan hweights normalize
    have hnone := betweenness_eq_entries (R := R) plan' hnoWeights normalize
    rw [totals_of_const hconst hc hplan hplan'] at hsome
    exact ⟨_, hsome, hnone⟩

def uniformLengths : Table Length 5 :=
  Table.replicate 5 ((3 / 2 : ℚ) : Length)

theorem betweenness_uniformLengths :
    (0 : ℚ) < 3 / 2 ∧ (∀ e : Fin 5, uniformLengths[e] = ((3 / 2 : ℚ) : Length)) ∧
      (Paths.fresh Length ℚ 4 5).Tidy ∧ (Paths.fresh Hops ℚ 4 5).Tidy ∧
      Paths.Scaled (3 / 2)
        ((Paths.fresh Length ℚ 4 5).weighted looseTriangle.outEdges uniformLengths (0 : Fin 4))
        ((Paths.fresh Hops ℚ 4 5).breadthFirst looseTriangle.outEdges (0 : Fin 4)) ∧
      (Schedule.sequential 4).Complete ∧
      (Values.double uniformLengths.toArray : Values Length Length).numbers? =
        some uniformLengths.toArray ∧
      ∃ b : Betweenness ℚ ℚ,
        (betweenness looseTriangle (.sequential 4)
          (some ⟨.double uniformLengths.toArray⟩ : Option (EdgeMap Length Length)) true) = .ok b ∧
        (betweenness looseTriangle (.sequential 4) (none : Option (EdgeMap Length Length)) true) =
          .ok b := by
  have hc : (0 : ℚ) < 3 / 2 := by norm_num
  have hconst : ∀ e : Fin 5, uniformLengths[e] = ((3 / 2 : ℚ) : Length) := Table.getElem_replicate _
  have hplan := complete_sequential looseTriangle.vertexCount
  obtain ⟨hsearch, hscores⟩ := betweenness_uniform (F := Length) (R := ℚ) (g := looseTriangle) hc hconst
  exact ⟨hc, hconst, Paths.tidy_fresh, Paths.tidy_fresh,
    hsearch (0 : Fin 4) _ _ Paths.tidy_fresh Paths.tidy_fresh, hplan, rfl,
    hscores _ _ hplan hplan ⟨.double uniformLengths.toArray⟩ rfl true⟩

end Computation

end Geodesic
