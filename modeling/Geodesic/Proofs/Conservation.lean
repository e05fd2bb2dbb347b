import Geodesic.Proofs.Betweenness
import Geodesic.Proofs.Paths.BreadthFirst.Shortest
import Geodesic.Proofs.Paths.Flow

/-!
# Nothing that flows is lost

Every pair of vertices sends one unit along its trails. So the edge scores, weighted by their
lengths, add up to all distances found, and they exceed the vertex scores by the number of pairs.
Pairs of an undirected graph are counted from both ends and then halved.
-/

namespace Geodesic

open Paths (Measured)
open Schedule (complete_sequential)

/-! ## All sources -/

section Tally

variable {D : Type} [Distance D] {g : Graph} {plan : Schedule g.vertexCount}
  {search : g.Vertex → Paths D ℚ g.vertexCount g.edgeCount → Paths D ℚ g.vertexCount g.edgeCount}
  {lengths : Table Length g.edgeCount} {dist : g.Vertex → g.Vertex → Length}

/-- Edges credited by their lengths make up all distances. -/
theorem sum_length_tally (h : Steady g search) (hplan : plan.Complete)
    (hdist : ∀ s : g.Vertex, Measured lengths s (dist s) (search s (Paths.fresh D ℚ _ _))) :
    ∑ e : g.EdgeId, lengths[e].untopD 0 * (plan.tally search).edges[e] =
      ∑ s : g.Vertex, ∑ t : g.Vertex, (dist s t).untopD 0 := by
  simp only [h.edges_tally hplan, Finset.mul_sum]
  rw [Finset.sum_comm]
  apply Finset.sum_congr rfl
  intro s _
  rw [Finset.sum_comm]
  apply Finset.sum_congr rfl
  intro t _
  exact (hdist s).sum_length_share t

/-- Edges are credited for one more unit than vertices by each pair. -/
theorem sum_surplus_tally (h : Steady g search) (hplan : plan.Complete) :
    ∑ e : g.EdgeId, (plan.tally search).edges[e] -
        ∑ v : g.Vertex, (plan.tally search).vertices[v] =
      ∑ s : g.Vertex, ∑ t : g.Vertex,
        if t ∈ (search s (Paths.fresh D ℚ _ _)).order.toList ∧ t ≠ s then 1 else 0 := by
  have hedges : ∑ e : g.EdgeId, (plan.tally search).edges[e] =
      ∑ s : g.Vertex, ∑ t : g.Vertex, ∑ e : g.EdgeId,
        (search s (Paths.fresh D ℚ _ _)).share s (fun a => a.1 = e) t := by
    simp only [h.edges_tally hplan]
    rw [Finset.sum_comm]
    exact Finset.sum_congr rfl fun s _ => Finset.sum_comm
  have hvertices : ∑ v : g.Vertex, (plan.tally search).vertices[v] =
      ∑ s : g.Vertex, ∑ t : g.Vertex, ∑ v : g.Vertex,
        if v = s then 0 else (search s (Paths.fresh D ℚ _ _)).share s (fun a => a.2 = v) t := by
    simp only [h.vertices_tally hplan]
    rw [Finset.sum_comm]
    apply Finset.sum_congr rfl
    intro s _
    rw [Finset.sum_comm (s := Finset.univ) (t := Finset.univ)]
    apply Finset.sum_congr rfl
    intro v _
    split
    · simp
    · rfl
  rw [hedges, hvertices, ← Finset.sum_sub_distrib]
  apply Finset.sum_congr rfl
  intro s _
  rw [← Finset.sum_sub_distrib]
  apply Finset.sum_congr rfl
  intro t _
  exact (h.recorded s).sum_share_surplus t

end Tally

/-! ## Distances found -/

namespace Graph

/-- The distance that the search from `s` finds for `t`; without weights a hop is of length one. -/
def distanceFound? (g : Graph) (weights : Option (Table Length g.edgeCount)) (s t : g.Vertex) :
    Option Length :=
  match weights with
  | none => (((Paths.fresh Hops ℚ _ _).breadthFirst g.outEdges s).distance? t).map (Hops.times 1)
  | some lengths => ((Paths.fresh Length ℚ _ _).weighted g.outEdges lengths s).distance? t

/-- The pairs of different vertices of which the first finds the second. -/
def foundPairs (g : Graph) (weights : Option (Table Length g.edgeCount)) :
    Finset (g.Vertex × g.Vertex) :=
  {q | q.1 ≠ q.2 ∧ (g.distanceFound? weights q.1 q.2).isSome}

theorem distanceFound?_none (g : Graph) (s t : g.Vertex) :
    g.distanceFound? none s t =
      let p := (Paths.fresh Hops ℚ _ _).breadthFirst g.outEdges s
      if t ∈ p.order.toList then some (p.levelLength t) else none := by
  have hrec := Paths.recorded_breadthFirst Paths.tidy_fresh g.nodup_outEdges s (S := ℚ)
  obtain ⟨u, hswept⟩ := Paths.exists_swept Paths.tidy_fresh g.nodup_outEdges s (S := ℚ)
  dsimp only
  rw [← Paths.levelTimes_one]
  exact Paths.map_distance?_of_swept hrec hswept 1 t

theorem distanceFound?_some {g : Graph} (lengths : Table Length g.edgeCount) (s t : g.Vertex) :
    g.distanceFound? (some lengths) s t =
      let p := (Paths.fresh Length ℚ _ _).weighted g.outEdges lengths s
      if t ∈ p.order.toList then some p.dist[t] else none :=
  Dependency.distance?_eq (Paths.recorded_weighted Paths.tidy_fresh g.nodup_outEdges s) t

end Graph

/-! ## The whole computation -/

section Computation

variable {F R : Type} [Precision F Length] [Distance F] [Zero R] [Add R] [Mul R] [Precision R ℚ]
  {g : Graph} {lengths : Table Length g.edgeCount}

structure Conserved (g : Graph) (lengths : Table Length g.edgeCount)
    (weights : Option (Table Length g.edgeCount)) (x : g.Vertex → ℚ) (y : g.EdgeId → ℚ) : Prop where
  lengths : ∃ d : ℚ, (d : Length) =
      ∑ q ∈ g.foundPairs weights, (g.distanceFound? weights q.1 q.2).getD ⊤ ∧
    ∑ e : g.EdgeId with lengths[e] ≠ ⊤, lengths[e].untopD 0 * y e =
      if g.directed then d else d / 2
  pairs : ∑ e : g.EdgeId, y e - ∑ v : g.Vertex, x v =
    if g.directed then ((g.foundPairs weights).card : ℚ) else (g.foundPairs weights).card / 2

section Measured

variable {D : Type} [Distance D] {plan : Schedule g.vertexCount}
  {weights : Option (Table Length g.edgeCount)}
  {search : g.Vertex → Paths D ℚ g.vertexCount g.edgeCount → Paths D ℚ g.vertexCount g.edgeCount}
  {dist : g.Vertex → g.Vertex → Length}
  (hfound : ∀ s t : g.Vertex, g.distanceFound? weights s t =
    if t ∈ (search s (Paths.fresh D ℚ _ _)).order.toList then some (dist s t) else none)

include hfound

theorem mem_foundPairs (q : g.Vertex × g.Vertex) : q ∈ g.foundPairs weights ↔
    q.2 ∈ (search q.1 (Paths.fresh D ℚ _ _)).order.toList ∧ q.2 ≠ q.1 := by
  rw [Graph.foundPairs, Finset.mem_filter, hfound]
  by_cases hq : q.2 ∈ (search q.1 (Paths.fresh D ℚ _ _)).order.toList
  · simp [hq, ne_comm]
  · simp [hq]

theorem card_foundPairs :
    ((g.foundPairs weights).card : ℚ) = ∑ s : g.Vertex, ∑ t : g.Vertex,
      if t ∈ (search s (Paths.fresh D ℚ _ _)).order.toList ∧ t ≠ s then 1 else 0 := by
  have hpairs : g.foundPairs weights = Finset.univ.filter fun q : g.Vertex × g.Vertex =>
      q.2 ∈ (search q.1 (Paths.fresh D ℚ _ _)).order.toList ∧ q.2 ≠ q.1 := by
    ext q
    simp [mem_foundPairs hfound]
  rw [hpairs, ← Finset.sum_boole, Fintype.sum_prod_type]

theorem sum_foundPairs
    (hdist : ∀ s : g.Vertex, Measured lengths s (dist s) (search s (Paths.fresh D ℚ _ _))) :
    ∑ q ∈ g.foundPairs weights, (g.distanceFound? weights q.1 q.2).getD ⊤ =
      ((∑ s : g.Vertex, ∑ t : g.Vertex, (dist s t).untopD 0 : ℚ) : Length) := by
  have hterm : ∀ q ∈ g.foundPairs weights, (g.distanceFound? weights q.1 q.2).getD ⊤ =
      ((dist q.1 q.2).untopD 0 : ℚ) := by
    intro q hq
    have hvisited := ((mem_foundPairs hfound q).mp hq).1
    have hfinite := ((hdist q.1).visited_iff q.2).mp hvisited
    rw [hfound, if_pos hvisited, Option.getD_some]
    generalize dist q.1 q.2 = a at hfinite
    lift a to ℚ using hfinite
    rfl
  -- Other pairs are those of a vertex with itself and those that are not found.
  have hother : ∀ q ∈ Finset.univ, q ∉ g.foundPairs weights → (dist q.1 q.2).untopD 0 = 0 := by
    intro q _ hq
    rw [mem_foundPairs hfound] at hq
    by_cases hself : q.2 = q.1
    · rw [hself, (hdist q.1).source]
      rfl
    · have htop : dist q.1 q.2 = ⊤ := by
        by_contra hfinite
        exact hq ⟨((hdist q.1).visited_iff q.2).mpr hfinite, hself⟩
      rw [htop]
      rfl
  rw [Finset.sum_congr rfl hterm, ← WithTop.coe_sum,
    Finset.sum_subset (Finset.subset_univ _) hother, Fintype.sum_prod_type]

theorem conserved_of_measured (hplan : plan.Complete) (h : Steady g search)
    (hdist : ∀ s : g.Vertex, Measured lengths s (dist s) (search s (Paths.fresh D ℚ _ _))) :
    Conserved g lengths weights (fun v => (countedOnce g (plan.tally search)).vertices[v])
      fun e => (countedOnce g (plan.tally search)).edges[e] := by
  constructor
  · refine ⟨_, (sum_foundPairs hfound hdist).symm, ?_⟩
    have hinfinite : ∀ e : g.EdgeId, lengths[e].untopD 0 *
        (countedOnce g (plan.tally search)).edges[e] ≠ 0 → lengths[e] ≠ ⊤ := by
      intro e hne htop
      simp [htop] at hne
    rw [Finset.sum_filter_of_ne fun e _ => hinfinite e]
    rw [countedOnce_entry (x := fun t => ∑ e : g.EdgeId, lengths[e].untopD 0 * t.edges[e])]
    · rw [sum_length_tally h hplan hdist]
    · simp [Finset.sum_div, mul_div_assoc]
  · rw [countedOnce_entry (x := fun t => ∑ e : g.EdgeId, t.edges[e] - ∑ v : g.Vertex, t.vertices[v])]
    · rw [sum_surplus_tally h hplan, card_foundPairs hfound]
    · simp [Finset.sum_div, sub_div]

end Measured

/-- With exact lengths that are not negative, betweenness succeeds, and its raw scores conserve the
lengths and the pairs that its searches find. -/
theorem betweenness_conserved (plan : Schedule g.vertexCount) (hplan : plan.Complete)
    (weight : Option (EdgeMap F Length)) (hlengths : HasLengths g weight lengths)
    (hnonneg : ∀ e : g.EdgeId, 0 ≤ lengths[e]) :
    ∃ (x : g.Vertex → ℚ) (y : g.EdgeId → ℚ),
      (betweenness g plan weight false : Except (Fault Length) (Betweenness R ℚ)) =
        .ok ⟨⟨.double (Array.ofFn x)⟩, ⟨.double (Array.ofFn y)⟩⟩ ∧
      Conserved g lengths (weight.map fun _ => lengths) x y := by
  have hweights := admitted_of_hasLengths hlengths hnonneg
  refine ⟨_, _, betweenness_eq_entries plan hweights false, ?_⟩
  simp only [finishedScore, Bool.false_eq_true, if_false]
  cases weight with
  | none =>
      rw [Option.map_none, totals_none]
      exact conserved_of_measured (Graph.distanceFound?_none g) hplan (steady_breadthFirst g)
        fun s => (Paths.exact_breadthFirst hlengths Paths.tidy_fresh s).toMeasured
  | some map =>
      rw [Option.map_some, totals_some]
      exact conserved_of_measured (Graph.distanceFound?_some lengths) hplan
        (steady_weighted lengths)
        fun s => Paths.measured_weighted (fun e => Length.admissible_iff.mpr (hnonneg e))
          Paths.tidy_fresh s

/-- A flat edge beside a longer one, a flat loop, and an infinite edge. -/
def flatLengths : Table Length 5 :=
  Table.ofArray #[0, 1, ((3 / 2 : ℚ) : Length), 0, ⊤] rfl

theorem betweenness_flatLengths_conserved :
    (Schedule.sequential 4).Complete ∧
      HasLengths looseTriangle (some ⟨.double flatLengths.toArray⟩ : Option (EdgeMap Length Length))
        flatLengths ∧
      (∀ e : Fin 5, 0 ≤ flatLengths[e]) ∧
      ∃ (x : Fin 4 → ℚ) (y : Fin 5 → ℚ),
        (betweenness looseTriangle (.sequential 4)
          (some ⟨.double flatLengths.toArray⟩ : Option (EdgeMap Length Length)) false :
            Except (Fault Length) (Betweenness ℚ ℚ)) =
          .ok ⟨⟨.double (Array.ofFn x)⟩, ⟨.double (Array.ofFn y)⟩⟩ ∧
        Conserved looseTriangle flatLengths (some flatLengths) x y := by
  have hplan := complete_sequential looseTriangle.vertexCount
  have hlengths : HasLengths looseTriangle
      (some ⟨.double flatLengths.toArray⟩ : Option (EdgeMap Length Length)) flatLengths := rfl
  have hnonneg : ∀ e : Fin 5, 0 ≤ flatLengths[e] := by decide +kernel
  exact ⟨hplan, hlengths, hnonneg, betweenness_conserved _ hplan _ hlengths hnonneg⟩

end Computation

end Geodesic
