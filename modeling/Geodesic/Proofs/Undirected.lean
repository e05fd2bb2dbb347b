import Geodesic.Proofs.Bidirected
import Geodesic.Proofs.Normalization
import Geodesic.Proofs.Paths.Flow
import Geodesic.Proofs.Paths.Renamed
import Geodesic.Proofs.Paths.Weighted.Exchange

/-!
# Undirected graphs are bidirected ones

A search of an undirected graph and one along its arcs list the steps of a vertex in different orders
and under different numbers, and differ in loops. They still visit the vertices in the same order and
record the same steps, so an edge has the shares of its arcs together. Every pair is seen from both
ends, and halving the scores and doubling the factors cancel.
-/

namespace Geodesic

open Distance (Admissible Lawful)
open Paths (Recorded Renamed)
open Schedule (complete_sequential)

namespace Graph.Bidirected

variable {g : Graph} (b : g.Bidirected)

/-! ## One source -/

section Source

variable {D D' : Type} {s : g.Vertex} {p : Paths D ℚ g.vertexCount g.edgeCount}
  {q : Paths D' ℚ g.vertexCount b.graph.edgeCount}

/-- The arcs recorded at a vertex belong to different steps. -/
theorem renamed_of_mem_iff (hq : Recorded b.graph.outEdges s q)
    (hmem : ∀ (v : g.Vertex) (a : g.Step),
      a ∈ p.preds[v].toList ↔ a ∈ (q.relabel b.edgeOf).preds[v].toList) :
    Renamed id b.step q p := by
  refine Paths.renamed_relabel (fun v => ?_) hmem
  intro a ha a' ha' heq
  obtain ⟨hedge, horigin⟩ := Prod.ext_iff.mp heq
  have horigin : a.2 = a'.2 := horigin
  have hstep := hq.step v a' ha'
  rw [← horigin] at hstep
  exact Prod.ext (arc_unique (hq.step v a ha) hstep hedge) horigin

theorem share_edge (h : Renamed id b.step q p) (hp : Recorded g.outEdges s p)
    (hq : Recorded b.graph.outEdges s q) (e : g.EdgeId) (t : g.Vertex) :
    p.share s (fun a => a.1 = e) t =
      ∑ a : b.graph.EdgeId with b.edgeOf a = e, q.share s (fun c => c.1 = a) t := by
  have hedges : ∀ l, q.Trail s t l → (l.map fun c => b.edgeOf c.1).Nodup := by
    intro l hl
    have hnodup := hp.nodup_edges_of_trail (h.trail_map hl)
    rwa [List.map_map] at hnodup
  rw [← hq.share_eq_sum b.edgeOf hedges e]
  exact h.share_eq (fun _ => Iff.rfl) s t

end Source

/-! ## The two kinds of search -/

section Search

variable (hg : g.directed = false)

include hg

theorem renamed_breadthFirst (s : g.Vertex) : Renamed id b.step
    ((Paths.fresh Hops ℚ _ _).breadthFirst b.graph.outEdges s)
    ((Paths.fresh Hops ℚ _ _).breadthFirst g.outEdges s) := by
  have hrelabel := Paths.relabel_breadthFirst b.edgeOf (fun _ => rfl : ∀ v, b.out v = _) s
    (Paths.fresh Hops ℚ _ _)
  rw [Paths.relabel_fresh] at hrelabel
  apply b.renamed_of_mem_iff (Paths.recorded_breadthFirst Paths.tidy_fresh b.graph.nodup_outEdges s)
  intro v a
  rw [hrelabel]
  obtain ⟨u, hswept⟩ := Paths.exists_swept Paths.tidy_fresh g.nodup_outEdges s (S := ℚ)
  obtain ⟨u', hswept'⟩ := Paths.exists_swept Paths.tidy_fresh b.nodup_out s (S := ℚ)
  have hsteps := b.sameSteps hg
  exact ⟨Paths.Sweeping.preds_of_sameSteps hswept hswept' hsteps.symm,
    Paths.Sweeping.preds_of_sameSteps hswept' hswept hsteps⟩

theorem renamed_weighted {D : Type} [Distance D] [Lawful D] {weights : Table D g.edgeCount}
    (hweights : ∀ e : g.EdgeId, Admissible weights[e]) (s : g.Vertex) :
    Renamed id b.step
      ((Paths.fresh D ℚ _ _).weighted b.graph.outEdges (b.carry weights) s)
      ((Paths.fresh D ℚ _ _).weighted g.outEdges weights s) := by
  have hcarried : ∀ a : b.graph.EdgeId, weights[b.edgeOf a] = (b.carry weights)[a] :=
    fun a => (b.getElem_carry weights a).symm
  have hrelabel := Frontier.relabel_weighted b.edgeOf hcarried (fun _ => rfl : ∀ v, b.out v = _) s
    (Paths.fresh D ℚ _ _)
  rw [Paths.relabel_fresh] at hrelabel
  apply b.renamed_of_mem_iff (Paths.recorded_weighted Paths.tidy_fresh b.graph.nodup_outEdges s)
  intro v a
  rw [hrelabel]
  have hshortest := Paths.shortestFrom_of_nodup hweights Paths.tidy_fresh g.nodup_outEdges s (S := ℚ)
  have hshortest' := Paths.shortestFrom_of_nodup hweights Paths.tidy_fresh b.nodup_out s (S := ℚ)
  have hsteps := b.sameSteps hg
  have hexchangeable := Paths.exchangeable_weighted (S := ℚ) hweights hweights Paths.tidy_fresh
    Paths.tidy_fresh g.nodup_outEdges b.nodup_out s
    (hshortest.passable_of_sameSteps hweights hsteps.symm)
    (hshortest'.passable_of_sameSteps hweights hsteps)
  exact hexchangeable.mem_preds_iff v a

end Search

/-! ## All sources -/

/-- A tally of the graph, and one of its arcs in which each edge is split. -/
structure Split (t : Tally ℚ g.vertexCount g.edgeCount)
    (t' : Tally ℚ g.vertexCount b.graph.edgeCount) : Prop where
  vertices : ∀ v : g.Vertex, t.vertices[v] = t'.vertices[v]
  edges : ∀ e : g.EdgeId, t.edges[e] = ∑ a : b.graph.EdgeId with b.edgeOf a = e, t'.edges[a]

theorem split_tally {D D' : Type} [Distance D] [Distance D'] {plan : Schedule g.vertexCount}
    {plan' : Schedule b.graph.vertexCount} (hplan : plan.Complete) (hplan' : plan'.Complete)
    {search : g.Vertex → Paths D ℚ g.vertexCount g.edgeCount →
      Paths D ℚ g.vertexCount g.edgeCount}
    {search' : b.graph.Vertex → Paths D' ℚ b.graph.vertexCount b.graph.edgeCount →
      Paths D' ℚ b.graph.vertexCount b.graph.edgeCount}
    (h : Steady g search) (h' : Steady b.graph search')
    (hrenamed : ∀ s : g.Vertex, Renamed id b.step
      (search' s (Paths.fresh D' ℚ _ _)) (search s (Paths.fresh D ℚ _ _))) :
    b.Split (plan.tally search) (plan'.tally search') := by
  constructor
  · intro v
    exact h'.vertices_tally_renamed h (Equiv.refl _) hplan' hplan hrenamed v
  · intro e
    simp only [h.edges_tally hplan, h'.edges_tally hplan']
    refine Eq.trans ?_ Finset.sum_comm
    apply Finset.sum_congr rfl
    intro s _
    refine Eq.trans ?_ Finset.sum_comm
    apply Finset.sum_congr rfl
    intro t _
    exact b.share_edge (hrenamed s) (h.recorded s) (h'.recorded s) e t

/-! ## The whole computation -/

section Computation

variable {F R : Type} [Distance F] [Precision F Length] (hg : g.directed = false)

include hg

theorem exists_split {plan : Schedule g.vertexCount} {plan' : Schedule b.graph.vertexCount}
    (hplan : plan.Complete) (hplan' : plan'.Complete) {weights : Option (Table Length g.edgeCount)}
    (hadmissible : ∀ lengths ∈ weights, ∀ e : g.EdgeId, Admissible lengths[e]) (xs ys : Array ℚ) :
    ∃ t t', b.Split t t' ∧
      totals (F := F) g plan weights (.double xs : Slots R ℚ) = countedOnce g t ∧
      totals (F := F) b.graph plan' (weights.map b.carry) (.double ys : Slots R ℚ) = t' := by
  cases weights with
  | none =>
      have hsplit := b.split_tally hplan hplan' (steady_breadthFirst g)
        (steady_breadthFirst b.graph) (b.renamed_breadthFirst hg)
      exact ⟨_, _, hsplit, totals_none plan _, totals_none plan' _⟩
  | some lengths =>
      have hsplit := b.split_tally hplan hplan' (steady_weighted lengths)
        (steady_weighted (b.carry lengths)) (b.renamed_weighted hg (hadmissible lengths rfl))
      exact ⟨_, _, hsplit, totals_some plan lengths xs, totals_some plan' (b.carry lengths) ys⟩

end Computation

end Graph.Bidirected

section Computation

variable {F R : Type} [Distance F] [Precision F Length] [Zero R] [Add R] [Mul R] [Precision R ℚ]
  {g : Graph} {lengths : Table Length g.edgeCount}

/-- The scores of an undirected graph are those of its arcs, each pair counted once. Raw scores are
halved, normalized ones are the same. -/
theorem betweenness_bidirected (hg : g.directed = false) (b : g.Bidirected)
    (plan : Schedule g.vertexCount) (hplan : plan.Complete)
    (plan' : Schedule b.graph.vertexCount) (hplan' : plan'.Complete)
    (weight weight' : Option (EdgeMap F Length)) (hsame : weight.isSome = weight'.isSome)
    (hlengths : HasLengths g weight lengths)
    (hlengths' : HasLengths b.graph weight' (b.carry lengths))
    (hnonneg : ∀ e : g.EdgeId, 0 ≤ lengths[e]) :
    (∃ (x x' : g.Vertex → ℚ) (y : g.EdgeId → ℚ) (y' : b.graph.EdgeId → ℚ),
      (betweenness g plan weight false : Except (Fault Length) (Betweenness R ℚ)) =
        .ok ⟨⟨.double (Array.ofFn x)⟩, ⟨.double (Array.ofFn y)⟩⟩ ∧
      (betweenness b.graph plan' weight' false : Except (Fault Length) (Betweenness R ℚ)) =
        .ok ⟨⟨.double (Array.ofFn x')⟩, ⟨.double (Array.ofFn y')⟩⟩ ∧
      (∀ v : g.Vertex, x v = x' v / 2) ∧
      ∀ e : g.EdgeId, y e = (∑ a : b.graph.EdgeId with b.edgeOf a = e, y' a) / 2) ∧
    ∃ (x : g.Vertex → ℚ) (y : g.EdgeId → ℚ) (y' : b.graph.EdgeId → ℚ),
      let ofGraph : Betweenness R ℚ := ⟨⟨.double (Array.ofFn x)⟩, ⟨.double (Array.ofFn y)⟩⟩
      let ofArcs : Betweenness R ℚ := ⟨⟨.double (Array.ofFn x)⟩, ⟨.double (Array.ofFn y')⟩⟩
      (betweenness g plan weight true : Except (Fault Length) (Betweenness R ℚ)) = .ok ofGraph ∧
      (betweenness b.graph plan' weight' true : Except (Fault Length) (Betweenness R ℚ)) =
        .ok ofArcs ∧
      (∀ e : g.EdgeId, y e = ∑ a : b.graph.EdgeId with b.edgeOf a = e, y' a) ∧
      ofGraph.centralPointDominance = ofArcs.centralPointDominance := by
  have hnonneg' : ∀ a : b.graph.EdgeId, 0 ≤ (b.carry lengths)[a] := by
    intro a
    rw [b.getElem_carry]
    exact hnonneg _
  have hcarried : (weight'.map fun _ => b.carry lengths) =
      (weight.map fun _ => lengths).map b.carry := by
    cases weight <;> cases weight' <;> simp_all
  have hweights := admitted_of_hasLengths hlengths hnonneg
  have hweights' := admitted_of_hasLengths hlengths' hnonneg'
  rw [hcarried] at hweights'
  have hadmissible : ∀ lengths' ∈ weight.map fun _ => lengths, ∀ e : g.EdgeId,
      Admissible lengths'[e] := fun _ hmem => admissible_of_mem hweights hmem
  obtain ⟨t, t', hsplit, htotals, htotals'⟩ := b.exists_split (F := F) (R := R) hg hplan hplan'
    hadmissible (Array.replicate g.edgeCount 0) (Array.replicate b.graph.edgeCount 0)
  have hraw := betweenness_eq_entries (R := R) plan hweights false
  have hraw' := betweenness_eq_entries (R := R) plan' hweights' false
  have hscaled := betweenness_eq_entries (R := R) plan hweights true
  have hscaled' := betweenness_eq_entries (R := R) plan' hweights' true
  simp only [htotals, finishedScore, if_true, vertices_scaled, edges_scaled,
    hsplit.vertices] at hscaled
  simp only [htotals', finishedScore, if_true] at hscaled'
  rw [htotals, countedOnce_of_undirected hg] at hraw
  rw [htotals'] at hraw'
  constructor
  · refine ⟨_, _, _, _, hraw, hraw', fun v => ?_, fun e => ?_⟩
    · simp [finishedScore, hsplit.vertices]
    · simp [finishedScore, hsplit.edges]
  · refine ⟨_, _, _, hscaled, hscaled', fun e => ?_, rfl⟩
    rw [hsplit.edges, Finset.sum_mul]

attribute [local instance] neZero_four

/-- Two vertices at one distance with a flat edge between them, a loop, and an infinite edge. -/
abbrev looseTie : Graph where
  directed := false
  vertexCount := 4
  edges := #[⟨0, 1⟩, ⟨2, 0⟩, ⟨1, 2⟩, ⟨1, 1⟩, ⟨2, 3⟩]

def looseTieLengths : Table Length 5 :=
  Table.ofArray #[1, 1, 0, 0, ⊤] rfl

theorem betweenness_looseTie :
    let b : looseTie.Bidirected := looseTie.bothWays
    let weight : Option (EdgeMap Length Length) := some ⟨.double looseTieLengths.toArray⟩
    let weight' : Option (EdgeMap Length Length) :=
      some ⟨.double (b.carry looseTieLengths).toArray⟩
    looseTie.directed = false ∧ (Schedule.sequential 4).Complete ∧
      weight.isSome = weight'.isSome ∧ HasLengths looseTie weight looseTieLengths ∧
      HasLengths b.graph weight' (b.carry looseTieLengths) ∧
      (∀ e : Fin 5, 0 ≤ looseTieLengths[e]) ∧
      (∃ (x x' : Fin 4 → ℚ) (y : looseTie.EdgeId → ℚ) (y' : b.graph.EdgeId → ℚ),
        (betweenness looseTie (.sequential 4) weight false :
          Except (Fault Length) (Betweenness ℚ ℚ)) =
            .ok ⟨⟨.double (Array.ofFn x)⟩, ⟨.double (Array.ofFn y)⟩⟩ ∧
        (betweenness b.graph (.sequential 4) weight' false :
          Except (Fault Length) (Betweenness ℚ ℚ)) =
            .ok ⟨⟨.double (Array.ofFn x')⟩, ⟨.double (Array.ofFn y')⟩⟩ ∧
        (∀ v : Fin 4, x v = x' v / 2) ∧
        ∀ e : looseTie.EdgeId, y e = (∑ a : b.graph.EdgeId with b.edgeOf a = e, y' a) / 2) ∧
      ∃ (x : Fin 4 → ℚ) (y : looseTie.EdgeId → ℚ) (y' : b.graph.EdgeId → ℚ),
        let ofGraph : Betweenness ℚ ℚ := ⟨⟨.double (Array.ofFn x)⟩, ⟨.double (Array.ofFn y)⟩⟩
        let ofArcs : Betweenness ℚ ℚ := ⟨⟨.double (Array.ofFn x)⟩, ⟨.double (Array.ofFn y')⟩⟩
        (betweenness looseTie (.sequential 4) weight true :
          Except (Fault Length) (Betweenness ℚ ℚ)) = .ok ofGraph ∧
        (betweenness b.graph (.sequential 4) weight' true :
          Except (Fault Length) (Betweenness ℚ ℚ)) = .ok ofArcs ∧
        (∀ e : looseTie.EdgeId, y e = ∑ a : b.graph.EdgeId with b.edgeOf a = e, y' a) ∧
        ofGraph.centralPointDominance = ofArcs.centralPointDominance := by
  intro b weight weight'
  have hplan := complete_sequential looseTie.vertexCount
  have hnonneg : ∀ e : Fin 5, 0 ≤ looseTieLengths[e] := by decide +kernel
  exact ⟨rfl, hplan, rfl, rfl, rfl, hnonneg,
    betweenness_bidirected rfl b _ hplan _ hplan weight weight' rfl rfl rfl hnonneg⟩

end Computation

end Geodesic
