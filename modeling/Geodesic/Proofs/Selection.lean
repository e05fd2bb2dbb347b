import Geodesic.Proofs.Bidirected
import Geodesic.Proofs.Paths.Weighted.Exchange
import Geodesic.Proofs.Uniform

/-!
# Graphs with some of the edges of another

A selection has the vertices of a graph and some of its edges, stored anew: under other numbers, and
in an undirected graph either way round. The lengths may be others too. As long as no edge gets
shorter and the edges that searches recorded are kept as long as they were, searches leave the same
on both graphs, so the scores are the same.
-/

namespace Geodesic

open Distance (Admissible AtMost Lawful)
open Paths (Exchangeable Passable Renamed)

namespace Graph

/-- Edges whose steps are those of edges of `g`. -/
structure Selection (g : Graph) where
  edges : Array (Edge g.vertexCount)
  edgeOf : (g.withEdges edges).EdgeId → g.EdgeId
  injective : Function.Injective edgeOf
  mem_outEdges_iff : ∀ (u v : g.Vertex) (i : (g.withEdges edges).EdgeId),
    (i, v) ∈ (g.withEdges edges).outEdges u ↔ (edgeOf i, v) ∈ g.outEdges u

namespace Selection

/-- Edges may be stored either way round where that makes no difference to the steps. -/
def ofEdges {g : Graph} (edges : Array (Edge g.vertexCount))
    (edgeOf : (g.withEdges edges).EdgeId → g.EdgeId) (injective : Function.Injective edgeOf)
    (along : ∀ i, (g.withEdges edges).edge i = g.edge (edgeOf i) ∨
      (g.directed = false ∧ (g.withEdges edges).edge i = (g.edge (edgeOf i)).reverse)) :
    g.Selection where
  edges := edges
  edgeOf := edgeOf
  injective := injective
  mem_outEdges_iff u v i := by
    rw [mem_outEdges, mem_outEdges]
    rcases along i with hedge | ⟨hundirected, hedge⟩
    · rw [hedge]
    · rw [hedge]
      simp only [hundirected, true_and, Edge.reverse]
      exact or_comm

variable {g : Graph} (c : g.Selection)

abbrev graph : Graph :=
  g.withEdges c.edges

def carry {D : Type} (weights : Table D g.edgeCount) : Table D c.graph.edgeCount :=
  Table.ofFn fun i => weights[c.edgeOf i]

@[simp] theorem getElem_carry {D : Type} (weights : Table D g.edgeCount) (i : c.graph.EdgeId) :
    (c.carry weights)[i] = weights[c.edgeOf i] :=
  Table.getElem_ofFn _ i

abbrev step : c.graph.Step → g.Step :=
  Geodesic.renumber c.edgeOf

theorem injective_step : Function.Injective c.step := by
  intro a a' heq
  obtain ⟨hedge, hend⟩ := Prod.ext_iff.mp heq
  exact Prod.ext (c.injective hedge) hend

/-- The selected edges that leave a vertex, under their numbers in `g`. -/
def out (v : g.Vertex) : List g.Step :=
  (c.graph.outEdges v).map c.step

theorem nodup_out (v : g.Vertex) : (c.out v).Nodup :=
  (c.graph.nodup_outEdges v).map c.injective_step

theorem mem_out_iff (u v : g.Vertex) (e : g.EdgeId) :
    (e, v) ∈ c.out u ↔ (e, v) ∈ g.outEdges u ∧ ∃ i, c.edgeOf i = e := by
  unfold out
  rw [List.mem_map]
  constructor
  · intro h
    obtain ⟨a, ha, heq⟩ := h
    obtain ⟨rfl, rfl⟩ := Prod.ext_iff.mp heq
    exact ⟨(c.mem_outEdges_iff u a.2 a.1).mp ha, a.1, rfl⟩
  · intro h
    obtain ⟨hstep, i, rfl⟩ := h
    exact ⟨(i, v), (c.mem_outEdges_iff u v i).mpr hstep, rfl⟩

/-! ## One source -/

section Source

variable {D S : Type} [Distance D] [Zero S] [One S] [Add S] {weights weights' : Table D g.edgeCount}

theorem relabel_weighted (weights : Table D g.edgeCount) (s : g.Vertex) :
    ((Paths.fresh D S _ _).weighted c.graph.outEdges (c.carry weights) s).relabel c.edgeOf =
      (Paths.fresh D S _ _).weighted c.out weights s := by
  have hcarried : ∀ i : c.graph.EdgeId, weights[c.edgeOf i] = (c.carry weights)[i] :=
    fun i => (c.getElem_carry weights i).symm
  have hrelabel := Frontier.relabel_weighted c.edgeOf hcarried (fun _ => rfl : ∀ v, c.out v = _) s
    (Paths.fresh D S _ _)
  rwa [Paths.relabel_fresh] at hrelabel

/-- The weights `weights'` take nothing from the searches along `weights`: no edge gets shorter, and
the edges that they record are selected and as long as before. -/
structure Keeps (S : Type) [Zero S] [One S] [Add S] (weights weights' : Table D g.edgeCount) :
    Prop where
  admissible : ∀ e : g.EdgeId, Admissible weights[e]
  admissible' : ∀ e : g.EdgeId, Admissible weights'[e]
  longer : ∀ (e : g.EdgeId) (d : D), Admissible d →
    AtMost (Distance.add d weights[e]) (Distance.add d weights'[e])
  recorded : ∀ s v : g.Vertex,
    ∀ a ∈ ((Paths.fresh D S _ _).weighted g.outEdges weights s).preds[v].toList,
      (∃ i, c.edgeOf i = a.1) ∧ weights'[a.1] = weights[a.1]

theorem keeps_of_surjective [Lawful D] (hall : Function.Surjective c.edgeOf)
    (hweights : ∀ e : g.EdgeId, Admissible weights[e]) : c.Keeps S weights weights where
  admissible := hweights
  admissible' := hweights
  longer e _ hd := Distance.AtMost.refl (Lawful.add_admissible hd (hweights e))
  recorded _ _ a _ := ⟨hall a.1, rfl⟩

variable [LT S] [DecidableLT S] [PositiveCounts S] [Lawful D] {c}

theorem Keeps.exchangeable (h : c.Keeps S weights weights') (s : g.Vertex) :
    Exchangeable g.outEdges weights c.out weights' s
      ((Paths.fresh D S _ _).weighted g.outEdges weights s)
      ((Paths.fresh D S _ _).weighted c.out weights' s) := by
  have hshortest := Paths.shortestFrom_of_nodup (S := S) h.admissible Paths.tidy_fresh
    g.nodup_outEdges s
  have hshortest' := Paths.shortestFrom_of_nodup (S := S) h.admissible' Paths.tidy_fresh
    c.nodup_out s
  apply Paths.exchangeable_weighted h.admissible h.admissible' Paths.tidy_fresh Paths.tidy_fresh
    g.nodup_outEdges c.nodup_out s
  · intro v a ha
    obtain ⟨hselected, hlength⟩ := h.recorded s v a ha
    obtain ⟨hstep, _⟩ := (hshortest.preds_iff a.2 v a.1).mp ha
    rw [hlength]
    exact ⟨(c.mem_out_iff a.2 v a.1).mpr ⟨hstep, hselected⟩,
      fun d hd => Distance.AtMost.refl (Lawful.add_admissible hd (h.admissible a.1))⟩
  · intro v a ha
    obtain ⟨hstep, _⟩ := (hshortest'.preds_iff a.2 v a.1).mp ha
    exact ⟨((c.mem_out_iff a.2 v a.1).mp hstep).1, h.longer a.1⟩

/-- Searches visit the vertices in the same order on both graphs. -/
theorem Keeps.order_eq (h : c.Keeps S weights weights')
    {p : Paths D S g.vertexCount g.edgeCount} (hp : p.Tidy)
    {q : Paths D S c.graph.vertexCount c.graph.edgeCount} (hq : q.Tidy) (s : g.Vertex) :
    (p.weighted g.outEdges weights s).order =
      (q.weighted c.graph.outEdges (c.carry weights') s).order := by
  have horder := (h.exchangeable s).order_eq
  rw [← c.relabel_weighted] at horder
  rw [hp.weighted_eq, hq.weighted_eq]
  exact horder

theorem Keeps.same_dist (h : c.Keeps S weights weights')
    {p : Paths D S g.vertexCount g.edgeCount} (hp : p.Tidy)
    {q : Paths D S c.graph.vertexCount c.graph.edgeCount} (hq : q.Tidy) (s v : g.Vertex) :
    Distance.same (p.weighted g.outEdges weights s).dist[v]
      (q.weighted c.graph.outEdges (c.carry weights') s).dist[v] = true := by
  have hexchangeable := h.exchangeable s
  have htidy : ((Paths.fresh D S _ _).weighted g.outEdges weights s).Tidy :=
    Paths.tidy_weighted Paths.tidy_fresh g.nodup_outEdges s
  have htidy' : ((Paths.fresh D S _ _).weighted c.out weights' s).Tidy :=
    Paths.tidy_weighted Paths.tidy_fresh c.nodup_out s
  have hsame : Distance.same ((Paths.fresh D S _ _).weighted g.outEdges weights s).dist[v]
      ((Paths.fresh D S _ _).weighted c.out weights' s).dist[v] = true := by
    by_cases hv : v ∈ ((Paths.fresh D S _ _).weighted g.outEdges weights s).order.toList
    · exact hexchangeable.same_dist hv
    · have hv' := hv
      rw [hexchangeable.order_eq] at hv'
      rw [(htidy v hv).dist, (htidy' v hv').dist]
      exact Distance.same_self Lawful.unreached_admissible
  rw [hp.weighted_eq, hq.weighted_eq]
  rw [← c.relabel_weighted] at hsame
  exact hsame

end Source

/-! ## All sources -/

section Tally

variable {D : Type} [Distance D] [Lawful D] {weights weights' : Table D g.edgeCount} {c}

theorem Keeps.renamed (h : c.Keeps ℚ weights weights') (s : g.Vertex) : Renamed id c.step
    ((Paths.fresh D ℚ _ _).weighted c.graph.outEdges (c.carry weights') s)
    ((Paths.fresh D ℚ _ _).weighted g.outEdges weights s) := by
  apply Paths.renamed_relabel fun v => c.injective_step.injOn
  intro v a
  rw [c.relabel_weighted]
  exact (h.exchangeable s).mem_preds_iff v a

variable {plan : Schedule g.vertexCount} {plan' : Schedule c.graph.vertexCount}
  (hplan : plan.Complete) (hplan' : plan'.Complete)

include hplan hplan'

theorem Keeps.vertices_countedOnce (h : c.Keeps ℚ weights weights') (v : g.Vertex) :
    (countedOnce c.graph (c.graph.weightTally (S := ℚ) (c.carry weights') plan')).vertices[v] =
      (countedOnce g (g.weightTally (S := ℚ) weights plan)).vertices[v] := by
  have hv := (steady_weighted (c.carry weights')).vertices_tally_renamed (steady_weighted weights)
    (Equiv.refl _) hplan' hplan h.renamed v
  rw [weightTally_eq, weightTally_eq]
  exact vertices_countedOnce_congr (g := g) (h := c.graph) rfl hv.symm

theorem Keeps.edges_countedOnce (h : c.Keeps ℚ weights weights') (i : c.graph.EdgeId) :
    (countedOnce c.graph (c.graph.weightTally (S := ℚ) (c.carry weights') plan')).edges[i] =
      (countedOnce g (g.weightTally (S := ℚ) weights plan)).edges[c.edgeOf i] := by
  have hi := (steady_weighted (c.carry weights')).edges_tally_renamed (steady_weighted weights)
    (Equiv.refl _) hplan' hplan h.renamed (e := i) fun _ => c.injective.eq_iff
  rw [weightTally_eq, weightTally_eq]
  exact edges_countedOnce_congr (g := g) (h := c.graph) rfl hi.symm

end Tally

/-! ## The whole computation -/

section Computation

variable {F R : Type} [Distance F] [Precision F Length] [Zero R] [Add R] [Mul R] [Precision R ℚ]
  {lengths lengths' : Table Length g.edgeCount} {c}

/-- Scores of the selection are those of the graph. -/
theorem Keeps.betweenness_eq (h : c.Keeps ℚ lengths lengths') {plan : Schedule g.vertexCount}
    {plan' : Schedule c.graph.vertexCount} (hplan : plan.Complete) (hplan' : plan'.Complete)
    {weight' : Option (EdgeMap F Length)} (hlengths' : HasLengths c.graph weight' (c.carry lengths'))
    (normalize : Bool) :
    (betweenness c.graph plan' weight' normalize : Except (Fault Length) (Betweenness R ℚ)) =
      let total := countedOnce g (g.weightTally lengths plan)
      let factors : Factors ℚ := normalizationFactors g.vertexCount g.directed
      .ok ⟨⟨.double (Array.ofFn fun v : g.Vertex =>
          finishedScore normalize factors.vertex total.vertices[v])⟩,
        ⟨.double (Array.ofFn fun i : c.graph.EdgeId =>
          finishedScore normalize factors.edge total.edges[c.edgeOf i])⟩⟩ := by
  have hnonneg' : ∀ i : c.graph.EdgeId, 0 ≤ (c.carry lengths')[i] := by
    intro i
    rw [c.getElem_carry]
    exact Length.admissible_iff.mp (h.admissible' _)
  rw [betweenness_of_hasLengths hplan' hlengths' hnonneg' normalize]
  refine congrArg Except.ok (Betweenness.ofFn_congr rfl (fun v => ?_) fun i => ?_)
  · exact congrArg _ (h.vertices_countedOnce hplan hplan' v)
  · exact congrArg _ (h.edges_countedOnce hplan hplan' i)

end Computation

end Selection

end Graph

end Geodesic
