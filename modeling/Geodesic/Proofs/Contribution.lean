import Geodesic.Proofs.Credit
import Geodesic.Proofs.Schedule

/-!
# The schedule does not matter

However the sources are dealt out in batches, and however the tallies of the batches are merged, the
outcome is the sum of what every source adds on fresh tables of its own. Empty tallies that are
merged in between add nothing.
-/

namespace Geodesic

variable {D : Type} [Distance D] {g : Graph}
  {search : g.Vertex → Paths D ℚ g.vertexCount g.edgeCount → Paths D ℚ g.vertexCount g.edgeCount}

/-- The tally of one source on fresh tables. -/
def contribution (search : g.Vertex → Paths D ℚ g.vertexCount g.edgeCount →
    Paths D ℚ g.vertexCount g.edgeCount) (s : g.Vertex) : Tally ℚ g.vertexCount g.edgeCount :=
  (Worker.take search (Worker.fresh D ℚ _ _) s).dependency.tally

/-- A tally with a slot for every vertex and edge, each holding the sum of all contributions. -/
structure SumsContributions (search : g.Vertex → Paths D ℚ g.vertexCount g.edgeCount →
    Paths D ℚ g.vertexCount g.edgeCount) (t : Tally ℚ g.vertexCount g.edgeCount) : Prop where
  vertices : ∀ v : g.Vertex, t.vertices[v] = ∑ s : g.Vertex, (contribution search s).vertices[v]
  edges : ∀ e : g.EdgeId, t.edges[e] = ∑ s : g.Vertex, (contribution search s).edges[e]
  vertexSlots : t.vertices.toArray.size = g.vertexCount
  edgeSlots : t.edges.toArray.size = g.edgeCount

theorem SumsContributions.unique {t u : Tally ℚ g.vertexCount g.edgeCount}
    (ht : SumsContributions search t) (hu : SumsContributions search u) : t = u := by
  have hvertices : t.vertices = u.vertices :=
    Table.ext fun v => (ht.vertices v).trans (hu.vertices v).symm
  have hedges : t.edges = u.edges := Table.ext fun e => (ht.edges e).trans (hu.edges e).symm
  cases t with
  | mk vertices edges => exact congr (congrArg Tally.mk hvertices) hedges

section Entry

variable {x : Tally ℚ g.vertexCount g.edgeCount → ℚ} {amount : g.Vertex → ℚ}

theorem Additive.amount_eq (hx : Additive search x amount) (s : g.Vertex) :
    amount s = x (contribution search s) := by
  have hadded := hx.accumulate s (Dependency.fresh ℚ _ _) (Table.getElem_replicate 0)
  have hempty : x (Dependency.fresh ℚ g.vertexCount g.edgeCount).tally = 0 := hx.zero
  rw [hempty, zero_add] at hadded
  exact hadded.symm

theorem Steady.entry_tally (h : Steady g search) (hx : Additive search x amount)
    {plan : Schedule g.vertexCount} (hplan : plan.sources.Perm (List.finRange g.vertexCount)) :
    x (plan.tally search) = ∑ s : g.Vertex, x (contribution search s) := by
  have hamount : amount = fun s => x (contribution search s) := funext hx.amount_eq
  rw [h.tally_eq hx, (hplan.map amount).sum_eq, hamount, Fin.sum_univ_def]

end Entry

theorem Steady.sumsContributions (h : Steady g search) {plan : Schedule g.vertexCount}
    (hplan : plan.sources.Perm (List.finRange g.vertexCount)) :
    SumsContributions search (plan.tally search) where
  vertices v := h.entry_tally (h.additive_vertices v) hplan
  edges e := h.entry_tally (h.additive_edges e) hplan
  vertexSlots := Table.size_toArray _
  edgeSlots := Table.size_toArray _

/-- A schedule that takes every source once, in whatever order, has the tally of a single worker:
the sum of the contributions. -/
theorem tally_independent_of_schedule (g : Graph) (plan : Schedule g.vertexCount)
    (hplan : plan.sources.Perm (List.finRange g.vertexCount)) :
    (SumsContributions (fun s p => p.breadthFirst g.outEdges s) (g.hopTally plan) ∧
      (g.hopTally plan : Tally ℚ _ _) = g.hopTally (.sequential g.vertexCount)) ∧
    ∀ {D : Type} [Distance D] (weights : Table D g.edgeCount),
      SumsContributions (fun s p => p.weighted g.outEdges weights s) (g.weightTally weights plan) ∧
        (g.weightTally weights plan : Tally ℚ _ _) =
          g.weightTally weights (.sequential g.vertexCount) := by
  have hsequential : (Schedule.sequential g.vertexCount).sources.Perm
      (List.finRange g.vertexCount) := List.Perm.refl _
  constructor
  · rw [Graph.hopTally_eq, Graph.hopTally_eq]
    have hsums := (steady_breadthFirst g).sumsContributions hplan
    exact ⟨hsums, hsums.unique ((steady_breadthFirst g).sumsContributions hsequential)⟩
  · intro D _ weights
    rw [Graph.weightTally_eq, Graph.weightTally_eq]
    have hsums := (steady_weighted weights).sumsContributions hplan
    exact ⟨hsums, hsums.unique ((steady_weighted weights).sumsContributions hsequential)⟩

attribute [local instance] neZero_four

/-- Three batches, merged out of order and with empty tallies in between. -/
abbrev scattered : Schedule 4 :=
  .join (.join .idle (.batch [2, 3])) (.join (.batch [1]) (.join (.batch [0]) .idle))

theorem tally_scattered :
    scattered.sources.Perm (List.finRange 4) ∧
      (Dependency.flatDiamond.hopTally scattered : Tally ℚ 4 4) =
        Dependency.flatDiamond.hopTally (.sequential 4) ∧
      (Dependency.flatDiamond.weightTally (Table.replicate 4 (0.0 : Float)) scattered :
          Tally ℚ 4 4) =
        Dependency.flatDiamond.weightTally (Table.replicate 4 (0.0 : Float)) (.sequential 4) := by
  have hplan : scattered.sources.Perm (List.finRange 4) := by decide
  obtain ⟨⟨-, hhops⟩, hweighted⟩ :=
    tally_independent_of_schedule Dependency.flatDiamond scattered hplan
  exact ⟨hplan, hhops, (hweighted _).2⟩

end Geodesic
