import Geodesic.Proofs.Selection
import Geodesic.Proofs.Undirected

/-!
# The order of the edges and the way they are stored do not matter

Steps are listed from the highest edge number down, and those along the stored direction first. The
order of edges and, in an undirected graph, the direction in which they are stored decide what
searches try first, but not what they leave: vertices keep their scores, and edges take theirs along.
-/

namespace Geodesic

open Distance (Admissible Lawful)
open Schedule (complete_sequential)

namespace Graph

variable (g : Graph) (q : Equiv.Perm g.EdgeId) (turned : g.EdgeId → Bool)

/-- `g` with every edge `e` at the place `q e`, the `turned` ones stored the other way round. -/
def rearrange : Graph :=
  g.withEdges (Array.ofFn fun i =>
    if turned (q.symm i) then (g.edge (q.symm i)).reverse else g.edge (q.symm i))

theorem edgeCount_rearrange : (g.rearrange q turned).edgeCount = g.edgeCount :=
  Array.size_ofFn

def formerEdge (i : (g.rearrange q turned).EdgeId) : g.EdgeId :=
  q.symm (i.cast (g.edgeCount_rearrange q turned))

theorem formerEdge_injective : Function.Injective (g.formerEdge q turned) :=
  q.symm.injective.comp (Fin.cast_injective _)

theorem formerEdge_surjective : Function.Surjective (g.formerEdge q turned) := by
  intro e
  refine ⟨(q e).cast (g.edgeCount_rearrange q turned).symm, ?_⟩
  simp [formerEdge]

theorem edge_rearrange (i : (g.rearrange q turned).EdgeId) :
    (g.rearrange q turned).edge i =
      if turned (g.formerEdge q turned i) then (g.edge (g.formerEdge q turned i)).reverse
      else g.edge (g.formerEdge q turned i) :=
  Array.getElem_ofFn ..

/-- Only an undirected graph may be stored another way round. -/
def rearrangement (hturned : ∀ e, turned e → g.directed = false) : g.Selection :=
  .ofEdges (g.rearrange q turned).edges (g.formerEdge q turned)
    (g.formerEdge_injective q turned) <| by
      intro i
      have hedge := g.edge_rearrange q turned i
      cases ht : turned (g.formerEdge q turned i) with
      | false =>
          rw [ht] at hedge
          exact Or.inl hedge
      | true =>
          rw [ht] at hedge
          exact Or.inr ⟨hturned _ ht, hedge⟩

end Graph

section Computation

variable {F R : Type} [Distance F] [Precision F Length] [Zero R] [Add R] [Mul R] [Precision R ℚ]
  {g : Graph} {lengths : Table Length g.edgeCount}

/-- However the edges are arranged, vertices have the same scores and edges theirs, and every search
by total weight visits the vertices in the same order at the same distances. For the order the
numbers may be rounded ones. -/
theorem betweenness_rearrange (q : Equiv.Perm g.EdgeId) (turned : g.EdgeId → Bool)
    (hturned : ∀ e, turned e → g.directed = false) (plan plan' : Schedule g.vertexCount)
    (hplan : plan.Complete) (hplan' : plan'.Complete) (weight weight' : Option (EdgeMap F Length))
    (hlengths : HasLengths g weight lengths)
    (hlengths' : HasLengths (g.rearrange q turned) weight'
      ((g.rearrangement q turned hturned).carry lengths))
    (hnonneg : ∀ e : g.EdgeId, 0 ≤ lengths[e]) :
    (∀ normalize : Bool, ∃ (x : g.Vertex → ℚ) (y : g.EdgeId → ℚ),
      (betweenness g plan weight normalize : Except (Fault Length) (Betweenness R ℚ)) =
        .ok ⟨⟨.double (Array.ofFn x)⟩, ⟨.double (Array.ofFn y)⟩⟩ ∧
      (betweenness (g.rearrange q turned) plan' weight' normalize :
          Except (Fault Length) (Betweenness R ℚ)) =
        .ok ⟨⟨.double (Array.ofFn x)⟩, ⟨.double (Array.ofFn (y ∘ q.symm))⟩⟩) ∧
    (∀ (p : Paths Length ℚ g.vertexCount g.edgeCount)
      (p' : Paths Length ℚ g.vertexCount (g.rearrange q turned).edgeCount), p.Tidy → p'.Tidy →
        ∀ s : g.Vertex,
          let found := p.weighted g.outEdges lengths s
          let found' := p'.weighted (g.rearrange q turned).outEdges
            ((g.rearrangement q turned hturned).carry lengths) s
          found.order = found'.order ∧ found.dist = found'.dist) ∧
    ∀ {D S : Type} [Distance D] [Lawful D] [Zero S] [One S] [Add S] [LT S] [DecidableLT S]
      [PositiveCounts S] (weights : Table D g.edgeCount) (p : Paths D S g.vertexCount g.edgeCount)
      (p' : Paths D S g.vertexCount (g.rearrange q turned).edgeCount),
        (∀ e : g.EdgeId, Admissible weights[e]) → p.Tidy → p'.Tidy → ∀ s : g.Vertex,
          let found := p.weighted g.outEdges weights s
          let found' : Paths D S g.vertexCount (g.rearrange q turned).edgeCount :=
            p'.weighted (g.rearrange q turned).outEdges
              ((g.rearrangement q turned hturned).carry weights) s
          found.order = found'.order ∧
            ∀ v : g.Vertex, Distance.same found.dist[v] found'.dist[v] = true := by
  have hall : Function.Surjective (g.rearrangement q turned hturned).edgeOf :=
    g.formerEdge_surjective q turned
  have hkeeps : (g.rearrangement q turned hturned).Keeps ℚ lengths lengths :=
    Graph.Selection.keeps_of_surjective _ hall fun e => Length.admissible_iff.mpr (hnonneg e)
  refine ⟨fun normalize => ?_, fun p p' hp hp' s => ?_, ?_⟩
  · refine ⟨_, _, betweenness_of_hasLengths hplan hlengths hnonneg normalize,
      (hkeeps.betweenness_eq hplan hplan' hlengths' normalize).trans ?_⟩
    have hsize := g.edgeCount_rearrange q turned
    exact congrArg Except.ok (Betweenness.ofFn_congr hsize (fun _ => rfl) fun _ => rfl)
  · exact ⟨hkeeps.order_eq hp hp' s,
      Table.ext fun v => Length.same_iff.mp (hkeeps.same_dist hp hp' s v)⟩
  · intro D S _ _ _ _ _ _ _ _ weights p p' hweights hp hp' s
    have hkept : (g.rearrangement q turned hturned).Keeps S weights weights :=
      Graph.Selection.keeps_of_surjective _ hall hweights
    exact ⟨hkept.order_eq hp hp' s, hkept.same_dist hp hp' s⟩

def evenTurned (e : looseTie.EdgeId) : Bool :=
  e.val % 2 = 0

theorem betweenness_rearrange_looseTie :
    let q : Equiv.Perm looseTie.EdgeId := Fin.revPerm
    let h := looseTie.rearrange q evenTurned
    let weight : Option (EdgeMap Length Length) := some ⟨.double looseTieLengths.toArray⟩
    let weight' : Option (EdgeMap Length Length) := some ⟨.double #[⊤, 0, 0, 1, 1]⟩
    let rounded : Table Float looseTie.edgeCount := Table.ofArray #[0.1, 0.1, 0, 0, 1 / 0] rfl
    (∀ e, evenTurned e → looseTie.directed = false) ∧ (Schedule.sequential 4).Complete ∧
      HasLengths looseTie weight looseTieLengths ∧
      HasLengths h weight'
        ((looseTie.rearrangement q evenTurned fun _ _ => rfl).carry looseTieLengths) ∧
      (∀ e : Fin 5, 0 ≤ looseTieLengths[e]) ∧ (∀ e : looseTie.EdgeId, Admissible rounded[e]) ∧
      (∃ (x : Fin 4 → ℚ) (y : looseTie.EdgeId → ℚ),
        (betweenness looseTie (.sequential 4) weight true :
          Except (Fault Length) (Betweenness ℚ ℚ)) =
            .ok ⟨⟨.double (Array.ofFn x)⟩, ⟨.double (Array.ofFn y)⟩⟩ ∧
        (betweenness h (.sequential 4) weight' true : Except (Fault Length) (Betweenness ℚ ℚ)) =
          .ok ⟨⟨.double (Array.ofFn x)⟩, ⟨.double (Array.ofFn (y ∘ q.symm))⟩⟩) ∧
      (let found : Paths Length ℚ 4 5 :=
          (Paths.fresh Length ℚ 4 5).weighted looseTie.outEdges looseTieLengths (0 : Fin 4)
        let found' : Paths Length ℚ 4 h.edgeCount :=
          (Paths.fresh Length ℚ 4 h.edgeCount).weighted h.outEdges
            ((looseTie.rearrangement q evenTurned fun _ _ => rfl).carry looseTieLengths) (0 : Fin 4)
        found.order = found'.order ∧ found.dist = found'.dist) ∧
      (let found : Paths Float Float 4 5 :=
          (Paths.fresh Float Float 4 5).weighted looseTie.outEdges rounded (0 : Fin 4)
        let found' : Paths Float Float 4 h.edgeCount :=
          (Paths.fresh Float Float 4 h.edgeCount).weighted h.outEdges
            ((looseTie.rearrangement q evenTurned fun _ _ => rfl).carry rounded) (0 : Fin 4)
        found.order = found'.order ∧
          ∀ v : Fin 4, Distance.same found.dist[v] found'.dist[v] = true) := by
  intro q h weight weight' rounded
  have hturned : ∀ e, evenTurned e → looseTie.directed = false := fun _ _ => rfl
  have hplan := complete_sequential looseTie.vertexCount
  have hlengths' : HasLengths h weight'
      ((looseTie.rearrangement q evenTurned fun _ _ => rfl).carry looseTieLengths) := by
    unfold HasLengths
    decide +kernel
  have hnonneg : ∀ e : Fin 5, 0 ≤ looseTieLengths[e] := by decide +kernel
  have hadmissible : ∀ e : looseTie.EdgeId, Admissible rounded[e] := by
    unfold Admissible
    decide +kernel
  obtain ⟨hscores, hexact, hrounded⟩ := betweenness_rearrange (F := Length) (R := ℚ) q evenTurned
    hturned _ _ hplan hplan weight weight' rfl hlengths' hnonneg
  exact ⟨hturned, hplan, rfl, hlengths', hnonneg, hadmissible, hscores true,
    hexact _ _ Paths.tidy_fresh Paths.tidy_fresh (0 : Fin 4),
    hrounded rounded _ _ hadmissible Paths.tidy_fresh Paths.tidy_fresh (0 : Fin 4)⟩

end Computation

end Geodesic
