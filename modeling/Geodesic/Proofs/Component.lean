import Geodesic.Proofs.Paths.Placed
import Geodesic.Proofs.Schedule

/-!
# Parts of a graph that no step leaves

A component of a graph is a graph that stands in it under other numbers, with all steps of its
vertices. A source in a component adds to the slots of the component what it adds to the slots of
that graph alone, in the same order, and leaves all other slots as they are. So the arithmetic does
not matter.
-/

namespace Geodesic

variable {D S : Type} {n m n' m' : Nat} {i : Placement n m n' m'}

/-- No number is given in both placements. -/
structure Placement.Apart {a b : Nat} (i : Placement n m n' m') (j : Placement a b n' m') : Prop where
  vertex : ∀ (u : Fin n) (v : Fin a), i.vertex u ≠ j.vertex v
  edge : ∀ (d : Fin m) (e : Fin b), i.edge d ≠ j.edge e

theorem Placement.Apart.symm {a b : Nat} {j : Placement a b n' m'} (h : i.Apart j) : j.Apart i :=
  ⟨fun v u => (h.vertex u v).symm, fun e d => (h.edge d e).symm⟩

/-! ## Tallies -/

namespace Tally

/-- The second tally has on the placed slots what the first has. -/
structure Placed (i : Placement n m n' m') (t : Tally S n m) (t' : Tally S n' m') : Prop where
  vertices : Table.Placed i.vertex t.vertices t'.vertices
  edges : Table.Placed i.edge t.edges t'.edges

theorem placed_zero [Zero S] (i : Placement n m n' m') :
    Placed i (zero n m : Tally S n m) (zero n' m') :=
  ⟨Table.placed_replicate _ _, Table.placed_replicate _ _⟩

theorem Placed.halve [Div S] [OfNat S 2] {t : Tally S n m} {t' : Tally S n' m'}
    (h : Placed i t t') : Placed i t.halve t'.halve where
  vertices := h.vertices.map (· / 2)
  edges := h.edges.map (· / 2)

/-- Both tallies have the same on all slots that are not placed. -/
structure AgreeBeyond (i : Placement n m n' m') (t u : Tally S n' m') : Prop where
  vertices : ∀ v : Fin n', v ∉ Set.range i.vertex → u.vertices[v] = t.vertices[v]
  edges : ∀ e : Fin m', e ∉ Set.range i.edge → u.edges[e] = t.edges[e]

theorem AgreeBeyond.refl (i : Placement n m n' m') (t : Tally S n' m') : AgreeBeyond i t t :=
  ⟨fun _ _ => rfl, fun _ _ => rfl⟩

theorem AgreeBeyond.trans {t u x : Tally S n' m'} (h : AgreeBeyond i t u)
    (hnext : AgreeBeyond i u x) : AgreeBeyond i t x :=
  ⟨fun v hv => (hnext.vertices v hv).trans (h.vertices v hv),
    fun e he => (hnext.edges e he).trans (h.edges e he)⟩

theorem AgreeBeyond.placed {a b : Nat} {j : Placement a b n' m'} {t u : Tally S n' m'}
    {x : Tally S a b} (h : AgreeBeyond i t u) (hapart : i.Apart j) (hx : Placed j x t) :
    Placed j x u where
  vertices v := (h.vertices _ fun ⟨w, hw⟩ => hapart.vertex w v hw).trans (hx.vertices v)
  edges e := (h.edges _ fun ⟨d, hd⟩ => hapart.edge d e hd).trans (hx.edges e)

end Tally

/-! ## Dependencies -/

namespace Dependency

structure Placed (i : Placement n m n' m') (d : Dependency S n m) (d' : Dependency S n' m') :
    Prop where
  delta : Table.Placed i.vertex d.delta d'.delta
  tally : Tally.Placed i d.tally d'.tally

variable {p : Paths D S n m} {p' : Paths D S n' m'} {d : Dependency S n m} {d' : Dependency S n' m'}
  (hpaths : Paths.Placed i p p')

include hpaths

theorem Placed.creditStep [Add S] [Mul S] (h : Placed i d d')
    (hedge : Function.Injective i.edge) (c : S) (a : Fin m × Fin n) :
    Placed i (creditStep p c d a) (creditStep p' c d' (i.step a)) := by
  have hsigma : p'.sigma[(i.step a).2] = p.sigma[a.2] := hpaths.sigma a.2
  have hdelta : d'.delta[(i.step a).2] = d.delta[a.2] := h.delta a.2
  have hcredit : d'.tally.edges[(i.step a).1] = d.tally.edges[a.1] := h.tally.edges a.1
  unfold Dependency.creditStep Tally.addEdge
  rw [hsigma, hdelta, hcredit]
  exact ⟨h.delta.set i.injective_vertex a.2 _, h.tally.vertices, h.tally.edges.set hedge a.1 _⟩

theorem Placed.creditVertex [Add S] (h : Placed i d d') (w : Fin n) :
    Placed i (creditVertex p d w) (creditVertex p' d' (i.vertex w)) := by
  have hsource : p'.source = some (i.vertex w) ↔ p.source = some w := by
    rw [hpaths.source, ← Option.map_some,
      (Option.map_injective i.injective_vertex).eq_iff]
  unfold Dependency.creditVertex
  by_cases hw : p.source = some w
  · rw [if_pos hw, if_pos (hsource.mpr hw)]
    exact h
  · rw [if_neg hw, if_neg (mt hsource.mp hw), h.delta]
    unfold Tally.addVertex
    rw [h.tally.vertices]
    exact ⟨h.delta, h.tally.vertices.set i.injective_vertex w _, h.tally.edges⟩

variable [Zero S] [One S] [Add S] [Mul S] [Div S] [LE S] [DecidableLE S]

theorem Placed.passBack (h : Placed i d d') (hedge : Function.Injective i.edge) (w : Fin n) :
    Placed i (passBack p d w) (passBack p' d' (i.vertex w)) := by
  unfold Dependency.passBack
  rw [hpaths.sigma, hpaths.preds_eq, h.delta]
  split
  · exact h
  · dsimp only
    rw [Array.foldl_map]
    refine Placed.creditVertex hpaths ?_ w
    exact Array.foldl_rel h fun a _ _ _ hd =>
      hd.creditStep hpaths hedge ((1 + d.delta[w]) / p.sigma[w]) a

/-- A source hands back on the placed slots what it hands back on the first tables. -/
theorem Placed.accumulate (h : Placed i d d') (hedge : Function.Injective i.edge) :
    Placed i (d.accumulate p) (d'.accumulate p') := by
  rw [accumulate_eq, accumulate_eq, hpaths.order, Array.toList_map, ← List.map_reverse,
    List.foldl_map, List.foldl_map]
  have hhanded := List.foldl_rel (l := p.order.toList.reverse) h fun w _ _ _ hd =>
    hd.passBack hpaths hedge w
  exact List.foldl_rel hhanded fun v _ _ _ hd => ⟨hd.delta.set i.injective_vertex v 0, hd.tally⟩

/-- And it touches no others. -/
theorem agreeBeyond_accumulate (d' : Dependency S n' m') :
    Tally.AgreeBeyond i d'.tally (d'.accumulate p').tally := by
  rw [accumulate_eq, (foldl_clear ..).1, hpaths.order, Array.toList_map, ← List.map_reverse]
  constructor
  · intro v hv
    refine sweep_of_ne (x := fun d => d.tally.vertices[v]) ?_ d'
    intro w hw d
    obtain ⟨u, _, rfl⟩ := List.mem_map.mp hw
    exact vertices_passBack_of_ne fun heq => hv ⟨u, heq⟩
  · intro e he
    refine sweep_of_ne (x := fun d => d.tally.edges[e]) ?_ d'
    intro w hw d
    obtain ⟨u, _, rfl⟩ := List.mem_map.mp hw
    apply edges_passBack_of_ne
    intro a ha heq
    rw [hpaths.preds_eq, Array.toList_map, List.mem_map] at ha
    obtain ⟨b, _, rfl⟩ := ha
    exact he ⟨b.1, heq⟩

end Dependency

/-! ## Components -/

/-- `g` stands in `h`, with all steps of its vertices. -/
structure Graph.Component (g h : Graph) extends
    Placement g.vertexCount g.edgeCount h.vertexCount h.edgeCount where
  injective_edge : Function.Injective edge
  outEdges_vertex : ∀ v : g.Vertex,
    h.outEdges (vertex v) = (g.outEdges v).map toPlacement.step

namespace Graph.Component

variable {g h : Graph}

section Steps

variable {i : Placement g.vertexCount g.edgeCount h.vertexCount h.edgeCount}

theorem stepFrom?_vertex {e : g.EdgeId} (hedge : h.edge (i.edge e) = (g.edge e).map i.vertex)
    (v : g.Vertex) : h.stepFrom? (i.vertex v) (i.edge e) = (g.stepFrom? v e).map i.step := by
  unfold stepFrom?
  rw [hedge, Edge.source_map, Edge.target_map]
  simp only [i.injective_vertex.eq_iff]
  split
  · rfl
  · rfl

theorem stepInto?_vertex {e : g.EdgeId} (hedge : h.edge (i.edge e) = (g.edge e).map i.vertex)
    (v : g.Vertex) : h.stepInto? (i.vertex v) (i.edge e) = (g.stepInto? v e).map i.step := by
  unfold stepInto?
  rw [hedge, Edge.source_map, Edge.target_map]
  simp only [ne_eq, i.injective_vertex.eq_iff]
  split
  · rfl
  · rfl

theorem filterMap_edgeIds {others others' : List h.EdgeId}
    (hlisted : h.edgeIds = others ++ (g.edgeIds.map i.edge ++ others'))
    {step? : g.EdgeId → Option g.Step} {step?' : h.EdgeId → Option h.Step}
    (hstep : ∀ e : g.EdgeId, step?' (i.edge e) = (step? e).map i.step)
    (hnone : ∀ e ∈ others ++ others', step?' e = none) :
    h.edgeIds.filterMap step?' = (g.edgeIds.filterMap step?).map i.step := by
  have hbefore : others.filterMap step?' = [] :=
    List.filterMap_eq_nil_iff.mpr fun e he => hnone e (List.mem_append_left _ he)
  have hafter : others'.filterMap step?' = [] :=
    List.filterMap_eq_nil_iff.mpr fun e he => hnone e (List.mem_append_right _ he)
  rw [hlisted, List.filterMap_append, List.filterMap_append, hbefore, hafter, List.nil_append,
    List.append_nil, List.filterMap_map, List.map_filterMap]
  exact List.filterMap_congr fun e _ => hstep e

end Steps

/-- A graph is a component where its edges are listed in order, between edges that end at other
vertices only. -/
def ofEdges (i : Placement g.vertexCount g.edgeCount h.vertexCount h.edgeCount)
    (directed : h.directed = g.directed) (injective_edge : Function.Injective i.edge)
    (edge_eq : ∀ e : g.EdgeId, h.edge (i.edge e) = (g.edge e).map i.vertex)
    (others others' : List h.EdgeId)
    (listed : h.edgeIds = others ++ (g.edgeIds.map i.edge ++ others'))
    (elsewhere : ∀ e ∈ others ++ others', ∀ v : g.Vertex,
      (h.edge e).source ≠ i.vertex v ∧ (h.edge e).target ≠ i.vertex v) :
    g.Component h where
  toPlacement := i
  injective_edge := injective_edge
  outEdges_vertex v := by
    have hforward : h.edgeIds.filterMap (h.stepFrom? (i.vertex v)) =
        (g.edgeIds.filterMap (g.stepFrom? v)).map i.step := by
      apply filterMap_edgeIds listed
      · exact fun e => stepFrom?_vertex (edge_eq e) v
      · exact fun e he => if_neg (elsewhere e he v).1
    have hbackward : h.edgeIds.filterMap (h.stepInto? (i.vertex v)) =
        (g.edgeIds.filterMap (g.stepInto? v)).map i.step := by
      apply filterMap_edgeIds listed
      · exact fun e => stepInto?_vertex (edge_eq e) v
      · exact fun e he => if_neg fun hboth => (elsewhere e he v).2 hboth.1
    unfold outEdges
    rw [directed, hforward, hbackward, List.map_append]
    split
    · rfl
    · rfl

end Graph.Component

section Component

variable {g h : Graph} (c : g.Component h) [Distance D] [Zero S] [One S] [Add S]

theorem Graph.Component.placed_breadthFirst (s : g.Vertex) : Paths.Placed c.toPlacement
    ((Paths.fresh Hops S _ _).breadthFirst g.outEdges s)
    ((Paths.fresh Hops S _ _).breadthFirst h.outEdges (c.vertex s)) :=
  (Paths.placed_fresh c.toPlacement).breadthFirst c.outEdges_vertex s
    ((steady_breadthFirst g).size_order_le s) ((steady_breadthFirst h).size_order_le (c.vertex s))

theorem Graph.Component.placed_weighted {weights : Table D g.edgeCount}
    {weights' : Table D h.edgeCount} (hweights : Table.Placed c.edge weights weights')
    (s : g.Vertex) : Paths.Placed c.toPlacement
      ((Paths.fresh D S _ _).weighted g.outEdges weights s)
      ((Paths.fresh D S _ _).weighted h.outEdges weights' (c.vertex s)) :=
  Frontier.placed_weighted hweights c.outEdges_vertex (Paths.placed_fresh c.toPlacement) s

/-- A worker on `h` that took sources of `c`, beside a worker on `g` that took the same. It has on
the slots of `c` what that worker has, and elsewhere what it had in the beginning. -/
structure Graph.Component.Alongside (before : Tally S h.vertexCount h.edgeCount)
    (w : Worker D S g.vertexCount g.edgeCount) (w' : Worker D S h.vertexCount h.edgeCount) :
    Prop where
  ready : w.Ready
  ready' : w'.Ready
  placed : Tally.Placed c.toPlacement w.dependency.tally w'.dependency.tally
  kept : Tally.AgreeBeyond c.toPlacement before w'.dependency.tally

variable {c} [Mul S] [Div S] [LE S] [DecidableLE S] {before : Tally S h.vertexCount h.edgeCount}
  {w : Worker D S g.vertexCount g.edgeCount} {w' : Worker D S h.vertexCount h.edgeCount}
  {search : g.Vertex → Paths D S g.vertexCount g.edgeCount → Paths D S g.vertexCount g.edgeCount}
  {search' : h.Vertex → Paths D S h.vertexCount h.edgeCount → Paths D S h.vertexCount h.edgeCount}
  (hsearch : Steady g search) (hsearch' : Steady h search')
  (hplaced : ∀ s : g.Vertex, Paths.Placed c.toPlacement (search s (Paths.fresh D S _ _))
    (search' (c.vertex s) (Paths.fresh D S _ _)))

include hsearch hsearch' hplaced

theorem Graph.Component.Alongside.take (hw : c.Alongside before w w') (s : g.Vertex) :
    c.Alongside before (w.take search s) (w'.take search' (c.vertex s)) := by
  have hdependency : Dependency.Placed c.toPlacement w.dependency w'.dependency :=
    ⟨fun v => (hw.ready'.cleared _).trans (hw.ready.cleared v).symm, hw.placed⟩
  refine ⟨hsearch.ready_take hw.ready s, hsearch'.ready_take hw.ready' (c.vertex s), ?_, ?_⟩
  · rw [hsearch.take_eq hw.ready, hsearch'.take_eq hw.ready']
    exact (hdependency.accumulate (hplaced s) c.injective_edge).tally
  · rw [hsearch'.take_eq hw.ready']
    exact hw.kept.trans (Dependency.agreeBeyond_accumulate (hplaced s) w'.dependency)

theorem Graph.Component.Alongside.batch (hw : c.Alongside before w w') (ss : List g.Vertex) :
    c.Alongside before (ss.foldl (Worker.take search) w)
      ((ss.map c.vertex).foldl (Worker.take search') w') := by
  rw [List.foldl_map]
  exact List.foldl_rel hw fun s _ _ _ hnext => hnext.take hsearch hsearch' hplaced s

end Component

end Geodesic
