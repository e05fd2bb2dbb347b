import Mathlib.Data.List.FinRange
import Geodesic.Proofs.Graph
import Geodesic.Proofs.Paths.Relabel

/-!
# An undirected graph as a directed one

A directed graph on the same vertices has every edge between two vertices as two arcs, one either
way. A loop may be left out or be one arc. Under the numbers of their edges, the arcs that leave a
vertex are its steps in the undirected graph, but in another order and up to loops.
-/

namespace Geodesic

def Edge.reverse {n : Nat} (e : Edge n) : Edge n :=
  ⟨e.target, e.source⟩

namespace Graph

abbrev ofArcs {n : Nat} (arcs : Array (Edge n)) : Graph :=
  ⟨true, n, arcs⟩

/-- Arcs that run along the edges of `g` in both ways, in any order. -/
structure Bidirected (g : Graph) where
  arcs : Array (Edge g.vertexCount)
  edgeOf : (ofArcs arcs).EdgeId → g.EdgeId
  along : ∀ a, (ofArcs arcs).edge a = g.edge (edgeOf a) ∨
    (ofArcs arcs).edge a = (g.edge (edgeOf a)).reverse
  distinct : ∀ a b, edgeOf a = edgeOf b → (ofArcs arcs).edge a = (ofArcs arcs).edge b → a = b
  forward : ∀ e, (g.edge e).source ≠ (g.edge e).target →
    ∃ a, edgeOf a = e ∧ (ofArcs arcs).edge a = g.edge e
  backward : ∀ e, (g.edge e).source ≠ (g.edge e).target →
    ∃ a, edgeOf a = e ∧ (ofArcs arcs).edge a = (g.edge e).reverse

namespace Bidirected

variable {g : Graph} (b : g.Bidirected)

abbrev graph : Graph :=
  ofArcs b.arcs

def carry {D : Type} (weights : Table D g.edgeCount) : Table D b.graph.edgeCount :=
  Table.ofFn fun a => weights[b.edgeOf a]

@[simp] theorem getElem_carry {D : Type} (weights : Table D g.edgeCount) (a : b.graph.EdgeId) :
    (b.carry weights)[a] = weights[b.edgeOf a] :=
  Table.getElem_ofFn _ a

abbrev step : b.graph.Step → g.Step :=
  Geodesic.renumber b.edgeOf

/-- The arcs that leave a vertex, under the numbers of their edges. -/
def out (v : g.Vertex) : List g.Step :=
  (b.graph.outEdges v).map b.step

theorem mem_outEdges_iff (v w : g.Vertex) (a : b.graph.EdgeId) :
    (a, w) ∈ b.graph.outEdges v ↔ b.graph.edge a = ⟨v, w⟩ := by
  rw [mem_outEdges]
  constructor
  · rintro (⟨hsource, htarget⟩ | ⟨hundirected, -⟩)
    · rw [← hsource, ← htarget]
    · cases hundirected
  · intro harc
    rw [harc]
    exact Or.inl ⟨rfl, rfl⟩

variable {b} in
/-- One arc leads from one vertex to another along one edge. -/
theorem arc_unique {u v : g.Vertex} {a a' : b.graph.EdgeId} (h : (a, v) ∈ b.graph.outEdges u)
    (h' : (a', v) ∈ b.graph.outEdges u) (hedge : b.edgeOf a = b.edgeOf a') : a = a' := by
  apply b.distinct a a' hedge
  rw [(b.mem_outEdges_iff u v a).mp h, (b.mem_outEdges_iff u v a').mp h']

theorem nodup_out (v : g.Vertex) : (b.out v).Nodup := by
  apply (b.graph.nodup_outEdges v).map_on
  intro a ha a' ha' heq
  obtain ⟨hedge, hend⟩ := Prod.ext_iff.mp heq
  have hend : a.2 = a'.2 := hend
  have hback : (a'.1, a.2) ∈ b.graph.outEdges v := by
    rw [hend]
    exact ha'
  exact Prod.ext (arc_unique ha hback hedge) hend

theorem mem_out_iff (v w : g.Vertex) (e : g.EdgeId) :
    (e, w) ∈ b.out v ↔ ∃ a, b.edgeOf a = e ∧ b.graph.edge a = ⟨v, w⟩ := by
  unfold out
  rw [List.mem_map]
  constructor
  · intro h
    obtain ⟨a, ha, heq⟩ := h
    obtain ⟨hedge, hend⟩ := Prod.ext_iff.mp heq
    have harc := (b.mem_outEdges_iff v a.2 a.1).mp ha
    have hend : a.2 = w := hend
    rw [hend] at harc
    exact ⟨a.1, hedge, harc⟩
  · intro h
    obtain ⟨a, rfl, harc⟩ := h
    exact ⟨(a, w), (b.mem_outEdges_iff v w a).mpr harc, rfl⟩

theorem sameSteps (hg : g.directed = false) : SameSteps b.out g.outEdges := by
  intro u v e huv
  rw [b.mem_out_iff, mem_outEdges]
  constructor
  · intro h
    obtain ⟨a, rfl, harc⟩ := h
    rcases b.along a with hforward | hbackward
    · rw [← hforward, harc]
      exact Or.inl ⟨rfl, rfl⟩
    · have hedge : g.edge (b.edgeOf a) = ⟨v, u⟩ := by
        have hreverse := hbackward.symm.trans harc
        exact congrArg Edge.reverse hreverse
      rw [hedge]
      exact Or.inr ⟨hg, rfl, rfl⟩
  · intro h
    rcases h with ⟨rfl, rfl⟩ | ⟨-, rfl, rfl⟩
    · exact b.forward e huv
    · exact b.backward e (Ne.symm huv)

/-! ## Every graph has one -/

def ofList (l : List (g.EdgeId × Edge g.vertexCount)) (hnodup : l.Nodup)
    (halong : ∀ x ∈ l, x.2 = g.edge x.1 ∨ x.2 = (g.edge x.1).reverse)
    (hforward : ∀ e, (g.edge e).source ≠ (g.edge e).target → (e, g.edge e) ∈ l)
    (hbackward : ∀ e, (g.edge e).source ≠ (g.edge e).target → (e, (g.edge e).reverse) ∈ l) :
    g.Bidirected :=
  have hsize : (ofArcs (l.map Prod.snd).toArray).edgeCount = l.length := by simp [edgeCount]
  have hedge : ∀ a, (ofArcs (l.map Prod.snd).toArray).edge a = (l.get (a.cast hsize)).2 := by
    intro a
    exact (List.getElem_toArray ..).trans (List.getElem_map ..)
  have hget : ∀ x ∈ l, ∃ a, l.get (Fin.cast hsize a) = x := by
    intro x hx
    obtain ⟨i, hi⟩ := List.get_of_mem hx
    exact ⟨i.cast hsize.symm, hi⟩
  { arcs := (l.map Prod.snd).toArray
    edgeOf := fun a => (l.get (a.cast hsize)).1
    along := by
      intro a
      rw [hedge]
      exact halong _ (List.get_mem l _)
    distinct := by
      intro a b hnumber harc
      rw [hedge, hedge] at harc
      have hplace := List.nodup_iff_injective_get.mp hnodup (Prod.ext hnumber harc)
      exact Fin.cast_injective hsize hplace
    forward := by
      intro e he
      obtain ⟨a, ha⟩ := hget _ (hforward e he)
      refine ⟨a, ?_, ?_⟩
      · rw [ha]
      · rw [hedge, ha]
    backward := by
      intro e he
      obtain ⟨a, ha⟩ := hget _ (hbackward e he)
      refine ⟨a, ?_, ?_⟩
      · rw [ha]
      · rw [hedge, ha] }

end Bidirected

variable (g : Graph)

def properEdges : List g.EdgeId :=
  (List.finRange g.edgeCount).filter fun e => (g.edge e).source ≠ (g.edge e).target

/-- All edges as they are stored, then back along those that are no loops. -/
def arcList : List (g.EdgeId × Edge g.vertexCount) :=
  (List.finRange g.edgeCount).map (fun e => (e, g.edge e)) ++
    g.properEdges.map fun e => (e, (g.edge e).reverse)

theorem nodup_arcList : g.arcList.Nodup := by
  have hinjective : ∀ f : g.EdgeId → Edge g.vertexCount, Function.Injective fun e => (e, f e) :=
    fun _ _ _ heq => (Prod.ext_iff.mp heq).1
  have hforward := (List.nodup_finRange g.edgeCount).map (hinjective g.edge)
  have hbackward := ((List.nodup_finRange g.edgeCount).filter
    fun e => (g.edge e).source ≠ (g.edge e).target).map (hinjective fun e => (g.edge e).reverse)
  refine List.nodup_append.mpr ⟨hforward, hbackward, ?_⟩
  intro x hx y hy heq
  obtain ⟨e, -, rfl⟩ := List.mem_map.mp hx
  obtain ⟨e', he', rfl⟩ := List.mem_map.mp hy
  obtain ⟨rfl, hreverse⟩ := Prod.ext_iff.mp heq
  have hloop : (g.edge e).source = (g.edge e).target := congrArg Edge.source hreverse
  simp [properEdges, hloop] at he'

theorem along_of_mem_arcList (x : g.EdgeId × Edge g.vertexCount) (hx : x ∈ g.arcList) :
    x.2 = g.edge x.1 ∨ x.2 = (g.edge x.1).reverse := by
  rcases List.mem_append.mp hx with hx | hx
  · obtain ⟨e, -, rfl⟩ := List.mem_map.mp hx
    exact Or.inl rfl
  · obtain ⟨e, -, rfl⟩ := List.mem_map.mp hx
    exact Or.inr rfl

theorem forward_mem_arcList (e : g.EdgeId) : (e, g.edge e) ∈ g.arcList := by
  simp [arcList]

theorem backward_mem_arcList (e : g.EdgeId) (he : (g.edge e).source ≠ (g.edge e).target) :
    (e, (g.edge e).reverse) ∈ g.arcList := by
  simp [arcList, properEdges, he]

/-- The arcs of a graph, with a loop as one arc. -/
def bothWays : g.Bidirected :=
  .ofList g.arcList g.nodup_arcList g.along_of_mem_arcList (fun e _ => g.forward_mem_arcList e)
    g.backward_mem_arcList

end Graph

end Geodesic
