import Mathlib.Algebra.GroupWithZero.Nat
import Mathlib.Data.List.FinRange
import Mathlib.Data.List.Nodup
import Geodesic.Graph
import Geodesic.Proofs.Walk

/-!
# Steps of a graph

A vertex lists each of its steps once, and an edge leads into a vertex from one vertex only. In an
undirected graph every step has one back.
-/

namespace Geodesic.Graph

variable (g : Graph)

theorem nodup_edgeIds : g.edgeIds.Nodup :=
  List.nodup_reverse.mpr (List.nodup_finRange _)

/-- A loop has no backward step, so no step is listed twice. -/
theorem nodup_outEdges (v : g.Vertex) : (g.outEdges v).Nodup := by
  have hforward : (g.edgeIds.filterMap (g.stepFrom? v)).Nodup := by
    apply g.nodup_edgeIds.filterMap
    rintro e e' ⟨d, w⟩ he he'
    rw [Option.mem_def, stepFrom?_eq_some_iff] at he he'
    rw [he.1, he'.1]
  have hbackward : (g.edgeIds.filterMap (g.stepInto? v)).Nodup := by
    apply g.nodup_edgeIds.filterMap
    rintro e e' ⟨d, w⟩ he he'
    rw [Option.mem_def, stepInto?_eq_some_iff] at he he'
    rw [he.1, he'.1]
  unfold outEdges
  split
  · rwa [List.append_nil]
  · refine List.nodup_append.mpr ⟨hforward, hbackward, ?_⟩
    rintro ⟨d, w⟩ ha b hb rfl
    obtain ⟨e, _, he⟩ := List.mem_filterMap.mp ha
    obtain ⟨e', _, he'⟩ := List.mem_filterMap.mp hb
    rw [stepFrom?_eq_some_iff] at he
    rw [stepInto?_eq_some_iff] at he'
    obtain ⟨rfl, hsource, _⟩ := he
    obtain ⟨rfl, _, hsource', hne⟩ := he'
    exact hne (hsource'.symm.trans hsource)

variable {g} {u u' v v' : g.Vertex} {e : g.EdgeId}

/-- The origin of a step is known from its edge and its end. -/
theorem origin_unique (h : (e, v) ∈ g.outEdges u) (h' : (e, v) ∈ g.outEdges u') : u = u' := by
  rw [mem_outEdges] at h h'
  grind

theorem same_or_reversed (h : (e, v) ∈ g.outEdges u) (h' : (e, v') ∈ g.outEdges u') :
    (u = u' ∧ v = v') ∨ (u = v' ∧ v = u') := by
  rw [mem_outEdges] at h h'
  grind

theorem mem_outEdges_symm (hg : g.directed = false) (h : (e, v) ∈ g.outEdges u) :
    (e, u) ∈ g.outEdges v := by
  rw [mem_outEdges] at h ⊢
  grind

/-! ## Other edges on the same vertices -/

abbrev withEdges (g : Graph) (edges : Array (Edge g.vertexCount)) : Graph :=
  ⟨g.directed, g.vertexCount, edges⟩

end Geodesic.Graph

/-- Numerals below four are vertices of examples, where this is an instance. -/
theorem Geodesic.neZero_four : NeZero 4 :=
  ⟨by decide⟩
