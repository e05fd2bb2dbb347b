import Geodesic.Proofs.Score

/-!
# Graphs walked backward

A reversal has the vertices of a graph and its edges, under numbers of its own, with every step the
other way. The walks of a graph, walked back, are the walks of its reversal, so both ends of a pair
see the same shortest walks. An undirected graph is a reversal of itself.
-/

namespace Geodesic.Graph

open Distance (Reached total)

/-- Edges with the steps of `g`, each the other way. -/
structure Reversal (g : Graph) where
  edges : Array (Edge g.vertexCount)
  edge : g.EdgeId ≃ (g.withEdges edges).EdgeId
  mem_outEdges_iff : ∀ (u v : g.Vertex) (e : g.EdgeId),
    (edge e, u) ∈ (g.withEdges edges).outEdges v ↔ (e, v) ∈ g.outEdges u

namespace Reversal

def ofUndirected {g : Graph} (hg : g.directed = false) : g.Reversal where
  edges := g.edges
  edge := Equiv.refl _
  mem_outEdges_iff _ _ _ := ⟨mem_outEdges_symm hg, mem_outEdges_symm hg⟩

variable {g : Graph} (r : g.Reversal)

abbrev graph : Graph :=
  g.withEdges r.edges

def back (es : List g.EdgeId) : List r.graph.EdgeId :=
  es.reverse.map r.edge

theorem back_injective : Function.Injective r.back :=
  (List.map_injective_iff.mpr r.edge.injective).comp List.reverse_injective

theorem back_surjective : Function.Surjective r.back := by
  intro fs
  refine ⟨(fs.map r.edge.symm).reverse, ?_⟩
  simp [back]

theorem back_append (es fs : List g.EdgeId) : r.back (es ++ fs) = r.back fs ++ r.back es := by
  simp [back]

theorem mem_back {es : List g.EdgeId} {e : g.EdgeId} : r.edge e ∈ r.back es ↔ e ∈ es := by
  simp [back]

variable {r} {s t u v : g.Vertex} {es : List g.EdgeId} {e : g.EdgeId}

theorem leads_back : Leads r.graph.outEdges v (r.back es) u ↔ Leads g.outEdges u es v := by
  induction es generalizing u with
  | nil => exact eq_comm
  | cons e es ih =>
      have hlast : r.back (e :: es) = r.back es ++ [r.edge e] := by simp [back]
      rw [hlast, leads_concat, leads_cons]
      refine exists_congr fun w => ?_
      rw [ih, r.mem_outEdges_iff]
      exact and_comm

theorem ncard_back {A : Set (List g.EdgeId)} {B : Set (List r.graph.EdgeId)}
    (h : ∀ es, r.back es ∈ B ↔ es ∈ A) : B.ncard = A.ncard := by
  have himage : B = r.back '' A := by
    ext fs
    obtain ⟨es, rfl⟩ := r.back_surjective fs
    rw [h, r.back_injective.mem_set_image]
  rw [himage, Set.ncard_image_of_injective _ r.back_injective]

/-! ## Lengths -/

def Keeps (r : g.Reversal) (lengths : Table Length g.edgeCount)
    (lengths' : Table Length r.graph.edgeCount) : Prop :=
  ∀ e : g.EdgeId, lengths'[r.edge e] = lengths[e]

variable {lengths : Table Length g.edgeCount} {lengths' : Table Length r.graph.edgeCount}
  (hr : r.Keeps lengths lengths')

include hr

theorem total_back (es : List g.EdgeId) : total lengths' (r.back es) = total lengths es := by
  have hmap : ∀ e : g.EdgeId, ((fun i => lengths'[i]) ∘ r.edge) e = lengths[e] := hr
  rw [Length.total_eq_sum, Length.total_eq_sum, back, List.map_map, List.map_reverse,
    List.sum_reverse, List.map_congr_left fun e _ => hmap e]

theorem connected_back : r.graph.Connected lengths' t s ↔ g.Connected lengths s t := by
  constructor
  · intro h
    obtain ⟨fs, hfs, hreached⟩ := h
    obtain ⟨es, rfl⟩ := r.back_surjective fs
    rw [total_back hr] at hreached
    exact ⟨es, leads_back.mp hfs, hreached⟩
  · intro h
    obtain ⟨es, hes, hreached⟩ := h
    rw [← total_back hr] at hreached
    exact ⟨r.back es, leads_back.mpr hes, hreached⟩

theorem back_mem_shortestWalks :
    r.back es ∈ r.graph.shortestWalks lengths' t s ↔ es ∈ g.shortestWalks lengths s t := by
  have hreached : Reached (total lengths' (r.back es)) ↔ Reached (total lengths es) := by
    rw [total_back hr]
  refine and_congr leads_back (and_congr hreached ?_)
  rw [total_back hr]
  constructor
  · intro hleast fs hfs
    have hle := hleast (r.back fs) (leads_back.mpr hfs)
    rwa [total_back hr] at hle
  · intro hleast fs hfs
    obtain ⟨fs, rfl⟩ := r.back_surjective fs
    rw [total_back hr]
    exact hleast fs (leads_back.mp hfs)

theorem back_mem_walksThrough :
    r.back es ∈ r.graph.walksThrough lengths' v t s ↔ es ∈ g.walksThrough lengths v s t := by
  refine and_congr (back_mem_shortestWalks hr) ?_
  constructor
  · intro h
    obtain ⟨fs, hs, heq, hfs, hhs⟩ := h
    obtain ⟨fs, rfl⟩ := r.back_surjective fs
    obtain ⟨hs, rfl⟩ := r.back_surjective hs
    rw [← r.back_append] at heq
    exact ⟨hs, fs, r.back_injective heq, leads_back.mp hhs, leads_back.mp hfs⟩
  · intro h
    obtain ⟨fs, hs, rfl, hfs, hhs⟩ := h
    exact ⟨r.back hs, r.back fs, r.back_append fs hs, leads_back.mpr hhs, leads_back.mpr hfs⟩

theorem back_mem_walksAlong :
    r.back es ∈ r.graph.walksAlong lengths' (r.edge e) t s ↔ es ∈ g.walksAlong lengths e s t :=
  and_congr (back_mem_shortestWalks hr) r.mem_back

theorem ncard_shortestWalks_back :
    (r.graph.shortestWalks lengths' t s).ncard = (g.shortestWalks lengths s t).ncard :=
  ncard_back fun _ => back_mem_shortestWalks hr

/-! ## Scores -/

open Classical in
theorem vertexTerm_back : r.graph.vertexTerm lengths' v t s = g.vertexTerm lengths v s t := by
  have hthrough : (r.graph.walksThrough lengths' v t s).ncard =
      (g.walksThrough lengths v s t).ncard :=
    ncard_back fun _ => back_mem_walksThrough hr
  have hcondition : (t ≠ v ∧ s ≠ v ∧ r.graph.Connected lengths' t s) ↔
      (s ≠ v ∧ t ≠ v ∧ g.Connected lengths s t) := by
    rw [connected_back hr, and_left_comm]
  refine if_congr hcondition ?_ rfl
  rw [vertexShare, vertexShare, hthrough, ncard_shortestWalks_back hr]

open Classical in
theorem edgeTerm_back : r.graph.edgeTerm lengths' (r.edge e) t s = g.edgeTerm lengths e s t := by
  have halong : (r.graph.walksAlong lengths' (r.edge e) t s).ncard =
      (g.walksAlong lengths e s t).ncard :=
    ncard_back fun _ => back_mem_walksAlong hr
  refine if_congr (connected_back hr) ?_ rfl
  rw [edgeShare, edgeShare, halong, ncard_shortestWalks_back hr]

end Reversal

/-! ## Undirected graphs -/

section Undirected

variable {g : Graph} (hg : g.directed = false) (lengths : Table Length g.edgeCount)

include hg

theorem vertexTerm_symm (v s t : g.Vertex) :
    g.vertexTerm lengths v s t = g.vertexTerm lengths v t s := by
  have hback : (Reversal.ofUndirected hg).graph.vertexTerm lengths v s t =
      g.vertexTerm lengths v t s := Reversal.vertexTerm_back fun _ => rfl
  exact hback

theorem edgeTerm_symm (e : g.EdgeId) (s t : g.Vertex) :
    g.edgeTerm lengths e s t = g.edgeTerm lengths e t s := by
  have hback : (Reversal.ofUndirected hg).graph.edgeTerm lengths e s t =
      g.edgeTerm lengths e t s := Reversal.edgeTerm_back fun _ => rfl
  exact hback

end Undirected

/-! ## All pairs of ends -/

namespace Reversal

variable {g : Graph} {r : g.Reversal} {lengths : Table Length g.edgeCount}
  {lengths' : Table Length r.graph.edgeCount}

/-- Amounts that both ends of a pair give alike have the same sum over the pairs. -/
theorem sum_ends_back {f f' : g.Vertex → g.Vertex → ℚ} (hback : ∀ s t, f' t s = f s t)
    (hsymm : g.directed = false → ∀ s t, f s t = f t s) :
    ∑ q ∈ r.graph.ends, f' q.1 q.2 = ∑ q ∈ g.ends, f q.1 q.2 := by
  have hsymm' : r.graph.directed = false → ∀ s t, f' s t = f' t s := by
    intro hg s t
    rw [hback, hback]
    exact (hsymm hg s t).symm
  have hswap : ∑ q : g.Vertex × g.Vertex with q.1 ≠ q.2, f' q.1 q.2 =
      ∑ q : g.Vertex × g.Vertex with q.1 ≠ q.2, f q.1 q.2 := by
    apply Finset.sum_nbij' Prod.swap Prod.swap
    · simp [ne_comm]
    · simp [ne_comm]
    · simp
    · simp
    · exact fun q _ => hback q.2 q.1
  rw [g.sum_ends f hsymm, r.graph.sum_ends f' hsymm', hswap]

variable (hr : r.Keeps lengths lengths')

include hr

theorem vertexScore_back (v : g.Vertex) :
    r.graph.vertexScore lengths' v = g.vertexScore lengths v := by
  rw [vertexScore_eq, vertexScore_eq]
  exact sum_ends_back (fun s t => vertexTerm_back hr) fun hg => vertexTerm_symm hg lengths v

theorem edgeScore_back (e : g.EdgeId) :
    r.graph.edgeScore lengths' (r.edge e) = g.edgeScore lengths e := by
  rw [edgeScore_eq, edgeScore_eq]
  exact sum_ends_back (fun s t => edgeTerm_back hr) fun hg => edgeTerm_symm hg lengths e

end Reversal

end Geodesic.Graph
