import Mathlib.Logic.Equiv.Fin.Basic
import Geodesic.Proofs.Score

/-!
# Renumbered graphs

A renumbering names the vertices and edges of one graph by those of another and keeps all steps.
Walks, and which of them are shortest, are carried over. An automorphism is a renumbering of a graph
by itself.
-/

namespace Geodesic.Graph

open Distance (AtMost Reached total)

/-- Other numbers for the vertices and edges of `g`, with the same steps. -/
structure Renumbering (g h : Graph) where
  vertex : g.Vertex ≃ h.Vertex
  edge : g.EdgeId ≃ h.EdgeId
  directed : h.directed = g.directed
  mem_outEdges_iff : ∀ (u v : g.Vertex) (e : g.EdgeId),
    (edge e, vertex v) ∈ h.outEdges (vertex u) ↔ (e, v) ∈ g.outEdges u

/-- A step of length zero between different vertices, at the end of some shortest walk from `s`. -/
structure FlatStep {D : Type} [Distance D] (g : Graph) (lengths : Table D g.edgeCount)
    (s u v : g.Vertex) (e : g.EdgeId) : Prop where
  step : (e, v) ∈ g.outEdges u
  ne : u ≠ v
  flat : lengths[e] = Distance.zero
  shortest : ∃ es ∈ g.shortestWalks lengths s u, es ++ [e] ∈ g.shortestWalks lengths s v

/-- Flat steps do not join vertices that are reached independently: the shortest walks to one end all
pass the other. -/
def Settled {D : Type} [Distance D] (g : Graph) (lengths : Table D g.edgeCount) : Prop :=
  ∀ (s u v : g.Vertex) (e : g.EdgeId), g.FlatStep lengths s u v e →
    g.shortestWalks lengths s v ⊆ g.walksThrough lengths u s v ∨
      g.shortestWalks lengths s u ⊆ g.walksThrough lengths v s u

theorem subset_walksThrough_source {D : Type} [Distance D] {g : Graph}
    {lengths : Table D g.edgeCount} {s t : g.Vertex} :
    g.shortestWalks lengths s t ⊆ g.walksThrough lengths s s t :=
  fun es hes => ⟨hes, [], es, rfl, rfl, hes.1⟩

/-- Where only loops have the length zero there are no flat steps. -/
theorem settled_of_loops {D : Type} [Distance D] {g : Graph} {lengths : Table D g.edgeCount}
    (hloops : ∀ e : g.EdgeId, lengths[e] = Distance.zero →
      (g.edge e).source = (g.edge e).target) : g.Settled lengths := by
  intro s u v e hflat
  have hloop := hloops e hflat.flat
  refine absurd ?_ hflat.ne
  rcases (mem_outEdges g u v e).mp hflat.step with ⟨hsource, htarget⟩ | ⟨-, htarget, hsource⟩
  · rw [← hsource, ← htarget, hloop]
  · rw [← hsource, ← htarget, hloop]

namespace Renumbering

variable {g h : Graph} (i : Renumbering g h)

theorem leads_map {u v : g.Vertex} {es : List g.EdgeId} :
    Leads h.outEdges (i.vertex u) (es.map i.edge) (i.vertex v) ↔ Leads g.outEdges u es v := by
  induction es generalizing u with
  | nil => exact i.vertex.injective.eq_iff
  | cons e es ih =>
      rw [List.map_cons, leads_cons, leads_cons]
      constructor
      · rintro ⟨w, hstep, hrest⟩
        obtain ⟨w, rfl⟩ := i.vertex.surjective w
        exact ⟨w, (i.mem_outEdges_iff u w e).mp hstep, ih.mp hrest⟩
      · rintro ⟨w, hstep, hrest⟩
        exact ⟨i.vertex w, (i.mem_outEdges_iff u w e).mpr hstep, ih.mpr hrest⟩

theorem exists_map (es : List h.EdgeId) : ∃ fs : List g.EdgeId, fs.map i.edge = es :=
  ⟨es.map i.edge.symm, by simp⟩

/-! ## Lengths -/

section Lengths

variable {D : Type} [Distance D] {lengths : Table D g.edgeCount} {lengths' : Table D h.edgeCount}

/-- Each edge has the same length under both numbers. -/
def Keeps (lengths : Table D g.edgeCount) (lengths' : Table D h.edgeCount) : Prop :=
  ∀ e : g.EdgeId, lengths'[i.edge e] = lengths[e]

variable {i} (hi : i.Keeps lengths lengths') {s t u v : g.Vertex} {e : g.EdgeId}
  {es : List g.EdgeId}

include hi

theorem total_map (es : List g.EdgeId) : total lengths' (es.map i.edge) = total lengths es := by
  induction es using List.reverseRecOn with
  | nil => rfl
  | append_singleton es e ih =>
      rw [List.map_append, List.map_singleton, Distance.total_concat, Distance.total_concat, ih, hi]

theorem map_mem_shortestWalks : es.map i.edge ∈ h.shortestWalks lengths' (i.vertex s) (i.vertex t) ↔
    es ∈ g.shortestWalks lengths s t := by
  have hreached : Reached (total lengths' (es.map i.edge)) ↔ Reached (total lengths es) := by
    rw [total_map hi]
  refine and_congr i.leads_map (and_congr hreached ?_)
  rw [total_map hi]
  constructor
  · intro hleast fs hfs
    have hle := hleast (fs.map i.edge) (i.leads_map.mpr hfs)
    rwa [total_map hi] at hle
  · intro hleast fs hfs
    obtain ⟨fs, rfl⟩ := i.exists_map fs
    rw [total_map hi]
    exact hleast fs (i.leads_map.mp hfs)

theorem map_mem_walksThrough :
    es.map i.edge ∈ h.walksThrough lengths' (i.vertex v) (i.vertex s) (i.vertex t) ↔
      es ∈ g.walksThrough lengths v s t := by
  refine and_congr (map_mem_shortestWalks hi) ?_
  constructor
  · rintro ⟨_, _, heq, hfs, hhs⟩
    obtain ⟨fs, hs, rfl, rfl, rfl⟩ := List.map_eq_append_iff.mp heq
    exact ⟨fs, hs, rfl, i.leads_map.mp hfs, i.leads_map.mp hhs⟩
  · rintro ⟨fs, hs, rfl, hfs, hhs⟩
    exact ⟨_, _, List.map_append, i.leads_map.mpr hfs, i.leads_map.mpr hhs⟩

theorem subset_walksThrough_iff :
    h.shortestWalks lengths' (i.vertex s) (i.vertex t) ⊆
        h.walksThrough lengths' (i.vertex v) (i.vertex s) (i.vertex t) ↔
      g.shortestWalks lengths s t ⊆ g.walksThrough lengths v s t := by
  constructor
  · intro hsub es hes
    exact (map_mem_walksThrough hi).mp (hsub ((map_mem_shortestWalks hi).mpr hes))
  · intro hsub es hes
    obtain ⟨es, rfl⟩ := i.exists_map es
    exact (map_mem_walksThrough hi).mpr (hsub ((map_mem_shortestWalks hi).mp hes))

theorem exists_extended_iff :
    (∃ es ∈ h.shortestWalks lengths' (i.vertex s) (i.vertex u),
        es ++ [i.edge e] ∈ h.shortestWalks lengths' (i.vertex s) (i.vertex v)) ↔
      ∃ es ∈ g.shortestWalks lengths s u, es ++ [e] ∈ g.shortestWalks lengths s v := by
  have hconcat : ∀ fs : List g.EdgeId, fs.map i.edge ++ [i.edge e] = (fs ++ [e]).map i.edge :=
    fun fs => by rw [List.map_append, List.map_singleton]
  constructor
  · rintro ⟨es, hes, hext⟩
    obtain ⟨es, rfl⟩ := i.exists_map es
    rw [hconcat] at hext
    exact ⟨es, (map_mem_shortestWalks hi).mp hes, (map_mem_shortestWalks hi).mp hext⟩
  · rintro ⟨es, hes, hext⟩
    refine ⟨es.map i.edge, (map_mem_shortestWalks hi).mpr hes, ?_⟩
    rw [hconcat]
    exact (map_mem_shortestWalks hi).mpr hext

theorem flatStep_iff : h.FlatStep lengths' (i.vertex s) (i.vertex u) (i.vertex v) (i.edge e) ↔
    g.FlatStep lengths s u v e := by
  constructor
  · rintro ⟨hstep, hne, hflat, hext⟩
    rw [hi] at hflat
    exact ⟨(i.mem_outEdges_iff u v e).mp hstep, i.vertex.injective.ne_iff.mp hne, hflat,
      (exists_extended_iff hi).mp hext⟩
  · rintro ⟨hstep, hne, hflat, hext⟩
    rw [← hi e] at hflat
    exact ⟨(i.mem_outEdges_iff u v e).mpr hstep, i.vertex.injective.ne_iff.mpr hne, hflat,
      (exists_extended_iff hi).mpr hext⟩

theorem settled_map (hsettled : g.Settled lengths) : h.Settled lengths' := by
  intro s u v e hflat
  obtain ⟨s, rfl⟩ := i.vertex.surjective s
  obtain ⟨u, rfl⟩ := i.vertex.surjective u
  obtain ⟨v, rfl⟩ := i.vertex.surjective v
  obtain ⟨e, rfl⟩ := i.edge.surjective e
  rw [subset_walksThrough_iff hi, subset_walksThrough_iff hi]
  exact hsettled s u v e ((flatStep_iff hi).mp hflat)

end Lengths

end Renumbering

/-! ## Permuted vertices -/

/-- `g` with its vertices renumbered and its edges kept in place. -/
def renumber (g : Graph) (p : Equiv.Perm g.Vertex) : Graph where
  directed := g.directed
  vertexCount := g.vertexCount
  edges := g.edges.map (Edge.map p)

variable (g : Graph) (p : Equiv.Perm g.Vertex)

@[simp] theorem edgeCount_renumber : (g.renumber p).edgeCount = g.edgeCount := by
  simp [edgeCount, renumber]

def Renumbering.ofPerm : Renumbering g (g.renumber p) where
  vertex := p
  edge := finCongr (g.edgeCount_renumber p).symm
  directed := rfl
  mem_outEdges_iff u v e := by
    have hedge : (g.renumber p).edge (finCongr (g.edgeCount_renumber p).symm e) =
        (g.edge e).map p :=
      Array.getElem_map ..
    have hdirected : (g.renumber p).directed = g.directed := rfl
    rw [mem_outEdges, mem_outEdges, hedge, hdirected, Edge.source_map, Edge.target_map]
    have hp : ∀ x y : g.Vertex, p x = p y ↔ x = y := fun _ _ => p.injective.eq_iff
    exact or_congr (and_congr (hp _ _) (hp _ _))
      (and_congr_right fun _ => and_congr (hp _ _) (hp _ _))

end Geodesic.Graph
