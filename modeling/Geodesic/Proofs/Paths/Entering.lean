import Geodesic.Proofs.Paths.Exact
import Geodesic.Proofs.Renumbering

/-!
# Recorded steps without the order of a search

A search by total weight records a tight step only when the order in which it visits vertices agrees,
and among vertices at one distance that order follows their numbers. Here the recorded steps are
described by walks alone, for lengths whose flat steps are settled.
-/

namespace Geodesic

open Distance (Admissible Reached total)

/-- The step ends a shortest walk from `s`. A flat step also has to be the only way into `v`. -/
structure Graph.Entering (g : Graph) (lengths : Table Length g.edgeCount) (s u v : g.Vertex)
    (e : g.EdgeId) : Prop where
  step : (e, v) ∈ g.outEdges u
  ne : u ≠ v
  shortest : ∃ es ∈ g.shortestWalks lengths s u, es ++ [e] ∈ g.shortestWalks lengths s v
  passed : lengths[e] = 0 → g.shortestWalks lengths s v ⊆ g.walksThrough lengths u s v

namespace Paths

variable {D : Type} {g : Graph} {s u v : g.Vertex} {e : g.EdgeId}
  {lengths : Table Length g.edgeCount} {dist : g.Vertex → Length}

structure EnteredBy (lengths : Table Length g.edgeCount) (s : g.Vertex)
    (p : Paths D ℚ g.vertexCount g.edgeCount) : Prop where
  recorded : Recorded g.outEdges s p
  preds_iff : ∀ (u v : g.Vertex) (e : g.EdgeId),
    (e, u) ∈ p.preds[v].toList ↔ g.Entering lengths s u v e

variable {p : Paths D ℚ g.vertexCount g.edgeCount}

namespace Measured

theorem exists_extended_iff (h : Measured lengths s dist p) (hstep : (e, v) ∈ g.outEdges u) :
    (∃ es ∈ g.shortestWalks lengths s u, es ++ [e] ∈ g.shortestWalks lengths s v) ↔
      dist u + lengths[e] = dist v ∧ dist v ≠ ⊤ := by
  simp only [h.mem_shortestWalks_iff]
  constructor
  · rintro ⟨es, ⟨-, htotal, -⟩, -, htotal', hfinite⟩
    rw [Distance.total_concat, htotal] at htotal'
    exact ⟨htotal', hfinite⟩
  · rintro ⟨htight, hfinite⟩
    have hu : dist u ≠ ⊤ := by
      rw [← htight] at hfinite
      exact (WithTop.add_ne_top.mp hfinite).1
    obtain ⟨l, hl⟩ := h.exists_trail_to hu
    refine ⟨walkOf l, ⟨leads_walkOf h.recorded hl, h.total_walkOf hl, hu⟩,
      leads_concat.mpr ⟨u, leads_walkOf h.recorded hl, hstep⟩, ?_, hfinite⟩
    rw [Distance.total_concat, h.total_walkOf hl]
    exact htight

/-- What all shortest walks to a vertex pass comes before it. -/
theorem before_of_passed (h : Measured lengths s dist p) (hv : dist v ≠ ⊤) (hne : u ≠ v)
    (hpassed : g.shortestWalks lengths s v ⊆ g.walksThrough lengths u s v) :
    Before p.order.toList u v := by
  obtain ⟨l, hl⟩ := h.exists_trail_to hv
  have hmem : walkOf l ∈ g.shortestWalks lengths s v :=
    h.mem_shortestWalks_iff.mpr ⟨leads_walkOf h.recorded hl, h.total_walkOf hl, hv⟩
  obtain ⟨a, ha, rfl⟩ := (exists_origin_iff h.recorded hl hne).mpr (hpassed hmem).2
  exact h.recorded.before_of_trail hl ha

end Measured

theorem Exact.enteredBy (h : Exact lengths s dist p) (hpos : ∀ e : g.EdgeId, 0 < lengths[e]) :
    EnteredBy lengths s p where
  recorded := h.recorded
  preds_iff u v e := by
    rw [h.preds_iff]
    constructor
    · rintro ⟨hstep, htight⟩
      refine ⟨hstep, ?_, (h.exists_extended_iff hstep).mpr htight,
        fun hzero => absurd hzero (hpos e).ne'⟩
      rintro rfl
      have hself : dist u < dist u + lengths[e] :=
        (add_zero (dist u)).symm.trans_lt (WithTop.add_lt_add_left htight.2 (hpos e))
      exact hself.ne' htight.1
    · rintro ⟨hstep, -, hshortest, -⟩
      exact ⟨hstep, (h.exists_extended_iff hstep).mp hshortest⟩

theorem enteredBy_breadthFirst {lengths : Table Length g.edgeCount}
    (hone : ∀ e : g.EdgeId, lengths[e] = 1) {p : Paths Hops ℚ g.vertexCount g.edgeCount}
    (hp : p.Tidy) (s : g.Vertex) : EnteredBy lengths s (p.breadthFirst g.outEdges s) := by
  refine (exact_breadthFirst hone hp s).enteredBy fun e => ?_
  rw [hone]
  exact zero_lt_one

/-- Settled flat steps leave nothing to the numbers of the vertices. -/
theorem enteredBy_weighted (hadmissible : ∀ e : g.EdgeId, Admissible lengths[e])
    (hsettled : g.Settled lengths) {p : Paths Length ℚ g.vertexCount g.edgeCount} (hp : p.Tidy)
    (s : g.Vertex) : EnteredBy lengths s (p.weighted g.outEdges lengths s) := by
  have hmeasured := measured_weighted hadmissible hp s
  have hshortest := shortestFrom_of_nodup hadmissible hp g.nodup_outEdges s
  refine ⟨hmeasured.recorded, fun u v e => ?_⟩
  rw [hshortest.preds_iff, Length.same_iff]
  generalize p.weighted g.outEdges lengths s = q at hmeasured hshortest
  constructor
  · rintro ⟨hstep, hbefore, htight⟩
    have hv : q.dist[v] ≠ ⊤ := (hmeasured.visited_iff v).mp hbefore.right_mem
    have hu : q.dist[u] ≠ ⊤ := (hmeasured.visited_iff u).mp hbefore.left_mem
    have hne : u ≠ v := by
      rintro rfl
      exact Before.irrefl hshortest.nodup hbefore
    have hextended := (hmeasured.exists_extended_iff hstep).mpr ⟨htight, hv⟩
    refine ⟨hstep, hne, hextended, fun hzero => ?_⟩
    rcases hsettled s u v e ⟨hstep, hne, hzero, hextended⟩ with hpassed | hpassed
    · exact hpassed
    · have hafter := hmeasured.before_of_passed hu hne.symm hpassed
      exact absurd hafter (Before.asymm hshortest.nodup hbefore)
  · rintro ⟨hstep, hne, hextended, hpassed⟩
    obtain ⟨htight, hv⟩ := (hmeasured.exists_extended_iff hstep).mp hextended
    refine ⟨hstep, ?_, htight⟩
    by_cases hzero : lengths[e] = 0
    · exact hmeasured.before_of_passed hv hne (hpassed hzero)
    · have hpos : 0 < lengths[e] :=
        lt_of_le_of_ne (Length.admissible_iff.mp (hadmissible e)) (Ne.symm hzero)
      have hu : q.dist[u] ≠ ⊤ := by
        rw [← htight] at hv
        exact (WithTop.add_ne_top.mp hv).1
      exact hshortest.before_of_tight hpos ((hmeasured.visited_iff u).mpr hu)
        ((hmeasured.visited_iff v).mpr hv) htight

end Paths

end Geodesic
