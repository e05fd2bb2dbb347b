import Geodesic.Proofs.Bidirected
import Geodesic.Proofs.Uniform

/-!
# Both ends see a pair alike

Searches set out from sources only. Still the search from `s` in a graph and the one from `t` in the
reversed graph find each other at one distance, by as many shortest paths, and scores do not change
when all edges are reversed. In an undirected graph every pair is therefore counted twice over all
sources, the same from both ends, and halving counts it once.
-/

namespace Geodesic

open Geodesic.Graph (Reversal)
open Paths (Exact Measured)
open Schedule (complete_sequential)

/-! ## Two searches that face each other -/

namespace Paths

/-- The search from `s` sees `t` as the one from `t` sees `s`. -/
structure Facing {D : Type} {n m m' : Nat} (s t : Fin n) (p : Paths D ℚ n m)
    (q : Paths D ℚ n m') : Prop where
  dist : q.dist[s] = p.dist[t]
  sigma : q.sigma[s] = p.sigma[t]

/-- What the pair of `s` and `t` adds to the score of `v` in a search from `s`. -/
noncomputable def credit {D : Type} {n m : Nat} (p : Paths D ℚ n m) (s v t : Fin n) : ℚ :=
  if v = s then 0 else p.share s (fun a => a.2 = v) t

theorem levelLength_eq_times {n m : Nat} {out : Fin n → List (Fin m × Fin n)} {s u : Fin n}
    {p : Paths Hops ℚ n m} (h : Sweeping out s p.order.toList u [] p) (v : Fin n) :
    p.levelLength v = Hops.times 1 p.dist[v] := by
  unfold levelLength
  split
  · rename_i hv
    rw [dist_eq_level ((h.visited_iff v).mp hv)]
    simp [Hops.times]
  · rename_i hv
    rw [not_not.mp (mt (h.visited_iff v).mpr hv)]
    rfl

theorem times_one_injective : Function.Injective (Hops.times 1) := by
  intro a b heq
  cases a with
  | none =>
      cases b with
      | none => rfl
      | some k => cases heq
  | some j =>
      cases b with
      | none => cases heq
      | some k => simpa [Hops.times] using heq

theorem Exact.vertexTerm_eq_credit {D : Type} {g : Graph} {lengths : Table Length g.edgeCount}
    {s : g.Vertex} {dist : g.Vertex → Length} {p : Paths D ℚ g.vertexCount g.edgeCount}
    (h : Exact lengths s dist p) (v t : g.Vertex) :
    g.vertexTerm lengths v s t = p.credit s v t := by
  unfold credit
  split
  · rename_i hvs
    simp [Graph.vertexTerm, hvs]
  · rename_i hvs
    exact h.vertexTerm_eq hvs t

end Paths

open Paths (Facing)

namespace Graph.Reversal

variable {g : Graph} {r : g.Reversal} {lengths : Table Length g.edgeCount}
  {lengths' : Table Length r.graph.edgeCount} (hr : r.Keeps lengths lengths') {s t : g.Vertex}

section Tables

variable {D D' : Type} {dist dist' : g.Vertex → Length} {p : Paths D ℚ g.vertexCount g.edgeCount}
  {q : Paths D' ℚ g.vertexCount r.graph.edgeCount}

include hr

/-- A trail of either search, walked back, is a walk for the other. -/
theorem dist_back (h : Measured lengths s dist p) (h' : Measured (g := r.graph) lengths' t dist' q) :
    dist' s = dist t := by
  apply le_antisymm
  · by_cases ht : dist t = ⊤
    · rw [ht]
      exact le_top
    · obtain ⟨l, hl⟩ := h.exists_trail_to ht
      have hwalk := Paths.leads_walkOf h.recorded hl
      rw [← h.total_walkOf hl, ← total_back hr]
      exact h'.least _ s (leads_back.mpr hwalk)
  · by_cases hs : dist' s = ⊤
    · rw [hs]
      exact le_top
    · obtain ⟨l, hl⟩ := h'.exists_trail_to hs
      have hwalk := Paths.leads_walkOf h'.recorded hl
      obtain ⟨es, hes⟩ := r.back_surjective (Paths.walkOf l)
      rw [← hes] at hwalk
      rw [← h'.total_walkOf hl, ← hes, total_back hr]
      exact h.least es t (leads_back.mp hwalk)

theorem sigma_back (h : Exact lengths s dist p) (h' : Exact (g := r.graph) lengths' t dist' q) :
    q.sigma[s] = p.sigma[t] := by
  rw [h'.recorded.sigma_eq_ncard, h.recorded.sigma_eq_ncard, ← h'.ncard_shortestWalks,
    ← h.ncard_shortestWalks, ncard_shortestWalks_back hr]

end Tables

theorem facing_weighted (hpos : ∀ e : g.EdgeId, 0 < lengths[e]) (hr : r.Keeps lengths lengths')
    {p : Paths Length ℚ g.vertexCount g.edgeCount} (hp : p.Tidy)
    {q : Paths Length ℚ g.vertexCount r.graph.edgeCount} (hq : q.Tidy) (s t : g.Vertex) :
    Facing s t (p.weighted g.outEdges lengths s) (q.weighted r.graph.outEdges lengths' t) := by
  have hpos' : ∀ i : r.graph.EdgeId, 0 < lengths'[i] := by
    intro i
    obtain ⟨e, rfl⟩ := r.edge.surjective i
    rw [hr]
    exact hpos e
  have hexact := Paths.exact_weighted hpos hp s
  have hexact' := Paths.exact_weighted (g := r.graph) hpos' hq t
  exact ⟨dist_back hr hexact.toMeasured hexact'.toMeasured, sigma_back hr hexact hexact'⟩

theorem facing_breadthFirst (r : g.Reversal) {p : Paths Hops ℚ g.vertexCount g.edgeCount}
    (hp : p.Tidy) {q : Paths Hops ℚ g.vertexCount r.graph.edgeCount} (hq : q.Tidy)
    (s t : g.Vertex) :
    Facing s t (p.breadthFirst g.outEdges s) (q.breadthFirst r.graph.outEdges t) := by
  have hone : ∀ (h : Graph) (e : h.EdgeId), (Table.replicate h.edgeCount (1 : Length))[e] = 1 :=
    fun _ => Table.getElem_replicate 1
  have hr : r.Keeps (Table.replicate _ 1) (Table.replicate _ 1) :=
    fun e => (hone r.graph (r.edge e)).trans (hone g e).symm
  have hexact := Paths.exact_breadthFirst (hone g) hp s
  have hexact' := Paths.exact_breadthFirst (hone r.graph) hq t
  refine ⟨?_, sigma_back hr hexact hexact'⟩
  have hlevels := dist_back hr hexact.toMeasured hexact'.toMeasured
  obtain ⟨u, hswept⟩ := Paths.exists_swept hp g.nodup_outEdges s
  obtain ⟨u', hswept'⟩ := Paths.exists_swept hq r.graph.nodup_outEdges t
  rw [Paths.levelLength_eq_times hswept, Paths.levelLength_eq_times hswept'] at hlevels
  exact Paths.times_one_injective hlevels

end Graph.Reversal

/-! ## All sources -/

/-- Sums over all sources in which every pair counts twice, once from either end and the same from
both. -/
structure CountedTwice {D : Type} (g : Graph)
    (found : g.Vertex → Paths D ℚ g.vertexCount g.edgeCount)
    (sums : Tally ℚ g.vertexCount g.edgeCount) : Prop where
  vertex_symm : ∀ v s t : g.Vertex, (found s).credit s v t = (found t).credit t v s
  edge_symm : ∀ (e : g.EdgeId) (s t : g.Vertex),
    (found s).share s (fun a => a.1 = e) t = (found t).share t (fun a => a.1 = e) s
  vertices : ∀ v : g.Vertex,
    sums.vertices[v] = 2 * ∑ q ∈ g.ends, (found q.1).credit q.1 v q.2
  edges : ∀ e : g.EdgeId,
    sums.edges[e] = 2 * ∑ q ∈ g.ends, (found q.1).share q.1 (fun a => a.1 = e) q.2

theorem countedTwice_of_exact {D : Type} [Distance D] {g : Graph}
    {lengths : Table Length g.edgeCount} {plan : Schedule g.vertexCount}
    {search : g.Vertex → Paths D ℚ g.vertexCount g.edgeCount → Paths D ℚ g.vertexCount g.edgeCount}
    (hg : g.directed = false) (h : Steady g search) (hplan : plan.Complete)
    (hexact : ∀ s : g.Vertex, ∃ dist, Exact lengths s dist (search s (Paths.fresh D ℚ _ _))) :
    CountedTwice g (fun s => search s (Paths.fresh D ℚ _ _)) (plan.tally search) := by
  have hvertex : ∀ v s t : g.Vertex,
      g.vertexTerm lengths v s t = (search s (Paths.fresh D ℚ _ _)).credit s v t := by
    intro v s t
    obtain ⟨dist, hs⟩ := hexact s
    exact hs.vertexTerm_eq_credit v t
  have hedge : ∀ (e : g.EdgeId) (s t : g.Vertex), g.edgeTerm lengths e s t =
      (search s (Paths.fresh D ℚ _ _)).share s (fun a => a.1 = e) t := by
    intro e s t
    obtain ⟨dist, hs⟩ := hexact s
    exact hs.edgeTerm_eq e t
  constructor
  · intro v s t
    rw [← hvertex, ← hvertex]
    exact Graph.vertexTerm_symm hg lengths v s t
  · intro e s t
    rw [← hedge, ← hedge]
    exact Graph.edgeTerm_symm hg lengths e s t
  · intro v
    have hhalf := vertices_countedOnce h hplan hexact v
    rw [countedOnce_of_undirected hg, Tally.vertices_halve, g.vertexScore_eq] at hhalf
    simp only [hvertex] at hhalf
    rw [← hhalf]
    ring
  · intro e
    have hhalf := edges_countedOnce h hplan hexact e
    rw [countedOnce_of_undirected hg, Tally.edges_halve, g.edgeScore_eq] at hhalf
    simp only [hedge] at hhalf
    rw [← hhalf]
    ring

/-! ## The reversed graph -/

namespace Graph

variable (g : Graph)

def reverse : Graph :=
  g.withEdges (g.edges.map Edge.reverse)

theorem edgeCount_reverse : g.reverse.edgeCount = g.edgeCount :=
  Array.size_map ..

def reverseWeights {D : Type} (weights : Table D g.edgeCount) : Table D g.reverse.edgeCount :=
  Table.ofArray weights.toArray (weights.size_toArray.trans g.edgeCount_reverse.symm)

theorem edge_reverse (e : g.EdgeId) :
    g.reverse.edge (finCongr g.edgeCount_reverse.symm e) = (g.edge e).reverse :=
  Array.getElem_map ..

def backward : g.Reversal where
  edges := g.edges.map Edge.reverse
  edge := finCongr g.edgeCount_reverse.symm
  mem_outEdges_iff u v e := by
    have hedge := g.edge_reverse e
    unfold reverse at hedge
    rw [mem_outEdges, mem_outEdges, hedge]
    exact or_congr and_comm (and_congr_right fun _ => and_comm)

theorem keeps_backward (lengths : Table Length g.edgeCount) :
    g.backward.Keeps lengths (g.reverseWeights lengths) :=
  fun _ => rfl

end Graph

section Computation

variable {F R : Type} [Distance F] [Precision F Length] [Zero R] [Add R] [Mul R] [Precision R ℚ]
  {g : Graph} {lengths : Table Length g.edgeCount}

omit [Distance F] in
theorem hasLengths_reverse {weight : Option (EdgeMap F Length)} (h : HasLengths g weight lengths) :
    HasLengths g.reverse weight (g.reverseWeights lengths) := by
  cases weight with
  | none =>
      intro i
      obtain ⟨e, rfl⟩ := g.backward.edge.surjective i
      exact h e
  | some map => exact h

/-- With all edges reversed, a search from `t` sees `s` as one from `s` saw `t`, and the scores are
the same. So in an undirected graph both ends of a pair see each other alike, and the sums over all
sources count it twice. -/
theorem betweenness_reverse (plan plan' : Schedule g.vertexCount) (hplan : plan.Complete)
    (hplan' : plan'.Complete) (weight : Option (EdgeMap F Length))
    (hlengths : HasLengths g weight lengths) (hpos : ∀ e : g.EdgeId, 0 < lengths[e]) :
    (∀ (p : Paths Hops ℚ g.vertexCount g.edgeCount)
      (q : Paths Hops ℚ g.vertexCount g.reverse.edgeCount), p.Tidy → q.Tidy → ∀ s t : g.Vertex,
        Facing s t (p.breadthFirst g.outEdges s) (q.breadthFirst g.reverse.outEdges t)) ∧
    (∀ (p : Paths Length ℚ g.vertexCount g.edgeCount)
      (q : Paths Length ℚ g.vertexCount g.reverse.edgeCount), p.Tidy → q.Tidy → ∀ s t : g.Vertex,
        Facing s t (p.weighted g.outEdges lengths s)
          (q.weighted g.reverse.outEdges (g.reverseWeights lengths) t)) ∧
    (∀ normalize : Bool, ∃ b : Betweenness R ℚ,
      (betweenness g plan weight normalize : Except (Fault Length) (Betweenness R ℚ)) = .ok b ∧
      (betweenness g.reverse plan' weight normalize : Except (Fault Length) (Betweenness R ℚ)) =
        .ok b) ∧
    (g.directed = false →
      (∀ p q : Paths Hops ℚ g.vertexCount g.edgeCount, p.Tidy → q.Tidy → ∀ s t : g.Vertex,
        Facing s t (p.breadthFirst g.outEdges s) (q.breadthFirst g.outEdges t)) ∧
      (∀ p q : Paths Length ℚ g.vertexCount g.edgeCount, p.Tidy → q.Tidy → ∀ s t : g.Vertex,
        Facing s t (p.weighted g.outEdges lengths s) (q.weighted g.outEdges lengths t)) ∧
      CountedTwice g (fun s => (Paths.fresh Hops ℚ _ _).breadthFirst g.outEdges s)
        (g.hopTally plan) ∧
      CountedTwice g (fun s => (Paths.fresh Length ℚ _ _).weighted g.outEdges lengths s)
        (g.weightTally lengths plan)) := by
  have hkeeps := g.keeps_backward lengths
  refine ⟨fun p q hp hq => g.backward.facing_breadthFirst hp hq,
    fun p q hp hq => Reversal.facing_weighted hpos hkeeps hp hq, fun normalize => ?_, fun hg => ?_⟩
  · have hpos' : ∀ i : g.reverse.EdgeId, 0 < (g.reverseWeights lengths)[i] := by
      intro i
      obtain ⟨e, rfl⟩ := g.backward.edge.surjective i
      exact hpos e
    have hscores := betweenness_of_pos (R := R) hplan hlengths hpos normalize
    have hscores' := betweenness_of_pos (R := R) (g := g.reverse) hplan'
      (hasLengths_reverse hlengths) hpos' normalize
    refine ⟨_, hscores, hscores'.trans (congrArg Except.ok ?_)⟩
    refine Betweenness.ofFn_congr g.edgeCount_reverse (fun v => ?_) fun i => ?_
    · exact congrArg _ (Reversal.vertexScore_back hkeeps v)
    · exact congrArg _ (Reversal.edgeScore_back hkeeps (i.cast g.edgeCount_reverse))
  · have hself : (Reversal.ofUndirected hg).Keeps lengths lengths := fun _ => rfl
    refine ⟨fun p q hp hq => (Reversal.ofUndirected hg).facing_breadthFirst hp hq,
      fun p q hp hq => Reversal.facing_weighted hpos hself hp hq, ?_, ?_⟩
    · rw [Graph.hopTally_eq]
      exact countedTwice_of_exact hg (steady_breadthFirst g) hplan fun s =>
        ⟨_, Paths.exact_breadthFirst (Table.getElem_replicate 1) Paths.tidy_fresh s⟩
    · rw [Graph.weightTally_eq]
      exact countedTwice_of_exact hg (steady_weighted lengths) hplan fun s =>
        ⟨_, Paths.exact_weighted hpos Paths.tidy_fresh s⟩

/-- The edges of `looseTriangle` with their stored direction. -/
abbrev oneWayTriangle : Graph where
  directed := true
  vertexCount := 4
  edges := looseTriangle.edges

theorem betweenness_reverse_triangle :
    let weight : Option (EdgeMap Length Length) := some ⟨.double looseLengths.toArray⟩
    let p := Paths.fresh Length ℚ 4 5
    let q := Paths.fresh Hops ℚ 4 5
    (Schedule.sequential 4).Complete ∧ HasLengths oneWayTriangle weight looseLengths ∧
      HasLengths looseTriangle weight looseLengths ∧ (∀ e : Fin 5, 0 < looseLengths[e]) ∧
      p.Tidy ∧ q.Tidy ∧
      Facing (0 : Fin 4) (2 : Fin 4) (q.breadthFirst oneWayTriangle.outEdges (0 : Fin 4))
        ((Paths.fresh Hops ℚ 4 _).breadthFirst oneWayTriangle.reverse.outEdges (2 : Fin 4)) ∧
      Facing (0 : Fin 4) (2 : Fin 4) (p.weighted oneWayTriangle.outEdges looseLengths (0 : Fin 4))
        ((Paths.fresh Length ℚ 4 _).weighted oneWayTriangle.reverse.outEdges
          (oneWayTriangle.reverseWeights looseLengths) (2 : Fin 4)) ∧
      (∃ b : Betweenness ℚ ℚ,
        (betweenness oneWayTriangle (.sequential 4) weight true :
          Except (Fault Length) (Betweenness ℚ ℚ)) = .ok b ∧
        (betweenness oneWayTriangle.reverse (.sequential 4) weight true :
          Except (Fault Length) (Betweenness ℚ ℚ)) = .ok b) ∧
      looseTriangle.directed = false ∧
      Facing (0 : Fin 4) (2 : Fin 4) (p.weighted looseTriangle.outEdges looseLengths (0 : Fin 4))
        (p.weighted looseTriangle.outEdges looseLengths (2 : Fin 4)) ∧
      CountedTwice looseTriangle (fun s => q.breadthFirst looseTriangle.outEdges s)
        (looseTriangle.hopTally (.sequential 4)) ∧
      CountedTwice looseTriangle (fun s => p.weighted looseTriangle.outEdges looseLengths s)
        (looseTriangle.weightTally looseLengths (.sequential 4)) := by
  intro weight p q
  have hplan := complete_sequential oneWayTriangle.vertexCount
  have hpos : ∀ e : Fin 5, 0 < looseLengths[e] := by decide +kernel
  have hp : p.Tidy := Paths.tidy_fresh
  have hq : q.Tidy := Paths.tidy_fresh
  obtain ⟨hhops, hlengths, hscores, -⟩ := betweenness_reverse (F := Length) (R := ℚ)
    (g := oneWayTriangle) _ _ hplan hplan weight rfl hpos
  obtain ⟨-, -, -, hundirected⟩ := betweenness_reverse (F := Length) (R := ℚ) (g := looseTriangle) _ _
    hplan hplan weight rfl hpos
  obtain ⟨-, hfacing, hhopSums, hlengthSums⟩ := hundirected rfl
  exact ⟨hplan, rfl, rfl, hpos, hp, hq, hhops q _ hq Paths.tidy_fresh _ _,
    hlengths p _ hp Paths.tidy_fresh _ _, hscores true,
    rfl, hfacing p p hp hp _ _, hhopSums, hlengthSums⟩

end Computation

end Geodesic
