import Geodesic.Proofs.Betweenness
import Geodesic.Proofs.Paths.Entering
import Geodesic.Proofs.Paths.Renamed

/-!
# Scores do not depend on the numbers of vertices and edges

Where flat steps are settled, the steps that a search records are described by walks alone. So a
renumbering carries the trails of one graph to those of the other, and with them the shares, the
tallies and the scores. Flat steps that are not settled let the numbers show.
-/

namespace Geodesic

open Geodesic.Graph (Entering Renumbering Settled)
open Paths (EnteredBy Renamed)
open Schedule (complete_sequential)

/-! ## One source -/

namespace Graph.Renumbering

variable {g h : Graph} (i : Renumbering g h)

def step : g.Step ≃ h.Step :=
  i.edge.prodCongr i.vertex

variable {i} {lengths : Table Length g.edgeCount} {lengths' : Table Length h.edgeCount}
  (hi : i.Keeps lengths lengths')

include hi

theorem entering_iff {s u v : g.Vertex} {e : g.EdgeId} :
    h.Entering lengths' (i.vertex s) (i.vertex u) (i.vertex v) (i.edge e) ↔
      g.Entering lengths s u v e := by
  have hstep := i.mem_outEdges_iff u v e
  have hne : i.vertex u ≠ i.vertex v ↔ u ≠ v := i.vertex.injective.ne_iff
  constructor
  · rintro ⟨hs, hn, hshortest, hpassed⟩
    rw [hi, subset_walksThrough_iff hi] at hpassed
    exact ⟨hstep.mp hs, hne.mp hn, (exists_extended_iff hi).mp hshortest, hpassed⟩
  · rintro ⟨hs, hn, hshortest, hpassed⟩
    rw [← hi, ← subset_walksThrough_iff hi] at hpassed
    exact ⟨hstep.mpr hs, hne.mpr hn, (exists_extended_iff hi).mpr hshortest, hpassed⟩

variable {D D' : Type} {s t : g.Vertex} {p : Paths D ℚ g.vertexCount g.edgeCount}
  {q : Paths D' ℚ h.vertexCount h.edgeCount} (hp : EnteredBy lengths s p)
  (hq : EnteredBy lengths' (i.vertex s) q)

include hp hq

theorem mem_preds_map {a : g.Step} :
    i.step a ∈ q.preds[i.vertex t].toList ↔ a ∈ p.preds[t].toList :=
  ((hq.preds_iff (i.vertex a.2) (i.vertex t) (i.edge a.1)).trans (entering_iff hi)).trans
    (hp.preds_iff a.2 t a.1).symm

/-- The recorded steps of the one are those of the other under their other numbers. -/
theorem renamed : Renamed i.vertex i.step p q where
  injective := i.vertex.injective
  origin _ := rfl
  injOn _ := i.step.injective.injOn
  mem_iff t b := by
    constructor
    · intro hb
      obtain ⟨a, rfl⟩ := i.step.surjective b
      exact ⟨a, (mem_preds_map hi hp hq).mp hb, rfl⟩
    · intro hb
      obtain ⟨a, ha, rfl⟩ := hb
      exact (mem_preds_map hi hp hq).mpr ha

end Graph.Renumbering

/-! ## All sources -/

section Tally

variable {g h : Graph} {i : Renumbering g h} {plan : Schedule g.vertexCount}
  {plan' : Schedule h.vertexCount} (hplan : plan.Complete) (hplan' : plan'.Complete)

include hplan hplan'

section Search

variable {D D' : Type} [Distance D] [Distance D']
  {search : g.Vertex → Paths D ℚ g.vertexCount g.edgeCount → Paths D ℚ g.vertexCount g.edgeCount}
  {search' : h.Vertex → Paths D' ℚ h.vertexCount h.edgeCount →
    Paths D' ℚ h.vertexCount h.edgeCount}
  {lengths : Table Length g.edgeCount} {lengths' : Table Length h.edgeCount}
  (hsearch : Steady g search) (hsearch' : Steady h search') (hi : i.Keeps lengths lengths')
  (hentered : ∀ s : g.Vertex, EnteredBy lengths s (search s (Paths.fresh D ℚ _ _)))
  (hentered' : ∀ s : h.Vertex, EnteredBy lengths' s (search' s (Paths.fresh D' ℚ _ _)))

include hsearch hsearch' hi hentered hentered'

theorem vertices_tally_map (v : g.Vertex) :
    (plan'.tally search').vertices[i.vertex v] = (plan.tally search).vertices[v] :=
  hsearch.vertices_tally_renamed hsearch' i.vertex hplan hplan'
    (fun s => Renumbering.renamed hi (hentered s) (hentered' _)) v

theorem edges_tally_map (e : g.EdgeId) :
    (plan'.tally search').edges[i.edge e] = (plan.tally search).edges[e] :=
  hsearch.edges_tally_renamed hsearch' i.vertex hplan hplan'
    (fun s => Renumbering.renamed hi (hentered s) (hentered' _))
    fun _ => i.edge.injective.eq_iff

end Search

end Tally

/-- Two tallies whose entries are the same under both numberings. -/
structure SameTally {g h : Graph} (i : Renumbering g h) (a : Tally ℚ g.vertexCount g.edgeCount)
    (b : Tally ℚ h.vertexCount h.edgeCount) : Prop where
  vertices : ∀ v : g.Vertex, b.vertices[i.vertex v] = a.vertices[v]
  edges : ∀ e : g.EdgeId, b.edges[i.edge e] = a.edges[e]

theorem SameTally.countedOnce {g h : Graph} {i : Renumbering g h}
    {a : Tally ℚ g.vertexCount g.edgeCount} {b : Tally ℚ h.vertexCount h.edgeCount}
    (hab : SameTally i a b) : SameTally i (countedOnce g a) (countedOnce h b) where
  vertices v := vertices_countedOnce_congr i.directed (hab.vertices v)
  edges e := edges_countedOnce_congr i.directed (hab.edges e)

/-! ## The whole computation -/

section Computation

variable {F R : Type} [Distance F] [Precision F Length] [Zero R] [Add R] [Mul R] [Precision R ℚ]

omit [Zero R] [Add R] [Mul R] [Precision R ℚ] in
theorem totals_map {g h : Graph} {i : Renumbering g h} {plan : Schedule g.vertexCount}
    {plan' : Schedule h.vertexCount} (hplan : plan.Complete) (hplan' : plan'.Complete)
    {weights : Option (Table Length g.edgeCount)} {weights' : Option (Table Length h.edgeCount)}
    (hkeeps : Option.Rel i.Keeps weights weights')
    (hadmissible : ∀ lengths ∈ weights, ∀ e : g.EdgeId, Distance.Admissible lengths[e])
    (hsettled : ∀ lengths ∈ weights, g.Settled lengths) (xs ys : Array ℚ) :
    SameTally i (totals (F := F) g plan weights (.double xs : Slots R ℚ))
      (totals (F := F) h plan' weights' (.double ys : Slots R ℚ)) := by
  cases hkeeps with
  | none =>
      have hone : ∀ k : Graph, ∀ e : k.EdgeId, (Table.replicate k.edgeCount (1 : Length))[e] = 1 :=
        fun _ => Table.getElem_replicate 1
      have hi : i.Keeps (Table.replicate g.edgeCount (1 : Length)) (Table.replicate h.edgeCount 1) :=
        fun e => (hone h (i.edge e)).trans (hone g e).symm
      have hentered : ∀ (k : Graph) (s : k.Vertex), EnteredBy (Table.replicate k.edgeCount 1) s
          ((Paths.fresh Hops ℚ _ _).breadthFirst k.outEdges s) :=
        fun k => Paths.enteredBy_breadthFirst (hone k) Paths.tidy_fresh
      have hsame : SameTally i (g.hopTally plan) (h.hopTally plan') := by
        rw [Graph.hopTally_eq, Graph.hopTally_eq]
        exact ⟨vertices_tally_map hplan hplan' (steady_breadthFirst g) (steady_breadthFirst h) hi
            (hentered g) (hentered h),
          edges_tally_map hplan hplan' (steady_breadthFirst g) (steady_breadthFirst h) hi
            (hentered g) (hentered h)⟩
      exact hsame.countedOnce
  | @some lengths lengths' hi =>
      have hadmissible' : ∀ e : h.EdgeId, Distance.Admissible lengths'[e] := by
        intro e
        obtain ⟨e, rfl⟩ := i.edge.surjective e
        rw [hi]
        exact hadmissible lengths rfl e
      have hentered : ∀ s : g.Vertex, EnteredBy lengths s
          ((Paths.fresh Length ℚ _ _).weighted g.outEdges lengths s) :=
        Paths.enteredBy_weighted (hadmissible lengths rfl) (hsettled lengths rfl) Paths.tidy_fresh
      have hentered' : ∀ s : h.Vertex, EnteredBy lengths' s
          ((Paths.fresh Length ℚ _ _).weighted h.outEdges lengths' s) :=
        Paths.enteredBy_weighted hadmissible'
          (Renumbering.settled_map hi (hsettled lengths rfl)) Paths.tidy_fresh
      have hsame : SameTally i (g.weightTally lengths plan) (h.weightTally lengths' plan') := by
        rw [Graph.weightTally_eq, Graph.weightTally_eq]
        exact ⟨vertices_tally_map hplan hplan' (steady_weighted lengths) (steady_weighted lengths')
            hi hentered hentered',
          edges_tally_map hplan hplan' (steady_weighted lengths) (steady_weighted lengths')
            hi hentered hentered'⟩
      exact hsame.countedOnce

omit [Distance F] in
theorem admitted_renumber {g : Graph} (p : Equiv.Perm g.Vertex)
    {weight : Option (EdgeMap F Length)} {weights : Option (Table Length g.edgeCount)}
    (hweights : weight.mapM (admitWeights g) = .ok weights) :
    ∃ weights', weight.mapM (admitWeights (g.renumber p)) = .ok weights' ∧
      Option.Rel (Renumbering.ofPerm g p).Keeps weights weights' := by
  cases weights with
  | none =>
      cases weight with
      | none => exact ⟨none, rfl, .none⟩
      | some map =>
          obtain ⟨lengths, hnone, _⟩ := mapM_admitWeights_iff.mp hweights
          cases hnone
  | some lengths =>
      obtain ⟨map, rfl, hlengths⟩ := admitted_of_mem hweights rfl
      obtain ⟨hnumbers, hadmissible⟩ := admitWeights_eq_ok_iff.mp hlengths
      have hsize : lengths.toArray.size = (g.renumber p).edgeCount := by simp
      have hkeeps : (Renumbering.ofPerm g p).Keeps lengths (Table.ofArray lengths.toArray hsize) :=
        fun _ => rfl
      have hadmitted : admitWeights (g.renumber p) map =
          .ok (Table.ofArray lengths.toArray hsize) := by
        refine admitWeights_eq_ok_iff.mpr ⟨hnumbers, fun e => ?_⟩
        obtain ⟨e, rfl⟩ := (Renumbering.ofPerm g p).edge.surjective e
        rw [hkeeps]
        exact hadmissible e
      exact ⟨_, mapM_admitWeights_iff.mpr ⟨_, rfl, hadmitted⟩, .some hkeeps⟩

section Permuted

variable {g : Graph} {plan : Schedule g.vertexCount} {p : Equiv.Perm g.Vertex}
  {plan' : Schedule (g.renumber p).vertexCount} {weight : Option (EdgeMap F Length)}
  {weights : Option (Table Length g.edgeCount)} {normalize : Bool} {x : g.Vertex → ℚ}
  {y : g.EdgeId → ℚ}

theorem betweenness_permuted (hplan : plan.Complete) (hplan' : plan'.Complete)
    (hweights : weight.mapM (admitWeights g) = .ok weights)
    (hsettled : ∀ lengths ∈ weights, g.Settled lengths)
    (hscores : (betweenness g plan weight normalize : Except (Fault Length) (Betweenness R ℚ)) =
      .ok ⟨⟨.double (Array.ofFn x)⟩, ⟨.double (Array.ofFn y)⟩⟩) :
    (betweenness (g.renumber p) plan' weight normalize :
        Except (Fault Length) (Betweenness R ℚ)) =
      .ok ⟨⟨.double (Array.ofFn (x ∘ p.symm))⟩, ⟨.double (Array.ofFn y)⟩⟩ := by
  obtain ⟨weights', hweights', hkeeps⟩ := admitted_renumber p hweights
  have hsame := totals_map (F := F) (R := R) hplan hplan' hkeeps
    (fun _ hmem => admissible_of_mem hweights hmem) hsettled
    (Array.replicate g.edgeCount 0) (Array.replicate (g.renumber p).edgeCount 0)
  rw [betweenness_eq_entries plan hweights normalize] at hscores
  obtain ⟨rfl, rfl⟩ := Betweenness.ofFn_inj (Except.ok.inj hscores)
  rw [betweenness_eq_entries plan' hweights' normalize]
  refine congrArg Except.ok (Betweenness.ofFn_congr (g.edgeCount_renumber p) (fun v => ?_)
    fun e => congrArg _ (hsame.edges (e.cast (g.edgeCount_renumber p))))
  have hv := hsame.vertices (p.symm v)
  rw [show (Renumbering.ofPerm g p).vertex (p.symm v) = v from p.apply_symm_apply v] at hv
  exact congrArg _ hv

/-- Weights that are zero on loops only leave nothing to the numbers of the vertices. -/
theorem betweenness_permuted_of_loops (hplan : plan.Complete) (hplan' : plan'.Complete)
    (hweights : weight.mapM (admitWeights g) = .ok weights)
    (hloops : ∀ lengths ∈ weights, ∀ e : g.EdgeId, lengths[e] = 0 →
      (g.edge e).source = (g.edge e).target)
    (hscores : (betweenness g plan weight normalize : Except (Fault Length) (Betweenness R ℚ)) =
      .ok ⟨⟨.double (Array.ofFn x)⟩, ⟨.double (Array.ofFn y)⟩⟩) :
    (betweenness (g.renumber p) plan' weight normalize :
        Except (Fault Length) (Betweenness R ℚ)) =
      .ok ⟨⟨.double (Array.ofFn (x ∘ p.symm))⟩, ⟨.double (Array.ofFn y)⟩⟩ :=
  betweenness_permuted hplan hplan' hweights
    (fun lengths hmem => Graph.settled_of_loops (hloops lengths hmem)) hscores

end Permuted

/-- With settled flat steps, or without weights, permuting the vertices permutes their scores and
leaves the scores of the edges, and automorphisms exchange vertices and edges of equal scores. -/
theorem betweenness_renumber {g : Graph} (plan : Schedule g.vertexCount) (hplan : plan.Complete)
    (weight : Option (EdgeMap F Length)) {weights : Option (Table Length g.edgeCount)}
    (hweights : weight.mapM (admitWeights g) = .ok weights)
    (hsettled : ∀ lengths ∈ weights, g.Settled lengths) (normalize : Bool) :
    ∃ (x : g.Vertex → ℚ) (y : g.EdgeId → ℚ),
      (betweenness g plan weight normalize : Except (Fault Length) (Betweenness R ℚ)) =
        .ok ⟨⟨.double (Array.ofFn x)⟩, ⟨.double (Array.ofFn y)⟩⟩ ∧
      (∀ (p : Equiv.Perm g.Vertex) (plan' : Schedule (g.renumber p).vertexCount), plan'.Complete →
        (betweenness (g.renumber p) plan' weight normalize :
            Except (Fault Length) (Betweenness R ℚ)) =
          .ok ⟨⟨.double (Array.ofFn (x ∘ p.symm))⟩, ⟨.double (Array.ofFn y)⟩⟩) ∧
      ∀ i : Renumbering g g, (∀ lengths ∈ weights, i.Keeps lengths lengths) →
        (∀ v : g.Vertex, x (i.vertex v) = x v) ∧ ∀ e : g.EdgeId, y (i.edge e) = y e := by
  have hscores := betweenness_eq_entries (R := R) plan hweights normalize
  refine ⟨_, _, hscores, fun p plan' hplan' => ?_, fun i hi => ?_⟩
  · exact betweenness_permuted hplan hplan' hweights hsettled hscores
  · have hkeeps : Option.Rel i.Keeps weights weights := by
      cases weights with
      | none => exact .none
      | some lengths => exact .some (hi lengths rfl)
    have hsame := totals_map (F := F) (R := R) hplan hplan hkeeps
      (fun _ hmem => admissible_of_mem hweights hmem) hsettled
      (Array.replicate g.edgeCount 0) (Array.replicate g.edgeCount 0)
    exact ⟨fun v => congrArg _ (hsame.vertices v), fun e => congrArg _ (hsame.edges e)⟩

attribute [local instance] neZero_four

/-- A flat step at the start, a flat loop, and an infinite edge. -/
abbrev flatFork : Graph where
  directed := true
  vertexCount := 4
  edges := #[⟨0, 1⟩, ⟨1, 2⟩, ⟨1, 3⟩, ⟨1, 1⟩, ⟨3, 2⟩]

def forkLengths : Table Length 5 :=
  Table.ofArray #[0, 1, 1, 0, ⊤] rfl

theorem settled_flatFork : flatFork.Settled forkLengths := by
  rintro s u v e ⟨hstep, hne, hflat, es, hes, -⟩
  have hends : ∀ e : Fin 5, forkLengths[e] = Distance.zero →
      (flatFork.edge e).source ≠ (flatFork.edge e).target → (flatFork.edge e).source = 0 := by
    decide +kernel
  have hentrance : ∀ e : Fin 5, (flatFork.edge e).target ≠ 0 := by decide +kernel
  have hdirected : ∀ {w x : Fin 4} {e : Fin 5}, (e, x) ∈ flatFork.outEdges w →
      (flatFork.edge e).source = w ∧ (flatFork.edge e).target = x := by
    intro w x e hmem
    rcases (Graph.mem_outEdges _ _ _ _).mp hmem with hforward | ⟨hundirected, -⟩
    · exact hforward
    · cases hundirected
  obtain ⟨rfl, rfl⟩ := hdirected hstep
  have hsource := hends e hflat hne
  rw [hsource] at hes ⊢
  -- Nothing leads into `0`, so the walk starts there.
  rcases List.eq_nil_or_concat es with rfl | ⟨fs, d, rfl⟩
  · obtain rfl : s = 0 := hes.1
    exact Or.inl Graph.subset_walksThrough_source
  · rw [List.concat_eq_append] at hes
    obtain ⟨w, -, hlast⟩ := leads_concat.mp hes.1
    exact absurd (hdirected hlast).2 (hentrance d)

theorem betweenness_renumber_flatFork :
    (Schedule.sequential 4).Complete ∧
      (some ⟨.double forkLengths.toArray⟩ : Option (EdgeMap Length Length)).mapM
        (admitWeights flatFork) = .ok (some forkLengths) ∧
      (∀ lengths ∈ some forkLengths, flatFork.Settled lengths) ∧
      ∃ (x : Fin 4 → ℚ) (y : Fin 5 → ℚ),
        (betweenness flatFork (.sequential 4)
          (some ⟨.double forkLengths.toArray⟩ : Option (EdgeMap Length Length)) true :
            Except (Fault Length) (Betweenness ℚ ℚ)) =
          .ok ⟨⟨.double (Array.ofFn x)⟩, ⟨.double (Array.ofFn y)⟩⟩ ∧
        (∀ (p : Equiv.Perm (Fin 4)) (plan' : Schedule 4), plan'.Complete →
          (betweenness (flatFork.renumber p) plan'
            (some ⟨.double forkLengths.toArray⟩ : Option (EdgeMap Length Length)) true :
              Except (Fault Length) (Betweenness ℚ ℚ)) =
            .ok ⟨⟨.double (Array.ofFn (x ∘ p.symm))⟩, ⟨.double (Array.ofFn y)⟩⟩) ∧
        ∀ i : Renumbering flatFork flatFork,
          (∀ lengths ∈ some forkLengths, i.Keeps lengths lengths) →
            (∀ v : Fin 4, x (i.vertex v) = x v) ∧ ∀ e : Fin 5, y (i.edge e) = y e := by
  have hweights : (some ⟨.double forkLengths.toArray⟩ : Option (EdgeMap Length Length)).mapM
      (admitWeights flatFork) = .ok (some forkLengths) := by
    decide +kernel
  have hsettled : ∀ lengths ∈ some forkLengths, flatFork.Settled lengths := by
    intro lengths hmem
    rw [← Option.some.inj hmem]
    exact settled_flatFork
  have hplan := complete_sequential flatFork.vertexCount
  exact ⟨hplan, hweights, hsettled, betweenness_renumber (R := ℚ) _ hplan _ hweights hsettled true⟩

/-- Vertices `1` and `2` are at one distance from `0`, each with a walk that avoids the other. -/
abbrev flatTie : Graph where
  directed := true
  vertexCount := 3
  edges := #[⟨0, 1⟩, ⟨0, 2⟩, ⟨1, 2⟩]

def flatTieWeight : EdgeMap Length Length :=
  ⟨.double #[1, 1, 0]⟩

/-- A flat step is recorded when the numbers put its origin first, not when they are exchanged. -/
theorem betweenness_flatTie :
    (admitWeights flatTie flatTieWeight).isOk ∧ ¬ ∃ (x : Fin 3 → ℚ) (y : Fin 3 → ℚ),
      (betweenness flatTie (.sequential 3) (some flatTieWeight) false :
          Except (Fault Length) (Betweenness ℚ ℚ)) =
        .ok ⟨⟨.double (Array.ofFn x)⟩, ⟨.double (Array.ofFn y)⟩⟩ ∧
      (betweenness (flatTie.renumber (Equiv.swap 1 2)) (.sequential 3) (some flatTieWeight) false :
          Except (Fault Length) (Betweenness ℚ ℚ)) =
        .ok ⟨⟨.double (Array.ofFn (x ∘ (Equiv.swap 1 2).symm))⟩, ⟨.double (Array.ofFn y)⟩⟩ := by
  have hscores : (betweenness flatTie (.sequential 3) (some flatTieWeight) false) =
      .ok (⟨⟨.double #[0, 1 / 2, 0]⟩, ⟨.double #[3 / 2, 1 / 2, 3 / 2]⟩⟩ : Betweenness ℚ ℚ) := by
    decide +kernel
  have hrenumbered : (betweenness (flatTie.renumber (Equiv.swap 1 2)) (.sequential 3)
      (some flatTieWeight) false) =
        .ok (⟨⟨.double #[0, 0, 0]⟩, ⟨.double #[1, 1, 1]⟩⟩ : Betweenness ℚ ℚ) := by
    decide +kernel
  refine ⟨by decide +kernel, ?_⟩
  rintro ⟨x, y, hxy, hxy'⟩
  rw [hscores] at hxy
  rw [hrenumbered] at hxy'
  have hedges : (⟨.double #[3 / 2, 1 / 2, 3 / 2]⟩ : EdgeMap ℚ ℚ) = ⟨.double #[1, 1, 1]⟩ :=
    (congrArg Betweenness.edge (Except.ok.inj hxy)).trans
      (congrArg Betweenness.edge (Except.ok.inj hxy')).symm
  exact absurd hedges (by decide +kernel)

end Computation

end Geodesic
