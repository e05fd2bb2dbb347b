import Geodesic.Proofs.Component
import Geodesic.Proofs.Contribution
import Geodesic.Proofs.Betweenness

/-!
# Two graphs side by side

Put side by side, two graphs are components of one graph. A worker that takes all sources in turn
finds on the slots of the first graph nothing but what its own sources add, and then the same for the
second graph. So the scores of both together are the scores of each, one after the other, in whatever
arithmetic.
-/

namespace Geodesic

open Paths (Placed)

/-! ## Two blocks of numbers -/

section Blocks

variable {n₁ n₂ n : Nat} (hn : n = n₁ + n₂)

def firstBlock (j : Fin n₁) : Fin n :=
  ⟨j.val, by omega⟩

def secondBlock (j : Fin n₂) : Fin n :=
  ⟨n₁ + j.val, by omega⟩

theorem firstBlock_injective : Function.Injective (firstBlock hn) := by
  intro j k heq
  have hval : (firstBlock hn j).val = (firstBlock hn k).val := congrArg Fin.val heq
  exact Fin.ext hval

theorem secondBlock_injective : Function.Injective (secondBlock hn) := by
  intro j k heq
  have hval : n₁ + j.val = n₁ + k.val := congrArg Fin.val heq
  exact Fin.ext (Nat.add_left_cancel hval)

theorem exists_block (k : Fin n) :
    (∃ j, firstBlock hn j = k) ∨ ∃ j, secondBlock hn j = k := by
  by_cases hk : k.val < n₁
  · exact Or.inl ⟨⟨k.val, hk⟩, rfl⟩
  · exact Or.inr ⟨⟨k.val - n₁, by omega⟩, Fin.ext (Nat.add_sub_of_le (Nat.not_lt.mp hk))⟩

theorem firstBlock_ne_secondBlock (j : Fin n₁) (k : Fin n₂) :
    firstBlock hn j ≠ secondBlock hn k := by
  intro heq
  have hval : j.val = n₁ + k.val := congrArg Fin.val heq
  omega

theorem finRange_eq_blocks : List.finRange n =
    (List.finRange n₁).map (firstBlock hn) ++ (List.finRange n₂).map (secondBlock hn) := by
  subst hn
  rw [← List.ofFn_id, List.ofFn_add, List.ofFn_eq_map, List.ofFn_eq_map]
  rfl

theorem Table.toArray_eq_append_iff {α : Type} {t₁ : Table α n₁} {t₂ : Table α n₂}
    {t : Table α n} : t.toArray = t₁.toArray ++ t₂.toArray ↔
      Table.Placed (firstBlock hn) t₁ t ∧ Table.Placed (secondBlock hn) t₂ t := by
  have hfirst : ∀ j : Fin n₁,
      (t₁.toArray ++ t₂.toArray)[(firstBlock hn j).val]? = some t₁[j] := by
    intro j
    have hj : j.val < t₁.toArray.size := t₁.size_toArray.symm ▸ j.isLt
    rw [← t₁.getElem?_toArray]
    exact Array.getElem?_append_left hj
  have hsecond : ∀ j : Fin n₂,
      (t₁.toArray ++ t₂.toArray)[(secondBlock hn j).val]? = some t₂[j] := by
    intro j
    have hj : t₁.toArray.size ≤ n₁ + j.val := t₁.size_toArray.symm ▸ Nat.le_add_right ..
    rw [← t₂.getElem?_toArray]
    refine (Array.getElem?_append_right hj).trans ?_
    rw [t₁.size_toArray, Nat.add_sub_cancel_left]
  constructor
  · intro heq
    rw [← heq] at hfirst hsecond
    constructor
    · intro j
      exact Option.some.inj ((t.getElem?_toArray _).symm.trans (hfirst j))
    · intro j
      exact Option.some.inj ((t.getElem?_toArray _).symm.trans (hsecond j))
  · intro h
    apply Array.ext_getElem?
    intro k
    by_cases hk : k < n
    · have hread := t.getElem?_toArray ⟨k, hk⟩
      rcases exists_block hn ⟨k, hk⟩ with ⟨j, hj⟩ | ⟨j, hj⟩
      · have hplaced := hfirst j
        rw [← h.1 j, hj] at hplaced
        exact hread.trans hplaced.symm
      · have hplaced := hsecond j
        rw [← h.2 j, hj] at hplaced
        exact hread.trans hplaced.symm
    · rw [Array.getElem?_eq_none, Array.getElem?_eq_none]
      · rw [Array.size_append, t₁.size_toArray, t₂.size_toArray]
        omega
      · rw [t.size_toArray]
        omega

end Blocks

/-! ## The graph -/

namespace Graph

variable (g₁ g₂ : Graph)

/-- `g₁` followed by `g₂`, whose vertices are shifted and whose edges are appended. -/
def beside : Graph where
  directed := g₁.directed
  vertexCount := g₁.vertexCount + g₂.vertexCount
  edges := g₁.edges.map (Edge.map (Fin.castAdd g₂.vertexCount)) ++
    g₂.edges.map (Edge.map (Fin.natAdd g₁.vertexCount))

theorem edgeCount_beside : (g₁.beside g₂).edgeCount = g₁.edgeCount + g₂.edgeCount := by
  simp [edgeCount, beside]

def firstPlacement : Placement g₁.vertexCount g₁.edgeCount (g₁.beside g₂).vertexCount
    (g₁.beside g₂).edgeCount where
  vertex := firstBlock rfl
  edge := firstBlock (g₁.edgeCount_beside g₂)
  vertex_le_iff _ _ := Iff.rfl

def secondPlacement : Placement g₂.vertexCount g₂.edgeCount (g₁.beside g₂).vertexCount
    (g₁.beside g₂).edgeCount where
  vertex := secondBlock rfl
  edge := secondBlock (g₁.edgeCount_beside g₂)
  vertex_le_iff _ _ := Nat.add_le_add_iff_left

theorem apart_placements : (g₁.firstPlacement g₂).Apart (g₁.secondPlacement g₂) :=
  ⟨firstBlock_ne_secondBlock rfl, firstBlock_ne_secondBlock (g₁.edgeCount_beside g₂)⟩

theorem edge_firstPlacement (e : g₁.EdgeId) :
    (g₁.beside g₂).edge ((g₁.firstPlacement g₂).edge e) =
      (g₁.edge e).map (g₁.firstPlacement g₂).vertex := by
  have he : e.val < (g₁.edges.map (Edge.map (Fin.castAdd g₂.vertexCount))).size := by
    rw [Array.size_map]
    exact e.isLt
  exact (Array.getElem_append_left he).trans (Array.getElem_map ..)

theorem edge_secondPlacement (e : g₂.EdgeId) :
    (g₁.beside g₂).edge ((g₁.secondPlacement g₂).edge e) =
      (g₂.edge e).map (g₁.secondPlacement g₂).vertex := by
  have hsize : (g₁.edges.map (Edge.map (Fin.castAdd g₂.vertexCount))).size = g₁.edgeCount :=
    Array.size_map ..
  have he : (g₁.edges.map (Edge.map (Fin.castAdd g₂.vertexCount))).size ≤
      g₁.edgeCount + e.val := hsize.symm ▸ Nat.le_add_right ..
  refine (Array.getElem_append_right he).trans ?_
  simp only [Array.getElem_map, hsize, Nat.add_sub_cancel_left]
  rfl

theorem edgeIds_beside : (g₁.beside g₂).edgeIds =
    g₂.edgeIds.map (g₁.secondPlacement g₂).edge ++ g₁.edgeIds.map (g₁.firstPlacement g₂).edge := by
  unfold edgeIds
  rw [finRange_eq_blocks (g₁.edgeCount_beside g₂), List.reverse_append, List.map_reverse,
    List.map_reverse]
  rfl

def firstComponent : g₁.Component (g₁.beside g₂) :=
  .ofEdges (g₁.firstPlacement g₂) rfl (firstBlock_injective (g₁.edgeCount_beside g₂))
    (g₁.edge_firstPlacement g₂)
    (g₂.edgeIds.map (g₁.secondPlacement g₂).edge) [] (by rw [List.append_nil, edgeIds_beside])
    (by
      intro e he v
      rw [List.append_nil] at he
      obtain ⟨d, _, rfl⟩ := List.mem_map.mp he
      rw [edge_secondPlacement]
      exact ⟨(firstBlock_ne_secondBlock rfl _ _).symm, (firstBlock_ne_secondBlock rfl _ _).symm⟩)

variable {g₁ g₂}

def secondComponent (hdirected : g₂.directed = g₁.directed) : g₂.Component (g₁.beside g₂) :=
  .ofEdges (g₁.secondPlacement g₂) hdirected.symm
    (secondBlock_injective (g₁.edgeCount_beside g₂)) (g₁.edge_secondPlacement g₂)
    [] (g₁.edgeIds.map (g₁.firstPlacement g₂).edge) (g₁.edgeIds_beside g₂)
    (by
      intro e he v
      obtain ⟨d, _, rfl⟩ := List.mem_map.mp he
      rw [edge_firstPlacement]
      exact ⟨firstBlock_ne_secondBlock rfl _ _, firstBlock_ne_secondBlock rfl _ _⟩)

end Graph

/-! ## All sources -/

section Tally

variable {S : Type} {g₁ g₂ : Graph}

/-- A tally of both graphs has what each of them has alone. -/
structure Tally.Joins (g₁ g₂ : Graph) (t₁ : Tally S g₁.vertexCount g₁.edgeCount)
    (t₂ : Tally S g₂.vertexCount g₂.edgeCount)
    (t : Tally S (g₁.beside g₂).vertexCount (g₁.beside g₂).edgeCount) : Prop where
  first : Tally.Placed (g₁.firstPlacement g₂) t₁ t
  second : Tally.Placed (g₁.secondPlacement g₂) t₂ t

theorem Tally.Joins.countedOnce [Div S] [OfNat S 2] {t₁ : Tally S g₁.vertexCount g₁.edgeCount}
    {t₂ : Tally S g₂.vertexCount g₂.edgeCount}
    {t : Tally S (g₁.beside g₂).vertexCount (g₁.beside g₂).edgeCount}
    (h : Tally.Joins g₁ g₂ t₁ t₂ t) (hdirected : g₂.directed = g₁.directed) :
    Tally.Joins g₁ g₂ (countedOnce g₁ t₁) (countedOnce g₂ t₂) (countedOnce (g₁.beside g₂) t) := by
  have hboth : (g₁.beside g₂).directed = g₁.directed := rfl
  unfold Geodesic.countedOnce
  rw [hdirected, hboth]
  split
  · exact h
  · exact ⟨h.first.halve, h.second.halve⟩

end Tally

section Sources

variable {g₁ g₂ : Graph} {D S : Type} [Distance D] [Zero S] [One S] [Add S] [Mul S] [Div S] [LE S]
  [DecidableLE S]
  {search₁ : g₁.Vertex → Paths D S g₁.vertexCount g₁.edgeCount →
    Paths D S g₁.vertexCount g₁.edgeCount}
  {search₂ : g₂.Vertex → Paths D S g₂.vertexCount g₂.edgeCount →
    Paths D S g₂.vertexCount g₂.edgeCount}
  {search : (g₁.beside g₂).Vertex →
    Paths D S (g₁.beside g₂).vertexCount (g₁.beside g₂).edgeCount →
      Paths D S (g₁.beside g₂).vertexCount (g₁.beside g₂).edgeCount}

/-- One worker adds on the slots of each graph what it would add for that graph alone. -/
theorem Steady.joins_sequential (hdirected : g₂.directed = g₁.directed)
    (h₁ : Steady g₁ search₁) (h₂ : Steady g₂ search₂) (h : Steady (g₁.beside g₂) search)
    (hplaced₁ : ∀ s : g₁.Vertex, Placed (g₁.firstPlacement g₂) (search₁ s (Paths.fresh D S _ _))
      (search ((g₁.firstPlacement g₂).vertex s) (Paths.fresh D S _ _)))
    (hplaced₂ : ∀ s : g₂.Vertex, Placed (g₁.secondPlacement g₂) (search₂ s (Paths.fresh D S _ _))
      (search ((g₁.secondPlacement g₂).vertex s) (Paths.fresh D S _ _))) :
    Tally.Joins g₁ g₂ ((Schedule.sequential _).tally search₁) ((Schedule.sequential _).tally search₂)
      ((Schedule.sequential _).tally search) := by
  have hapart := g₁.apart_placements g₂
  -- First the sources of the first graph, on an empty tally.
  have hempty : (g₁.firstComponent g₂).Alongside (Tally.zero _ _) (Worker.fresh D S _ _)
      (Worker.fresh D S _ _) :=
    ⟨Worker.ready_fresh, Worker.ready_fresh, Tally.placed_zero _, Tally.AgreeBeyond.refl _ _⟩
  have hfirst := hempty.batch h₁ h hplaced₁ (List.finRange g₁.vertexCount)
  -- They leave the slots of the second graph empty for its sources.
  have hleft : (Graph.secondComponent hdirected).Alongside _ (Worker.fresh D S _ _) _ :=
    ⟨Worker.ready_fresh, hfirst.ready', hfirst.kept.placed hapart (Tally.placed_zero _),
      Tally.AgreeBeyond.refl _ _⟩
  have hsecond := hleft.batch h₂ h hplaced₂ (List.finRange g₂.vertexCount)
  have hsources : List.finRange (g₁.beside g₂).vertexCount =
      (List.finRange g₁.vertexCount).map (g₁.firstPlacement g₂).vertex ++
        (List.finRange g₂.vertexCount).map (g₁.secondPlacement g₂).vertex :=
    finRange_eq_blocks rfl
  unfold Schedule.sequential Schedule.tally
  rw [hsources, List.foldl_append]
  exact ⟨hsecond.kept.placed hapart.symm hfirst.placed, hsecond.placed⟩

/-- A schedule whose tallies are those of a single worker. -/
def Schedule.AddsInTurn (S : Type) [Zero S] [One S] [Add S] [Mul S] [Div S] [LE S] [DecidableLE S]
    {g : Graph} (plan : Schedule g.vertexCount) : Prop :=
  ∀ {D : Type} [Distance D] {search : g.Vertex → Paths D S g.vertexCount g.edgeCount →
    Paths D S g.vertexCount g.edgeCount}, Steady g search →
      plan.tally search = (Schedule.sequential g.vertexCount).tally search

theorem Schedule.addsInTurn_sequential {g : Graph} :
    AddsInTurn S (Schedule.sequential g.vertexCount : Schedule g.vertexCount) :=
  fun _ => rfl

/-- Exact sums do not depend on the schedule. -/
theorem Schedule.addsInTurn_of_perm {g : Graph} {plan : Schedule g.vertexCount}
    (hplan : plan.sources.Perm (List.finRange g.vertexCount)) : AddsInTurn ℚ plan := by
  intro D _ search h
  exact (h.sumsContributions hplan).unique (h.sumsContributions (List.Perm.refl _))

end Sources

/-! ## The whole computation -/

open Schedule (addsInTurn_of_perm addsInTurn_sequential)

/-- The weights of two graphs, one after the other, or none at all. -/
inductive JoinedWeights {F D : Type} [Zero D] [One D] [IntCast D] [Precision F D] :
    Option (EdgeMap F D) → Option (EdgeMap F D) → Option (EdgeMap F D) → Prop
  | unweighted : JoinedWeights none none none
  | weighted {map₁ map₂ map : EdgeMap F D} {xs₁ xs₂ : Array D}
      (first : map₁.values.numbers? = some xs₁) (second : map₂.values.numbers? = some xs₂)
      (both : map.values.numbers? = some (xs₁ ++ xs₂)) :
      JoinedWeights (some map₁) (some map₂) (some map)

section Computation

variable {F D R S : Type} [Distance D] {g₁ g₂ : Graph} {weights₁ : Option (Table D g₁.edgeCount)}
  {weights₂ : Option (Table D g₂.edgeCount)}

inductive JoinedTables (g₁ g₂ : Graph) : Option (Table D g₁.edgeCount) →
    Option (Table D g₂.edgeCount) → Option (Table D (g₁.beside g₂).edgeCount) → Prop
  | unweighted : JoinedTables g₁ g₂ none none none
  | weighted {ws₁ : Table D g₁.edgeCount} {ws₂ : Table D g₂.edgeCount}
      {ws : Table D (g₁.beside g₂).edgeCount}
      (first : Table.Placed (g₁.firstPlacement g₂).edge ws₁ ws)
      (second : Table.Placed (g₁.secondPlacement g₂).edge ws₂ ws) :
      JoinedTables g₁ g₂ (some ws₁) (some ws₂) (some ws)

theorem joins_totals [Distance F] [Precision F D] [Zero S] [One S] [Add S] [Mul S] [Div S] [LE S]
    [DecidableLE S] [OfNat S 2] {weights : Option (Table D (g₁.beside g₂).edgeCount)}
    (htables : JoinedTables g₁ g₂ weights₁ weights₂ weights)
    (hdirected : g₂.directed = g₁.directed) {plan₁ : Schedule g₁.vertexCount}
    {plan₂ : Schedule g₂.vertexCount} {plan : Schedule (g₁.beside g₂).vertexCount}
    (hplan₁ : plan₁.AddsInTurn S) (hplan₂ : plan₂.AddsInTurn S) (hplan : plan.AddsInTurn S)
    (xs₁ xs₂ xs : Array S) : Tally.Joins g₁ g₂
      (totals (F := F) g₁ plan₁ weights₁ (.double xs₁ : Slots R S))
      (totals (F := F) g₂ plan₂ weights₂ (.double xs₂ : Slots R S))
      (totals (F := F) (g₁.beside g₂) plan weights (.double xs : Slots R S)) := by
  cases htables with
  | unweighted =>
      rw [totals_none, totals_none, totals_none, hplan₁ (steady_breadthFirst g₁),
        hplan₂ (steady_breadthFirst g₂), hplan (steady_breadthFirst (g₁.beside g₂))]
      have hjoins := Steady.joins_sequential (S := S) hdirected (steady_breadthFirst g₁)
        (steady_breadthFirst g₂) (steady_breadthFirst (g₁.beside g₂))
        (g₁.firstComponent g₂).placed_breadthFirst
        (Graph.secondComponent hdirected).placed_breadthFirst
      exact hjoins.countedOnce hdirected
  | @weighted ws₁ ws₂ ws hfirst hsecond =>
      rw [totals_some, totals_some, totals_some, hplan₁ (steady_weighted ws₁),
        hplan₂ (steady_weighted ws₂), hplan (steady_weighted ws)]
      have hjoins := Steady.joins_sequential (S := S) hdirected (steady_weighted ws₁)
        (steady_weighted ws₂) (steady_weighted ws)
        ((g₁.firstComponent g₂).placed_weighted hfirst)
        ((Graph.secondComponent hdirected).placed_weighted hsecond)
      exact hjoins.countedOnce hdirected

variable [Zero D] [One D] [IntCast D] [Precision F D]
  {weight₁ weight₂ weight : Option (EdgeMap F D)}

/-- What is accepted for each graph is accepted for both. -/
theorem JoinedWeights.admitted (hjoined : JoinedWeights weight₁ weight₂ weight)
    (hweights₁ : weight₁.mapM (admitWeights g₁) = .ok weights₁)
    (hweights₂ : weight₂.mapM (admitWeights g₂) = .ok weights₂) :
    ∃ weights, weight.mapM (admitWeights (g₁.beside g₂)) = .ok weights ∧
      JoinedTables g₁ g₂ weights₁ weights₂ weights := by
  cases hjoined with
  | unweighted =>
      obtain rfl : none = weights₁ := Except.ok.inj hweights₁
      obtain rfl : none = weights₂ := Except.ok.inj hweights₂
      exact ⟨none, rfl, .unweighted⟩
  | @weighted map₁ map₂ map xs₁ xs₂ hfirst hsecond hboth =>
      obtain ⟨ws₁, rfl, hadmitted₁⟩ := mapM_admitWeights_iff.mp hweights₁
      obtain ⟨ws₂, rfl, hadmitted₂⟩ := mapM_admitWeights_iff.mp hweights₂
      obtain ⟨hnumbers₁, hadmissible₁⟩ := admitWeights_eq_ok_iff.mp hadmitted₁
      obtain ⟨hnumbers₂, hadmissible₂⟩ := admitWeights_eq_ok_iff.mp hadmitted₂
      obtain rfl : xs₁ = ws₁.toArray := Option.some.inj (hfirst.symm.trans hnumbers₁)
      obtain rfl : xs₂ = ws₂.toArray := Option.some.inj (hsecond.symm.trans hnumbers₂)
      have hsize : (ws₁.toArray ++ ws₂.toArray).size = (g₁.beside g₂).edgeCount := by
        rw [Array.size_append, ws₁.size_toArray, ws₂.size_toArray, Graph.edgeCount_beside]
      have hplaced := (Table.toArray_eq_append_iff (g₁.edgeCount_beside g₂)).mp
        (Table.toArray_ofArray _ hsize)
      have hadmitted : admitWeights (g₁.beside g₂) map = .ok (Table.ofArray _ hsize) := by
        refine admitWeights_eq_ok_iff.mpr ⟨hboth, fun e => ?_⟩
        rcases exists_block (g₁.edgeCount_beside g₂) e with ⟨d, rfl⟩ | ⟨d, rfl⟩
        · rw [hplaced.1 d]
          exact hadmissible₁ d
        · rw [hplaced.2 d]
          exact hadmissible₂ d
      exact ⟨_, mapM_admitWeights_iff.mpr ⟨_, rfl, hadmitted⟩, .weighted hplaced.1 hplaced.2⟩

variable [Distance F] [Zero R] [Add R] [Mul R] [Precision R S] [Zero S] [One S] [Add S] [Sub S]
  [Mul S] [Div S] [LE S] [DecidableLE S] [NatCast S] [IntCast S] [OfNat S 2]

variable (R S) in
def RawScoresJoin (plan₁ : Schedule g₁.vertexCount) (weight₁ : Option (EdgeMap F D))
    (plan₂ : Schedule g₂.vertexCount) (weight₂ : Option (EdgeMap F D))
    (plan : Schedule (g₁.beside g₂).vertexCount) (weight : Option (EdgeMap F D)) : Prop :=
  ∃ (xs₁ : Table S g₁.vertexCount) (ys₁ : Table S g₁.edgeCount) (xs₂ : Table S g₂.vertexCount)
    (ys₂ : Table S g₂.edgeCount),
    (betweenness g₁ plan₁ weight₁ false : Except (Fault D) (Betweenness R S)) =
      .ok ⟨⟨.double xs₁.toArray⟩, ⟨.double ys₁.toArray⟩⟩ ∧
    (betweenness g₂ plan₂ weight₂ false : Except (Fault D) (Betweenness R S)) =
      .ok ⟨⟨.double xs₂.toArray⟩, ⟨.double ys₂.toArray⟩⟩ ∧
    (betweenness (g₁.beside g₂) plan weight false : Except (Fault D) (Betweenness R S)) =
      .ok ⟨⟨.double (xs₁.toArray ++ xs₂.toArray)⟩, ⟨.double (ys₁.toArray ++ ys₂.toArray)⟩⟩

theorem rawScoresJoin_of_addsInTurn (hdirected : g₂.directed = g₁.directed)
    (hjoined : JoinedWeights weight₁ weight₂ weight)
    (hweights₁ : weight₁.mapM (admitWeights g₁) = .ok weights₁)
    (hweights₂ : weight₂.mapM (admitWeights g₂) = .ok weights₂) {plan₁ : Schedule g₁.vertexCount}
    {plan₂ : Schedule g₂.vertexCount} {plan : Schedule (g₁.beside g₂).vertexCount}
    (hplan₁ : plan₁.AddsInTurn S) (hplan₂ : plan₂.AddsInTurn S) (hplan : plan.AddsInTurn S) :
    RawScoresJoin R S plan₁ weight₁ plan₂ weight₂ plan weight := by
  obtain ⟨weights, hweights, htables⟩ := hjoined.admitted hweights₁ hweights₂
  have hjoins := joins_totals (F := F) (R := R) htables hdirected hplan₁ hplan₂ hplan
    (Array.replicate g₁.edgeCount 0) (Array.replicate g₂.edgeCount 0)
    (Array.replicate (g₁.beside g₂).edgeCount 0)
  have hvertices := (Table.toArray_eq_append_iff (n := (g₁.beside g₂).vertexCount) rfl).mpr
    ⟨hjoins.first.vertices.map (0 + ·), hjoins.second.vertices.map (0 + ·)⟩
  have hedges := (Table.toArray_eq_append_iff (g₁.edgeCount_beside g₂)).mpr
    ⟨hjoins.first.edges.map (0 + ·), hjoins.second.edges.map (0 + ·)⟩
  refine ⟨_, _, _, _, betweenness_eq_added plan₁ hweights₁, betweenness_eq_added plan₂ hweights₂, ?_⟩
  rw [betweenness_eq_added plan hweights]
  dsimp only
  rw [hvertices, hedges]

/-- The raw scores of two graphs side by side are those of each, one after the other: in any
arithmetic when one worker takes the sources in turn, and in exact arithmetic in any schedules that
take every source once. -/
theorem betweenness_beside {T : Type} [Zero T] [Add T] [Mul T] [Precision T ℚ]
    (hdirected : g₂.directed = g₁.directed) (hjoined : JoinedWeights weight₁ weight₂ weight)
    (hweights₁ : weight₁.mapM (admitWeights g₁) = .ok weights₁)
    (hweights₂ : weight₂.mapM (admitWeights g₂) = .ok weights₂) :
    RawScoresJoin R S (.sequential g₁.vertexCount) weight₁ (.sequential g₂.vertexCount) weight₂
      (.sequential (g₁.beside g₂).vertexCount) weight ∧
    ∀ (plan₁ : Schedule g₁.vertexCount) (plan₂ : Schedule g₂.vertexCount)
      (plan : Schedule (g₁.beside g₂).vertexCount),
      plan₁.sources.Perm (List.finRange g₁.vertexCount) →
      plan₂.sources.Perm (List.finRange g₂.vertexCount) →
      plan.sources.Perm (List.finRange (g₁.beside g₂).vertexCount) →
        RawScoresJoin T ℚ plan₁ weight₁ plan₂ weight₂ plan weight := by
  constructor
  · exact rawScoresJoin_of_addsInTurn hdirected hjoined hweights₁ hweights₂
      addsInTurn_sequential addsInTurn_sequential addsInTurn_sequential
  · intro plan₁ plan₂ plan hplan₁ hplan₂ hplan
    exact rawScoresJoin_of_addsInTurn hdirected hjoined hweights₁ hweights₂
      (addsInTurn_of_perm hplan₁) (addsInTurn_of_perm hplan₂) (addsInTurn_of_perm hplan)

end Computation

attribute [local instance] neZero_four

/-- Two ways from `0` to `2`, and a flat edge on. -/
abbrev nearTie : Graph where
  directed := false
  vertexCount := 4
  edges := #[⟨0, 1⟩, ⟨1, 2⟩, ⟨0, 2⟩, ⟨2, 3⟩]

/-- Rounding makes the way past `1` the longer one. -/
def nearTieWeights : Table Float 4 :=
  Table.ofArray #[0.1, 0.2, 0.3, 0.0] rfl

/-- A road of three edges, with a loop at its end. -/
abbrev longRoad : Graph where
  directed := false
  vertexCount := 4
  edges := #[⟨0, 1⟩, ⟨1, 2⟩, ⟨2, 3⟩, ⟨3, 3⟩]

/-- Two edges of the road overflow together, and one is infinite. -/
def longRoadWeights : Table Float 4 :=
  Table.ofArray #[1e308, 1e308, 1.0 / 0.0, 1.0] rfl

theorem betweenness_nearTie_beside_longRoad :
    let weight₁ : Option (EdgeMap Float32 Float) := some ⟨.double nearTieWeights.toArray⟩
    let weight₂ : Option (EdgeMap Float32 Float) := some ⟨.double longRoadWeights.toArray⟩
    let weight : Option (EdgeMap Float32 Float) :=
      some ⟨.double (nearTieWeights.toArray ++ longRoadWeights.toArray)⟩
    let plan : Schedule 8 := .join (.batch [4, 5, 6, 7]) (.join .idle (.batch [0, 1, 2, 3]))
    longRoad.directed = nearTie.directed ∧ JoinedWeights weight₁ weight₂ weight ∧
      weight₁.mapM (admitWeights nearTie) = .ok (some nearTieWeights) ∧
      weight₂.mapM (admitWeights longRoad) = .ok (some longRoadWeights) ∧
      (Schedule.sequential 4).sources.Perm (List.finRange 4) ∧
      plan.sources.Perm (List.finRange 8) ∧
      RawScoresJoin Float32 Float (.sequential nearTie.vertexCount) weight₁
        (.sequential longRoad.vertexCount) weight₂ (.sequential (nearTie.beside longRoad).vertexCount)
        weight ∧
      RawScoresJoin ℚ ℚ (.sequential nearTie.vertexCount) weight₁ (.sequential longRoad.vertexCount)
        weight₂ (plan : Schedule (nearTie.beside longRoad).vertexCount) weight := by
  intro weight₁ weight₂ weight plan
  have hadmissible₁ : ∀ e : Fin 4, Distance.Admissible nearTieWeights[e] := by
    unfold Distance.Admissible
    decide +kernel
  have hadmissible₂ : ∀ e : Fin 4, Distance.Admissible longRoadWeights[e] := by
    unfold Distance.Admissible
    decide +kernel
  have hadmitted₁ : admitWeights nearTie (⟨.double nearTieWeights.toArray⟩ : EdgeMap Float32 Float) =
      .ok nearTieWeights := admitWeights_eq_ok_iff.mpr ⟨rfl, hadmissible₁⟩
  have hadmitted₂ : admitWeights longRoad
      (⟨.double longRoadWeights.toArray⟩ : EdgeMap Float32 Float) = .ok longRoadWeights :=
    admitWeights_eq_ok_iff.mpr ⟨rfl, hadmissible₂⟩
  have hweights₁ : weight₁.mapM (admitWeights nearTie) = .ok (some nearTieWeights) :=
    mapM_admitWeights_iff.mpr ⟨_, rfl, hadmitted₁⟩
  have hweights₂ : weight₂.mapM (admitWeights longRoad) = .ok (some longRoadWeights) :=
    mapM_admitWeights_iff.mpr ⟨_, rfl, hadmitted₂⟩
  have hjoined : JoinedWeights weight₁ weight₂ weight := .weighted rfl rfl rfl
  have hperm : (Schedule.sequential 4).sources.Perm (List.finRange 4) := List.Perm.refl _
  have hplan : plan.sources.Perm (List.finRange 8) := by decide
  have hdirected : longRoad.directed = nearTie.directed := rfl
  obtain ⟨hfloats, hexact⟩ := betweenness_beside (R := Float32) (S := Float) (T := ℚ)
    hdirected hjoined hweights₁ hweights₂
  exact ⟨hdirected, hjoined, hweights₁, hweights₂, hperm, hplan, hfloats,
    hexact _ _ plan hperm hperm hplan⟩

end Geodesic
