import Geodesic.Betweenness
import Geodesic.Proofs.Paths.Exact
import Geodesic.Proofs.Reversal
import Geodesic.Proofs.Schedule

/-!
# Betweenness is the sum over all pairs

With exact lengths and scores, the scores that are computed source by source, in any schedule, are
those of the definition by pairs of ends.
-/

namespace Geodesic

open Paths (Exact Recorded)
open Schedule (complete_sequential)

/-! ## One source -/

namespace Paths.Exact

variable {D : Type} {g : Graph} {lengths : Table Length g.edgeCount} {s : g.Vertex}
  {dist : g.Vertex → Length} {p : Paths D ℚ g.vertexCount g.edgeCount}

theorem vertexTerm_eq (h : Exact lengths s dist p) {v : g.Vertex} (hv : v ≠ s) (t : g.Vertex) :
    g.vertexTerm lengths v s t = p.share s (fun a => a.2 = v) t := by
  unfold Graph.vertexTerm
  split
  · rename_i hterm
    exact h.vertexShare_eq hterm.2.1.symm
  · rename_i hterm
    rw [ne_eq, ne_eq, h.connected_iff] at hterm
    by_cases hvt : t = v
    · subst hvt
      rw [Dependency.share_eq_zero]
      exact h.recorded.trailsBy_origin_eq_empty (Before.irrefl h.recorded.nodup)
    · rw [Dependency.share_of_not_visited h.recorded]
      exact fun hmem => hterm ⟨hv.symm, hvt, hmem⟩

theorem edgeTerm_eq (h : Exact lengths s dist p) (e : g.EdgeId) (t : g.Vertex) :
    g.edgeTerm lengths e s t = p.share s (fun a => a.1 = e) t := by
  unfold Graph.edgeTerm
  split
  · exact h.edgeShare_eq e t
  · rename_i hterm
    rw [h.connected_iff] at hterm
    rw [Dependency.share_of_not_visited h.recorded hterm]

/-- The source has no share in its own walks. -/
theorem sum_vertexTerm (h : Exact lengths s dist p) (v : g.Vertex) :
    (∑ t : g.Vertex, if s ≠ t then g.vertexTerm lengths v s t else 0) =
      if v = s then 0 else ∑ t : g.Vertex, p.share s (fun a => a.2 = v) t := by
  split
  · rename_i hv
    refine Finset.sum_eq_zero fun t _ => ?_
    simp [Graph.vertexTerm, hv]
  · rename_i hv
    refine Finset.sum_congr rfl fun t _ => ?_
    split
    · exact h.vertexTerm_eq hv t
    · rename_i ht
      rw [← not_not.mp ht, Dependency.share_eq_zero h.recorded.trailsBy_source]

theorem sum_edgeTerm (h : Exact lengths s dist p) (e : g.EdgeId) :
    (∑ t : g.Vertex, if s ≠ t then g.edgeTerm lengths e s t else 0) =
      ∑ t : g.Vertex, p.share s (fun a => a.1 = e) t := by
  refine Finset.sum_congr rfl fun t _ => ?_
  split
  · exact h.edgeTerm_eq e t
  · rename_i ht
    rw [← not_not.mp ht, Dependency.share_eq_zero h.recorded.trailsBy_source]

end Paths.Exact

/-! ## All sources -/

section Tally

variable {D : Type} [Distance D] {g : Graph} {lengths : Table Length g.edgeCount}
  {plan : Schedule g.vertexCount}
  {search : g.Vertex → Paths D ℚ g.vertexCount g.edgeCount → Paths D ℚ g.vertexCount g.edgeCount}

theorem sum_pairs (f : g.Vertex → g.Vertex → ℚ) :
    ∑ q : g.Vertex × g.Vertex with q.1 ≠ q.2, f q.1 q.2 =
      ∑ s : g.Vertex, ∑ t : g.Vertex, if s ≠ t then f s t else 0 := by
  rw [Finset.sum_filter, Fintype.sum_prod_type]

theorem Tally.eq_of_entries {S : Type} {n m : Nat} {a b : Tally S n m}
    (hvertices : ∀ v : Fin n, a.vertices[v] = b.vertices[v])
    (hedges : ∀ e : Fin m, a.edges[e] = b.edges[e]) : a = b :=
  congrArg₂ Tally.mk (Table.ext hvertices) (Table.ext hedges)

def countedOnce {S : Type} [Div S] [OfNat S 2] (g : Graph)
    (t : Tally S g.vertexCount g.edgeCount) : Tally S g.vertexCount g.edgeCount :=
  if g.directed then t else t.halve

theorem countedOnce_of_undirected {S : Type} [Div S] [OfNat S 2] (hg : g.directed = false)
    (t : Tally S g.vertexCount g.edgeCount) : countedOnce g t = t.halve := by
  unfold countedOnce
  rw [hg]
  rfl

theorem countedOnce_entry {x : Tally ℚ g.vertexCount g.edgeCount → ℚ}
    {t : Tally ℚ g.vertexCount g.edgeCount} (hhalve : x t.halve = x t / 2) :
    x (countedOnce g t) = if g.directed then x t else x t / 2 := by
  unfold countedOnce
  split
  · rfl
  · exact hhalve

section Congr

variable {h : Graph} {t : Tally ℚ g.vertexCount g.edgeCount} {t' : Tally ℚ h.vertexCount h.edgeCount}
  (hdirected : h.directed = g.directed)

include hdirected

theorem vertices_countedOnce_congr {v : g.Vertex} {v' : h.Vertex}
    (heq : t'.vertices[v'] = t.vertices[v]) :
    (countedOnce h t').vertices[v'] = (countedOnce g t).vertices[v] := by
  unfold countedOnce
  rw [hdirected]
  split
  · exact heq
  · rw [Tally.vertices_halve, Tally.vertices_halve, heq]

theorem edges_countedOnce_congr {e : g.EdgeId} {e' : h.EdgeId} (heq : t'.edges[e'] = t.edges[e]) :
    (countedOnce h t').edges[e'] = (countedOnce g t).edges[e] := by
  unfold countedOnce
  rw [hdirected]
  split
  · exact heq
  · rw [Tally.edges_halve, Tally.edges_halve, heq]

end Congr

theorem entry_countedOnce {x : Tally ℚ g.vertexCount g.edgeCount → ℚ}
    {f : g.Vertex → g.Vertex → ℚ} {t : Tally ℚ g.vertexCount g.edgeCount}
    (hsymm : g.directed = false → ∀ s t, f s t = f t s) (hhalve : x t.halve = x t / 2)
    (ht : x t = ∑ s : g.Vertex, ∑ t : g.Vertex, if s ≠ t then f s t else 0) :
    x (countedOnce g t) = ∑ q ∈ g.ends, f q.1 q.2 := by
  rw [g.sum_ends f hsymm, sum_pairs, ← ht]
  exact countedOnce_entry hhalve

theorem vertices_countedOnce (h : Steady g search) (hplan : plan.Complete)
    (hexact : ∀ s : g.Vertex, ∃ dist, Exact lengths s dist (search s (Paths.fresh D ℚ _ _)))
    (v : g.Vertex) :
    (countedOnce g (plan.tally search)).vertices[v] = g.vertexScore lengths v := by
  rw [g.vertexScore_eq]
  apply entry_countedOnce (x := fun t => t.vertices[v])
  · exact fun hg s t => Graph.vertexTerm_symm hg lengths v s t
  · exact Tally.vertices_halve _ v
  · rw [h.vertices_tally hplan]
    refine Finset.sum_congr rfl fun s _ => ?_
    obtain ⟨dist, hs⟩ := hexact s
    exact (hs.sum_vertexTerm v).symm

theorem edges_countedOnce (h : Steady g search) (hplan : plan.Complete)
    (hexact : ∀ s : g.Vertex, ∃ dist, Exact lengths s dist (search s (Paths.fresh D ℚ _ _)))
    (e : g.EdgeId) :
    (countedOnce g (plan.tally search)).edges[e] = g.edgeScore lengths e := by
  rw [g.edgeScore_eq]
  apply entry_countedOnce (x := fun t => t.edges[e])
  · exact fun hg s t => Graph.edgeTerm_symm hg lengths e s t
  · exact Tally.edges_halve _ e
  · rw [h.edges_tally hplan]
    refine Finset.sum_congr rfl fun s _ => ?_
    obtain ⟨dist, hs⟩ := hexact s
    exact (hs.sum_edgeTerm e).symm

end Tally

/-! ## The whole computation -/

/-- The lengths of the edges: those of a weight map with a number for every edge, or else one hop
each. -/
def HasLengths {F : Type} [Precision F Length] (g : Graph) (weight : Option (EdgeMap F Length))
    (lengths : Table Length g.edgeCount) : Prop :=
  match weight with
  | none => ∀ e : g.EdgeId, lengths[e] = 1
  | some map => map.values.numbers? = some lengths.toArray

section Computation

variable {F R D S : Type} {g : Graph}

theorem Betweenness.ofFn_congr {n m m' : Nat} (hm : m = m') {x x' : Fin n → S} {y : Fin m → S}
    {y' : Fin m' → S} (hvertices : ∀ v : Fin n, x v = x' v)
    (hedges : ∀ e : Fin m, y e = y' (e.cast hm)) :
    (⟨⟨.double (Array.ofFn x)⟩, ⟨.double (Array.ofFn y)⟩⟩ : Betweenness R S) =
      ⟨⟨.double (Array.ofFn x')⟩, ⟨.double (Array.ofFn y')⟩⟩ := by
  subst hm
  obtain rfl : x = x' := funext hvertices
  obtain rfl : y = y' := funext hedges
  rfl

theorem Betweenness.ofFn_inj {n m : Nat} {x x' : Fin n → S} {y y' : Fin m → S}
    (h : (⟨⟨.double (Array.ofFn x)⟩, ⟨.double (Array.ofFn y)⟩⟩ : Betweenness R S) =
      ⟨⟨.double (Array.ofFn x')⟩, ⟨.double (Array.ofFn y')⟩⟩) : x = x' ∧ y = y' := by
  simp only [Betweenness.mk.injEq, PropertyMap.mk.injEq, Values.double.injEq] at h
  have hlist {k : Nat} {a b : Fin k → S} (hab : Array.ofFn a = Array.ofFn b) : a = b :=
    List.ofFn_injective (by simpa using congrArg Array.toList hab)
  exact ⟨hlist h.1, hlist h.2⟩

def Slots.finished [Mul R] [Mul S] [Precision R S] (normalize : Bool) (factor : S)
    (slots : Slots R S) : Slots R S :=
  if normalize then slots.scale factor else slots

variable [Distance D]

theorem firstInadmissible?_eq_none_iff {m : Nat} {weights : Table D m} :
    firstInadmissible? weights = none ↔ ∀ e : Fin m, Distance.Admissible weights[e] := by
  simp [firstInadmissible?, Distance.Admissible]

variable [Zero D] [One D] [IntCast D] [Precision F D]

/-- A weight map is accepted when it has an admissible number for every edge. -/
theorem admitWeights_eq_ok_iff {map : EdgeMap F D} {weights : Table D g.edgeCount} :
    admitWeights g map = .ok weights ↔
      map.values.numbers? = some weights.toArray ∧
        ∀ e : g.EdgeId, Distance.Admissible weights[e] := by
  rw [← firstInadmissible?_eq_none_iff]
  constructor
  · intro hadmitted
    unfold admitWeights at hadmitted
    split at hadmitted
    · cases hadmitted
    · rename_i xs hnumbers
      split at hadmitted
      · rename_i hsize
        dsimp only at hadmitted
        split at hadmitted
        · cases hadmitted
        · rename_i hnone
          obtain rfl := Except.ok.inj hadmitted
          exact ⟨hnumbers, hnone⟩
      · cases hadmitted
  · rintro ⟨hnumbers, hnone⟩
    have hsize : weights.toArray.size = g.edgeCount := weights.size_toArray
    have htable : Table.ofArray weights.toArray hsize = weights := rfl
    unfold admitWeights
    simp only [hnumbers, dif_pos hsize, htable, hnone]

theorem mapM_admitWeights_iff {map : EdgeMap F D} {weights : Option (Table D g.edgeCount)} :
    (some map).mapM (admitWeights g) = .ok weights ↔
      ∃ lengths, weights = some lengths ∧ admitWeights g map = .ok lengths := by
  rw [Option.mapM_some]
  constructor
  · intro hweights
    cases hadmitted : admitWeights g map with
    | error fault =>
        rw [hadmitted] at hweights
        cases hweights
    | ok lengths =>
        rw [hadmitted] at hweights
        exact ⟨lengths, (Except.ok.inj hweights).symm, rfl⟩
  · rintro ⟨lengths, rfl, hadmitted⟩
    rw [hadmitted]
    rfl

theorem admitted_of_mem {weight : Option (EdgeMap F D)} {weights : Option (Table D g.edgeCount)}
    (hweights : weight.mapM (admitWeights g) = .ok weights) {lengths : Table D g.edgeCount}
    (hmem : lengths ∈ weights) :
    ∃ map, weight = some map ∧ admitWeights g map = .ok lengths := by
  cases weight with
  | none =>
      obtain rfl : none = weights := Except.ok.inj hweights
      cases hmem
  | some map =>
      obtain ⟨lengths', rfl, hadmitted⟩ := mapM_admitWeights_iff.mp hweights
      obtain rfl := Option.some.inj hmem
      exact ⟨map, rfl, hadmitted⟩

theorem admissible_of_mem {weight : Option (EdgeMap F D)} {weights : Option (Table D g.edgeCount)}
    (hweights : weight.mapM (admitWeights g) = .ok weights) {lengths : Table D g.edgeCount}
    (hmem : lengths ∈ weights) (e : g.EdgeId) : Distance.Admissible lengths[e] := by
  obtain ⟨map, -, hadmitted⟩ := admitted_of_mem hweights hmem
  exact (admitWeights_eq_ok_iff.mp hadmitted).2 e

variable [Distance F]

omit [Zero D] [One D] [IntCast D] in
/-- Without weights the totals come from breadth-first searches. -/
theorem totals_none [Zero S] [One S] [Add S] [Mul S] [Div S] [LE S] [DecidableLE S] [OfNat S 2]
    (plan : Schedule g.vertexCount) (slots : Slots R S) :
    totals (F := F) g plan (none : Option (Table D g.edgeCount)) slots =
      countedOnce g (plan.tally fun s p => p.breadthFirst g.outEdges s) := by
  rw [← Graph.hopTally_eq]
  rfl

omit [Zero D] [One D] [IntCast D] in
/-- With weights they come from searches along them. -/
theorem totals_some [Zero S] [One S] [Add S] [Mul S] [Div S] [LE S] [DecidableLE S] [OfNat S 2]
    (plan : Schedule g.vertexCount) (weights : Table D g.edgeCount) (xs : Array S) :
    totals (F := F) g plan (some weights) (.double xs : Slots R S) =
      countedOnce g (plan.tally fun s p => p.weighted g.outEdges weights s) := by
  rw [← Graph.weightTally_eq]
  rfl

variable [Zero R] [Add R] [Mul R]

/-- On fresh maps nothing can fail but the weights. -/
theorem betweenness_eq_finished [Precision R S] [Zero S] [One S] [Add S] [Sub S] [Mul S] [Div S]
    [LE S] [DecidableLE S] [NatCast S] [IntCast S] [OfNat S 2]
    (plan : Schedule g.vertexCount) {weight : Option (EdgeMap F D)}
    {weights : Option (Table D g.edgeCount)}
    (hweights : weight.mapM (admitWeights g) = .ok weights) (normalize : Bool) :
    (betweenness g plan weight normalize : Except (Fault D) (Betweenness R S)) =
      let total := totals (F := F) g plan weights
        (.double (Array.replicate g.edgeCount 0) : Slots R S)
      let factors : Factors S := normalizationFactors g.vertexCount g.directed
      .ok ⟨⟨(((.double (Array.replicate g.vertexCount 0) : Slots R S).add
          total.vertices.toArray).finished normalize factors.vertex).toValues⟩,
        ⟨(((.double (Array.replicate g.edgeCount 0) : Slots R S).add
          total.edges.toArray).finished normalize factors.edge).toValues⟩⟩ := by
  have hedges : (PropertyMap.forGraph g .double : EdgeMap R S).checkSize .edgeScores g =
      (.ok () : Except (Fault D) Unit) := if_pos (PropertyMap.fits_forGraph g .double)
  have hvertices : (PropertyMap.forGraph g .double : VertexMap R S).checkSize .vertexScores g =
      (.ok () : Except (Fault D) Unit) := if_pos (PropertyMap.fits_forGraph g .double)
  have hedgeSlots : (PropertyMap.forGraph g .double : EdgeMap R S).slots .edgeScores =
      (.ok (.double (Array.replicate g.edgeCount 0)) : Except (Fault D) (Slots R S)) := rfl
  have hvertexSlots : (PropertyMap.forGraph g .double : VertexMap R S).slots .vertexScores =
      (.ok (.double (Array.replicate g.vertexCount 0)) : Except (Fault D) (Slots R S)) := rfl
  unfold betweenness computeBetweenness
  simp only [hedgeSlots, hvertexSlots, hedges, hvertices, hweights, bind, Except.bind, pure,
    Except.pure]
  cases normalize <;> rfl

omit [Zero R] [Mul R] in
theorem add_fresh [Precision R S] [Zero S] [Add S] {n : Nat} (t : Table S n) :
    (Slots.double (Array.replicate n 0) : Slots R S).add t.toArray =
      .double (t.map (0 + ·)).toArray := by
  refine congrArg Slots.double (Array.ext ?_ fun i hi hi' => ?_)
  · simp
  · have hbound : i < n := by simpa using hi'
    have hread := Table.getElem?_toArray (t.map (0 + ·)) ⟨i, hbound⟩
    rw [Array.getElem?_eq_getElem hi', Table.getElem_map] at hread
    rw [Option.some.inj hread]
    simp [addInto, Table.getElem?_toArray t ⟨i, hbound⟩]

/-- On fresh maps the scores are the totals, each added to zero. -/
theorem betweenness_eq_added [Precision R S] [Zero S] [One S] [Add S] [Sub S] [Mul S] [Div S]
    [LE S] [DecidableLE S] [NatCast S] [IntCast S] [OfNat S 2]
    (plan : Schedule g.vertexCount) {weight : Option (EdgeMap F D)}
    {weights : Option (Table D g.edgeCount)}
    (hweights : weight.mapM (admitWeights g) = .ok weights) :
    (betweenness g plan weight false : Except (Fault D) (Betweenness R S)) =
      let total := totals (F := F) g plan weights
        (.double (Array.replicate g.edgeCount 0) : Slots R S)
      .ok ⟨⟨.double (total.vertices.map (0 + ·)).toArray⟩,
        ⟨.double (total.edges.map (0 + ·)).toArray⟩⟩ := by
  rw [betweenness_eq_finished plan hweights false]
  dsimp only
  rw [add_fresh, add_fresh]
  rfl

variable [Precision R ℚ]

omit [Zero R] [Mul R] in
/-- Exact totals are kept as they are. -/
theorem add_zeros {n : Nat} (t : Table ℚ n) :
    (Slots.double (Array.replicate n 0) : Slots R ℚ).add t.toArray = .double t.toArray := by
  have hkept : t.map (0 + ·) = t := Table.ext fun i => by rw [Table.getElem_map, zero_add]
  rw [add_fresh, hkept]

theorem betweenness_eq_totals (plan : Schedule g.vertexCount) {weight : Option (EdgeMap F D)}
    {weights : Option (Table D g.edgeCount)}
    (hweights : weight.mapM (admitWeights g) = .ok weights) :
    (betweenness g plan weight false : Except (Fault D) (Betweenness R ℚ)) =
      let total := totals (F := F) g plan weights
        (.double (Array.replicate g.edgeCount 0) : Slots R ℚ)
      .ok ⟨⟨.double total.vertices.toArray⟩, ⟨.double total.edges.toArray⟩⟩ := by
  rw [betweenness_eq_finished plan hweights false]
  dsimp only
  rw [add_zeros, add_zeros]
  rfl

def finishedScore (normalize : Bool) (factor score : ℚ) : ℚ :=
  if normalize then score * factor else score

omit [Zero R] [Add R] in
theorem toValues_finished {n : Nat} (normalize : Bool) (factor : ℚ) (t : Table ℚ n) :
    ((Slots.double t.toArray : Slots R ℚ).finished normalize factor).toValues =
      .double (Array.ofFn fun j : Fin n => finishedScore normalize factor t[j]) := by
  have hentry : ∀ j : Fin n, t.toArray[j] = t[j] := fun _ => rfl
  cases normalize with
  | false =>
      refine congrArg Values.double (Array.ext (by simp) fun j hj _ => ?_)
      rw [Table.size_toArray] at hj
      rw [Array.getElem_ofFn]
      exact hentry ⟨j, hj⟩
  | true =>
      refine congrArg Values.double (Array.ext (by simp) fun j hj _ => ?_)
      rw [size_scale, Table.size_toArray] at hj
      rw [Array.getElem_ofFn]
      exact (Array.getElem_map ..).trans (congrArg (· * factor) (hentry ⟨j, hj⟩))

/-- Scores are the totals, scaled if asked to. -/
theorem betweenness_eq_entries (plan : Schedule g.vertexCount)
    {weight : Option (EdgeMap F D)} {weights : Option (Table D g.edgeCount)}
    (hweights : weight.mapM (admitWeights g) = .ok weights) (normalize : Bool) :
    (betweenness g plan weight normalize : Except (Fault D) (Betweenness R ℚ)) =
      let total := totals (F := F) g plan weights
        (.double (Array.replicate g.edgeCount 0) : Slots R ℚ)
      let factors : Factors ℚ := normalizationFactors g.vertexCount g.directed
      .ok ⟨⟨.double (Array.ofFn fun v : g.Vertex =>
          finishedScore normalize factors.vertex total.vertices[v])⟩,
        ⟨.double (Array.ofFn fun e : g.EdgeId =>
          finishedScore normalize factors.edge total.edges[e])⟩⟩ := by
  rw [betweenness_eq_finished plan hweights normalize]
  dsimp only
  rw [add_zeros, add_zeros, toValues_finished, toValues_finished]

end Computation

section Exact

variable {F R : Type} [Precision F Length] {g : Graph} {lengths : Table Length g.edgeCount}

theorem admitted_of_hasLengths {weight : Option (EdgeMap F Length)}
    (hlengths : HasLengths g weight lengths) (hnonneg : ∀ e : g.EdgeId, 0 ≤ lengths[e]) :
    weight.mapM (admitWeights g) = .ok (weight.map fun _ => lengths) := by
  cases weight with
  | none => rfl
  | some map =>
      have hadmitted : admitWeights g map = .ok lengths :=
        admitWeights_eq_ok_iff.mpr ⟨hlengths, fun e => Length.admissible_iff.mpr (hnonneg e)⟩
      exact mapM_admitWeights_iff.mpr ⟨lengths, rfl, hadmitted⟩

theorem admitWeights_eq (hpos : ∀ e : g.EdgeId, 0 < lengths[e]) {map : EdgeMap F Length}
    (hmap : map.values.numbers? = some lengths.toArray) : admitWeights g map = .ok lengths :=
  admitWeights_eq_ok_iff.mpr ⟨hmap, fun e => Length.admissible_iff.mpr (hpos e).le⟩

variable [Distance F] [Zero R] [Add R] [Mul R] [Precision R ℚ]

/-- A search with exact tables leads to the scores by pairs of ends. -/
theorem betweenness_of_exact {D : Type} [Distance D] {plan : Schedule g.vertexCount}
    (hplan : plan.Complete) {weight : Option (EdgeMap F Length)}
    {weights : Option (Table Length g.edgeCount)}
    (hweights : weight.mapM (admitWeights g) = .ok weights)
    {search : g.Vertex → Paths D ℚ g.vertexCount g.edgeCount →
      Paths D ℚ g.vertexCount g.edgeCount} (h : Steady g search)
    (hexact : ∀ s : g.Vertex, ∃ dist, Exact lengths s dist (search s (Paths.fresh D ℚ _ _)))
    (htotals : totals (F := F) g plan weights
      (.double (Array.replicate g.edgeCount 0) : Slots R ℚ) = countedOnce g (plan.tally search)) :
    (betweenness g plan weight false : Except (Fault Length) (Betweenness R ℚ)) =
      .ok ⟨⟨.double (Array.ofFn (g.vertexScore lengths))⟩,
        ⟨.double (Array.ofFn (g.edgeScore lengths))⟩⟩ := by
  have hvertices : (countedOnce g (plan.tally search)).vertices =
      Table.ofFn (g.vertexScore lengths) := by
    refine Table.ext fun v => ?_
    rw [vertices_countedOnce h hplan hexact, Table.getElem_ofFn]
  have hedges : (countedOnce g (plan.tally search)).edges = Table.ofFn (g.edgeScore lengths) := by
    refine Table.ext fun e => ?_
    rw [edges_countedOnce h hplan hexact, Table.getElem_ofFn]
  rw [betweenness_eq_totals plan hweights, htotals]
  dsimp only
  rw [hvertices, hedges]
  rfl

/-- With exact positive lengths, betweenness succeeds, and its scores are those by pairs of ends. -/
theorem betweenness_eq_scores (plan : Schedule g.vertexCount) (hplan : plan.Complete)
    (weight : Option (EdgeMap F Length)) (hlengths : HasLengths g weight lengths)
    (hpos : ∀ e : g.EdgeId, 0 < lengths[e]) :
    (betweenness g plan weight false : Except (Fault Length) (Betweenness R ℚ)) =
      .ok ⟨⟨.double (Array.ofFn (g.vertexScore lengths))⟩,
        ⟨.double (Array.ofFn (g.edgeScore lengths))⟩⟩ := by
  cases weight with
  | none =>
      have hweights : (none : Option (EdgeMap F Length)).mapM (admitWeights g) = .ok none := rfl
      refine betweenness_of_exact hplan hweights (steady_breadthFirst g) (fun s => ?_) ?_
      · exact ⟨_, Paths.exact_breadthFirst hlengths Paths.tidy_fresh s⟩
      · rw [← Graph.hopTally_eq]
        rfl
  | some map =>
      have hweights : (some map).mapM (admitWeights g) = .ok (some lengths) := by
        rw [Option.mapM_some, admitWeights_eq hpos hlengths]
        rfl
      refine betweenness_of_exact hplan hweights (steady_weighted lengths) (fun s => ?_) ?_
      · exact ⟨_, Paths.exact_weighted hpos Paths.tidy_fresh s⟩
      · rw [← Graph.weightTally_eq]
        rfl

attribute [local instance] neZero_four

/-- Parallel edges, a loop, and an infinite edge to a vertex of its own. -/
abbrev looseTriangle : Graph where
  directed := false
  vertexCount := 4
  edges := #[⟨0, 1⟩, ⟨1, 0⟩, ⟨1, 2⟩, ⟨1, 1⟩, ⟨2, 3⟩]

def looseLengths : Table Length 5 :=
  Table.ofArray #[((1 / 2 : ℚ) : Length), ((1 / 2 : ℚ) : Length), 1, 1, ⊤] rfl

theorem betweenness_looseTriangle :
    (Schedule.sequential 4).Complete ∧
      HasLengths looseTriangle (some ⟨.double looseLengths.toArray⟩ : Option (EdgeMap Length Length))
        looseLengths ∧
      (∀ e : Fin 5, 0 < looseLengths[e]) ∧
      (betweenness looseTriangle (.sequential 4)
        (some ⟨.double looseLengths.toArray⟩ : Option (EdgeMap Length Length)) false :
          Except (Fault Length) (Betweenness ℚ ℚ)) =
        .ok ⟨⟨.double (Array.ofFn (looseTriangle.vertexScore looseLengths))⟩,
          ⟨.double (Array.ofFn (looseTriangle.edgeScore looseLengths))⟩⟩ := by
  have hlengths : HasLengths looseTriangle
      (some ⟨.double looseLengths.toArray⟩ : Option (EdgeMap Length Length)) looseLengths := rfl
  have hpos : ∀ e : Fin 5, 0 < looseLengths[e] := by decide +kernel
  have hplan : (Schedule.sequential looseTriangle.vertexCount).Complete := complete_sequential _
  exact ⟨hplan, hlengths, hpos, betweenness_eq_scores _ hplan _ hlengths hpos⟩

end Exact

/-! ## Machine lengths -/

section Machine

open Distance (AtMost Reached total)

/-- Two ways from `0` to `3` of the same length, in steps too short for the precision. -/
abbrev longTie : Graph where
  directed := true
  vertexCount := 6
  edges := #[⟨0, 1⟩, ⟨1, 2⟩, ⟨2, 3⟩, ⟨0, 4⟩, ⟨4, 3⟩, ⟨3, 5⟩]

def tieLengths : Table Nat 6 :=
  Table.ofArray #[2 ^ 53, 1, 1, 2 ^ 53, 2, 2 ^ 60] rfl

def machineLengths : Table Float 6 :=
  tieLengths.map (Nat.cast (R := Float))

def exactLengths : Table Length 6 :=
  tieLengths.map (Nat.cast (R := Length))

def tieSteps : Fin 6 → List (Fin 6 × Fin 6)
  | 0 => [(3, 4), (0, 1)]
  | 1 => [(1, 2)]
  | 2 => [(2, 3)]
  | 3 => [(5, 5)]
  | 4 => [(4, 3)]
  | 5 => []

theorem outEdges_longTie : longTie.outEdges = tieSteps := by
  funext v
  match v with
  | 0 | 1 | 2 | 3 | 4 | 5 => rfl

theorem leads_longTie {es : List (Fin 6)} (h : Leads tieSteps 0 es 5) :
    es = [0, 1, 2, 5] ∨ es = [3, 4, 5] := by
  -- From `3` on there is one way.
  have hlast : ∀ {fs}, Leads tieSteps 3 fs 5 → fs = [5] := by
    intro fs hfs
    obtain ⟨a, ha, rest, rfl, hrest⟩ := exists_first_step hfs (by decide)
    obtain rfl := List.mem_singleton.mp ha
    cases rest with
    | nil => rfl
    | cons e rest =>
        obtain ⟨w, hstep, _⟩ := hrest
        cases hstep
  obtain ⟨a, ha, as, rfl, has⟩ := exists_first_step h (by decide)
  rcases List.mem_pair.mp ha with rfl | rfl
  · obtain ⟨b, hb, bs, rfl, hbs⟩ := exists_first_step has (by decide)
    obtain rfl := List.mem_singleton.mp hb
    rw [hlast hbs]
    exact Or.inr rfl
  · obtain ⟨b, hb, bs, rfl, hbs⟩ := exists_first_step has (by decide)
    obtain rfl := List.mem_singleton.mp hb
    obtain ⟨c, hc, cs, rfl, hcs⟩ := exists_first_step hbs (by decide)
    obtain rfl := List.mem_singleton.mp hc
    rw [hlast hcs]
    exact Or.inl rfl

/-- Where the way past `4` is a shortest one, `4` has a score. -/
theorem vertexScore_longTie_pos {D : Type} [Distance D] {lengths : Table D 6}
    (hreached : Reached (total lengths [3, 4, 5]))
    (hself : AtMost (total lengths [3, 4, 5]) (total lengths [3, 4, 5]))
    (hother : AtMost (total lengths [3, 4, 5]) (total lengths [0, 1, 2, 5])) :
    0 < longTie.vertexScore lengths (4 : Fin 6) := by
  have hwalks : ∀ es, Leads longTie.outEdges (0 : Fin 6) es (5 : Fin 6) →
      es = ([0, 1, 2, 5] : List (Fin 6)) ∨ es = ([3, 4, 5] : List (Fin 6)) := by
    rw [outEdges_longTie]
    exact fun _ => leads_longTie
  have hfinite : (longTie.shortestWalks lengths (0 : Fin 6) (5 : Fin 6)).Finite :=
    (Set.toFinite {([0, 1, 2, 5] : List (Fin 6)), [3, 4, 5]}).subset fun es hes => hwalks es hes.1
  have hsteps : Leads tieSteps 0 [3] 4 ∧ Leads tieSteps 4 [4, 5] 5 := by simp [tieSteps]
  rw [← outEdges_longTie] at hsteps
  have hmem : ([3, 4, 5] : List (Fin 6)) ∈
      longTie.walksThrough lengths (4 : Fin 6) (0 : Fin 6) (5 : Fin 6) := by
    refine ⟨⟨leads_append.mpr ⟨_, hsteps⟩, hreached, fun fs hfs => ?_⟩, _, _, rfl, hsteps⟩
    rcases hwalks fs hfs with rfl | rfl
    · exact hother
    · exact hself
  have hends : ((0 : Fin 6), (5 : Fin 6)) ∈ longTie.ends := by decide
  exact Graph.vertexScore_pos hends (by decide) (by decide) hfinite hmem

theorem betweenness_longTie : ∃ b : Betweenness ℚ ℚ,
    (∀ e : Fin 6, (0 : Float) < machineLengths[e]) ∧
      (betweenness longTie (.sequential 6)
        (some ⟨.double machineLengths.toArray⟩ : Option (EdgeMap Float32 Float)) false) = .ok b ∧
      b.vertex.values ≠ .double (Array.ofFn (longTie.vertexScore exactLengths)) ∧
      b.vertex.values ≠ .double (Array.ofFn (longTie.vertexScore machineLengths)) := by
  have hcomputed : betweenness longTie (.sequential 6)
      (some ⟨.double machineLengths.toArray⟩ : Option (EdgeMap Float32 Float)) false =
        .ok (⟨⟨.double #[0, 3, 4, 4, 0, 0]⟩, ⟨.double #[4, 6, 6, 1, 2, 5]⟩⟩ : Betweenness ℚ ℚ) := by
    decide +kernel
  have hexact : 0 < longTie.vertexScore exactLengths (4 : Fin 6) := by
    refine vertexScore_longTie_pos ?_ ?_ ?_
    · unfold Reached
      decide +kernel
    · unfold AtMost
      decide +kernel
    · unfold AtMost
      decide +kernel
  have hmachine : 0 < longTie.vertexScore machineLengths (4 : Fin 6) := by
    refine vertexScore_longTie_pos ?_ ?_ ?_
    · unfold Reached
      decide +kernel
    · unfold AtMost
      decide +kernel
    · unfold AtMost
      decide +kernel
  have hzero : ∀ {f : Fin 6 → ℚ}, 0 < f 4 →
      (Values.double #[0, 3, 4, 4, 0, 0] : Values ℚ ℚ) ≠ .double (Array.ofFn f) := by
    intro f hf heq
    have hentry := congrArg (fun xs => xs[4]?) (Values.double.inj heq)
    simp at hentry
    rw [← hentry] at hf
    exact lt_irrefl 0 hf
  exact ⟨_, by decide +kernel, hcomputed, hzero hexact, hzero hmachine⟩

end Machine

end Geodesic
