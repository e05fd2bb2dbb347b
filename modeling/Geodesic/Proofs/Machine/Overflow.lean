import Geodesic.Proofs.Betweenness
import Geodesic.Proofs.Machine.Sums

/-!
# Scores in double precision

The numbers of paths of a graph can exceed the range of doubles. Scores are never negative, but the
score of an edge is undefined as soon as one source hands an infinite count on across it. Where no
source does, all scores are finite, for graphs of up to `2 ^ 52` vertices and edges.
-/

namespace Geodesic

open Machine

/-- The search from `s`, by weights or by hops, counts too many paths to the origin of a step along
this edge. -/
def Graph.Overflows (g : Graph) (weights : Option (Table Float g.edgeCount)) (s : g.Vertex)
    (e : g.EdgeId) : Prop :=
  match weights with
  | none => ((Paths.fresh Hops Float _ _).breadthFirst g.outEdges s).Overflows e
  | some ws => ((Paths.fresh Float Float _ _).weighted g.outEdges ws s).Overflows e

/-! ## All sources -/

section Tally

variable {D : Type} [Distance D] {g : Graph}
  {search : g.Vertex → Paths D Float g.vertexCount g.edgeCount →
    Paths D Float g.vertexCount g.edgeCount}

theorem allUnsigned_of_cleared {d : Dependency Float g.vertexCount g.edgeCount}
    (hcleared : ∀ v : g.Vertex, d.delta[v] = Zero.zero) (ht : UnsignedSums d.tally) :
    AllUnsigned d where
  delta v := by
    rw [hcleared]
    exact Or.inr ⟨0, reads_zero⟩
  tally := ht

theorem unsigned_tally (h : Steady g search) (plan : Schedule g.vertexCount) :
    UnsignedSums (plan.tally search) := by
  refine h.tally_induction (Q := fun _ t => UnsignedSums t) unsignedSums_zero ?_ ?_ plan
  · intro ss s d hcleared ht
    exact (allUnsigned_of_cleared hcleared ht).accumulate (h.counted s)
  · intro ss ts a b ha hb
    exact ha.merge hb

/-- One overflow on an edge leaves its sum undefined, whatever the other sources add. -/
theorem nan_tally (h : Steady g search) (plan : Schedule g.vertexCount) {s : g.Vertex}
    (hs : s ∈ plan.sources) {e : g.EdgeId} (he : (search s (Paths.fresh D Float _ _)).Overflows e) :
    (plan.tally search).edges[e].isNaN = true := by
  obtain ⟨w, a, ha, rfl, hover⟩ := he
  have hcounted := h.counted s
  obtain ⟨b, hb, -⟩ := reads_sigma hcounted a.2 (hcounted.before w a ha).left_mem
  have htop : b = ⊤ := by
    by_contra hne
    rw [hb.isFinite_iff.mpr hne] at hover
    cases hover
  rw [htop] at hb
  have hboth := h.tally_induction (Q := fun ss t => UnsignedSums t ∧
    (s ∈ ss → t.edges[a.1].isNaN = true)) ?_ ?_ ?_ plan
  · exact hboth.2 hs
  · exact ⟨unsignedSums_zero, fun hnone => absurd hnone List.not_mem_nil⟩
  · rintro ss s' d hcleared ⟨hsums, hnan⟩
    have hd := allUnsigned_of_cleared hcleared hsums
    refine ⟨hd.accumulate (h.counted s'), fun hmem => ?_⟩
    rcases List.mem_append.mp hmem with hmem | hmem
    · exact nan_edges_accumulate (hnan hmem) _
    · obtain rfl := List.mem_singleton.mp hmem
      exact nan_accumulate hcounted hd (hcounted.nodup_edges_into w) ha hb
  · rintro ss ts t t' ⟨hsums, hnan⟩ ⟨hsums', hnan'⟩
    refine ⟨hsums.merge hsums', fun hmem => ?_⟩
    rw [Tally.edges_merge]
    rcases List.mem_append.mp hmem with hmem | hmem
    · exact nan_add_left (hnan hmem) _
    · exact nan_add_right _ (hnan' hmem)

/-- Without overflows the sums of few sources are far from the end of the range. -/
theorem sized_tally (h : Steady g search)
    (hfit : ∀ (s : g.Vertex) (e : g.EdgeId), ¬ (search s (Paths.fresh D Float _ _)).Overflows e)
    (hsize : g.vertexCount + g.edgeCount ≤ 2 ^ 52) (plan : Schedule g.vertexCount)
    (hplan : plan.sources.length < 2 ^ 53) :
    (∀ v : g.Vertex, Sized plan.sources.length (plan.tally search).vertices[v]) ∧
      ∀ e : g.EdgeId, Sized plan.sources.length (plan.tally search).edges[e] := by
  refine h.tally_induction (Q := fun ss t => ss.length < 2 ^ 53 →
    (∀ v : g.Vertex, Sized ss.length t.vertices[v]) ∧ ∀ e : g.EdgeId, Sized ss.length t.edges[e])
    ?_ ?_ ?_ plan hplan
  · intro _
    constructor
    · intro v
      rw [Tally.vertices_zero]
      exact sized_zero
    · intro e
      rw [Tally.edges_zero]
      exact sized_zero
  · intro ss s d hcleared hsized hlength
    rw [List.length_append, List.length_singleton] at hlength ⊢
    obtain ⟨hvertices, hedges⟩ := hsized (by omega)
    obtain ⟨hraised, hraised'⟩ := raised_accumulate (h.counted s) (hfit s) hcleared hsize
    exact ⟨fun v => (hraised v).sized (hvertices v) hlength,
      fun e => (hraised' e).sized (hedges e) hlength⟩
  · intro ss ts t t' ht ht' hlength
    rw [List.length_append] at hlength ⊢
    obtain ⟨hvertices, hedges⟩ := ht (by omega)
    obtain ⟨hvertices', hedges'⟩ := ht' (by omega)
    constructor
    · intro v
      rw [Tally.vertices_merge]
      exact (hvertices v).add (hvertices' v) hlength
    · intro e
      rw [Tally.edges_merge]
      exact (hedges e).add (hedges' e) hlength

end Tally

/-! ## Scores -/

theorem score_of_sum {P : Float → Prop} (hhalf : ∀ x, P x → P (x / 2))
    (hzero : ∀ x, P x → P (Zero.zero + x)) {n : Nat} {g : Graph}
    {xs : Tally Float g.vertexCount g.edgeCount → Table Float n}
    (hxs : ∀ (t : Tally Float g.vertexCount g.edgeCount) (i : Fin n), (xs t.halve)[i] = (xs t)[i] / 2)
    {t : Tally Float g.vertexCount g.edgeCount} {i : Fin n} (h : P (xs t)[i]) :
    P ((xs (countedOnce g t)).map (Zero.zero + ·))[i] := by
  rw [Table.getElem_map]
  refine hzero _ ?_
  unfold countedOnce
  split
  · exact h
  · rw [hxs]
    exact hhalf _ h

structure Graph.ScoredInDoubles (g : Graph) (weights : Option (Table Float g.edgeCount))
    (xs : Table Float g.vertexCount) (ys : Table Float g.edgeCount) : Prop where
  vertices : ∀ v : g.Vertex, xs[v].isNaN = true ∨ 0 ≤ xs[v]
  edges : ∀ e : g.EdgeId, ys[e].isNaN = true ∨ 0 ≤ ys[e]
  overflow : ∀ (s : g.Vertex) (e : g.EdgeId), g.Overflows weights s e → ys[e].isNaN = true
  finite : g.vertexCount + g.edgeCount ≤ 2 ^ 52 →
    (∀ (s : g.Vertex) (e : g.EdgeId), ¬ g.Overflows weights s e) →
      (∀ v : g.Vertex, xs[v].isFinite = true) ∧ ∀ e : g.EdgeId, ys[e].isFinite = true

theorem Machine.Unsigned.nan_or_nonneg {x : Float} (h : Unsigned x) : x.isNaN = true ∨ 0 ≤ x :=
  h.imp_right fun ⟨_, ha⟩ => ha.nonneg

theorem scoredInDoubles_of_steady {D : Type} [Distance D] {g : Graph}
    (weights : Option (Table Float g.edgeCount))
    {search : g.Vertex → Paths D Float g.vertexCount g.edgeCount →
      Paths D Float g.vertexCount g.edgeCount} (h : Steady g search)
    (hsearch : ∀ (s : g.Vertex) (e : g.EdgeId),
      g.Overflows weights s e ↔ (search s (Paths.fresh D Float _ _)).Overflows e)
    {plan : Schedule g.vertexCount} (hplan : plan.Complete) :
    g.ScoredInDoubles weights
      ((countedOnce g (plan.tally search)).vertices.map (Zero.zero + ·))
      ((countedOnce g (plan.tally search)).edges.map (Zero.zero + ·)) := by
  have hsums := unsigned_tally h plan
  have hhalf : ∀ x : Float, Unsigned x → Unsigned (x / 2) := by
    intro x hx
    exact hx.div reads_two (Nat.cast_pos.mpr (Nat.mul_pos (by decide) unity_pos))
  have hzero : ∀ x : Float, Unsigned x → Unsigned (Zero.zero + x) :=
    fun x hx => Unsigned.add (Or.inr ⟨0, reads_zero⟩) hx
  have hsources : plan.sources.length = g.vertexCount := by
    rw [hplan, List.length_finRange]
  constructor
  · intro v
    exact (score_of_sum (P := Unsigned) hhalf hzero Tally.vertices_halve
      (hsums.vertices v)).nan_or_nonneg
  · intro e
    exact (score_of_sum (P := Unsigned) hhalf hzero Tally.edges_halve
      (hsums.edges e)).nan_or_nonneg
  · intro s e hover
    have hmem : s ∈ plan.sources := by
      rw [hplan]
      exact List.mem_finRange s
    exact score_of_sum (P := fun x => x.isNaN = true) (fun x hx => nan_div_left hx 2)
      (fun x hx => nan_add_right _ hx) Tally.edges_halve
      (nan_tally h plan hmem ((hsearch s e).mp hover))
  · intro hsize hfit
    have hnone : ∀ (s : g.Vertex) (e : g.EdgeId),
        ¬ (search s (Paths.fresh D Float _ _)).Overflows e :=
      fun s e hover => hfit s e ((hsearch s e).mpr hover)
    obtain ⟨hvertices, hedges⟩ := sized_tally h hnone hsize plan (by omega)
    have hfinite : ∀ x : Float, Proper x → x.isFinite = true :=
      fun x hx => (Reads.isFinite_iff hx).mpr (ENat.natCast_ne_top _)
    constructor
    · intro v
      exact hfinite _ (score_of_sum (P := Proper) (fun _ => Proper.half)
        (fun _ => Proper.onto_zero) Tally.vertices_halve (hvertices v).proper)
    · intro e
      exact hfinite _ (score_of_sum (P := Proper) (fun _ => Proper.half)
        (fun _ => Proper.onto_zero) Tally.edges_halve (hedges e).proper)

theorem scoredInDoubles_totals {g : Graph} {plan : Schedule g.vertexCount} (hplan : plan.Complete)
    (weights : Option (Table Float g.edgeCount)) :
    let total := totals (F := Float32) g plan weights
      (.double (Array.replicate g.edgeCount 0) : Slots Float32 Float)
    g.ScoredInDoubles weights (total.vertices.map (Zero.zero + ·))
      (total.edges.map (Zero.zero + ·)) := by
  cases weights with
  | none =>
      have hscored := scoredInDoubles_of_steady none (steady_breadthFirst g)
        (fun _ _ => Iff.rfl) hplan
      rw [← Graph.hopTally_eq] at hscored
      exact hscored
  | some ws =>
      have hscored := scoredInDoubles_of_steady (some ws) (steady_weighted ws)
        (fun _ _ => Iff.rfl) hplan
      rw [← Graph.weightTally_eq] at hscored
      exact hscored

/-- Betweenness in double precision is never negative; it is undefined on edges across which path
counts overflow, and finite throughout where none do. -/
theorem betweenness_scoredInDoubles (g : Graph) (plan : Schedule g.vertexCount)
    (hplan : plan.Complete) (weight : Option (EdgeMap Float32 Float))
    (weights : Option (Table Float g.edgeCount))
    (hweights : weight.mapM (admitWeights g) = .ok weights) :
    ∃ (xs : Table Float g.vertexCount) (ys : Table Float g.edgeCount),
      (betweenness g plan weight false : Except (Fault Float) (Betweenness Float32 Float)) =
        .ok ⟨⟨.double xs.toArray⟩, ⟨.double ys.toArray⟩⟩ ∧ g.ScoredInDoubles weights xs ys :=
  ⟨_, _, betweenness_eq_added plan hweights, scoredInDoubles_totals hplan weights⟩

theorem betweenness_longTie_scoredInDoubles :
    (Schedule.sequential 6).Complete ∧
      (some ⟨.double machineLengths.toArray⟩ : Option (EdgeMap Float32 Float)).mapM
        (admitWeights longTie) = .ok (some machineLengths) ∧
      ∃ (xs : Table Float 6) (ys : Table Float 6),
        (betweenness longTie (.sequential 6)
          (some ⟨.double machineLengths.toArray⟩ : Option (EdgeMap Float32 Float)) false :
            Except (Fault Float) (Betweenness Float32 Float)) =
          .ok ⟨⟨.double xs.toArray⟩, ⟨.double ys.toArray⟩⟩ ∧
            longTie.ScoredInDoubles (some machineLengths) xs ys := by
  have hplan : (Schedule.sequential longTie.vertexCount).Complete :=
    Schedule.complete_sequential _
  have hadmissible : ∀ e : Fin 6, Distance.Admissible machineLengths[e] := by
    unfold Distance.Admissible
    decide +kernel
  have hadmitted : admitWeights longTie (⟨.double machineLengths.toArray⟩ : EdgeMap Float32 Float) =
      .ok machineLengths := admitWeights_eq_ok_iff.mpr ⟨rfl, hadmissible⟩
  have hweights : (some ⟨.double machineLengths.toArray⟩ : Option (EdgeMap Float32 Float)).mapM
      (admitWeights longTie) = .ok (some machineLengths) := by
    rw [Option.mapM_some, hadmitted]
    rfl
  exact ⟨hplan, hweights, betweenness_scoredInDoubles longTie _ hplan _ _ hweights⟩

/-! ## Too many paths -/

section DoubledPath

open Paths (Sweeping)

/-- A path of `k` links, each of them two parallel edges. -/
def doubledPath (k : Nat) : Graph where
  directed := true
  vertexCount := k + 1
  edges := Array.ofFn fun i : Fin (2 * k) => ⟨⟨i / 2, by omega⟩, ⟨i / 2 + 1, by omega⟩⟩

variable {k : Nat} {p : Paths Hops Float (doubledPath k).vertexCount (doubledPath k).edgeCount}
  {s u x y : (doubledPath k).Vertex} {e : (doubledPath k).EdgeId}

theorem edgeCount_doubledPath : (doubledPath k).edgeCount = 2 * k :=
  Array.size_ofFn

theorem ends_doubledPath (e : (doubledPath k).EdgeId) :
    ((doubledPath k).edge e).source.val = e.val / 2 ∧
      ((doubledPath k).edge e).target.val = e.val / 2 + 1 := by
  have hedge : (doubledPath k).edge e = _ := Array.getElem_ofFn _
  rw [hedge]
  exact ⟨rfl, rfl⟩

theorem mem_outEdges_doubledPath :
    (e, y) ∈ (doubledPath k).outEdges x ↔ e.val / 2 = x.val ∧ y.val = x.val + 1 := by
  obtain ⟨hsource, htarget⟩ := ends_doubledPath e
  have hdirected : (doubledPath k).directed = true := rfl
  rw [Graph.mem_outEdges, Fin.ext_iff, Fin.ext_iff, hsource, htarget]
  simp only [hdirected, Bool.true_eq_false, false_and, or_false]
  omega

/-- Both edges of a link are recorded. -/
theorem preds_doubledPath
    (h : Sweeping (doubledPath k).outEdges (0 : Fin (k + 1)) p.order.toList u [] p)
    (hx : x ∈ p.order.toList) (hy : y.val = x.val + 1) : y ∈ p.order.toList ∧
      ∃ e e' : (doubledPath k).EdgeId, p.preds[y].toList.Perm [(e, x), (e', x)] := by
  have hlink : x.val < k := by
    have := y.isLt
    have hcount : (doubledPath k).vertexCount = k + 1 := rfl
    omega
  have hedges : (doubledPath k).edgeCount = 2 * k := edgeCount_doubledPath
  let e : (doubledPath k).EdgeId := ⟨2 * x.val, by omega⟩
  let e' : (doubledPath k).EdgeId := ⟨2 * x.val + 1, by omega⟩
  have hstep : (e, y) ∈ (doubledPath k).outEdges x :=
    mem_outEdges_doubledPath.mpr ⟨Nat.mul_div_cancel_left _ (by decide), hy⟩
  have hstep' : (e', y) ∈ (doubledPath k).outEdges x :=
    mem_outEdges_doubledPath.mpr ⟨by show (2 * x.val + 1) / 2 = x.val; omega, hy⟩
  have hvisited : y ∈ p.order.toList := (h.closed x hx (e, y) hstep (by simp)).1
  have hlevel : p.level y = p.level x + 1 := by
    rcases h.known y hvisited with hzero | hne
    · rw [hzero] at hy
      cases hy
    · obtain ⟨a, ha⟩ := List.exists_mem_of_ne_nil _ hne
      obtain ⟨horigin, -, hnext⟩ := h.step y a ha
      have hsame : a.2 = x := Fin.ext (by
        have := (mem_outEdges_doubledPath.mp horigin).2
        omega)
      rw [hnext, hsame]
  refine ⟨hvisited, e, e', (List.perm_ext_iff_of_nodup (h.once y) ?_).mpr fun a => ?_⟩
  · have hne : e ≠ e' := fun heq => by
      have hval : 2 * x.val = 2 * x.val + 1 := congrArg Fin.val heq
      omega
    simp [hne]
  · obtain ⟨b, z⟩ := a
    rw [h.mem_preds_iff, mem_outEdges_doubledPath, List.mem_pair, Prod.mk.injEq, Prod.mk.injEq]
    constructor
    · rintro ⟨⟨hhalf, hnext⟩, -, -⟩
      have hz : z = x := Fin.ext (by omega)
      rw [hz] at hhalf
      have hval : b.val = 2 * x.val ∨ b.val = 2 * x.val + 1 := by omega
      exact hval.imp (fun hb => ⟨Fin.ext hb, hz⟩) fun hb => ⟨Fin.ext hb, hz⟩
    · rintro (⟨rfl, rfl⟩ | ⟨rfl, rfl⟩)
      · exact ⟨mem_outEdges_doubledPath.mp hstep, hx, hlevel⟩
      · exact ⟨mem_outEdges_doubledPath.mp hstep', hx, hlevel⟩

/-- Each link doubles the number of paths, up to the end of the range. -/
theorem sigma_doubledPath
    (h : Sweeping (doubledPath k).outEdges (0 : Fin (k + 1)) p.order.toList u [] p) (j : Nat)
    (hj : x.val = j) : x ∈ p.order.toList ∧
      (Reads p.sigma[x] ⊤ ∨ Reads p.sigma[x] (2 ^ j * one : Nat)) := by
  induction j generalizing x with
  | zero =>
      obtain rfl : x = (0 : Fin (k + 1)) := Fin.ext hj
      rw [h.sigma_source, Nat.pow_zero, Nat.one_mul]
      exact ⟨h.source_visited, Or.inr reads_one⟩
  | succ j ih =>
      have hbelow : j < (doubledPath k).vertexCount := by
        have := x.isLt
        omega
      obtain ⟨hz, hpaths⟩ := ih (x := ⟨j, hbelow⟩) rfl
      obtain ⟨hx, e, e', hperm⟩ := preds_doubledPath h hz hj
      have hne : x ≠ (0 : Fin (k + 1)) := by
        rintro rfl
        cases hj
      have hcounts : (p.preds[x].toList.map fun a => p.sigma[a.2]) =
          List.replicate 2 p.sigma[(⟨j, hbelow⟩ : (doubledPath k).Vertex)] :=
        List.perm_replicate.mp (hperm.map fun a => p.sigma[a.2])
      have hdoubled : p.sigma[x] =
          Zero.zero + p.sigma[(⟨j, hbelow⟩ : (doubledPath k).Vertex)] + p.sigma[(⟨j, hbelow⟩ :
            (doubledPath k).Vertex)] := by
        rw [h.sigma x hne, hcounts]
        rfl
      refine ⟨hx, ?_⟩
      rw [hdoubled]
      rcases hpaths with htop | hnumber
      · exact Or.inl htop.twice
      · obtain ⟨i, hi⟩ : ∃ i, 2 ^ j * one = 2 ^ i := ⟨j + 1074, by rw [one_eq, pow_add]⟩
        have hsum := hnumber.twice
        rw [← Nat.cast_add, roundedSum_coe, ← Nat.two_mul] at hsum
        rw [pow_succ', mul_assoc]
        rw [hi, ← pow_succ'] at hsum ⊢
        rcases rounded_two_pow (i + 1) with htop | hkept
        · exact Or.inl (htop ▸ hsum)
        · exact Or.inr (hkept ▸ hsum)

/-- A doubled path of this length has more paths than doubles can count. -/
theorem overflows_doubledPath (hk : 1024 < k) :
    ∃ e, (doubledPath k).Overflows none (0 : Fin (k + 1)) e := by
  obtain ⟨u, h⟩ := Paths.exists_swept (S := Float) Paths.tidy_fresh (doubledPath k).nodup_outEdges
    (0 : Fin (k + 1))
  have hcount : (doubledPath k).vertexCount = k + 1 := rfl
  let x : (doubledPath k).Vertex := ⟨1024, by omega⟩
  let y : (doubledPath k).Vertex := ⟨1025, by omega⟩
  obtain ⟨hx, hpaths⟩ := sigma_doubledPath h (x := x) 1024 rfl
  obtain ⟨-, e, e', hperm⟩ := preds_doubledPath h (y := y) hx rfl
  refine ⟨e, y, (e, x), hperm.mem_iff.mpr (by simp), rfl, ?_⟩
  rcases hpaths with htop | hnumber
  · rw [Bool.eq_false_iff, ne_eq, htop.isFinite_iff]
    exact not_not.mpr rfl
  · have hbelow := units_lt_limit hnumber.proper
    rw [hnumber.units_eq] at hbelow
    exact absurd hbelow limit_le.not_gt

end DoubledPath

/-- On a long doubled path the score of some edge is undefined. -/
theorem betweenness_doubledPath :
    ∃ (xs : Table Float (doubledPath 1025).vertexCount)
      (ys : Table Float (doubledPath 1025).edgeCount),
      (betweenness (doubledPath 1025) (.sequential _) (none : Option (EdgeMap Float32 Float)) false :
        Except (Fault Float) (Betweenness Float32 Float)) =
          .ok ⟨⟨.double xs.toArray⟩, ⟨.double ys.toArray⟩⟩ ∧
        ∃ e : (doubledPath 1025).EdgeId,
          ys[e].isNaN = true ∧ ys[e].isFinite = false ∧ ¬ 0 ≤ ys[e] := by
  have hplan := Schedule.complete_sequential (doubledPath 1025).vertexCount
  obtain ⟨e, hover⟩ := overflows_doubledPath (k := 1025) (by decide)
  have hnan := (scoredInDoubles_totals hplan none).overflow _ e hover
  exact ⟨_, _, betweenness_eq_added _ rfl, e, hnan, isFinite_of_nan hnan, not_nonneg_of_nan hnan⟩

end Geodesic
