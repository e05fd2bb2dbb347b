import Geodesic.Proofs.Betweenness
import Geodesic.Proofs.Dominance

/-!
# Normalized scores lie between zero and one

A vertex has a share of at most one in each pair of other vertices, an edge in each pair. Factors
divide by the number of these pairs, and in an undirected graph the doubled factor makes up for the
halved totals. Where there are no pairs there is nothing to scale, so no factor divides by zero.
-/

namespace Geodesic

open Paths (Recorded)
open Schedule (complete_sequential)

/-! ## Shares -/

theorem sum_le_of_zeros {n : Nat} {f : Fin n → ℚ} {c : ℚ} (zeros : Finset (Fin n))
    (hzero : ∀ i ∈ zeros, f i = 0) (hle : ∀ i ∉ zeros, f i ≤ c) :
    ∑ i, f i ≤ ((n - zeros.card : Nat) : ℚ) * c := by
  have hsum : ∑ i, f i = ∑ i ∈ zerosᶜ, f i := by
    refine (Finset.sum_subset (Finset.subset_univ _) fun i _ hi => ?_).symm
    exact hzero i (by simpa using hi)
  have hcard : zerosᶜ.card = n - zeros.card := by
    rw [Finset.card_compl, Fintype.card_fin]
  rw [hsum, ← hcard, ← nsmul_eq_mul]
  exact Finset.sum_le_card_nsmul _ _ _ fun i hi => hle i (Finset.mem_compl.mp hi)

section Share

variable {D : Type} {n m : Nat} {p : Paths D ℚ n m} {out : Fin n → List (Fin m × Fin n)}
  {s t : Fin n}

theorem share_nonneg (p : Paths D ℚ n m) (s : Fin n) (hit : Fin m × Fin n → Prop) (t : Fin n) :
    0 ≤ p.share s hit t :=
  div_nonneg (Nat.cast_nonneg _) (Nat.cast_nonneg _)

theorem share_le_one (h : Recorded out s p) (hit : Fin m × Fin n → Prop) (t : Fin n) :
    p.share s hit t ≤ 1 := by
  have hcard : (p.trailsBy s hit t).ncard ≤ (p.trails s t).ncard :=
    Set.ncard_le_ncard Paths.trailsBy_subset (h.finite_trails t)
  exact div_le_one_of_le₀ (Nat.cast_le.mpr hcard) (Nat.cast_nonneg _)

/-- A vertex serves no pair that begins or ends with it. -/
theorem sum_share_origin_le (h : Recorded out s p) {v : Fin n} (hv : v ≠ s) :
    ∑ t, p.share s (fun a => a.2 = v) t ≤ ((n - 2 : Nat) : ℚ) := by
  have hzero : ∀ t ∈ ({v, s} : Finset (Fin n)), p.share s (fun a => a.2 = v) t = 0 := by
    intro t ht
    apply Dependency.share_eq_zero
    rcases Finset.mem_insert.mp ht with rfl | ht
    · exact h.trailsBy_origin_eq_empty (Before.irrefl h.nodup)
    · rw [Finset.mem_singleton.mp ht]
      exact h.trailsBy_source
  have hsum := sum_le_of_zeros _ hzero fun t _ => share_le_one h _ t
  rwa [Finset.card_pair hv, mul_one] at hsum

theorem sum_share_edge_le (h : Recorded out s p) (e : Fin m) :
    ∑ t, p.share s (fun a => a.1 = e) t ≤ ((n - 1 : Nat) : ℚ) := by
  have hzero : ∀ t ∈ ({s} : Finset (Fin n)), p.share s (fun a => a.1 = e) t = 0 := by
    intro t ht
    rw [Finset.mem_singleton.mp ht]
    exact Dependency.share_eq_zero h.trailsBy_source
  have hsum := sum_le_of_zeros _ hzero fun t _ => share_le_one h _ t
  rwa [Finset.card_singleton, mul_one] at hsum

end Share

/-! ## Totals -/

section Tally

variable {D : Type} [Distance D] {g : Graph} {plan : Schedule g.vertexCount}
  {search : g.Vertex → Paths D ℚ g.vertexCount g.edgeCount → Paths D ℚ g.vertexCount g.edgeCount}

theorem vertices_tally_bounds (h : Steady g search) (hplan : plan.Complete) (v : g.Vertex) :
    0 ≤ (plan.tally search).vertices[v] ∧ (plan.tally search).vertices[v] ≤
      (((g.vertexCount - 1) * (g.vertexCount - 2) : Nat) : ℚ) := by
  rw [h.vertices_tally hplan]
  constructor
  · apply Finset.sum_nonneg
    intro s _
    split
    · exact le_rfl
    · exact Finset.sum_nonneg fun t _ => share_nonneg ..
  · have hsum := sum_le_of_zeros {v}
      (f := fun s : g.Vertex => if v = s then 0 else
        ∑ t : g.Vertex, (search s (Paths.fresh D ℚ _ _)).share s (fun a => a.2 = v) t)
      (c := ((g.vertexCount - 2 : Nat) : ℚ))
      (fun s hs => if_pos (Finset.mem_singleton.mp hs).symm) ?_
    · rw [Finset.card_singleton] at hsum
      exact_mod_cast hsum
    · intro s hs
      have hv : v ≠ s := fun heq => hs (Finset.mem_singleton.mpr heq.symm)
      rw [if_neg hv]
      exact sum_share_origin_le (h.recorded s) hv

theorem edges_tally_bounds (h : Steady g search) (hplan : plan.Complete) (e : g.EdgeId) :
    0 ≤ (plan.tally search).edges[e] ∧ (plan.tally search).edges[e] ≤
      ((g.vertexCount * (g.vertexCount - 1) : Nat) : ℚ) := by
  rw [h.edges_tally hplan]
  constructor
  · exact Finset.sum_nonneg fun s _ => Finset.sum_nonneg fun t _ => share_nonneg ..
  · have hsum := sum_le_of_zeros ∅
      (f := fun s : g.Vertex =>
        ∑ t : g.Vertex, (search s (Paths.fresh D ℚ _ _)).share s (fun a => a.1 = e) t)
      (fun s hs => absurd hs (Finset.notMem_empty s))
      fun s _ => sum_share_edge_le (h.recorded s) e
    rw [Finset.card_empty, Nat.sub_zero] at hsum
    exact_mod_cast hsum

end Tally

/-! ## Factors -/

/-- Numbers whose quotients by zero are undefined. -/
def Checked : Type :=
  Option ℚ

namespace Checked

instance : NatCast Checked := ⟨fun n => some (n : ℚ)⟩

instance : One Checked := ⟨some 1⟩

instance : OfNat Checked 2 := ⟨some 2⟩

instance : Sub Checked := ⟨Option.map₂ (· - ·)⟩

instance : Mul Checked := ⟨Option.map₂ (· * ·)⟩

instance : Div Checked :=
  ⟨fun a b => a.bind fun x => b.bind fun y => if y = 0 then none else some (x / y)⟩

def of (q : ℚ) : Checked :=
  some q

theorem div_of (a : ℚ) {b : ℚ} (hb : b ≠ 0) : of a / of b = of (a / b) :=
  if_neg hb

end Checked

section Factors

variable {n : Nat} {x : ℚ}

theorem cast_vertexPairs (hn : 2 < n) :
    (((n - 1) * (n - 2) : Nat) : ℚ) = ((n : ℚ) - 1) * ((n : ℚ) - 2) := by
  rw [Nat.cast_mul, Nat.cast_sub (by omega), Nat.cast_sub (by omega)]
  rfl

theorem cast_edgePairs (hn : 1 < n) : ((n * (n - 1) : Nat) : ℚ) = (n : ℚ) * ((n : ℚ) - 1) := by
  rw [Nat.cast_mul, Nat.cast_sub (by omega)]
  rfl

theorem vertexPairs_ne_zero (hn : 2 < n) : ((n : ℚ) - 1) * ((n : ℚ) - 2) ≠ 0 := by
  rw [← cast_vertexPairs hn, Nat.cast_ne_zero]
  exact Nat.mul_ne_zero (by omega) (by omega)

theorem edgePairs_ne_zero (hn : 1 < n) : (n : ℚ) * ((n : ℚ) - 1) ≠ 0 := by
  rw [← cast_edgePairs hn, Nat.cast_ne_zero]
  exact Nat.mul_ne_zero (by omega) (by omega)

/-- Every division on the way to a factor is defined. -/
theorem factors_checked (n : Nat) (directed : Bool) :
    (normalizationFactors n directed : Factors Checked) =
      let factors : Factors ℚ := normalizationFactors n directed
      ⟨Checked.of factors.vertex, Checked.of factors.edge⟩ := by
  have hvertex : (if 2 < n then 1 / (((n : Checked) - 1) * ((n : Checked) - 2)) else 1) =
      Checked.of (if 2 < n then 1 / (((n : ℚ) - 1) * ((n : ℚ) - 2)) else 1) := by
    split
    · rename_i hn
      exact Checked.div_of 1 (vertexPairs_ne_zero hn)
    · rfl
  have hedge : (if 1 < n then 1 / ((n : Checked) * ((n : Checked) - 1)) else 1) =
      Checked.of (if 1 < n then 1 / ((n : ℚ) * ((n : ℚ) - 1)) else 1) := by
    split
    · rename_i hn
      exact Checked.div_of 1 (edgePairs_ne_zero hn)
    · rfl
  unfold normalizationFactors
  rw [hvertex, hedge]
  cases directed with
  | true => rfl
  | false => rfl

theorem scaled_bounds {k : Nat} (h : 0 ≤ x ∧ x ≤ k) : 0 ≤ x * (1 / k) ∧ x * (1 / k) ≤ 1 := by
  rw [mul_one_div]
  exact ⟨div_nonneg h.1 (Nat.cast_nonneg k), div_le_one_of_le₀ h.2 (Nat.cast_nonneg k)⟩

theorem unscaled_bounds {k : Nat} (hk : k = 0) (h : 0 ≤ x ∧ x ≤ k) : 0 ≤ x * 1 ∧ x * 1 ≤ 1 := by
  rw [hk, Nat.cast_zero] at h
  rw [mul_one]
  exact ⟨h.1, h.2.trans zero_le_one⟩

theorem vertex_scaled_bounds (h : 0 ≤ x ∧ x ≤ (((n - 1) * (n - 2) : Nat) : ℚ)) :
    0 ≤ x * (normalizationFactors n true : Factors ℚ).vertex ∧
      x * (normalizationFactors n true : Factors ℚ).vertex ≤ 1 := by
  change 0 ≤ x * (if 2 < n then _ else _) ∧ x * (if 2 < n then _ else _) ≤ 1
  split
  · rename_i hn
    rw [← cast_vertexPairs hn]
    exact scaled_bounds h
  · rename_i hn
    apply unscaled_bounds _ h
    rw [Nat.sub_eq_zero_of_le (not_lt.mp hn), Nat.mul_zero]

theorem edge_scaled_bounds (h : 0 ≤ x ∧ x ≤ ((n * (n - 1) : Nat) : ℚ)) :
    0 ≤ x * (normalizationFactors n true : Factors ℚ).edge ∧
      x * (normalizationFactors n true : Factors ℚ).edge ≤ 1 := by
  change 0 ≤ x * (if 1 < n then _ else _) ∧ x * (if 1 < n then _ else _) ≤ 1
  split
  · rename_i hn
    rw [← cast_edgePairs hn]
    exact scaled_bounds h
  · rename_i hn
    apply unscaled_bounds _ h
    rw [Nat.sub_eq_zero_of_le (not_lt.mp hn), Nat.mul_zero]

variable {g : Graph}

/-- The doubled factor of an undirected graph makes up for the halved totals. -/
theorem vertices_scaled (g : Graph) (t : Tally ℚ g.vertexCount g.edgeCount) (v : g.Vertex) :
    (countedOnce g t).vertices[v] *
        (normalizationFactors g.vertexCount g.directed : Factors ℚ).vertex =
      t.vertices[v] * (normalizationFactors g.vertexCount true : Factors ℚ).vertex := by
  rw [countedOnce_entry (x := fun t => t.vertices[v]) (Tally.vertices_halve t v)]
  cases g.directed with
  | true => rfl
  | false =>
      change t.vertices[v] / 2 * ((normalizationFactors _ true : Factors ℚ).vertex * 2) = _
      ring

theorem edges_scaled (g : Graph) (t : Tally ℚ g.vertexCount g.edgeCount) (e : g.EdgeId) :
    (countedOnce g t).edges[e] *
        (normalizationFactors g.vertexCount g.directed : Factors ℚ).edge =
      t.edges[e] * (normalizationFactors g.vertexCount true : Factors ℚ).edge := by
  rw [countedOnce_entry (x := fun t => t.edges[e]) (Tally.edges_halve t e)]
  cases g.directed with
  | true => rfl
  | false =>
      change t.edges[e] / 2 * ((normalizationFactors _ true : Factors ℚ).edge * 2) = _
      ring

end Factors

/-! ## The whole computation -/

section Computation

variable {F D R : Type} [Distance F] [Distance D] [Precision F D] {g : Graph}

theorem exists_steady (plan : Schedule g.vertexCount) (weights : Option (Table D g.edgeCount))
    (xs : Array ℚ) : ∃ (D' : Type) (_ : Distance D')
      (search : g.Vertex → Paths D' ℚ g.vertexCount g.edgeCount →
        Paths D' ℚ g.vertexCount g.edgeCount), Steady g search ∧
      totals (F := F) g plan weights (.double xs : Slots R ℚ) =
        countedOnce g (plan.tally search) := by
  cases weights with
  | none => exact ⟨Hops, _, _, steady_breadthFirst g, totals_none plan _⟩
  | some lengths => exact ⟨D, _, _, steady_weighted lengths, totals_some plan lengths xs⟩

variable [Zero D] [One D] [IntCast D] [Zero R] [Add R] [Mul R] [Precision R ℚ]

omit [Distance F] [Distance D] [Precision F D] [Zero D] [One D] [IntCast D] [Zero R] [Add R]
  [Mul R] in
/-- The dominance of scores between zero and one is computed, and lies there too. -/
theorem centralPointDominance_bounds {x : g.Vertex → ℚ} (hx : ∀ v : g.Vertex, 0 ≤ x v ∧ x v ≤ 1)
    (edge : EdgeMap R ℚ) :
    let b : Betweenness R ℚ := ⟨⟨.double (Array.ofFn x)⟩, edge⟩
    (centralPointDominance g b.vertex : Except (Fault D) ℚ) = .ok b.centralPointDominance ∧
      0 ≤ b.centralPointDominance ∧ b.centralPointDominance ≤ 1 := by
  have hfits : (⟨.double (Array.ofFn x)⟩ : VertexMap R ℚ).Fits g := Array.size_ofFn
  have hchecked : (⟨.double (Array.ofFn x)⟩ : VertexMap R ℚ).checkSize .vertexScores g =
      (.ok () : Except (Fault D) Unit) := if_pos hfits
  constructor
  · unfold centralPointDominance
    simp only [Values.numbers?, hchecked]
    rfl
  · apply dominance_bounds
    intro c hc
    obtain ⟨v, rfl⟩ := List.mem_ofFn.mp (by simpa using hc)
    exact hx v

/-- Normalized scores of vertices and edges lie between zero and one, and so does the dominance of
the vertices. No factor divides by zero. -/
theorem betweenness_normalized (plan : Schedule g.vertexCount) (hplan : plan.Complete)
    (weight : Option (EdgeMap F D)) {weights : Option (Table D g.edgeCount)}
    (hweights : weight.mapM (admitWeights g) = .ok weights) :
    (normalizationFactors g.vertexCount g.directed : Factors Checked) =
      ⟨Checked.of (normalizationFactors g.vertexCount g.directed : Factors ℚ).vertex,
        Checked.of (normalizationFactors g.vertexCount g.directed : Factors ℚ).edge⟩ ∧
    ∃ (x : g.Vertex → ℚ) (y : g.EdgeId → ℚ),
      let b : Betweenness R ℚ := ⟨⟨.double (Array.ofFn x)⟩, ⟨.double (Array.ofFn y)⟩⟩
      (betweenness g plan weight true : Except (Fault D) (Betweenness R ℚ)) = .ok b ∧
      (∀ v : g.Vertex, 0 ≤ x v ∧ x v ≤ 1) ∧ (∀ e : g.EdgeId, 0 ≤ y e ∧ y e ≤ 1) ∧
      (centralPointDominance g b.vertex : Except (Fault D) ℚ) = .ok b.centralPointDominance ∧
      0 ≤ b.centralPointDominance ∧ b.centralPointDominance ≤ 1 := by
  have hfinished := betweenness_eq_entries (R := R) plan hweights true
  obtain ⟨D', _, search, hsearch, htotals⟩ :=
    exists_steady (F := F) (R := R) plan weights (Array.replicate g.edgeCount 0)
  simp only [htotals, finishedScore, if_true, vertices_scaled, edges_scaled] at hfinished
  have hvertices := fun v : g.Vertex => vertex_scaled_bounds (vertices_tally_bounds hsearch hplan v)
  have hedges := fun e : g.EdgeId => edge_scaled_bounds (edges_tally_bounds hsearch hplan e)
  constructor
  · exact factors_checked g.vertexCount g.directed
  · exact ⟨_, _, hfinished, hvertices, hedges, centralPointDominance_bounds hvertices _⟩

/-- Zero, finite and infinite weights. -/
def mixedLengths : Table Float 5 :=
  Table.ofArray #[0.0, 1.0, 1.5, 0.0, 1.0 / 0.0] rfl

theorem betweenness_looseTriangle_normalized :
    (Schedule.sequential 4).Complete ∧
      (some ⟨.double mixedLengths.toArray⟩ : Option (EdgeMap Float32 Float)).mapM
        (admitWeights looseTriangle) = .ok (some mixedLengths) ∧
      (normalizationFactors 4 false : Factors Checked) =
        ⟨Checked.of (normalizationFactors 4 false : Factors ℚ).vertex,
          Checked.of (normalizationFactors 4 false : Factors ℚ).edge⟩ ∧
      ∃ (x : Fin 4 → ℚ) (y : Fin 5 → ℚ),
        let b : Betweenness ℚ ℚ := ⟨⟨.double (Array.ofFn x)⟩, ⟨.double (Array.ofFn y)⟩⟩
        (betweenness looseTriangle (.sequential 4)
          (some ⟨.double mixedLengths.toArray⟩ : Option (EdgeMap Float32 Float)) true :
            Except (Fault Float) (Betweenness ℚ ℚ)) = .ok b ∧
        (∀ v : Fin 4, 0 ≤ x v ∧ x v ≤ 1) ∧ (∀ e : Fin 5, 0 ≤ y e ∧ y e ≤ 1) ∧
        (centralPointDominance looseTriangle b.vertex : Except (Fault Float) ℚ) =
          .ok b.centralPointDominance ∧
        0 ≤ b.centralPointDominance ∧ b.centralPointDominance ≤ 1 := by
  have hplan := complete_sequential looseTriangle.vertexCount
  have hweights : (some ⟨.double mixedLengths.toArray⟩ : Option (EdgeMap Float32 Float)).mapM
      (admitWeights looseTriangle) = .ok (some mixedLengths) := by
    decide +kernel
  exact ⟨hplan, hweights, betweenness_normalized _ hplan _ hweights⟩

end Computation

end Geodesic
