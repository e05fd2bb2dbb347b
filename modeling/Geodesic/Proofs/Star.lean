import Geodesic.Proofs.Normalization
import Geodesic.Proofs.Paths.BreadthFirst.Shortest

/-!
# Full dominance means a star

Without weights, one vertex has the normalized score one exactly when all walks between two others
have to pass it, and these are the stars: the centre is joined with every other vertex both ways, and
the others are not joined with each other. All other scores of a star are zero.
-/

namespace Geodesic

open Paths (Exact Reachable briefWalks hopCounts)
open Schedule (complete_sequential)

namespace Graph

variable (g : Graph)

/-! ## Stars -/

/-- Some edge leads from `u` to `v`; in an undirected graph it may be stored either way round. -/
def Adjacent (u v : g.Vertex) : Prop :=
  ∃ e : g.EdgeId, ((g.edge e).source = u ∧ (g.edge e).target = v) ∨
    (g.directed = false ∧ (g.edge e).source = v ∧ (g.edge e).target = u)

/-- All edges but loops join `c` with the other vertices, and each of them both ways. -/
structure Star (c : g.Vertex) : Prop where
  inward : ∀ v : g.Vertex, v ≠ c → g.Adjacent v c
  outward : ∀ v : g.Vertex, v ≠ c → g.Adjacent c v
  apart : ∀ u v : g.Vertex, u ≠ c → v ≠ c → u ≠ v → ¬ g.Adjacent u v

variable {g} {c s t u v : g.Vertex} {es : List g.EdgeId}

theorem adjacent_iff : g.Adjacent u v ↔ ∃ e : g.EdgeId, (e, v) ∈ g.outEdges u := by
  refine exists_congr fun e => ?_
  rw [mem_outEdges]
  grind

/-! ## Walks that have to pass a vertex -/

section Apart

variable (hapart : ∀ u v : g.Vertex, u ≠ c → v ≠ c → u ≠ v → ¬ g.Adjacent u v)

include hapart

theorem eq_of_step {e : g.EdgeId} (hstep : (e, v) ∈ g.outEdges u) (hu : u ≠ c) (hv : v ≠ c) :
    v = u := by
  by_contra hne
  exact hapart u v hu hv (Ne.symm hne) (adjacent_iff.mpr ⟨e, hstep⟩)

theorem passes_centre (hs : s ≠ c) (ht : t ≠ c) (hst : s ≠ t) (hes : Leads g.outEdges s es t) :
    ∃ fs hs, es = fs ++ hs ∧ Leads g.outEdges s fs c ∧ Leads g.outEdges c hs t := by
  induction es with
  | nil => exact absurd hes hst
  | cons e es ih =>
      obtain ⟨w, hstep, hrest⟩ := hes
      by_cases hw : w = c
      · subst hw
        exact ⟨[e], es, rfl, ⟨w, hstep, rfl⟩, hrest⟩
      · obtain rfl := eq_of_step hapart hstep hs hw
        obtain ⟨fs, hs', rfl, hfs, hhs⟩ := ih hrest
        exact ⟨e :: fs, hs', rfl, ⟨w, hstep, hfs⟩, hhs⟩

theorem adjacent_of_walk_to (hs : s ≠ c) (hes : Leads g.outEdges s es c) : g.Adjacent s c := by
  induction es with
  | nil => exact absurd hes hs
  | cons e es ih =>
      obtain ⟨w, hstep, hrest⟩ := hes
      by_cases hw : w = c
      · subst hw
        exact adjacent_iff.mpr ⟨e, hstep⟩
      · obtain rfl := eq_of_step hapart hstep hs hw
        exact ih hrest

theorem adjacent_of_walk_from (ht : t ≠ c) (hes : Leads g.outEdges c es t) : g.Adjacent c t := by
  induction es using List.reverseRecOn with
  | nil => exact absurd hes.symm ht
  | append_singleton es e ih =>
      obtain ⟨w, hrest, hstep⟩ := leads_concat.mp hes
      by_cases hw : w = c
      · subst hw
        exact adjacent_iff.mpr ⟨e, hstep⟩
      · obtain rfl := eq_of_step hapart hstep hw ht
        exact ih hrest

end Apart

/-! ## Briefest walks -/

theorem edge_mem_briefWalks {e : g.EdgeId} (hstep : (e, t) ∈ g.outEdges s) (hst : s ≠ t) :
    [e] ∈ briefWalks g.outEdges s t := by
  refine ⟨⟨t, hstep, rfl⟩, ?_⟩
  rintro _ ⟨fs, hfs, rfl⟩
  obtain ⟨a, -, rest, rfl, -⟩ := exists_first_step hfs hst
  simp

/-- Both parts of a walk past a vertex that is neither end hold an edge. -/
theorem two_le_length_of_pass (hs : s ≠ v) (ht : t ≠ v) {fs hs' : List g.EdgeId}
    (hfs : Leads g.outEdges s fs v) (hhs : Leads g.outEdges v hs' t) :
    1 ≤ fs.length ∧ 1 ≤ hs'.length := by
  obtain ⟨a, -, rest, rfl, -⟩ := exists_first_step hfs hs
  obtain ⟨b, -, rest', rfl, -⟩ := exists_first_step hhs ht.symm
  simp

theorem adjacent_of_length_one (hlength : es.length = 1) (hes : Leads g.outEdges u es v) :
    g.Adjacent u v := by
  obtain ⟨e, rfl⟩ := List.length_eq_one_iff.mp hlength
  obtain ⟨w, hstep, rfl⟩ := hes
  exact adjacent_iff.mpr ⟨e, hstep⟩

namespace Star

theorem exists_walk (h : g.Star c) (hst : s ≠ t) :
    ∃ es, Leads g.outEdges s es t ∧ es.length ≤ 2 := by
  by_cases hs : s = c
  · subst hs
    obtain ⟨e, hstep⟩ := adjacent_iff.mp (h.outward t hst.symm)
    exact ⟨[e], ⟨t, hstep, rfl⟩, by simp⟩
  · obtain ⟨e, hin⟩ := adjacent_iff.mp (h.inward s hs)
    by_cases ht : t = c
    · subst ht
      exact ⟨[e], ⟨t, hin, rfl⟩, by simp⟩
    · obtain ⟨e', hout⟩ := adjacent_iff.mp (h.outward t ht)
      exact ⟨[e, e'], ⟨c, hin, t, hout, rfl⟩, by simp⟩

/-- A briefest walk passes no vertex but the centre. -/
theorem not_passed (h : g.Star c) (hv : v ≠ c) (hs : s ≠ v) (ht : t ≠ v) (hst : s ≠ t)
    (hes : es ∈ briefWalks g.outEdges s t) {fs hs' : List g.EdgeId} (heq : es = fs ++ hs')
    (hfs : Leads g.outEdges s fs v) (hhs : Leads g.outEdges v hs' t) : False := by
  obtain ⟨es', hes', htwo⟩ := h.exists_walk hst
  have hbrief : es.length ≤ es'.length := hes.2 ⟨es', hes', rfl⟩
  obtain ⟨hfirst, hsecond⟩ := two_le_length_of_pass hs ht hfs hhs
  have hsum : es.length = fs.length + hs'.length := by rw [heq, List.length_append]
  have hin := adjacent_of_length_one (by omega) hfs
  have hout := adjacent_of_length_one (by omega) hhs
  by_cases hsc : s = c
  · exact h.apart v t hv (hsc ▸ hst.symm) ht.symm hout
  · exact h.apart s v hsc hv hs hin

end Star

/-! ## Whole shares -/

section Share

variable {lengths : Table Length g.edgeCount}

theorem vertexTerm_bounds (hfinite : (g.shortestWalks lengths s t).Finite) (v : g.Vertex) :
    0 ≤ g.vertexTerm lengths v s t ∧ g.vertexTerm lengths v s t ≤ 1 := by
  have hcard : (g.walksThrough lengths v s t).ncard ≤ (g.shortestWalks lengths s t).ncard :=
    Set.ncard_le_ncard (fun _ h => h.1) hfinite
  unfold vertexTerm
  split
  · exact ⟨div_nonneg (Nat.cast_nonneg _) (Nat.cast_nonneg _),
      div_le_one_of_le₀ (Nat.cast_le.mpr hcard) (Nat.cast_nonneg _)⟩
  · exact ⟨le_rfl, zero_le_one⟩

theorem vertexTerm_eq_zero (h : g.walksThrough lengths v s t = ∅) :
    g.vertexTerm lengths v s t = 0 := by
  unfold vertexTerm vertexShare
  simp [h]

theorem vertexTerm_eq_one_iff (hfinite : (g.shortestWalks lengths s t).Finite) (hs : s ≠ v)
    (ht : t ≠ v) : g.vertexTerm lengths v s t = 1 ↔
      (g.shortestWalks lengths s t).Nonempty ∧
        g.shortestWalks lengths s t ⊆ g.walksThrough lengths v s t := by
  have hsubset : g.walksThrough lengths v s t ⊆ g.shortestWalks lengths s t := fun _ h => h.1
  constructor
  · intro hone
    unfold vertexTerm at hone
    split at hone
    · have hne : ((g.shortestWalks lengths s t).ncard : ℚ) ≠ 0 := by
        intro hzero
        rw [vertexShare, hzero, div_zero] at hone
        exact zero_ne_one hone
      rw [vertexShare, div_eq_one_iff_eq hne, Nat.cast_inj] at hone
      have heq := Set.eq_of_subset_of_ncard_le hsubset hone.ge hfinite
      exact ⟨Set.nonempty_of_ncard_ne_zero (Nat.cast_ne_zero.mp hne), heq.ge⟩
    · exact absurd hone zero_ne_one
  · rintro ⟨⟨es, hes⟩, hall⟩
    have hne : ((g.shortestWalks lengths s t).ncard : ℚ) ≠ 0 :=
      Nat.cast_ne_zero.mpr ((Set.ncard_pos hfinite).mpr ⟨es, hes⟩).ne'
    unfold vertexTerm
    rw [if_pos ⟨hs, ht, es, hes.1, hes.2.1⟩, vertexShare, hsubset.antisymm hall, div_self hne]

end Share

/-! ## Normalized scores by pairs -/

/-- The ordered pairs of different ends that `v` could serve. -/
def pairsBeside (v : g.Vertex) : Finset (g.Vertex × g.Vertex) :=
  (Finset.univ.erase v).offDiag

theorem mem_pairsBeside {q : g.Vertex × g.Vertex} :
    q ∈ g.pairsBeside v ↔ q.1 ≠ v ∧ q.2 ≠ v ∧ q.1 ≠ q.2 := by
  simp [pairsBeside]

theorem card_pairsBeside (v : g.Vertex) :
    (g.pairsBeside v).card = (g.vertexCount - 1) * (g.vertexCount - 2) := by
  have hothers : (Finset.univ.erase v).card = g.vertexCount - 1 := by
    rw [Finset.card_erase_of_mem (Finset.mem_univ v), Finset.card_univ, Fintype.card_fin]
  rw [pairsBeside, Finset.offDiag_card, hothers, ← Nat.mul_sub_one]
  rfl

section Scaled

variable (lengths : Table Length g.edgeCount)

theorem sum_pairsBeside (v : g.Vertex) :
    ∑ q : g.Vertex × g.Vertex with q.1 ≠ q.2, g.vertexTerm lengths v q.1 q.2 =
      ∑ q ∈ g.pairsBeside v, g.vertexTerm lengths v q.1 q.2 := by
  symm
  apply Finset.sum_subset
  · intro q hq
    exact Finset.mem_filter.mpr ⟨Finset.mem_univ q, (mem_pairsBeside.mp hq).2.2⟩
  · intro q hq hother
    have hne := (Finset.mem_filter.mp hq).2
    unfold vertexTerm
    rw [if_neg]
    exact fun hterm => hother (mem_pairsBeside.mpr ⟨hterm.1, hterm.2.1, hne⟩)

/-- A normalized score is the mean share of all pairs that the vertex could serve. -/
theorem vertexScore_scaled (hn : 2 < g.vertexCount) (v : g.Vertex) :
    g.vertexScore lengths v * (normalizationFactors g.vertexCount g.directed : Factors ℚ).vertex =
      (∑ q ∈ g.pairsBeside v, g.vertexTerm lengths v q.1 q.2) / (g.pairsBeside v).card := by
  rw [vertexScore_eq, g.sum_ends _ fun hg s t => vertexTerm_symm hg lengths v s t,
    sum_pairsBeside, card_pairsBeside, cast_vertexPairs hn]
  unfold normalizationFactors
  cases g.directed with
  | true =>
      simp only [if_true, if_pos hn]
      ring
  | false =>
      simp only [Bool.false_eq_true, if_false, if_pos hn]
      ring

variable {lengths} (hn : 2 < g.vertexCount)

include hn

theorem card_pairsBeside_ne_zero (v : g.Vertex) : ((g.pairsBeside v).card : ℚ) ≠ 0 := by
  rw [card_pairsBeside, cast_vertexPairs hn]
  exact vertexPairs_ne_zero hn

variable (hfinite : ∀ s t : g.Vertex, (g.shortestWalks lengths s t).Finite)

include hfinite

theorem vertexScore_scaled_bounds (v : g.Vertex) :
    let x := g.vertexScore lengths v *
      (normalizationFactors g.vertexCount g.directed : Factors ℚ).vertex
    0 ≤ x ∧ x ≤ 1 := by
  dsimp only
  rw [vertexScore_scaled lengths hn]
  constructor
  · exact div_nonneg (Finset.sum_nonneg fun q _ => (vertexTerm_bounds (hfinite q.1 q.2) v).1)
      (Nat.cast_nonneg _)
  · refine div_le_one_of_le₀ ?_ (Nat.cast_nonneg _)
    rw [← nsmul_one]
    exact Finset.sum_le_card_nsmul _ _ _ fun q _ => (vertexTerm_bounds (hfinite q.1 q.2) v).2

theorem vertexScore_scaled_eq_one_iff (v : g.Vertex) :
    g.vertexScore lengths v * (normalizationFactors g.vertexCount g.directed : Factors ℚ).vertex =
        1 ↔
      ∀ s t : g.Vertex, s ≠ v → t ≠ v → s ≠ t → g.vertexTerm lengths v s t = 1 := by
  rw [vertexScore_scaled lengths hn, div_eq_one_iff_eq (card_pairsBeside_ne_zero hn v),
    ← nsmul_one (g.pairsBeside v).card, ← Finset.sum_const,
    Finset.sum_eq_sum_iff_of_le fun q _ => (vertexTerm_bounds (hfinite q.1 q.2) v).2]
  constructor
  · exact fun hall s t hs ht hst => hall (s, t) (mem_pairsBeside.mpr ⟨hs, ht, hst⟩)
  · intro hall q hq
    obtain ⟨hs, ht, hst⟩ := mem_pairsBeside.mp hq
    exact hall q.1 q.2 hs ht hst

end Scaled

/-! ## Without weights -/

section Hops

variable {hops : Table Length g.edgeCount} (hone : ∀ e : g.EdgeId, hops[e] = 1)

include hone

theorem finite_shortestWalks (s t : g.Vertex) : (g.shortestWalks hops s t).Finite := by
  have hexact := Paths.exact_breadthFirst hone Paths.tidy_fresh s
  rw [hexact.shortestWalks_eq]
  exact (hexact.recorded.finite_trails t).image _

omit hone in
theorem exists_briefWalk (hes : Leads g.outEdges s es t) :
    (briefWalks g.outEdges s t).Nonempty := by
  have hne : (hopCounts g.outEdges s t).Nonempty := ⟨es.length, es, hes, rfl⟩
  obtain ⟨fs, hfs, hlength⟩ := Nat.sInf_mem hne
  refine ⟨fs, hfs, fun k hk => ?_⟩
  rw [hlength]
  exact Nat.sInf_le hk

/-- The centre of a star serves every pair alone. -/
theorem Star.vertexTerm_centre (h : g.Star c) (hs : s ≠ c) (ht : t ≠ c) (hst : s ≠ t) :
    g.vertexTerm hops c s t = 1 := by
  rw [vertexTerm_eq_one_iff (finite_shortestWalks hone s t) hs ht,
    Paths.shortestWalks_of_hops hone]
  constructor
  · obtain ⟨es, hes, -⟩ := h.exists_walk hst
    exact exists_briefWalk hes
  · intro es hes
    refine ⟨?_, passes_centre h.apart hs ht hst hes.1⟩
    rwa [Paths.shortestWalks_of_hops hone]

theorem Star.vertexTerm_other (h : g.Star c) (hv : v ≠ c) (hs : s ≠ v) (ht : t ≠ v)
    (hst : s ≠ t) : g.vertexTerm hops v s t = 0 := by
  apply vertexTerm_eq_zero
  refine Set.eq_empty_of_forall_notMem fun es hes => ?_
  obtain ⟨hshort, fs, hs', heq, hfs, hhs⟩ := hes
  rw [Paths.shortestWalks_of_hops hone] at hshort
  exact h.not_passed hv hs ht hst hshort heq hfs hhs

/-- A vertex that serves every pair alone is the centre of a star. -/
theorem star_of_vertexTerm (hn : 2 < g.vertexCount)
    (hall : ∀ s t : g.Vertex, s ≠ c → t ≠ c → s ≠ t → g.vertexTerm hops c s t = 1) :
    g.Star c := by
  have hwalks : ∀ s t : g.Vertex, s ≠ c → t ≠ c → s ≠ t →
      (briefWalks g.outEdges s t).Nonempty ∧ ∀ es ∈ briefWalks g.outEdges s t,
        ∃ fs hs, es = fs ++ hs ∧ Leads g.outEdges s fs c ∧ Leads g.outEdges c hs t := by
    intro s t hs ht hst
    have hterm := hall s t hs ht hst
    rw [vertexTerm_eq_one_iff (finite_shortestWalks hone s t) hs ht] at hterm
    rw [← Paths.shortestWalks_of_hops hone]
    exact ⟨hterm.1, fun es hes => (hterm.2 hes).2⟩
  have hapart : ∀ u v : g.Vertex, u ≠ c → v ≠ c → u ≠ v → ¬ g.Adjacent u v := by
    intro u v hu hv huv hadjacent
    obtain ⟨e, hstep⟩ := adjacent_iff.mp hadjacent
    obtain ⟨fs, hs, heq, hfs, hhs⟩ := (hwalks u v hu hv huv).2 _ (edge_mem_briefWalks hstep huv)
    obtain ⟨hfirst, hsecond⟩ := two_le_length_of_pass hu hv hfs hhs
    have hlength := congrArg List.length heq
    rw [List.length_append, List.length_singleton] at hlength
    omega
  -- With a third vertex at hand, some walk between two others comes by the centre.
  have hpass : ∀ v : g.Vertex, v ≠ c → ∃ t : g.Vertex, t ≠ c ∧ t ≠ v := by
    intro v hv
    have hcard : ({c, v} : Finset g.Vertex).card < (Finset.univ : Finset g.Vertex).card := by
      rw [Finset.card_pair hv.symm, Finset.card_univ, Fintype.card_fin]
      exact hn
    obtain ⟨t, -, ht⟩ := Finset.exists_mem_notMem_of_card_lt_card hcard
    exact ⟨t, by simpa using ht⟩
  constructor
  · intro v hv
    obtain ⟨t, htc, htv⟩ := hpass v hv
    obtain ⟨⟨es, hes⟩, hall⟩ := hwalks v t hv htc htv.symm
    obtain ⟨fs, hs, -, hfs, -⟩ := hall es hes
    exact adjacent_of_walk_to hapart hv hfs
  · intro v hv
    obtain ⟨t, htc, htv⟩ := hpass v hv
    obtain ⟨⟨es, hes⟩, hall⟩ := hwalks t v htc hv htv
    obtain ⟨fs, hs, -, -, hhs⟩ := hall es hes
    exact adjacent_of_walk_from hapart hv hhs
  · exact hapart

/-- Only the centre of a star has a score, and no other graph has a vertex with a whole score. -/
theorem star_iff (hn : 2 < g.vertexCount) (c : g.Vertex) :
    let x := fun v : g.Vertex => g.vertexScore hops v *
      (normalizationFactors g.vertexCount g.directed : Factors ℚ).vertex
    g.Star c ↔ x c = 1 ∧ ∀ v : g.Vertex, v ≠ c → x v = 0 := by
  dsimp only
  rw [vertexScore_scaled_eq_one_iff hn (finite_shortestWalks hone)]
  constructor
  · intro hstar
    refine ⟨fun s t => hstar.vertexTerm_centre hone, fun v hv => ?_⟩
    have hzero : ∀ q ∈ g.pairsBeside v, g.vertexTerm hops v q.1 q.2 = 0 := by
      intro q hq
      obtain ⟨hs, ht, hst⟩ := mem_pairsBeside.mp hq
      exact hstar.vertexTerm_other hone hv hs ht hst
    rw [vertexScore_scaled hops hn, Finset.sum_eq_zero hzero, zero_div]
  · exact fun h => star_of_vertexTerm hone hn h.1

end Hops

end Graph

/-! ## The whole computation -/

section Computation

variable {F D R : Type} [Distance F] [Distance D] [Precision F D] [Zero D] [One D] [IntCast D]
  [Zero R] [Add R] [Mul R] [Precision R ℚ] {g : Graph}

theorem betweenness_hops (plan : Schedule g.vertexCount) (hplan : plan.Complete) :
    let hops : Table Length g.edgeCount := Table.replicate _ 1
    let factors : Factors ℚ := normalizationFactors g.vertexCount g.directed
    (betweenness g plan (none : Option (EdgeMap F D)) true :
        Except (Fault D) (Betweenness R ℚ)) =
      .ok ⟨⟨.double (Array.ofFn fun v => g.vertexScore hops v * factors.vertex)⟩,
        ⟨.double (Array.ofFn fun e => g.edgeScore hops e * factors.edge)⟩⟩ := by
  have hexact : ∀ s : g.Vertex, ∃ dist, Exact (Table.replicate _ 1) s dist
      ((Paths.fresh Hops ℚ _ _).breadthFirst g.outEdges s) := fun s =>
    ⟨_, Paths.exact_breadthFirst (Table.getElem_replicate 1) Paths.tidy_fresh s⟩
  have hweights : (none : Option (EdgeMap F D)).mapM (admitWeights g) = .ok none := rfl
  rw [betweenness_eq_entries plan hweights true, totals_none]
  simp only [finishedScore, if_true, vertices_countedOnce (steady_breadthFirst g) hplan hexact,
    edges_countedOnce (steady_breadthFirst g) hplan hexact]

/-- Without weights, on three vertices or more, the dominance of normalized scores is one exactly
for stars, and zero exactly when all vertices have the same score. -/
theorem betweenness_dominance_extreme (plan : Schedule g.vertexCount) (hplan : plan.Complete)
    (hn : 3 ≤ g.vertexCount) :
    let hops : Table Length g.edgeCount := Table.replicate _ 1
    let factors : Factors ℚ := normalizationFactors g.vertexCount g.directed
    let x := fun v : g.Vertex => g.vertexScore hops v * factors.vertex
    let y := fun e : g.EdgeId => g.edgeScore hops e * factors.edge
    let b : Betweenness R ℚ := ⟨⟨.double (Array.ofFn x)⟩, ⟨.double (Array.ofFn y)⟩⟩
    (betweenness g plan (none : Option (EdgeMap F D)) true :
        Except (Fault D) (Betweenness R ℚ)) = .ok b ∧
      (centralPointDominance g b.vertex : Except (Fault D) ℚ) = .ok b.centralPointDominance ∧
      (b.centralPointDominance = 1 ↔ ∃ c : g.Vertex, g.Star c) ∧
      (b.centralPointDominance = 0 ↔ ∀ v w : g.Vertex, x v = x w) := by
  intro hops factors x y b
  have hone : ∀ e : g.EdgeId, hops[e] = 1 := Table.getElem_replicate 1
  have hbounds : ∀ v : g.Vertex, 0 ≤ x v ∧ x v ≤ 1 :=
    Graph.vertexScore_scaled_bounds hn (Graph.finite_shortestWalks hone)
  have hseveral : 1 < g.vertexCount := Nat.lt_of_succ_lt hn
  have hnonneg := fun v : g.Vertex => (hbounds v).1
  refine ⟨betweenness_hops plan hplan, (centralPointDominance_bounds hbounds b.edge).1, ?_, ?_⟩
  · change dominance (Array.ofFn x) = 1 ↔ _
    rw [dominance_eq_one_iff hseveral hnonneg fun v => (hbounds v).2]
    exact exists_congr fun c => (Graph.star_iff hone hn c).symm
  · exact dominance_eq_zero_iff hseveral hnonneg

attribute [local instance] neZero_four

/-- A star around the vertex `2`, with a loop, parallel edges and an edge stored outward. -/
abbrev looseStar : Graph where
  directed := false
  vertexCount := 4
  edges := #[⟨0, 2⟩, ⟨2, 1⟩, ⟨2, 2⟩, ⟨3, 2⟩, ⟨2, 3⟩, ⟨1, 1⟩]

theorem betweenness_looseStar_dominance :
    (Schedule.sequential 4).Complete ∧ 3 ≤ looseStar.vertexCount ∧
      let hops : Table Length 6 := Table.replicate _ 1
      let factors : Factors ℚ := normalizationFactors 4 false
      let x := fun v : Fin 4 => looseStar.vertexScore hops v * factors.vertex
      let y := fun e : Fin 6 => looseStar.edgeScore hops e * factors.edge
      let b : Betweenness ℚ ℚ := ⟨⟨.double (Array.ofFn x)⟩, ⟨.double (Array.ofFn y)⟩⟩
      (betweenness looseStar (.sequential 4) (none : Option (EdgeMap Float32 Float)) true :
          Except (Fault Float) (Betweenness ℚ ℚ)) = .ok b ∧
        (centralPointDominance looseStar b.vertex : Except (Fault Float) ℚ) =
          .ok b.centralPointDominance ∧
        (b.centralPointDominance = 1 ↔ ∃ c : Fin 4, looseStar.Star c) ∧
        (b.centralPointDominance = 0 ↔ ∀ v w : Fin 4, x v = x w) := by
  have hplan := complete_sequential looseStar.vertexCount
  have hn : 3 ≤ looseStar.vertexCount := by decide
  exact ⟨hplan, hn, betweenness_dominance_extreme _ hplan hn⟩

end Computation

end Geodesic
