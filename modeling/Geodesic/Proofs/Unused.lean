import Geodesic.Proofs.Normalization
import Geodesic.Proofs.Selection

/-!
# Unused edges do not matter

An edge has no score exactly when no search records it. A search may still have tried it and entered
its end at a distance that did not last. Without it, or with it made longer, every search leaves the
same.
-/

namespace Geodesic

open Distance (Admissible)
open Paths (Measured Recorded)
open Schedule (complete_sequential)

/-! ## Edges without a score -/

section Share

variable {D : Type} {n m : Nat} {p : Paths D ℚ n m} {out : Fin n → List (Fin m × Fin n)} {s v : Fin n}

theorem share_edge_pos (h : Recorded out s p) {a : Fin m × Fin n} (ha : a ∈ p.preds[v].toList) :
    0 < p.share s (fun b => b.1 = a.1) v := by
  obtain ⟨l, hl⟩ := h.nonempty_trails (h.before v a ha).left_mem
  have htrail : p.Trail s v (a :: l) := ⟨ha, hl⟩
  have hby : 0 < (p.trailsBy s (fun b => b.1 = a.1) v).ncard :=
    (Set.ncard_pos (h.finite_trailsBy v)).mpr ⟨a :: l, htrail, a, by simp, rfl⟩
  have hall : 0 < (p.trails s v).ncard :=
    (Set.ncard_pos (h.finite_trails v)).mpr ⟨a :: l, htrail⟩
  exact div_pos (Nat.cast_pos.mpr hby) (Nat.cast_pos.mpr hall)

theorem share_edge_eq_zero (h : Recorded out s p) {e : Fin m}
    (he : ∀ v : Fin n, ∀ a ∈ p.preds[v].toList, a.1 ≠ e) (t : Fin n) :
    p.share s (fun a => a.1 = e) t = 0 := by
  apply Dependency.share_eq_zero
  rw [Set.eq_empty_iff_forall_notMem]
  intro l hl
  obtain ⟨htrail, a, ha, hedge⟩ := hl
  obtain ⟨v, hv, _⟩ := h.recorded_of_trail htrail ha
  exact he v a hv hedge

end Share

theorem Steady.edges_tally_eq_zero_iff {D : Type} [Distance D] {g : Graph}
    {search : g.Vertex → Paths D ℚ g.vertexCount g.edgeCount → Paths D ℚ g.vertexCount g.edgeCount}
    (h : Steady g search) {plan : Schedule g.vertexCount} (hplan : plan.Complete) (e : g.EdgeId) :
    (plan.tally search).edges[e] = 0 ↔ ∀ s v : g.Vertex,
      ∀ a ∈ (search s (Paths.fresh D ℚ _ _)).preds[v].toList, a.1 ≠ e := by
  rw [h.edges_tally hplan]
  constructor
  · intro hzero s v a ha hedge
    have hnonneg : ∀ s t : g.Vertex,
        0 ≤ (search s (Paths.fresh D ℚ _ _)).share s (fun a => a.1 = e) t :=
      fun s t => share_nonneg _ s _ t
    rw [Finset.sum_eq_zero_iff_of_nonneg fun s _ => Finset.sum_nonneg fun t _ => hnonneg s t] at hzero
    have hsource := hzero s (Finset.mem_univ s)
    rw [Finset.sum_eq_zero_iff_of_nonneg fun t _ => hnonneg s t] at hsource
    have hpos := share_edge_pos (h.recorded s) ha
    rw [hedge, hsource v (Finset.mem_univ v)] at hpos
    exact lt_irrefl 0 hpos
  · intro hunused
    apply Finset.sum_eq_zero
    intro s _
    apply Finset.sum_eq_zero
    intro t _
    exact share_edge_eq_zero (h.recorded s) (hunused s) t

section Score

variable {g : Graph} {lengths : Table Length g.edgeCount} {plan : Schedule g.vertexCount}
  (hplan : plan.Complete)

include hplan

/-- Counting pairs once does not make a score vanish. -/
theorem edges_countedOnce_eq_zero_iff (e : g.EdgeId) :
    (countedOnce g (g.weightTally (S := ℚ) lengths plan)).edges[e] = 0 ↔ ∀ s v : g.Vertex,
      ∀ a ∈ ((Paths.fresh Length ℚ _ _).weighted g.outEdges lengths s).preds[v].toList,
        a.1 ≠ e := by
  rw [← (steady_weighted lengths).edges_tally_eq_zero_iff hplan e, ← Graph.weightTally_eq,
    countedOnce_entry (x := fun t => t.edges[e]) (Tally.edges_halve _ e)]
  split
  · exact Iff.rfl
  · exact div_eq_zero_iff.trans (or_iff_left two_ne_zero)

/-- A loop leads to no later vertex, and an infinite edge to no finite distance. -/
theorem edges_countedOnce_of_blocked (hadmissible : ∀ e : g.EdgeId, Admissible lengths[e])
    {e : g.EdgeId} (he : (g.edge e).source = (g.edge e).target ∨ lengths[e] = ⊤) :
    (countedOnce g (g.weightTally (S := ℚ) lengths plan)).edges[e] = 0 := by
  rw [edges_countedOnce_eq_zero_iff hplan]
  rintro s v a ha rfl
  have hmeasured := Paths.measured_weighted hadmissible (Paths.tidy_fresh (m := g.edgeCount)) s
  have hbefore := hmeasured.recorded.before v a ha
  rcases he with hloop | hinfinite
  · have hstep := hmeasured.recorded.step v a ha
    have hself : a.2 = v := by
      rw [Graph.mem_outEdges] at hstep
      grind
    rw [hself] at hbefore
    exact Before.irrefl hmeasured.recorded.nodup hbefore
  · have htight := hmeasured.tight v a ha
    have hfinite := (hmeasured.visited_iff v).mp hbefore.right_mem
    rw [hinfinite, WithTop.add_top] at htight
    exact hfinite htight.symm

end Score

/-! ## Without the edge, or with a longer one -/

namespace Graph

variable (g : Graph) (e : g.EdgeId)

theorem edgeId_lt : e.val < g.edges.size :=
  e.isLt

/-- `g` without one edge. Later edges move up by one. -/
def deleteEdge : Graph :=
  g.withEdges (g.edges.eraseIdx e.val (g.edgeId_lt e))

theorem edgeCount_deleteEdge : (g.deleteEdge e).edgeCount = g.edgeCount - 1 :=
  Array.size_eraseIdx ..

def keptEdge (i : (g.deleteEdge e).EdgeId) : g.EdgeId :=
  ⟨if i.val < e.val then i.val else i.val + 1, by
    have hi := i.isLt
    have he := e.isLt
    have hsize := g.edgeCount_deleteEdge e
    split <;> omega⟩

theorem keptEdge_injective : Function.Injective (g.keptEdge e) := by
  intro i j heq
  have hval : (g.keptEdge e i).val = (g.keptEdge e j).val := congrArg Fin.val heq
  apply Fin.ext
  simp only [keptEdge] at hval
  split at hval <;> split at hval <;> omega

theorem exists_keptEdge {d : g.EdgeId} (hd : d ≠ e) : ∃ i, g.keptEdge e i = d := by
  have hne : d.val ≠ e.val := fun heq => hd (Fin.ext heq)
  have hlt := d.isLt
  have he := e.isLt
  have hsize := g.edgeCount_deleteEdge e
  by_cases hbefore : d.val < e.val
  · refine ⟨⟨d.val, by omega⟩, Fin.ext ?_⟩
    simp [keptEdge, hbefore]
  · refine ⟨⟨d.val - 1, by omega⟩, Fin.ext ?_⟩
    simp only [keptEdge]
    split <;> omega

theorem edge_deleteEdge (i : (g.deleteEdge e).EdgeId) :
    (g.deleteEdge e).edge i = g.edge (g.keptEdge e i) := by
  have hentry : (g.deleteEdge e).edge i = _ :=
    Array.getElem_eraseIdx e.isLt i.isLt
  rw [hentry]
  unfold edge keptEdge
  by_cases hbefore : i.val < e.val
  · simp only [hbefore, dif_pos, if_true]
    rfl
  · simp only [hbefore, dif_neg, if_false, not_false_eq_true]
    rfl

def deletion : g.Selection :=
  .ofEdges (g.edges.eraseIdx e.val (g.edgeId_lt e)) (g.keptEdge e) (g.keptEdge_injective e)
    fun i => Or.inl (g.edge_deleteEdge e i)

def wholeSelection : g.Selection :=
  .ofEdges g.edges id Function.injective_id fun _ => Or.inl rfl

theorem carry_wholeSelection {D : Type} (weights : Table D g.edgeCount) :
    g.wholeSelection.carry weights = weights :=
  Table.ext fun i => g.wholeSelection.getElem_carry weights i

variable {g e} {lengths : Table Length g.edgeCount}
  (hadmissible : ∀ d : g.EdgeId, Admissible lengths[d])
  (hunused : ∀ s v : g.Vertex,
    ∀ a ∈ ((Paths.fresh Length ℚ _ _).weighted g.outEdges lengths s).preds[v].toList, a.1 ≠ e)

include hadmissible hunused

theorem keeps_deletion : (g.deletion e).Keeps ℚ lengths lengths where
  admissible := hadmissible
  admissible' := hadmissible
  longer d _ hl := Distance.AtMost.refl (Distance.Lawful.add_admissible hl (hadmissible d))
  recorded s v a ha := ⟨g.exists_keptEdge e (hunused s v a ha), rfl⟩

theorem keeps_longer {l : Length} (hl : lengths[e] ≤ l) :
    g.wholeSelection.Keeps ℚ lengths (lengths.set e l) where
  admissible := hadmissible
  admissible' d := by
    rw [Table.getElem_set]
    split
    · exact Length.admissible_iff.mpr ((Length.admissible_iff.mp (hadmissible e)).trans hl)
    · exact hadmissible d
  longer d x _ := by
    rw [Table.getElem_set, Length.atMost_iff]
    split
    · rename_i hed
      rw [← hed]
      exact add_le_add_right hl x
    · exact le_refl _
  recorded s v a ha := ⟨⟨a.1, rfl⟩, Table.getElem_set_ne _ _ (hunused s v a ha).symm⟩

end Graph

/-! ## The whole computation -/

section Computation

variable {F R : Type} [Distance F] [Precision F Length] [Zero R] [Add R] [Mul R] [Precision R ℚ]
  {g : Graph} {lengths : Table Length g.edgeCount}

/-- Loops and infinite edges have no score. Without an edge that has none, or with a greater length
of it, all vertices and all other edges keep their scores. -/
theorem betweenness_unused (plan : Schedule g.vertexCount) (hplan : plan.Complete)
    (weight : Option (EdgeMap F Length)) (hlengths : HasLengths g weight lengths)
    (hnonneg : ∀ e : g.EdgeId, 0 ≤ lengths[e]) :
    ∃ (x : g.Vertex → ℚ) (y : g.EdgeId → ℚ),
      (betweenness g plan weight false : Except (Fault Length) (Betweenness R ℚ)) =
        .ok ⟨⟨.double (Array.ofFn x)⟩, ⟨.double (Array.ofFn y)⟩⟩ ∧
      (∀ e : g.EdgeId, ((g.edge e).source = (g.edge e).target ∨ lengths[e] = ⊤) → y e = 0) ∧
      ∀ e : g.EdgeId, y e = 0 → ∀ normalize : Bool,
        ∃ (x' : g.Vertex → ℚ) (y' : g.EdgeId → ℚ),
          (betweenness g plan weight normalize : Except (Fault Length) (Betweenness R ℚ)) =
            .ok ⟨⟨.double (Array.ofFn x')⟩, ⟨.double (Array.ofFn y')⟩⟩ ∧
          (∀ (plan' : Schedule g.vertexCount) (weight' : Option (EdgeMap F Length)),
            plan'.Complete → HasLengths (g.deleteEdge e) weight' ((g.deletion e).carry lengths) →
              (betweenness (g.deleteEdge e) plan' weight' normalize :
                  Except (Fault Length) (Betweenness R ℚ)) =
                .ok ⟨⟨.double (Array.ofFn x')⟩, ⟨.double (Array.ofFn (y' ∘ g.keptEdge e))⟩⟩) ∧
          ∀ (l : Length) (plan' : Schedule g.vertexCount) (weight' : Option (EdgeMap F Length)),
            lengths[e] ≤ l → plan'.Complete → HasLengths g weight' (lengths.set e l) →
              (betweenness g plan' weight' normalize : Except (Fault Length) (Betweenness R ℚ)) =
                .ok ⟨⟨.double (Array.ofFn x')⟩, ⟨.double (Array.ofFn y')⟩⟩ := by
  have hadmissible : ∀ e : g.EdgeId, Admissible lengths[e] :=
    fun e => Length.admissible_iff.mpr (hnonneg e)
  have hscores := fun normalize =>
    betweenness_of_hasLengths (R := R) hplan hlengths hnonneg normalize
  refine ⟨_, _, hscores false, fun e he => edges_countedOnce_of_blocked hplan hadmissible he,
    fun e hzero normalize => ⟨_, _, hscores normalize, ?_, ?_⟩⟩
  · intro plan' weight' hplan' hlengths'
    have hunused := (edges_countedOnce_eq_zero_iff hplan e).mp hzero
    exact (Graph.keeps_deletion hadmissible hunused).betweenness_eq hplan hplan' hlengths' normalize
  · intro l plan' weight' hl hplan' hlengths'
    have hunused := (edges_countedOnce_eq_zero_iff hplan e).mp hzero
    rw [← g.carry_wholeSelection (lengths.set e l)] at hlengths'
    exact (Graph.keeps_longer hadmissible hunused hl).betweenness_eq hplan hplan' hlengths' normalize

attribute [local instance] neZero_four

/-- An edge that is tried first and given up for a detour, a loop, an infinite edge and a flat one. -/
abbrev detour : Graph where
  directed := true
  vertexCount := 4
  edges := #[⟨0, 2⟩, ⟨0, 1⟩, ⟨1, 2⟩, ⟨2, 2⟩, ⟨1, 3⟩, ⟨2, 3⟩]

def detourLengths : Table Length 6 :=
  Table.ofArray #[3, 1, 1, 0, ⊤, 0] rfl

theorem betweenness_detour :
    let weight : Option (EdgeMap Length Length) := some ⟨.double detourLengths.toArray⟩
    let shorter : Option (EdgeMap Length Length) := some ⟨.double #[1, 1, 0, ⊤, 0]⟩
    let longer : Option (EdgeMap Length Length) := some ⟨.double #[⊤, 1, 1, 0, ⊤, 0]⟩
    (Schedule.sequential 4).Complete ∧ HasLengths detour weight detourLengths ∧
      (∀ e : Fin 6, 0 ≤ detourLengths[e]) ∧
      HasLengths (detour.deleteEdge (0 : Fin 6)) shorter
        ((detour.deletion (0 : Fin 6)).carry detourLengths) ∧
      detourLengths[(0 : Fin 6)] ≤ ⊤ ∧ HasLengths detour longer (detourLengths.set (0 : Fin 6) ⊤) ∧
      ∃ (x x' : Fin 4 → ℚ) (y y' : Fin 6 → ℚ),
        (betweenness detour (.sequential 4) weight false : Except (Fault Length) (Betweenness ℚ ℚ)) =
          .ok ⟨⟨.double (Array.ofFn x)⟩, ⟨.double (Array.ofFn y)⟩⟩ ∧
        y 0 = 0 ∧ y 3 = 0 ∧ y 4 = 0 ∧
        (betweenness detour (.sequential 4) weight true : Except (Fault Length) (Betweenness ℚ ℚ)) =
          .ok ⟨⟨.double (Array.ofFn x')⟩, ⟨.double (Array.ofFn y')⟩⟩ ∧
        (betweenness (detour.deleteEdge (0 : Fin 6)) (.sequential 4) shorter true :
            Except (Fault Length) (Betweenness ℚ ℚ)) =
          .ok ⟨⟨.double (Array.ofFn x')⟩,
            ⟨.double (Array.ofFn (y' ∘ detour.keptEdge (0 : Fin 6)))⟩⟩ ∧
        (betweenness detour (.sequential 4) longer true : Except (Fault Length) (Betweenness ℚ ℚ)) =
          .ok ⟨⟨.double (Array.ofFn x')⟩, ⟨.double (Array.ofFn y')⟩⟩ := by
  intro weight shorter longer
  have hplan := complete_sequential detour.vertexCount
  have hlengths : HasLengths detour weight detourLengths := rfl
  have hnonneg : ∀ e : Fin 6, 0 ≤ detourLengths[e] := by decide +kernel
  have hshorter : HasLengths (detour.deleteEdge (0 : Fin 6)) shorter
      ((detour.deletion (0 : Fin 6)).carry detourLengths) := by
    unfold HasLengths
    decide +kernel
  have hlonger : HasLengths detour longer (detourLengths.set (0 : Fin 6) ⊤) := by
    unfold HasLengths
    decide +kernel
  have htop : detourLengths[(0 : Fin 6)] ≤ ⊤ := le_top
  have hcomputed : betweenness detour (.sequential 4) weight false =
      .ok (⟨⟨.double #[0, 2, 2, 0]⟩, ⟨.double #[0, 3, 4, 0, 0, 3]⟩⟩ : Betweenness ℚ ℚ) := by
    decide +kernel
  obtain ⟨x, y, hraw, hblocked, hunused⟩ :=
    betweenness_unused (R := ℚ) _ hplan weight hlengths hnonneg
  have hzero : y (0 : Fin 6) = 0 := by
    have hscores := Except.ok.inj (hraw.symm.trans hcomputed)
    have hedges : Array.ofFn y = #[0, 3, 4, 0, 0, 3] :=
      Values.double.inj (congrArg (fun b => b.edge.values) hscores)
    have hentry : (Array.ofFn y)[0]? = some 0 := congrArg (fun xs => xs[0]?) hedges
    rw [Array.getElem?_ofFn, dif_pos (by decide)] at hentry
    exact Option.some.inj hentry
  obtain ⟨x', y', hscaled, hdeleted, hreplaced⟩ := hunused (0 : Fin 6) hzero true
  exact ⟨hplan, hlengths, hnonneg, hshorter, htop, hlonger, x, x', y, y', hraw, hzero,
    hblocked (3 : Fin 6) (Or.inl rfl), hblocked (4 : Fin 6) (Or.inr rfl), hscaled,
    hdeleted _ shorter hplan hshorter, hreplaced ⊤ _ longer htop hplan hlonger⟩

end Computation

end Geodesic
