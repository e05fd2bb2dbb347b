import Mathlib.Algebra.BigOperators.Field
import Mathlib.Algebra.BigOperators.Group.Finset.Sigma
import Mathlib.Algebra.Order.BigOperators.Group.Finset
import Mathlib.Algebra.Order.Field.Rat
import Mathlib.Data.Fintype.Prod
import Mathlib.Data.Set.Card
import Mathlib.Tactic.Ring
import Geodesic.Proofs.Graph
import Geodesic.Proofs.Length

/-!
# Scores by pairs of ends

Betweenness as it is defined, without a search: for every pair of ends, the share of all shortest
walks between them that pass a vertex or take an edge. Walks are lists of edges, so parallel edges
make different walks.
-/

namespace Geodesic.Graph

open Distance (AtMost Reached total)

section Walks

variable {D : Type} [Distance D] (g : Graph) (lengths : Table D g.edgeCount)

/-- The shortest walks from `s` to `t`. A walk of infinite length is none. -/
def shortestWalks (s t : g.Vertex) : Set (List g.EdgeId) :=
  {es | Leads g.outEdges s es t ∧ Reached (total lengths es) ∧
    ∀ fs, Leads g.outEdges s fs t → AtMost (total lengths es) (total lengths fs)}

/-- The shortest walks from `s` to `t` that pass `v`. -/
def walksThrough (v s t : g.Vertex) : Set (List g.EdgeId) :=
  {es | es ∈ g.shortestWalks lengths s t ∧
    ∃ fs hs, es = fs ++ hs ∧ Leads g.outEdges s fs v ∧ Leads g.outEdges v hs t}

def walksAlong (e : g.EdgeId) (s t : g.Vertex) : Set (List g.EdgeId) :=
  {es | es ∈ g.shortestWalks lengths s t ∧ e ∈ es}

def Connected (s t : g.Vertex) : Prop :=
  ∃ es, Leads g.outEdges s es t ∧ Reached (total lengths es)

noncomputable def vertexShare (v s t : g.Vertex) : ℚ :=
  (g.walksThrough lengths v s t).ncard / (g.shortestWalks lengths s t).ncard

noncomputable def edgeShare (e : g.EdgeId) (s t : g.Vertex) : ℚ :=
  (g.walksAlong lengths e s t).ncard / (g.shortestWalks lengths s t).ncard

/-- Pairs of different ends. An undirected graph has each pair once. -/
def ends : Finset (g.Vertex × g.Vertex) :=
  if g.directed then Finset.univ.filter fun q => q.1 ≠ q.2
  else Finset.univ.filter fun q => q.1 < q.2

open Classical in
/-- The betweenness of a vertex that is neither end. -/
noncomputable def vertexScore (v : g.Vertex) : ℚ :=
  ∑ q ∈ g.ends with q.1 ≠ v ∧ q.2 ≠ v ∧ g.Connected lengths q.1 q.2,
    g.vertexShare lengths v q.1 q.2

open Classical in
/-- The betweenness of an edge. -/
noncomputable def edgeScore (e : g.EdgeId) : ℚ :=
  ∑ q ∈ g.ends with g.Connected lengths q.1 q.2, g.edgeShare lengths e q.1 q.2

open Classical in
noncomputable def vertexTerm (v s t : g.Vertex) : ℚ :=
  if s ≠ v ∧ t ≠ v ∧ g.Connected lengths s t then g.vertexShare lengths v s t else 0

open Classical in
noncomputable def edgeTerm (e : g.EdgeId) (s t : g.Vertex) : ℚ :=
  if g.Connected lengths s t then g.edgeShare lengths e s t else 0

theorem vertexScore_eq (v : g.Vertex) :
    g.vertexScore lengths v = ∑ q ∈ g.ends, g.vertexTerm lengths v q.1 q.2 := by
  rw [vertexScore, Finset.sum_filter]
  rfl

theorem edgeScore_eq (e : g.EdgeId) :
    g.edgeScore lengths e = ∑ q ∈ g.ends, g.edgeTerm lengths e q.1 q.2 := by
  rw [edgeScore, Finset.sum_filter]
  rfl

variable {g lengths}

theorem vertexScore_pos {v s t : g.Vertex} (hends : (s, t) ∈ g.ends) (hs : s ≠ v) (ht : t ≠ v)
    (hfinite : (g.shortestWalks lengths s t).Finite) {es : List g.EdgeId}
    (hes : es ∈ g.walksThrough lengths v s t) : 0 < g.vertexScore lengths v := by
  have hnonneg : ∀ q ∈ g.ends, 0 ≤ g.vertexTerm lengths v q.1 q.2 := by
    intro q _
    unfold vertexTerm
    split
    · exact div_nonneg (Nat.cast_nonneg _) (Nat.cast_nonneg _)
    · exact le_refl 0
  have hconnected : g.Connected lengths s t := ⟨es, hes.1.1, hes.1.2.1⟩
  have hthrough : 0 < (g.walksThrough lengths v s t).ncard :=
    (Set.ncard_pos (hfinite.subset fun _ h => h.1)).mpr ⟨es, hes⟩
  have hall : 0 < (g.shortestWalks lengths s t).ncard := (Set.ncard_pos hfinite).mpr ⟨es, hes.1⟩
  have hterm : 0 < g.vertexTerm lengths v s t := by
    unfold vertexTerm
    rw [if_pos ⟨hs, ht, hconnected⟩]
    exact div_pos (Nat.cast_pos.mpr hthrough) (Nat.cast_pos.mpr hall)
  rw [vertexScore_eq]
  exact Finset.sum_pos' hnonneg ⟨(s, t), hends, hterm⟩

end Walks

/-! ## Both directions -/

/-- Sums over all pairs of different ends count each pair of an undirected graph twice. -/
theorem sum_ends (g : Graph) (f : g.Vertex → g.Vertex → ℚ)
    (hsymm : g.directed = false → ∀ s t, f s t = f t s) :
    ∑ q ∈ g.ends, f q.1 q.2 =
      if g.directed then ∑ q : g.Vertex × g.Vertex with q.1 ≠ q.2, f q.1 q.2
      else (∑ q : g.Vertex × g.Vertex with q.1 ≠ q.2, f q.1 q.2) / 2 := by
  unfold ends
  cases hd : g.directed with
  | true => rfl
  | false =>
      have hswap : ∑ q : g.Vertex × g.Vertex with q.2 < q.1, f q.1 q.2 =
          ∑ q : g.Vertex × g.Vertex with q.1 < q.2, f q.1 q.2 := by
        refine Finset.sum_nbij' Prod.swap Prod.swap ?_ ?_ ?_ ?_ ?_
        · simp
        · simp
        · simp
        · simp
        · exact fun q _ => hsymm hd q.1 q.2
      have hsplit : ∑ q : g.Vertex × g.Vertex with q.1 ≠ q.2, f q.1 q.2 =
          ∑ q : g.Vertex × g.Vertex with q.1 < q.2, f q.1 q.2 +
            ∑ q : g.Vertex × g.Vertex with q.2 < q.1, f q.1 q.2 := by
        rw [← Finset.sum_union]
        · refine Finset.sum_congr ?_ fun _ _ => rfl
          ext q
          simp
        · rw [Finset.disjoint_filter]
          intro q _ hlt
          exact not_lt_of_gt hlt
      rw [if_neg (by simp), if_neg (by simp), hsplit, hswap]
      ring

end Geodesic.Graph
