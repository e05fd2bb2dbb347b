import Mathlib.Algebra.Group.Defs
import Mathlib.Algebra.BigOperators.Group.List.Basic
import Geodesic.Paths
import Geodesic.Proofs.Before
import Geodesic.Proofs.Graph
import Geodesic.Proofs.Paths.Counting

/-!
# What searches leave behind

Both kinds of search leave the same shape: each vertex they visited, except the source, has a list
of recorded steps, all of which come from vertices visited earlier, and its count is the sum of the
counts at their origins.
-/

namespace Geodesic.Paths

variable {D S : Type} {n m : Nat}

/-- The steps left by a search from `s` along `out`, whatever its counts are. -/
structure Searched (out : Fin n → List (Fin m × Fin n)) (s : Fin n) (p : Paths D S n m) : Prop where
  source : p.source = some s
  nodup : p.order.toList.Nodup
  head : p.order.toList.head? = some s
  visited_iff : ∀ v : Fin n, v ∈ p.order.toList ↔ v = s ∨ p.preds[v].toList ≠ []
  preds_source : p.preds[s].toList = []
  step : ∀ v : Fin n, ∀ a ∈ p.preds[v].toList, (a.1, v) ∈ out a.2
  before : ∀ v : Fin n, ∀ a ∈ p.preds[v].toList, Before p.order.toList a.2 v
  once : ∀ v : Fin n, p.preds[v].toList.Nodup

namespace Searched

variable {out : Fin n → List (Fin m × Fin n)} {s : Fin n} {p : Paths D S n m}

theorem source_visited (h : Searched out s p) : s ∈ p.order.toList :=
  (h.visited_iff s).mpr (Or.inl rfl)

theorem preds_of_not_visited (h : Searched out s p) {v : Fin n} (hv : v ∉ p.order.toList) :
    p.preds[v].toList = [] := by
  by_contra hne
  exact hv ((h.visited_iff v).mpr (Or.inr hne))

/-- What enters a vertex comes from the vertices that stand before it, the later ones of the reversed
order. -/
theorem origin_mem (h : Searched out s p) {w : Fin n} {ws : List (Fin n)}
    (hws : w :: ws <:+ p.order.toList.reverse) {a : Fin m × Fin n} (ha : a ∈ p.preds[w].toList) :
    a.2 ∈ ws := by
  obtain ⟨done, hdone⟩ := hws
  have horder : p.order.toList = ws.reverse ++ w :: done.reverse := by
    have hback := congrArg List.reverse hdone
    rw [List.reverse_reverse] at hback
    rw [← hback]
    simp
  have hbefore := h.before w a ha
  have hnodup := h.nodup
  rw [horder] at hbefore hnodup
  exact List.mem_reverse.mp (hbefore.mem_of_append hnodup)

section Graph

variable {g : Graph} {s : g.Vertex} {p : Paths D S g.vertexCount g.edgeCount}

/-- A graph records an edge at one vertex only: against it, the edge would lead to an earlier
vertex. -/
theorem edge_unique (h : Searched g.outEdges s p) (t t' : g.Vertex) (a a' : g.Step)
    (ha : a ∈ p.preds[t].toList) (ha' : a' ∈ p.preds[t'].toList) (hedge : a.1 = a'.1) :
    t = t' := by
  have hstep : (a'.1, t) ∈ g.outEdges a.2 := hedge ▸ h.step t a ha
  rcases Graph.same_or_reversed hstep (h.step t' a' ha') with ⟨_, heq⟩ | ⟨horigin, hend⟩
  · exact heq
  · have hbefore := h.before t a ha
    have hafter := h.before t' a' ha'
    rw [← horigin, ← hend] at hafter
    exact absurd hafter (Before.asymm h.nodup hbefore)

theorem nodup_edges_into (h : Searched g.outEdges s p) (v : g.Vertex) :
    (p.preds[v].toList.map Prod.fst).Nodup := by
  refine (h.once v).map_on fun a ha a' ha' hedge => Prod.ext hedge ?_
  have hstep := h.step v a' ha'
  rw [← hedge] at hstep
  exact Graph.origin_unique (h.step v a ha) hstep

theorem nodup_edges (h : Searched g.outEdges s p) {vs : List g.Vertex} (hvs : vs.Nodup) :
    (vs.flatMap fun v => p.preds[v].toList.map Prod.fst).Nodup := by
  refine List.nodup_flatMap.mpr ⟨fun v _ => h.nodup_edges_into v, hvs.imp ?_⟩
  intro v v' hne e he he'
  obtain ⟨a, ha, rfl⟩ := List.mem_map.mp he
  obtain ⟨a', ha', hedge⟩ := List.mem_map.mp he'
  exact hne (h.edge_unique v v' a a' ha ha' hedge.symm)

end Graph

end Searched

/-- The tables left by a search that adds counts up from left to right, with or without a leading
zero. -/
structure Counted [Zero S] [One S] [Add S] (out : Fin n → List (Fin m × Fin n)) (s : Fin n)
    (p : Paths D S n m) : Prop extends Searched out s p where
  sigma_source : p.sigma[s] = 1
  sigma : ∀ v : Fin n, v ≠ s →
    p.sigma[v] = (p.preds[v].toList.map fun a => p.sigma[a.2]).foldl (· + ·) 0 ∨
      p.sigma[v] = sumInOrder (p.preds[v].toList.map fun a => p.sigma[a.2])

variable [AddMonoid S] [One S]

/-- The tables left by a search whose counts are sums. -/
structure Recorded (out : Fin n → List (Fin m × Fin n)) (s : Fin n) (p : Paths D S n m) : Prop
    extends Searched out s p where
  sigma_source : p.sigma[s] = 1
  sigma : ∀ v : Fin n, v ≠ s →
    p.sigma[v] = (p.preds[v].toList.map fun a => p.sigma[a.2]).sum

variable {out : Fin n → List (Fin m × Fin n)} {s : Fin n} {p : Paths D S n m}

/-- Where addition is associative the order of the counts does not matter. -/
theorem Counted.recorded (h : Counted out s p) : Recorded out s p where
  toSearched := h.toSearched
  sigma_source := h.sigma_source
  sigma v hv := by
    rcases h.sigma v hv with heq | heq
    · rw [heq, List.sum_eq_foldl]
    · rw [heq, sumInOrder_eq_sum]

theorem Recorded.sigma_of_not_visited (h : Recorded out s p) {v : Fin n}
    (hv : v ∉ p.order.toList) : p.sigma[v] = 0 := by
  have hvs : v ≠ s := fun heq => hv (heq ▸ h.source_visited)
  rw [h.sigma v hvs, h.preds_of_not_visited hv]
  rfl

end Geodesic.Paths
