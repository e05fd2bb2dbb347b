import Geodesic.Proofs.Graph
import Geodesic.Proofs.Machine.Lengths
import Geodesic.Proofs.Paths.Weighted.Optimal

/-!
# The search by total weight finds the shortest paths

On lawful lengths and admissible weights the tables of a finished search are determined by the walks
of the graph: distances are least totals, the order is by distance, and the recorded steps are the
tight ones that agree with the order.
-/

namespace Geodesic.Paths

open Distance (Admissible AtMost Lawful Reached same total)
open Frontier (Optimal Record)

variable {D S : Type} {n m : Nat} [Distance D] [Zero S] [One S] [Add S]

/-- What a search from `s` is to leave behind. A total equal to the mark for "not reached" counts as
no path. -/
structure ShortestFrom [LT S] [DecidableLT S] (out : Fin n → List (Fin m × Fin n))
    (weights : Table D m) (s : Fin n) (p : Paths D S n m) : Prop where
  reaches_iff : ∀ v : Fin n, p.reaches v = true ↔
    ∃ es, Leads out s es v ∧ Reached (total weights es)
  distance_reached : ∀ v : Fin n, p.reaches v = true →
    ∃ es, Leads out s es v ∧ p.distance? v = some (total weights es) ∧
      ∀ fs, Leads out s fs v → AtMost (total weights es) (total weights fs)
  distance_unreached : ∀ v : Fin n, p.reaches v = false → p.distance? v = none
  head : p.order.toList.head? = some s
  nodup : p.order.toList.Nodup
  visited_iff : ∀ v : Fin n, v ∈ p.order.toList ↔ p.reaches v = true
  sorted : p.order.toList.Pairwise fun v w => AtMost p.dist[v] p.dist[w]
  preds_iff : ∀ (u v : Fin n) (e : Fin m), (e, u) ∈ p.preds[v].toList ↔
    (e, v) ∈ out u ∧ Before p.order.toList u v ∧
      same (Distance.add p.dist[u] weights[e]) p.dist[v] = true
  preds_nodup : ∀ v : Fin n, p.preds[v].toList.Nodup
  sigma_source : p.sigma[s] = 1
  sigma : ∀ v : Fin n, v ≠ s →
    p.sigma[v] = sumInOrder (p.preds[v].toList.map fun a => p.sigma[a.2])

variable {out : Fin n → List (Fin m × Fin n)} {weights : Table D m} {s u : Fin n}
  {f : Frontier D S n m} {todo : List (Fin m × Fin n)}

/-! ## Walks and distances -/

section Lawful

variable [Lawful D]

omit [Zero S] [One S] [Add S] in
theorem admissible_total (hweights : ∀ e : Fin m, Admissible weights[e]) (es : List (Fin m)) :
    Admissible (total weights es) := by
  induction es using List.reverseRecOn with
  | nil => exact Lawful.zero_admissible
  | append_singleton es e ih =>
      rw [Distance.total_concat]
      exact Lawful.add_admissible ih (hweights e)

theorem dist_atMost_total (hrec : Record out weights s f) (hempty : f.pending.toList = [])
    (hopt : Optimal out weights u [] f) (hweights : ∀ e : Fin m, Admissible weights[e])
    {es : List (Fin m)} {v : Fin n} (hes : Leads out s es v) :
    AtMost f.paths.dist[v] (total weights es) := by
  induction es using List.reverseRecOn generalizing v with
  | nil =>
      have hv : s = v := hes
      subst hv
      rw [hrec.dist_source]
      exact Distance.AtMost.refl Lawful.zero_admissible
  | append_singleton es e ih =>
      obtain ⟨w, hes, hstep⟩ := leads_concat.mp hes
      have hw := ih hes
      have hsum := admissible_total hweights es
      rw [Distance.total_concat]
      by_cases hvis : w ∈ f.paths.order.toList
      · refine Lawful.trans (hopt.admissible v)
          (Lawful.add_admissible (hopt.admissible w) (hweights e))
          (Lawful.add_admissible hsum (hweights e)) (hopt.relaxed w hvis (e, v) hstep (by simp)) ?_
        exact Lawful.add_mono (hopt.admissible w) hsum (hweights e) hw
      · -- From a vertex that was never reached the total stays at the mark.
        rw [dist_not_visited hrec hempty hvis] at hw
        have hmark := Lawful.trans Lawful.unreached_admissible hsum
          (Lawful.add_admissible hsum (hweights e)) hw (Lawful.atMost_add hsum (hweights e))
        exact Lawful.trans (hopt.admissible v) Lawful.unreached_admissible
          (Lawful.add_admissible hsum (hweights e)) (Lawful.atMost_unreached (hopt.admissible v))
          hmark

theorem visited_iff_reached (hrec : Record out weights s f) (hempty : f.pending.toList = [])
    (v : Fin n) : v ∈ f.paths.order.toList ↔ Reached f.paths.dist[v] := by
  constructor
  · intro hv
    rcases hrec.known_of_visited v hv with rfl | hne
    · rw [hrec.dist_source]
      exact Lawful.zero_reached
    · refine hrec.reached v ?_ hne
      rintro rfl
      exact hne hrec.preds_source
  · intro hreached
    by_contra hv
    rw [dist_not_visited hrec hempty hv] at hreached
    exact Distance.not_reached_unreached hreached

theorem visited_iff_exists_walk (hrec : Record out weights s f) (hempty : f.pending.toList = [])
    (hopt : Optimal out weights u [] f) (hweights : ∀ e : Fin m, Admissible weights[e])
    (v : Fin n) : v ∈ f.paths.order.toList ↔
      ∃ es, Leads out s es v ∧ Reached (total weights es) := by
  have hvisited := visited_iff_reached hrec hempty v
  constructor
  · intro hv
    obtain ⟨es, hes, htotal⟩ := hrec.walk_visited hv
    refine ⟨es, hes, ?_⟩
    rw [htotal]
    exact hvisited.mp hv
  · rintro ⟨es, hes, hreached⟩
    have hle := dist_atMost_total hrec hempty hopt hweights hes
    apply hvisited.mpr
    exact hreached.mono (hopt.admissible v) (admissible_total hweights es) hle

theorem mem_preds_iff (hrec : Record out weights s f) (hempty : f.pending.toList = [])
    (hopt : Optimal out weights u [] f) (x v : Fin n) (e : Fin m) :
    (e, x) ∈ f.paths.preds[v].toList ↔
      (e, v) ∈ out x ∧ Before f.paths.order.toList x v ∧
        same (Distance.add f.paths.dist[x] weights[e]) f.paths.dist[v] = true := by
  constructor
  · intro hmem
    have hvis := (known_iff_visited hrec hempty v).mpr (Or.inr (List.ne_nil_of_mem hmem))
    exact ⟨(hrec.step v _ hmem).1, hrec.before v hvis _ hmem, hopt.exact v _ hmem⟩
  · rintro ⟨hstep, hbefore, hsame⟩
    have hreached := (visited_iff_reached hrec hempty v).mp hbefore.right_mem
    rcases hopt.tight x hbefore.left_mem (e, v) hstep (by simp) hreached hsame with hmem | hlate
    · exact hmem
    · exact absurd hbefore hlate.2

end Lawful

/-! ## Counts -/

section Counts

variable [LT S] [PositiveCounts S]

theorem sigma_pos (hrec : Record out weights s f) :
    ∀ v ∈ f.paths.order.toList, 0 < f.paths.sigma[v] := by
  refine Before.induction hrec.nodup fun v hv ih => ?_
  rcases hrec.known_of_visited v hv with rfl | hne
  · rw [hrec.sigma_source]
    exact PositiveCounts.one_pos
  · have hvs : v ≠ s := by
      rintro rfl
      exact hne hrec.preds_source
    rw [hrec.sigma v hvs]
    refine sumInOrder_pos (by simpa using hne) fun c hc => ?_
    obtain ⟨a, ha, rfl⟩ := List.mem_map.mp hc
    exact ih a.2 (hrec.before v hv a ha)

variable [DecidableLT S]

theorem reaches_iff_visited (hrec : Record out weights s f) (hempty : f.pending.toList = [])
    (v : Fin n) : f.paths.reaches v = true ↔ v ∈ f.paths.order.toList := by
  unfold reaches
  rw [decide_eq_true_iff]
  constructor
  · intro hpos
    by_contra hv
    rw [known_iff_visited hrec hempty, not_or, not_not] at hv
    rw [hrec.sigma v hv.1, hv.2] at hpos
    exact PositiveCounts.not_zero_pos hpos
  · exact sigma_pos hrec v

theorem distance?_of_visited (hrec : Record out weights s f) {v : Fin n}
    (hv : v ∈ f.paths.order.toList) : f.paths.distance? v = some f.paths.dist[v] := by
  have hreaches : f.paths.reaches v = true := decide_eq_true (sigma_pos hrec v hv)
  rw [distance?, if_pos hreaches]

end Counts

section Search

variable [Lawful D] (hweights : ∀ e : Fin m, Admissible weights[e])

include hweights

/-- With no entry left, the tables are those of the shortest walks. -/
theorem shortestFrom_of_optimal [LT S] [DecidableLT S] [PositiveCounts S]
    (hrec : Record out weights s f) (hempty : f.pending.toList = [])
    (hopt : Optimal out weights u [] f) : ShortestFrom out weights s f.paths := by
  have hreaches := reaches_iff_visited hrec hempty
  have hwalk := visited_iff_exists_walk hrec hempty hopt hweights
  constructor
  · intro v
    rw [hreaches, hwalk]
  · intro v hv
    have hvis := (hreaches v).mp hv
    obtain ⟨es, hes, htotal⟩ := hrec.walk_visited hvis
    refine ⟨es, hes, ?_, fun fs hfs => ?_⟩
    · rw [distance?_of_visited hrec hvis, htotal]
    · rw [htotal]
      exact dist_atMost_total hrec hempty hopt hweights hfs
  · intro v hv
    simp [distance?, hv]
  · exact hrec.head
  · exact hrec.nodup
  · exact fun v => (hreaches v).symm
  · exact hopt.sorted
  · exact mem_preds_iff hrec hempty hopt
  · exact hrec.once
  · exact hrec.sigma_source
  · exact hrec.sigma

variable {p : Paths D S n m} (hp : p.Tidy) (hout : ∀ u, (out u).Nodup)

include hp hout

theorem optimal_settleSource (s : Fin n) :
    Optimal out weights s [] (settleSource out weights s p) :=
  (Optimal.start hp s).scan (Record.start hp s) (scanning_start hp hout s) hweights
    (Frontier.order_mark ..) (dist_restart_self p s)

/-- Steps may be listed in any way, as long as none is listed twice. -/
theorem shortestFrom_of_nodup [LT S] [DecidableLT S] [PositiveCounts S] (s : Fin n) :
    ShortestFrom out weights s (p.weighted out weights s) := by
  obtain ⟨f, hf, hempty, hrec, u, hopt⟩ := exists_final hp hout s
    ⟨s, optimal_settleSource hweights hp hout s⟩
    fun f f' hrec hopt hadv => Optimal.advance hrec hweights hout hopt hadv
  rw [← hf]
  exact shortestFrom_of_optimal hweights hrec hempty hopt

end Search

/-- A search by total weight leaves least totals, in their order, with exactly the tight steps. -/
theorem shortestFrom_weighted [LT S] [DecidableLT S] [PositiveCounts S] [Lawful D] (g : Graph)
    (weights : Table D g.edgeCount) (hweights : ∀ e : g.EdgeId, Admissible weights[e])
    (p : Paths D S g.vertexCount g.edgeCount) (hp : p.Tidy) (s : g.Vertex) :
    ShortestFrom g.outEdges weights s (p.weighted g.outEdges weights s) :=
  shortestFrom_of_nodup hweights hp g.nodup_outEdges s

attribute [local instance] neZero_four

/-- Two ways of length zero from `0` to `2`, and an edge to `3` that no path takes. -/
def flatTriangle : Graph where
  directed := true
  vertexCount := 4
  edges := #[⟨0, 1⟩, ⟨1, 2⟩, ⟨0, 2⟩, ⟨2, 3⟩]

def flatWeights : Table Float flatTriangle.edgeCount :=
  Table.ofArray #[0.0, -0.0, 0.0, 1.0 / 0.0] rfl

theorem shortestFrom_flatTriangle :
    (∀ e : flatTriangle.EdgeId, Admissible flatWeights[e]) ∧
      (fresh Float Float flatTriangle.vertexCount flatTriangle.edgeCount).Tidy ∧
      ShortestFrom flatTriangle.outEdges flatWeights (0 : Fin 4)
        ((fresh Float Float _ _).weighted flatTriangle.outEdges flatWeights (0 : Fin 4)) := by
  have hweights : ∀ e : flatTriangle.EdgeId, Admissible flatWeights[e] := by
    unfold Admissible
    decide +kernel
  refine ⟨hweights, tidy_fresh, ?_⟩
  exact shortestFrom_weighted flatTriangle flatWeights hweights _ tidy_fresh _

end Geodesic.Paths
