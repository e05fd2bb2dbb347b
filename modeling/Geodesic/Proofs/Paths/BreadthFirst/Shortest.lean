import Mathlib.Order.Bounds.Basic
import Geodesic.Proofs.Credit
import Geodesic.Proofs.Paths.Exact

/-!
# A breadth-first search finds the walks with the fewest edges

Distances are least numbers of edges, the order is by distance, the recorded steps are all steps from
one distance to the next, and the counts are the numbers of walks with the fewest edges. Parallel
edges make different walks.
-/

namespace Geodesic.Paths

section Walks

variable {n m : Nat} (out : Fin n → List (Fin m × Fin n))

def Reachable (s v : Fin n) : Prop :=
  ∃ es, Leads out s es v

def hopCounts (s v : Fin n) : Set Nat :=
  {k | ∃ es, Leads out s es v ∧ es.length = k}

def briefWalks (s v : Fin n) : Set (List (Fin m)) :=
  {es | Leads out s es v ∧ es.length ∈ lowerBounds (hopCounts out s v)}

structure FewestFrom (s : Fin n) (p : Paths Hops ℚ n m) : Prop where
  distance_reachable : ∀ v : Fin n, Reachable out s v →
    ∃ k : Nat, p.distance? v = some (some k) ∧ IsLeast (hopCounts out s v) k
  distance_unreachable : ∀ v : Fin n, ¬ Reachable out s v → p.distance? v = none
  head : p.order.toList.head? = some s
  nodup : p.order.toList.Nodup
  visited_iff : ∀ v : Fin n, v ∈ p.order.toList ↔ Reachable out s v
  sorted : p.order.toList.Pairwise fun v w =>
    ∃ j k : Nat, p.distance? v = some (some j) ∧ p.distance? w = some (some k) ∧ j ≤ k
  preds_iff : ∀ (u v : Fin n) (e : Fin m), (e, u) ∈ p.preds[v].toList ↔ (e, v) ∈ out u ∧
    ∃ k : Nat, p.distance? u = some (some k) ∧ p.distance? v = some (some (k + 1))
  preds_nodup : ∀ v : Fin n, p.preds[v].toList.Nodup
  preds_source : p.preds[s].toList = []
  preds_loop : ∀ (v : Fin n) (e : Fin m), (e, v) ∉ p.preds[v].toList
  preds_before : ∀ v : Fin n, ∀ a ∈ p.preds[v].toList, Before p.order.toList a.2 v
  finite : ∀ v : Fin n, (briefWalks out s v).Finite
  sigma : ∀ v : Fin n, p.sigma[v] = (briefWalks out s v).ncard
  sigma_unreachable : ∀ v : Fin n, ¬ Reachable out s v → p.sigma[v] = 0

end Walks

section Swept

variable {n m : Nat} {out : Fin n → List (Fin m × Fin n)} {s u v : Fin n} {p : Paths Hops ℚ n m}

theorem distance?_of_swept (hrec : Recorded out s p) (h : Sweeping out s p.order.toList u [] p)
    (hv : v ∈ p.order.toList) : p.distance? v = some (some (p.level v)) := by
  rw [distance?, if_pos ((Dependency.reaches_iff_visited hrec v).mpr hv),
    dist_eq_level ((h.visited_iff v).mp hv)]

theorem distance?_of_not_visited (hrec : Recorded out s p) (hv : v ∉ p.order.toList) :
    p.distance? v = none := by
  rw [distance?, if_neg (mt (Dependency.reaches_iff_visited hrec v).mp hv)]

/-- The distances found, when every hop is of the length `c`. -/
theorem map_distance?_of_swept (hrec : Recorded out s p)
    (h : Sweeping out s p.order.toList u [] p) (c : ℚ) (v : Fin n) :
    (p.distance? v).map (Hops.times c) =
      if v ∈ p.order.toList then some (p.levelTimes c v) else none := by
  by_cases hv : v ∈ p.order.toList
  · rw [if_pos hv, distance?_of_swept hrec h hv, levelTimes, if_pos hv]
    rfl
  · rw [if_neg hv, distance?_of_not_visited hrec hv]
    rfl

theorem visited_of_distance? (hrec : Recorded out s p) {d : Hops} (hd : p.distance? v = some d) :
    v ∈ p.order.toList := by
  by_contra hv
  rw [distance?_of_not_visited hrec hv] at hd
  cases hd

namespace Sweeping

theorem visited_iff_reachable (h : Sweeping out s p.order.toList u [] p) (v : Fin n) :
    v ∈ p.order.toList ↔ Reachable out s v := by
  constructor
  · intro hv
    obtain ⟨es, hes, -⟩ := h.walk v hv
    exact ⟨es, hes⟩
  · rintro ⟨es, hes⟩
    exact (h.level_le_length hes).1

theorem isLeast_level (h : Sweeping out s p.order.toList u [] p) (hv : v ∈ p.order.toList) :
    IsLeast (hopCounts out s v) (p.level v) := by
  refine ⟨h.walk v hv, ?_⟩
  rintro _ ⟨es, hes, rfl⟩
  exact (h.level_le_length hes).2

theorem preds_iff_distance (h : Sweeping out s p.order.toList u [] p) (hrec : Recorded out s p)
    (x v : Fin n) (e : Fin m) : (e, x) ∈ p.preds[v].toList ↔ (e, v) ∈ out x ∧
      ∃ k : Nat, p.distance? x = some (some k) ∧ p.distance? v = some (some (k + 1)) := by
  rw [h.mem_preds_iff]
  refine and_congr_right fun hstep => ?_
  constructor
  · rintro ⟨hx, hlevel⟩
    have hv : v ∈ p.order.toList := (h.closed x hx (e, v) hstep (by simp)).1
    exact ⟨p.level x, distance?_of_swept hrec h hx, by rw [distance?_of_swept hrec h hv, hlevel]⟩
  · rintro ⟨k, hx, hv⟩
    have hxvis := visited_of_distance? hrec hx
    have hvvis := visited_of_distance? hrec hv
    rw [distance?_of_swept hrec h hxvis] at hx
    rw [distance?_of_swept hrec h hvvis] at hv
    have hlevelx : p.level x = k := Option.some.inj (Option.some.inj hx)
    have hlevelv : p.level v = k + 1 := Option.some.inj (Option.some.inj hv)
    exact ⟨hxvis, by rw [hlevelv, hlevelx]⟩

end Sweeping

end Swept

section Graph

variable {g : Graph} {s : g.Vertex}

/-- With all lengths one, the shortest walks are those with the fewest edges. -/
theorem shortestWalks_of_hops {lengths : Table Length g.edgeCount}
    (hone : ∀ e : g.EdgeId, lengths[e] = 1) (s v : g.Vertex) :
    g.shortestWalks lengths s v = briefWalks g.outEdges s v := by
  ext es
  refine and_congr_right fun _ => ?_
  rw [total_of_hops hone, Length.reached_iff]
  constructor
  · rintro ⟨-, hleast⟩ _ ⟨fs, hfs, rfl⟩
    have hle := hleast fs hfs
    rw [total_of_hops hone, Length.atMost_iff] at hle
    exact Nat.cast_le.mp hle
  · intro hleast
    refine ⟨WithTop.natCast_ne_top _, fun fs hfs => ?_⟩
    rw [total_of_hops hone, Length.atMost_iff]
    exact Nat.cast_le.mpr (hleast ⟨fs, hfs, rfl⟩)

theorem briefWalks_eq {p : Paths Hops ℚ g.vertexCount g.edgeCount} (hp : p.Tidy) (v : g.Vertex) :
    briefWalks g.outEdges s v = walkOf '' (p.breadthFirst g.outEdges s).trails s v := by
  have hone : ∀ e : g.EdgeId, (Table.replicate g.edgeCount (1 : Length))[e] = 1 :=
    Table.getElem_replicate 1
  rw [← shortestWalks_of_hops hone, (exact_breadthFirst hone hp s).shortestWalks_eq]

/-- A breadth-first search, on any tables that earlier searches left, finds all walks with the fewest
edges. -/
theorem fewestFrom_breadthFirst (g : Graph) (s : g.Vertex)
    (p : Paths Hops ℚ g.vertexCount g.edgeCount) (hp : p.Tidy) :
    FewestFrom g.outEdges s (p.breadthFirst g.outEdges s) := by
  have hrec := recorded_breadthFirst hp g.nodup_outEdges s
  have hbrief := briefWalks_eq (s := s) hp
  obtain ⟨u, h⟩ := exists_swept hp g.nodup_outEdges s
  generalize p.breadthFirst g.outEdges s = q at hrec hbrief h
  have hvisited := h.visited_iff_reachable
  have hbefore : ∀ v : g.Vertex, ∀ a ∈ q.preds[v].toList, Before q.order.toList a.2 v :=
    fun _ _ ha => h.before_of_step ha
  constructor
  · intro v hv
    have hvis := (hvisited v).mpr hv
    exact ⟨q.level v, distance?_of_swept hrec h hvis, h.isLeast_level hvis⟩
  · exact fun v hv => distance?_of_not_visited hrec (mt (hvisited v).mp hv)
  · exact h.head
  · exact h.nodup
  · exact hvisited
  · refine h.sorted.imp_of_mem fun hv hw hle => ?_
    exact ⟨_, _, distance?_of_swept hrec h hv, distance?_of_swept hrec h hw, hle⟩
  · exact h.preds_iff_distance hrec
  · exact h.once
  · exact h.preds_source
  · exact fun v e hmem => Before.irrefl h.nodup (hbefore v (e, v) hmem)
  · exact hbefore
  · intro v
    rw [hbrief]
    exact (hrec.finite_trails v).image _
  · intro v
    rw [hbrief, (injOn_walkOf hrec v).ncard_image, hrec.sigma_eq_ncard]
  · exact fun v hv => hrec.sigma_of_not_visited (mt (hvisited v).mp hv)

attribute [local instance] neZero_four

/-- Parallel edges, a loop, a cycle back to the start, and a vertex that nothing leads to. -/
abbrev doubledCycle : Graph where
  directed := false
  vertexCount := 4
  edges := #[⟨0, 1⟩, ⟨1, 0⟩, ⟨1, 2⟩, ⟨2, 0⟩, ⟨1, 1⟩]

theorem fewestFrom_doubledCycle :
    (fresh Hops ℚ 4 5).Tidy ∧ FewestFrom doubledCycle.outEdges (0 : Fin 4)
      ((fresh Hops ℚ 4 5).breadthFirst doubledCycle.outEdges (0 : Fin 4)) :=
  ⟨tidy_fresh, fewestFrom_breadthFirst doubledCycle (0 : Fin 4) (fresh Hops ℚ 4 5) tidy_fresh⟩

end Graph

end Geodesic.Paths
