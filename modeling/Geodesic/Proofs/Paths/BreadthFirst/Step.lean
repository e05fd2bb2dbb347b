import Geodesic.Paths.BreadthFirst

/-!
# What one step of a breadth-first search does

Following a step from `u` enters its end one hop farther than `u`, as a discovery or as a further
shortest way, or changes nothing. `Followed` lists the three outcomes; nothing after this module
opens `followStep`.
-/

namespace Geodesic.Paths

variable {S : Type} {n m : Nat}

/-- The hops from the source to a discovered vertex. -/
def level (p : Paths Hops S n m) (v : Fin n) : Nat :=
  p.dist[v].getD 0

theorem level_of_dist {p : Paths Hops S n m} {v : Fin n} {k : Nat} (h : p.dist[v] = some k) :
    p.level v = k := by
  simp [level, h]

theorem dist_eq_level {p : Paths Hops S n m} {v : Fin n} (h : p.dist[v] ≠ none) :
    p.dist[v] = some (p.level v) := by
  obtain ⟨k, hk⟩ := Option.ne_none_iff_exists'.mp h
  rw [hk, level_of_dist hk]

variable [Add S]

/-- The second tables record the step `a` from `u` at `k` hops. -/
structure Entered (u : Fin n) (k : Nat) (a : Fin m × Fin n) (p p' : Paths Hops S n m) : Prop where
  source : p'.source = p.source
  dist : ∀ v : Fin n, p'.dist[v] = if a.2 = v then some k else p.dist[v]
  sigma : ∀ v : Fin n,
    p'.sigma[v] = if a.2 = v then p.sigma[v] + p.sigma[u] else p.sigma[v]
  preds : ∀ v : Fin n, p'.preds[v].toList =
    if a.2 = v then p.preds[v].toList ++ [(a.1, u)] else p.preds[v].toList

/-- The outcomes of following the step `a` from `u`. -/
inductive Followed (u : Fin n) (k : Nat) (a : Fin m × Fin n) (p : Paths Hops S n m) :
    Paths Hops S n m → Prop
  | discovered {p' : Paths Hops S n m} (h : p.dist[a.2] = none) (he : Entered u k a p p')
      (horder : p'.order.toList = p.order.toList ++ [a.2]) : Followed u k a p p'
  | counted {p' : Paths Hops S n m} (h : p.dist[a.2] = some k) (he : Entered u k a p p')
      (horder : p'.order.toList = p.order.toList) : Followed u k a p p'
  | passed {j : Nat} (h : p.dist[a.2] = some j) (hne : j ≠ k) : Followed u k a p p

theorem entered_countStep (u : Fin n) (k : Nat) (a : Fin m × Fin n) {p p' : Paths Hops S n m}
    (hsource : p'.source = p.source)
    (hdist : ∀ v : Fin n, p'.dist[v] = if a.2 = v then some k else p.dist[v])
    (hsigma : p'.sigma = p.sigma) (hpreds : p'.preds = p.preds) :
    Entered u k a p (p'.countStep u (some k) a) := by
  have hself : p'.dist[a.2] = some k := by rw [hdist, if_pos rfl]
  unfold countStep
  rw [if_pos hself]
  constructor
  · exact hsource
  · exact hdist
  · intro v
    rw [hsigma]
    by_cases hv : a.2 = v
    · subst hv
      simp
    · rw [if_neg hv]
      exact Table.getElem_set_ne _ _ hv
  · intro v
    rw [hpreds]
    by_cases hv : a.2 = v
    · subst hv
      simp
    · rw [if_neg hv]
      exact congrArg Array.toList (Table.getElem_set_ne _ _ hv)

theorem followed_followStep (u : Fin n) (k : Nat) (p : Paths Hops S n m) (a : Fin m × Fin n) :
    Followed u k a p (p.followStep u (some k) a) := by
  unfold followStep discover
  by_cases hnone : p.dist[a.2] = none
  · rw [if_pos hnone]
    refine .discovered hnone (entered_countStep u k a rfl ?_ rfl rfl) ?_
    · exact fun v => Table.getElem_set ..
    · unfold countStep
      split
      · simp [visit]
      · simp [visit]
  · rw [if_neg hnone]
    obtain ⟨j, hj⟩ := Option.ne_none_iff_exists'.mp hnone
    by_cases hjk : j = k
    · subst hjk
      refine .counted hj (entered_countStep u j a rfl ?_ rfl rfl) ?_
      · intro v
        by_cases hv : a.2 = v
        · subst hv
          rw [if_pos rfl, hj]
        · rw [if_neg hv]
      · unfold countStep
        rw [if_pos hj]
    · have hpass : p.countStep u (some k) a = p := by
        unfold countStep
        rw [if_neg]
        rw [hj]
        simpa using hjk
      rw [hpass]
      exact .passed hj hjk

end Geodesic.Paths
