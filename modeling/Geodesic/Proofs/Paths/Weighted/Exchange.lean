import Geodesic.Proofs.Paths.Weighted.Ties

/-!
# Searches that could take the steps of each other

Two searches from one source may follow different listings of steps, with different weights. When each
could take the steps that the other one recorded and come no farther by them, they visit the same
vertices in the same order, at equal distances, and record the same steps. What either of them tried
and gave up does not show.
-/

namespace Geodesic.Paths

open Distance (Admissible AtMost Lawful Reached same total)

variable {D S : Type} {n m : Nat} [Distance D] [Zero S] [One S] [Add S] [LT S] [DecidableLT S]
  {out out' : Fin n → List (Fin m × Fin n)} {weights weights' : Table D m} {s v : Fin n}
  {p q : Paths D S n m}

/-! ## Distances along one step -/

section Step

/-- The distance of a visited vertex is the length of a walk, and no walk is shorter. -/
theorem ShortestFrom.exists_walk (h : ShortestFrom out weights s p) (hv : v ∈ p.order.toList) :
    ∃ es, Leads out s es v ∧ p.dist[v] = total weights es ∧
      ∀ fs, Leads out s fs v → AtMost p.dist[v] (total weights fs) := by
  have hreaches := (h.visited_iff v).mp hv
  obtain ⟨es, hes, hdist, hleast⟩ := h.distance_reached v hreaches
  rw [distance?, if_pos hreaches] at hdist
  rw [Option.some.inj hdist]
  exact ⟨es, hes, rfl, hleast⟩

theorem ShortestFrom.preds_ne_nil [PositiveCounts S] (h : ShortestFrom out weights s p)
    (hv : v ∈ p.order.toList) (hvs : v ≠ s) : p.preds[v].toList ≠ [] := by
  intro hnil
  have hpos : 0 < p.sigma[v] := of_decide_eq_true ((h.visited_iff v).mp hv)
  rw [h.sigma v hvs, hnil] at hpos
  exact PositiveCounts.not_zero_pos hpos

theorem ShortestFrom.source_visited (h : ShortestFrom out weights s p) : s ∈ p.order.toList :=
  List.mem_of_mem_head? h.head

variable [Lawful D] (hweights : ∀ e : Fin m, Admissible weights[e])

include hweights

omit [Zero S] [One S] [Add S] [LT S] [DecidableLT S] in
theorem zero_atMost_total (es : List (Fin m)) : AtMost Distance.zero (total weights es) := by
  induction es using List.reverseRecOn with
  | nil => exact Distance.AtMost.refl Lawful.zero_admissible
  | append_singleton es e ih =>
      have hadm := admissible_total hweights es
      rw [Distance.total_concat]
      exact Lawful.trans Lawful.zero_admissible hadm (Lawful.add_admissible hadm (hweights e)) ih
        (Lawful.atMost_add hadm (hweights e))

theorem ShortestFrom.admissible_dist (h : ShortestFrom out weights s p)
    (hv : v ∈ p.order.toList) : Admissible p.dist[v] := by
  obtain ⟨es, _, hdist, _⟩ := h.exists_walk hv
  rw [hdist]
  exact admissible_total hweights es

theorem ShortestFrom.reached_dist (h : ShortestFrom out weights s p) (hv : v ∈ p.order.toList) :
    Reached p.dist[v] := by
  obtain ⟨es, hes, hreached⟩ := (h.reaches_iff v).mp ((h.visited_iff v).mp hv)
  obtain ⟨_, _, _, hleast⟩ := h.exists_walk hv
  exact Reached.mono (h.admissible_dist hweights hv) (admissible_total hweights es)
    (hleast es hes) hreached

omit [Lawful D] hweights in
/-- A step from a visited vertex reaches its end, unless it is too long for that. -/
theorem ShortestFrom.visited_of_step (h : ShortestFrom out weights s p) {u : Fin n} {e : Fin m}
    (hu : u ∈ p.order.toList) (hstep : (e, v) ∈ out u)
    (hreached : Reached (Distance.add p.dist[u] weights[e])) : v ∈ p.order.toList := by
  obtain ⟨es, hes, hdist, _⟩ := h.exists_walk hu
  rw [hdist, ← Distance.total_concat] at hreached
  rw [h.visited_iff, h.reaches_iff]
  exact ⟨es ++ [e], leads_concat.mpr ⟨u, hes, hstep⟩, hreached⟩

omit [Lawful D] hweights in
theorem ShortestFrom.atMost_of_step (h : ShortestFrom out weights s p) {u : Fin n} {e : Fin m}
    (hu : u ∈ p.order.toList) (hv : v ∈ p.order.toList) (hstep : (e, v) ∈ out u) :
    AtMost p.dist[v] (Distance.add p.dist[u] weights[e]) := by
  obtain ⟨es, hes, hdist, _⟩ := h.exists_walk hu
  obtain ⟨_, _, _, hleast⟩ := h.exists_walk hv
  rw [hdist, ← Distance.total_concat]
  exact hleast (es ++ [e]) (leads_concat.mpr ⟨u, hes, hstep⟩)

end Step

/-! ## Two searches -/

/-- The steps recorded in `p` lead as far along `out'`, and are no longer there. -/
def Passable (p : Paths D S n m) (weights : Table D m) (out' : Fin n → List (Fin m × Fin n))
    (weights' : Table D m) : Prop :=
  ∀ v : Fin n, ∀ a ∈ p.preds[v].toList, (a.1, v) ∈ out' a.2 ∧
    ∀ d : D, Admissible d → AtMost (Distance.add d weights'[a.1]) (Distance.add d weights[a.1])

/-- No loop is recorded, so listings of the same steps do not differ in what is. -/
theorem ShortestFrom.passable_of_sameSteps [Lawful D] (h : ShortestFrom out weights s p)
    (hweights : ∀ e : Fin m, Admissible weights[e]) (hsteps : SameSteps out out') :
    p.Passable weights out' weights := by
  intro v a ha
  obtain ⟨hstep, hbefore, _⟩ := (h.preds_iff a.2 v a.1).mp ha
  have hne : a.2 ≠ v := by
    intro heq
    rw [heq] at hbefore
    exact Before.irrefl h.nodup hbefore
  exact ⟨(hsteps a.2 v a.1 hne).mp hstep,
    fun d hd => Distance.AtMost.refl (Lawful.add_admissible hd (hweights a.1))⟩

/-- Shortest paths along `out` and along `out'`, each search with steps that the other could take. -/
structure Exchangeable (out : Fin n → List (Fin m × Fin n)) (weights : Table D m)
    (out' : Fin n → List (Fin m × Fin n)) (weights' : Table D m) (s : Fin n)
    (p q : Paths D S n m) : Prop where
  admissible : ∀ e : Fin m, Admissible weights[e]
  admissible' : ∀ e : Fin m, Admissible weights'[e]
  shortest : ShortestFrom out weights s p
  shortest' : ShortestFrom out' weights' s q
  ties : p.TiesByNumber
  ties' : q.TiesByNumber
  passable : p.Passable weights out' weights'
  passable' : q.Passable weights' out weights

namespace Exchangeable

theorem symm (h : Exchangeable out weights out' weights' s p q) :
    Exchangeable out' weights' out weights s q p :=
  ⟨h.admissible', h.admissible, h.shortest', h.shortest, h.ties', h.ties, h.passable', h.passable⟩

variable [Lawful D] [PositiveCounts S]

/-- One search comes wherever the other one does, and no later. The recorded steps carry this along
the order of the other search. -/
theorem visited_and_atMost (h : Exchangeable out weights out' weights' s p q) :
    ∀ v ∈ p.order.toList, v ∈ q.order.toList ∧ AtMost q.dist[v] p.dist[v] := by
  refine Before.induction (P := fun v => v ∈ q.order.toList ∧ AtMost q.dist[v] p.dist[v])
    h.shortest.nodup ?_
  intro v hv ih
  have hadm := h.shortest.admissible_dist h.admissible hv
  by_cases hvs : v = s
  · subst hvs
    have hv' := h.shortest'.source_visited
    obtain ⟨es, _, hdist, _⟩ := h.shortest.exists_walk hv
    obtain ⟨_, _, _, hleast⟩ := h.shortest'.exists_walk hv'
    have hzero : AtMost q.dist[v] Distance.zero := hleast [] rfl
    have hnonneg := zero_atMost_total h.admissible es
    rw [← hdist] at hnonneg
    exact ⟨hv', Lawful.trans (h.shortest'.admissible_dist h.admissible' hv') Lawful.zero_admissible
      hadm hzero hnonneg⟩
  · obtain ⟨a, ha⟩ := List.exists_mem_of_ne_nil _ (h.shortest.preds_ne_nil hv hvs)
    obtain ⟨hstep, hshorter⟩ := h.passable v a ha
    obtain ⟨_, hbefore, htight⟩ := (h.shortest.preds_iff a.2 v a.1).mp ha
    obtain ⟨hu', hle⟩ := ih a.2 hbefore
    have hadmu := h.shortest.admissible_dist h.admissible hbefore.left_mem
    have hadmu' := h.shortest'.admissible_dist h.admissible' hu'
    have hsum := Lawful.add_admissible hadmu (h.admissible a.1)
    have hsum' := Lawful.add_admissible hadmu' (h.admissible' a.1)
    have hmiddle := Lawful.add_admissible hadmu (h.admissible' a.1)
    have hcompared : AtMost (Distance.add q.dist[a.2] weights'[a.1])
        (Distance.add p.dist[a.2] weights[a.1]) :=
      Lawful.trans hsum' hmiddle hsum (Lawful.add_mono hadmu' hadmu (h.admissible' a.1) hle)
        (hshorter _ hadmu)
    have hnear := Lawful.trans hsum' hsum hadm hcompared
      ((Lawful.same_iff hsum hadm).mp htight).1
    have hv' := h.shortest'.visited_of_step hu' hstep
      (Reached.mono hsum' hadm hnear (h.shortest.reached_dist h.admissible hv))
    exact ⟨hv', Lawful.trans (h.shortest'.admissible_dist h.admissible' hv') hsum' hadm
      (h.shortest'.atMost_of_step hu' hv' hstep) hnear⟩

theorem visited (h : Exchangeable out weights out' weights' s p q) (hv : v ∈ p.order.toList) :
    v ∈ q.order.toList :=
  (h.visited_and_atMost v hv).1

theorem same_dist (h : Exchangeable out weights out' weights' s p q) (hv : v ∈ p.order.toList) :
    same p.dist[v] q.dist[v] = true := by
  obtain ⟨hv', hle⟩ := h.visited_and_atMost v hv
  obtain ⟨_, hge⟩ := h.symm.visited_and_atMost v hv'
  rw [Lawful.same_iff (h.shortest.admissible_dist h.admissible hv)
    (h.shortest'.admissible_dist h.admissible' hv')]
  exact ⟨hge, hle⟩

theorem tight (h : Exchangeable out weights out' weights' s p q) {a : Fin m × Fin n}
    (ha : a ∈ p.preds[v].toList) :
    same (Distance.add q.dist[a.2] weights'[a.1]) q.dist[v] = true := by
  obtain ⟨hstep, hshorter⟩ := h.passable v a ha
  obtain ⟨_, hbefore, htight⟩ := (h.shortest.preds_iff a.2 v a.1).mp ha
  have hu := hbefore.left_mem
  have hv := hbefore.right_mem
  obtain ⟨hu', hle⟩ := h.visited_and_atMost a.2 hu
  have hv' := h.visited hv
  obtain ⟨_, hback⟩ := h.symm.visited_and_atMost v hv'
  have hadmu := h.shortest.admissible_dist h.admissible hu
  have hadmu' := h.shortest'.admissible_dist h.admissible' hu'
  have hadmv := h.shortest.admissible_dist h.admissible hv
  have hadmv' := h.shortest'.admissible_dist h.admissible' hv'
  have hsum := Lawful.add_admissible hadmu (h.admissible a.1)
  have hsum' := Lawful.add_admissible hadmu' (h.admissible' a.1)
  have hmiddle := Lawful.add_admissible hadmu (h.admissible' a.1)
  have hfirst := Lawful.add_mono hadmu' hadmu (h.admissible' a.1) hle
  have hsecond := hshorter _ hadmu
  have hthird := ((Lawful.same_iff hsum hadmv).mp htight).1
  rw [Lawful.same_iff hsum' hadmv']
  refine ⟨?_, h.shortest'.atMost_of_step hu' hv' hstep⟩
  exact Lawful.trans hsum' hmiddle hadmv' hfirst
    (Lawful.trans hmiddle hsum hadmv' hsecond (Lawful.trans hsum hadmv hadmv' hthird hback))

/-- After the same vertices, the next of one search has no higher number than that of the other. -/
theorem next_le (h : Exchangeable out weights out' weights' s p q) {init rest rest' : List (Fin n)}
    {x y : Fin n} (horder : p.order.toList = init ++ x :: rest)
    (horder' : q.order.toList = init ++ y :: rest') (hy : y ≠ s) (hxy : x ≠ y) : x ≤ y := by
  have hnodup := h.shortest.nodup
  have hnodup' := h.shortest'.nodup
  have hyq : y ∈ q.order.toList := by simp [horder']
  have hyp : y ∈ p.order.toList := h.symm.visited hyq
  have hxp : x ∈ p.order.toList := by simp [horder]
  have hxq : x ∈ q.order.toList := h.visited hxp
  have hyinit : y ∉ init := by
    rw [horder'] at hnodup'
    exact notMem_of_nodup hnodup'
  have hxinit : x ∉ init := by
    rw [horder] at hnodup
    exact notMem_of_nodup hnodup
  have hyrest : y ∈ rest := by
    rw [horder] at hyp
    simpa [hyinit, hxy.symm] using hyp
  have hxrest : x ∈ rest' := by
    rw [horder'] at hxq
    simpa [hxinit, hxy] using hxq
  -- Both searches have the two vertices at one distance.
  have hle : AtMost p.dist[y] p.dist[x] := by
    have hbefore : Before q.order.toList y x := by
      rw [horder', List.append_cons]
      exact Before.append (by simp) hxrest
    have hsorted := List.pairwise_pair.mp (h.shortest'.sorted.sublist hbefore)
    exact hsorted.congr (h.shortest'.admissible_dist h.admissible' hyq)
      (h.shortest.admissible_dist h.admissible hyp) (h.shortest'.admissible_dist h.admissible' hxq)
      (h.shortest.admissible_dist h.admissible hxp) (h.symm.same_dist hyq) (h.symm.same_dist hxq)
  obtain ⟨a, ha⟩ := List.exists_mem_of_ne_nil _ (h.shortest'.preds_ne_nil hyq hy)
  obtain ⟨hstep, _⟩ := h.passable' y a ha
  obtain ⟨_, hbefore, _⟩ := (h.shortest'.preds_iff a.2 y a.1).mp ha
  have hainit : a.2 ∈ init := by
    rw [horder'] at hbefore hnodup'
    exact hbefore.mem_of_append hnodup'
  have hax : Before p.order.toList a.2 x := by
    rw [horder]
    exact Before.append hainit (by simp)
  have hay : Before p.order.toList a.2 y := by
    rw [horder]
    exact Before.append hainit (by simp [hyrest])
  have hxy' : Before p.order.toList x y := by
    rw [horder, List.append_cons]
    exact Before.append (by simp) hyrest
  have hentered : a ∈ p.preds[y].toList :=
    (h.shortest.preds_iff a.2 y a.1).mpr ⟨hstep, hay, h.symm.tight ha⟩
  exact h.ties y x a hentered hax (Before.asymm hnodup hxy') hle

theorem order_eq (h : Exchangeable out weights out' weights' s p q) : p.order = q.order := by
  apply Array.toList_inj.mp
  apply eq_of_next h.shortest.nodup h.shortest'.nodup
  · exact fun v => ⟨h.visited, h.symm.visited⟩
  intro init x y rest rest' horder horder'
  by_contra hxy
  cases init with
  | nil =>
      have hx := h.shortest.head
      have hy := h.shortest'.head
      rw [horder] at hx
      rw [horder'] at hy
      exact hxy (Option.some.inj (hx.trans hy.symm))
  | cons z init =>
      have hx := h.shortest.head
      have hnodup := h.shortest.nodup
      have hnodup' := h.shortest'.nodup
      rw [horder] at hx hnodup
      rw [horder'] at hnodup'
      obtain rfl : z = s := Option.some.inj hx
      have hxs : x ≠ z := fun heq => notMem_of_nodup hnodup (by simp [heq])
      have hys : y ≠ z := fun heq => notMem_of_nodup hnodup' (by simp [heq])
      have hle := h.next_le horder horder' hys hxy
      have hge := h.symm.next_le horder' horder hxs (Ne.symm hxy)
      exact hxy (Fin.le_antisymm hle hge)

theorem mem_preds (h : Exchangeable out weights out' weights' s p q) {a : Fin m × Fin n}
    (ha : a ∈ p.preds[v].toList) : a ∈ q.preds[v].toList := by
  obtain ⟨_, hbefore, _⟩ := (h.shortest.preds_iff a.2 v a.1).mp ha
  rw [h.order_eq] at hbefore
  exact (h.shortest'.preds_iff a.2 v a.1).mpr ⟨(h.passable v a ha).1, hbefore, h.tight ha⟩

theorem mem_preds_iff (h : Exchangeable out weights out' weights' s p q) (v : Fin n)
    (a : Fin m × Fin n) : a ∈ p.preds[v].toList ↔ a ∈ q.preds[v].toList :=
  ⟨h.mem_preds, h.symm.mem_preds⟩

end Exchangeable

/-! ## Searches on tidy tables -/

variable [Lawful D] [PositiveCounts S] (hweights : ∀ e : Fin m, Admissible weights[e])
  (hweights' : ∀ e : Fin m, Admissible weights'[e]) (hp : p.Tidy) (hq : q.Tidy)
  (hout : ∀ u, (out u).Nodup) (hout' : ∀ u, (out' u).Nodup)

include hweights hweights' hp hq hout hout'

theorem exchangeable_weighted (s : Fin n)
    (hpassable : (p.weighted out weights s).Passable weights out' weights')
    (hpassable' : (q.weighted out' weights' s).Passable weights' out weights) :
    Exchangeable out weights out' weights' s (p.weighted out weights s)
      (q.weighted out' weights' s) where
  admissible := hweights
  admissible' := hweights'
  shortest := shortestFrom_of_nodup hweights hp hout s
  shortest' := shortestFrom_of_nodup hweights' hq hout' s
  ties := tiesByNumber_weighted hweights hp hout s
  ties' := tiesByNumber_weighted hweights' hq hout' s
  passable := hpassable
  passable' := hpassable'

end Geodesic.Paths
