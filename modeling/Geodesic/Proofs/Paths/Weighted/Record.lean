import Geodesic.Proofs.Before
import Geodesic.Proofs.Paths.Counting
import Geodesic.Proofs.Paths.Restart
import Geodesic.Proofs.Paths.Weighted.Step
import Geodesic.Proofs.Walk

/-!
# What a search by total weight records

The facts of this module need no law of the lengths at all: they hold for negative weights and for
values that compare with nothing. They rest on one rule of the search, that a settled vertex is left
alone, so the predecessors of a vertex were all settled before it and their counts are final.
-/

namespace Geodesic.Frontier

open Distance (Reached shorter same total)

variable {D S : Type} {n m : Nat} [Distance D] [Zero S] [One S] [Add S]

/-- The tables of a search from `s` that has settled `s` already. -/
structure Record (out : Fin n → List (Fin m × Fin n)) (weights : Table D m) (s : Fin n)
    (f : Frontier D S n m) : Prop where
  source : f.paths.source = some s
  nodup : f.paths.order.toList.Nodup
  head : f.paths.order.toList.head? = some s
  settled_iff : ∀ v : Fin n, f.settled[v] = true ↔ v ∈ f.paths.order.toList
  dist_source : f.paths.dist[s] = Distance.zero
  sigma_source : f.paths.sigma[s] = 1
  preds_source : f.paths.preds[s].toList = []
  unknown : ∀ v : Fin n, v ≠ s → f.paths.preds[v].toList = [] → f.paths.dist[v] = Distance.unreached
  entered : ∀ v : Fin n, f.paths.preds[v].toList ≠ [] →
    v ∈ f.paths.order.toList ∨ ∃ c ∈ f.pending.toList, c.vertex = v
  known_of_visited : ∀ v ∈ f.paths.order.toList, v = s ∨ f.paths.preds[v].toList ≠ []
  known_of_pending : ∀ c ∈ f.pending.toList, c.vertex = s ∨ f.paths.preds[c.vertex].toList ≠ []
  step : ∀ v : Fin n, ∀ a ∈ f.paths.preds[v].toList, (a.1, v) ∈ out a.2 ∧ a.2 ∈ f.paths.order.toList
  before : ∀ v ∈ f.paths.order.toList, ∀ a ∈ f.paths.preds[v].toList,
    Before f.paths.order.toList a.2 v
  once : ∀ v : Fin n, f.paths.preds[v].toList.Nodup
  sigma : ∀ v : Fin n, v ≠ s →
    f.paths.sigma[v] = sumInOrder (f.paths.preds[v].toList.map fun a => f.paths.sigma[a.2])
  walk : ∀ v : Fin n, v = s ∨ f.paths.preds[v].toList ≠ [] →
    ∃ es, Leads out s es v ∧ total weights es = f.paths.dist[v]
  reached : ∀ v : Fin n, v ≠ s → f.paths.preds[v].toList ≠ [] → Reached f.paths.dist[v]

variable {out : Fin n → List (Fin m × Fin n)} {weights : Table D m} {s u : Fin n}
  {f : Frontier D S n m}

namespace Record

theorem source_visited (h : Record out weights s f) : s ∈ f.paths.order.toList :=
  List.mem_of_mem_head? h.head

theorem not_visited (h : Record out weights s f) {v : Fin n} (hv : f.settled[v] = false) :
    v ∉ f.paths.order.toList := by
  rw [← h.settled_iff, hv]
  simp

theorem start {p : Paths D S n m} (hp : p.Tidy) (s : Fin n) :
    Record out weights s ((start s p).mark s Heap.empty) := by
  have horder : ((Frontier.start s p).mark s Heap.empty).paths.order.toList = [s] := by
    simp [Frontier.start, Frontier.enter]
  have hpreds : ∀ v : Fin n,
      ((Frontier.start s p).mark s Heap.empty).paths.preds[v].toList = [] :=
    fun v => congrArg Array.toList (hp.preds_restart s v)
  constructor
  · rfl
  · rw [horder]
    simp
  · rw [horder]
    rfl
  · intro v
    rw [horder, settled_mark]
    by_cases hv : s = v
    · simp [hv]
    · simp [hv, Ne.symm hv, Frontier.start, Frontier.enter]
  · exact Paths.dist_restart_self p s
  · exact Paths.sigma_restart_self p s
  · exact hpreds s
  · intro v hv _
    exact (hp.blank_restart hv.symm).dist
  · intro v hv
    exact absurd (hpreds v) hv
  · intro v hv
    rw [horder] at hv
    exact Or.inl (List.mem_singleton.mp hv)
  · intro c hc
    cases hc
  · intro v a ha
    rw [hpreds v] at ha
    cases ha
  · intro v _ a ha
    rw [hpreds v] at ha
    cases ha
  · intro v
    rw [hpreds v]
    exact List.nodup_nil
  · intro v hv
    rw [hpreds v]
    exact (hp.blank_restart hv.symm).sigma
  · rintro v (rfl | hv)
    · exact ⟨[], rfl, (Paths.dist_restart_self p v).symm⟩
    · exact absurd (hpreds v) hv
  · intro v _ hv
    exact absurd (hpreds v) hv

theorem drop (h : Record out weights s f) {c : Candidate D n} {rest : Heap (Candidate D n)}
    (hpop : f.pending.toList.Perm (c :: rest.toList)) (hc : f.settled[c.vertex] = true) :
    Record out weights s { f with pending := rest } := by
  refine { h with entered := ?_, known_of_pending := ?_ }
  · intro v hv
    rcases h.entered v hv with hv | ⟨d, hd, rfl⟩
    · exact Or.inl hv
    · rcases List.mem_cons.mp (hpop.mem_iff.mp hd) with rfl | hd
      · exact Or.inl ((h.settled_iff _).mp hc)
      · exact Or.inr ⟨d, hd, rfl⟩
  · intro d hd
    exact h.known_of_pending d (hpop.mem_iff.mpr (List.mem_cons_of_mem _ hd))

theorem mark (h : Record out weights s f) {c : Candidate D n} {rest : Heap (Candidate D n)}
    (hpop : f.pending.toList.Perm (c :: rest.toList)) (hc : f.settled[c.vertex] = false) :
    Record out weights s (f.mark c.vertex rest) := by
  have hnew : c.vertex ∉ f.paths.order.toList := h.not_visited hc
  have hmem : c ∈ f.pending.toList := hpop.mem_iff.mpr (by simp)
  refine { h with
    nodup := ?_, head := ?_, settled_iff := ?_, entered := ?_, known_of_visited := ?_,
    known_of_pending := ?_, step := ?_, before := ?_ }
  · rw [order_mark]
    exact List.nodup_append.mpr ⟨h.nodup, by simp, fun a ha b hb hab =>
      hnew (by rw [← List.mem_singleton.mp hb, ← hab]; exact ha)⟩
  · rw [order_mark, List.head?_append, h.head]
    rfl
  · intro v
    rw [order_mark, settled_mark, List.mem_append, List.mem_singleton, ← h.settled_iff]
    by_cases hv : c.vertex = v
    · simp [hv]
    · simp [hv, Ne.symm hv]
  · intro v hv
    rw [order_mark]
    rcases h.entered v hv with hv | ⟨d, hd, rfl⟩
    · exact Or.inl (List.mem_append_left _ hv)
    · rcases List.mem_cons.mp (hpop.mem_iff.mp hd) with rfl | hd
      · exact Or.inl (by simp)
      · exact Or.inr ⟨d, hd, rfl⟩
  · intro v hv
    rw [order_mark] at hv
    rcases List.mem_append.mp hv with hv | hv
    · exact h.known_of_visited v hv
    · rw [List.mem_singleton.mp hv]
      exact h.known_of_pending c hmem
  · intro d hd
    exact h.known_of_pending d (hpop.mem_iff.mpr (List.mem_cons_of_mem _ hd))
  · intro v a ha
    rw [order_mark]
    exact ⟨(h.step v a ha).1, List.mem_append_left _ (h.step v a ha).2⟩
  · intro v hv a ha
    rw [order_mark] at hv ⊢
    rcases List.mem_append.mp hv with hv | hv
    · exact (h.before v hv a ha).concat _
    · rw [List.mem_singleton.mp hv]
      exact Before.last (h.step v a ha).2 _

/-- A settled vertex is known, so a walk leads to it. -/
theorem walk_visited (h : Record out weights s f) (hu : u ∈ f.paths.order.toList) :
    ∃ es, Leads out s es u ∧ total weights es = f.paths.dist[u] :=
  h.walk u (h.known_of_visited u hu)

/-- What is known of an unsettled vertex may be revised, as long as all its recorded steps come from
settled vertices; no other vertex depends on it. -/
theorem revise (h : Record out weights s f) {w : Fin n} {f' : Frontier D S n m}
    (hr : Revised w f f') (hw : w ∉ f.paths.order.toList)
    (hne : f'.paths.preds[w].toList ≠ []) (hnodup : f'.paths.preds[w].toList.Nodup)
    (hstep : ∀ a ∈ f'.paths.preds[w].toList, (a.1, w) ∈ out a.2 ∧ a.2 ∈ f.paths.order.toList)
    (hsigma : f'.paths.sigma[w] =
      sumInOrder (f'.paths.preds[w].toList.map fun a => f.paths.sigma[a.2]))
    (hwalk : ∃ es, Leads out s es w ∧ total weights es = f'.paths.dist[w])
    (hreached : Reached f'.paths.dist[w]) (hentry : ∃ c ∈ f'.pending.toList, c.vertex = w) :
    Record out weights s f' := by
  have hvisited : ∀ v, v ∈ f.paths.order.toList → w ≠ v := fun v hv heq => hw (heq ▸ hv)
  have hs : w ≠ s := hvisited s h.source_visited
  constructor
  · rw [hr.source]
    exact h.source
  · rw [hr.order]
    exact h.nodup
  · rw [hr.order]
    exact h.head
  · rw [hr.order, hr.settled]
    exact h.settled_iff
  · rw [hr.dist s hs]
    exact h.dist_source
  · rw [hr.sigma s hs]
    exact h.sigma_source
  · rw [hr.preds s hs]
    exact h.preds_source
  · intro v hvs hnil
    by_cases hv : w = v
    · subst hv
      exact absurd hnil hne
    · rw [hr.preds v hv] at hnil
      rw [hr.dist v hv]
      exact h.unknown v hvs hnil
  · intro v hnil
    rw [hr.order]
    by_cases hv : w = v
    · subst hv
      exact Or.inr hentry
    · rw [hr.preds v hv] at hnil
      rcases h.entered v hnil with hmem | ⟨c, hc, rfl⟩
      · exact Or.inl hmem
      · exact Or.inr ⟨c, hr.kept c hc, rfl⟩
  · intro v hv
    rw [hr.order] at hv
    rw [hr.preds v (hvisited v hv)]
    exact h.known_of_visited v hv
  · intro c hc
    by_cases hv : w = c.vertex
    · exact Or.inr (hv ▸ hne)
    · rw [hr.preds _ hv]
      exact h.known_of_pending c ((hr.added c hc).resolve_right (Ne.symm hv))
  · intro v a ha
    rw [hr.order]
    by_cases hv : w = v
    · subst hv
      exact hstep a ha
    · rw [hr.preds v hv] at ha
      exact h.step v a ha
  · intro v hv a ha
    rw [hr.order] at hv ⊢
    rw [hr.preds v (hvisited v hv)] at ha
    exact h.before v hv a ha
  · intro v
    by_cases hv : w = v
    · subst hv
      exact hnodup
    · rw [hr.preds v hv]
      exact h.once v
  · intro v hvs
    by_cases hv : w = v
    · subst hv
      rw [hsigma]
      refine congrArg sumInOrder (List.map_congr_left fun a ha => ?_)
      exact (hr.sigma a.2 (hvisited _ (hstep a ha).2)).symm
    · rw [hr.sigma v hv, hr.preds v hv, h.sigma v hvs]
      refine congrArg sumInOrder (List.map_congr_left fun a ha => ?_)
      exact (hr.sigma a.2 (hvisited _ (h.step v a ha).2)).symm
  · intro v hknown
    by_cases hv : w = v
    · subst hv
      exact hwalk
    · rw [hr.preds v hv] at hknown
      rw [hr.dist v hv]
      exact h.walk v hknown
  · intro v hvs hnil
    by_cases hv : w = v
    · subst hv
      exact hreached
    · rw [hr.preds v hv] at hnil
      rw [hr.dist v hv]
      exact h.reached v hvs hnil

theorem improve (h : Record out weights s f) {a : Fin m × Fin n}
    (hu : u ∈ f.paths.order.toList) (ha : a ∈ out u) (hv : a.2 ∉ f.paths.order.toList)
    (hsum : Reached (Distance.add f.paths.dist[u] weights[a.1])) :
    Record out weights s (f.improve u (Distance.add f.paths.dist[u] weights[a.1]) a) := by
  have hpreds : (f.improve u (Distance.add f.paths.dist[u] weights[a.1]) a).paths.preds[a.2].toList
      = [(a.1, u)] := by
    rw [preds_improve, if_pos rfl]
  have hdist : (f.improve u (Distance.add f.paths.dist[u] weights[a.1]) a).paths.dist[a.2]
      = Distance.add f.paths.dist[u] weights[a.1] := by
    rw [dist_improve, if_pos rfl]
  refine h.revise (revised_improve ..) hv ?_ ?_ ?_ ?_ ?_ ?_ ?_
  · simp [hpreds]
  · simp [hpreds]
  · intro b hb
    rw [hpreds] at hb
    rw [List.mem_singleton.mp hb]
    exact ⟨ha, hu⟩
  · rw [hpreds, sigma_improve, if_pos rfl]
    rfl
  · obtain ⟨es, hes, htotal⟩ := h.walk_visited hu
    exact ⟨es ++ [a.1], leads_concat.mpr ⟨u, hes, ha⟩, by
      rw [Distance.total_concat, htotal, hdist]⟩
  · rw [hdist]
    exact hsum
  · exact ⟨_, (mem_pending_improve ..).mpr (Or.inl rfl), rfl⟩

theorem tie (h : Record out weights s f) {a : Fin m × Fin n} (hu : u ∈ f.paths.order.toList)
    (ha : a ∈ out u) (hnew : (a.1, u) ∉ f.paths.preds[a.2].toList)
    (hv : a.2 ∉ f.paths.order.toList) (hknown : f.paths.preds[a.2].toList ≠ []) :
    Record out weights s (f.tie u a) := by
  have hs : a.2 ≠ s := fun heq => hv (heq ▸ h.source_visited)
  have hpreds : (f.tie u a).paths.preds[a.2].toList = f.paths.preds[a.2].toList ++ [(a.1, u)] := by
    rw [preds_tie, if_pos rfl, Array.toList_push]
  refine h.revise (revised_tie ..) hv ?_ ?_ ?_ ?_ ?_ ?_ ?_
  · simp [hpreds]
  · rw [hpreds]
    exact List.nodup_append.mpr ⟨h.once a.2, by simp, fun b hb c hc hbc =>
      hnew (by rw [← List.mem_singleton.mp hc, ← hbc]; exact hb)⟩
  · intro b hb
    rw [hpreds] at hb
    rcases List.mem_append.mp hb with hb | hb
    · exact h.step a.2 b hb
    · rw [List.mem_singleton.mp hb]
      exact ⟨ha, hu⟩
  · rw [hpreds, sigma_tie, if_pos rfl, List.map_append, List.map_singleton,
      sumInOrder_concat (by simpa using hknown), h.sigma a.2 hs]
  · exact h.walk a.2 (Or.inr hknown)
  · exact h.reached a.2 hs hknown
  · exact (h.entered a.2 hknown).resolve_left hv

/-- A step is recorded as a tie only where a way was known before: a sum equal to the mark is never
compared with a distance. -/
theorem known_of_same (h : Record out weights s f) {v : Fin n} {sum : D} (hvs : v ≠ s)
    (hsum : Reached sum) (heq : same sum f.paths.dist[v] = true) :
    f.paths.preds[v].toList ≠ [] := by
  intro hnil
  rw [h.unknown v hvs hnil, hsum] at heq
  cases heq

theorem relax (h : Record out weights s f) {a : Fin m × Fin n} (hu : u ∈ f.paths.order.toList)
    (ha : a ∈ out u) (hnew : (a.1, u) ∉ f.paths.preds[a.2].toList) :
    Record out weights s (f.relax weights u f.paths.dist[u] a) := by
  have hr := relaxed_relax weights u f.paths.dist[u] f a
  generalize f.relax weights u f.paths.dist[u] a = f' at hr
  cases hr with
  | settled _ => exact h
  | unreached _ _ => exact h
  | longer _ _ _ _ => exact h
  | improved hv hsum _ => exact h.improve hu ha (h.not_visited hv) hsum
  | tied hv hsum _ heq =>
      have hvs : a.2 ≠ s := fun heq => h.not_visited hv (heq ▸ h.source_visited)
      exact h.tie hu ha hnew (h.not_visited hv) (h.known_of_same hvs hsum heq)

end Record

end Geodesic.Frontier
