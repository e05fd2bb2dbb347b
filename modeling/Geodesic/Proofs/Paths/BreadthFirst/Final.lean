import Mathlib.Data.Fintype.Card
import Geodesic.Proofs.Paths.BreadthFirst.Sweep
import Geodesic.Proofs.Paths.Recorded

/-!
# The end of a breadth-first search

No vertex is visited twice, so fuel for every vertex expands all that were visited. What is left are
the levels of the graph, with every step from one level to the next.
-/

namespace Geodesic.Paths

variable {S : Type} {n m : Nat}

namespace Sweeping

variable [Zero S] [One S] [Add S] {out : Fin n → List (Fin m × Fin n)} {s u : Fin n}
  {done : List (Fin n)} {todo : List (Fin m × Fin n)} {a : Fin m × Fin n} {p : Paths Hops S n m}

theorem follow (h : Sweeping out s done u (a :: todo) p) :
    Sweeping out s done u todo (p.followStep u (some (p.level u + 1)) a) ∧
      (p.followStep u (some (p.level u + 1)) a).level u = p.level u := by
  have hu : u ∈ done := h.active (by simp)
  have hr := followed_followStep u (p.level u + 1) p a
  generalize p.followStep u (some (p.level u + 1)) a = p' at hr
  cases hr with
  | discovered hnone he horder =>
      have hg := h.grown_discovered he hnone horder
      exact ⟨h.enter he hg, hg.level_kept u (h.visited_of_done hu)⟩
  | counted hsome he horder =>
      have hg := h.grown_counted he hsome horder
      exact ⟨h.enter he hg, hg.level_kept u (h.visited_of_done hu)⟩
  | passed hj hne => exact ⟨h.pass hj hne, rfl⟩

theorem scan {k : Nat} (h : Sweeping out s done u todo p) (hk : p.level u = k) :
    Sweeping out s done u [] (todo.foldl (followStep u (some (k + 1))) p) := by
  induction todo generalizing p with
  | nil => exact h
  | cons a todo ih =>
      obtain ⟨hnext, hlevel⟩ := h.follow
      rw [hk] at hnext hlevel
      exact ih hnext hlevel

theorem turn (h : Sweeping out s done u [] p) {w : Fin n} {rest : List (Fin n)}
    (horder : p.order.toList = done ++ w :: rest) (hout : (out w).Nodup) :
    Sweeping out s (done ++ [w]) w (out w) p := by
  have hnodup := h.nodup
  have hsorted := h.sorted
  rw [horder] at hnodup hsorted
  have hw : w ∉ done := notMem_of_nodup hnodup
  have hlevel : p.level u ≤ p.level w := h.ahead w (by simp [horder]) hw
  refine { h with
    step := ?_, expanded := ⟨rest, by simp [horder]⟩, behind := ?_, ahead := ?_, within := ?_
    closed := ?_, tight := ?_, active := fun _ => by simp, todo_nodup := hout
    todo_steps := fun _ ha => ha, untried := ?_ }
  · intro v a ha
    obtain ⟨hstep, hdone, heq⟩ := h.step v a ha
    exact ⟨hstep, List.mem_append_left _ hdone, heq⟩
  · intro x hx
    rcases List.mem_append.mp hx with hx | hx
    · exact Nat.le_trans (h.behind x hx) hlevel
    · rw [List.mem_singleton.mp hx]
  · intro v hv hvd
    rw [horder, List.mem_append, List.mem_cons] at hv
    rw [List.mem_append, List.mem_singleton, not_or] at hvd
    have hrest : v ∈ rest := (hv.resolve_left hvd.1).resolve_left hvd.2
    exact (List.pairwise_cons.mp (List.pairwise_append.mp hsorted).2.1).1 v hrest
  · intro v hv
    have := h.within v hv
    omega
  · intro x hx a ha hwaived
    rcases List.mem_append.mp hx with hx | hx
    · exact h.closed x hx a ha (by simp)
    · obtain rfl := List.mem_singleton.mp hx
      exact absurd ha (hwaived rfl)
  · intro x hx a ha hwaived
    rcases List.mem_append.mp hx with hx | hx
    · exact h.tight x hx a ha (by simp)
    · obtain rfl := List.mem_singleton.mp hx
      exact absurd ha (hwaived rfl)
  · intro a _ hmem
    exact hw (h.step a.2 (a.1, w) hmem).2.1

theorem start {p : Paths Hops S n m} (hp : p.Tidy) (s : Fin n) :
    Sweeping out s [] s [] ((p.restart s).visit s) := by
  have horder : ((p.restart s).visit s).order.toList = [s] := by
    simp [visit]
  have hpreds : ∀ v : Fin n, ((p.restart s).visit s).preds[v].toList = [] :=
    fun v => congrArg Array.toList (hp.preds_restart s v)
  have hsource : ((p.restart s).visit s).dist[s] = some 0 := dist_restart_self p s
  have hother : ∀ v : Fin n, v ≠ s → ((p.restart s).visit s).dist[v] = none :=
    fun v hv => (hp.blank_restart hv.symm).dist
  have hlevel : ((p.restart s).visit s).level s = 0 := level_of_dist hsource
  constructor
  · rfl
  · simp [horder]
  · simp [horder]
  · intro v
    rw [horder, List.mem_singleton]
    by_cases hv : v = s
    · subst hv
      simp [hsource]
    · simp [hv, hother v hv]
  · exact hsource
  · exact sigma_restart_self p s
  · exact hpreds s
  · exact fun v _ => hpreds v
  · intro v hv
    rw [horder] at hv
    exact Or.inl (List.mem_singleton.mp hv)
  · intro v a ha
    rw [hpreds v] at ha
    cases ha
  · intro v
    rw [hpreds v]
    exact List.nodup_nil
  · intro v hv
    rw [hpreds v]
    exact (hp.blank_restart hv.symm).sigma
  · intro v hv
    rw [horder] at hv
    rw [List.mem_singleton.mp hv, hlevel]
    exact ⟨[], rfl, rfl⟩
  · simp [horder]
  · exact List.nil_prefix
  · simp
  · intro w hw _
    rw [horder] at hw
    rw [List.mem_singleton.mp hw]
  · intro v hv
    rw [horder] at hv
    rw [List.mem_singleton.mp hv]
    omega
  · simp
  · simp
  · simp
  · exact List.nodup_nil
  · simp
  · simp

theorem length_order_le (h : Sweeping out s done u todo p) : p.order.toList.length ≤ n := by
  have hle := h.nodup.length_le_card
  rwa [Fintype.card_fin] at hle

theorem expand (h : Sweeping out s done u [] p) (hout : ∀ v, (out v).Nodup)
    (hi : done.length < p.order.size) :
    Sweeping out s (done ++ [p.order[done.length]]) p.order[done.length] []
      (p.expand out p.order[done.length]) := by
  obtain ⟨rest, hrest⟩ := h.expanded
  cases rest with
  | nil =>
      rw [List.append_nil] at hrest
      rw [hrest, Array.length_toList] at hi
      omega
  | cons w rest =>
      have hw : p.order[done.length] = w := by
        rw [← Array.getElem_toList]
        simp [← hrest]
      have hdist : p.dist[w] = some (p.level w) :=
        dist_eq_level ((h.visited_iff w).mp (by simp [← hrest]))
      have hexpand : p.expand out p.order[done.length] =
          (out w).foldl (followStep w (some (p.level w + 1))) p := by
        rw [hw, Paths.expand, hdist]
        rfl
      rw [hexpand, hw]
      exact (h.turn hrest.symm (hout w)).scan rfl

/-- With fuel for every vertex, the sweep expands whatever it discovers. -/
theorem sweep (hout : ∀ v, (out v).Nodup) (fuel : Nat) (h : Sweeping out s done u [] p)
    (hfuel : n ≤ fuel + done.length) :
    ∃ w, Sweeping out s (sweep out fuel done.length p).order.toList w []
      (sweep out fuel done.length p) := by
  have hfinished : p.order.toList.length ≤ done.length →
      Sweeping out s p.order.toList u [] p := by
    intro hle
    have heq := h.expanded.eq_of_length_le hle
    rw [← heq]
    exact h
  induction fuel generalizing done u p with
  | zero =>
      have hle := h.length_order_le
      exact ⟨u, hfinished (by omega)⟩
  | succ fuel ih =>
      unfold Paths.sweep
      split
      · rename_i hi
        have hnext := h.expand hout hi
        have hlength : (done ++ [p.order[done.length]]).length = done.length + 1 := by simp
        have hrefuel : n ≤ fuel + (done ++ [p.order[done.length]]).length := by omega
        rw [← hlength]
        exact ih hnext hrefuel fun hle => by
          rw [← hnext.expanded.eq_of_length_le hle]
          exact hnext
      · rename_i hi
        refine ⟨u, hfinished ?_⟩
        rw [Array.length_toList]
        omega

theorem before_of_step (h : Sweeping out s done u todo p) {v : Fin n} {a : Fin m × Fin n}
    (ha : a ∈ p.preds[v].toList) : Before p.order.toList a.2 v := by
  obtain ⟨_, hdone, hlevel⟩ := h.step v a ha
  have horigin := h.visited_of_done hdone
  have hv : v ∈ p.order.toList := by
    by_contra hnot
    rw [h.preds_unvisited v hnot] at ha
    cases ha
  have hne : a.2 ≠ v := by
    rintro heq
    rw [heq] at hlevel
    omega
  rcases Before.total horigin hv hne with hbefore | hafter
  · exact hbefore
  · have hle := List.pairwise_pair.mp (h.sorted.sublist hafter)
    omega

theorem visited_iff_known (h : Sweeping out s done u todo p) (v : Fin n) :
    v ∈ p.order.toList ↔ v = s ∨ p.preds[v].toList ≠ [] := by
  constructor
  · exact h.known v
  · rintro (rfl | hne)
    · exact h.source_visited
    · by_contra hv
      exact hne (h.preds_unvisited v hv)

/-! ## Once all is expanded -/

theorem level_le_length (h : Sweeping out s p.order.toList u [] p) {es : List (Fin m)} {v : Fin n}
    (hes : Leads out s es v) : v ∈ p.order.toList ∧ p.level v ≤ es.length := by
  induction es using List.reverseRecOn generalizing v with
  | nil =>
      obtain rfl : s = v := hes
      rw [level_of_dist h.dist_source]
      exact ⟨h.source_visited, Nat.zero_le _⟩
  | append_singleton es e ih =>
      obtain ⟨w, hes, hstep⟩ := leads_concat.mp hes
      obtain ⟨hw, hlevel⟩ := ih hes
      obtain ⟨hv, hle⟩ : v ∈ p.order.toList ∧ p.level v ≤ p.level w + 1 :=
        h.closed w hw (e, v) hstep (by simp)
      have hlen : (es ++ [e]).length = es.length + 1 := by simp
      rw [hlen]
      exact ⟨hv, by omega⟩

/-- All steps from one level to the next are recorded, and no others. -/
theorem mem_preds_iff (h : Sweeping out s p.order.toList u [] p) (x v : Fin n) (e : Fin m) :
    (e, x) ∈ p.preds[v].toList ↔
      (e, v) ∈ out x ∧ x ∈ p.order.toList ∧ p.level v = p.level x + 1 := by
  constructor
  · exact h.step v (e, x)
  · rintro ⟨hstep, hx, hlevel⟩
    exact h.tight x hx (e, v) hstep (by simp) hlevel

/-! ### Other listings of the same steps -/

section SameSteps

variable {out' : Fin n → List (Fin m × Fin n)} {u' v : Fin n} {q : Paths Hops S n m}
  (h : Sweeping out s p.order.toList u [] p) (h' : Sweeping out' s q.order.toList u' [] q)
  (hsteps : SameSteps out out')

include h h' hsteps

theorem level_le_of_sameSteps (hv : v ∈ p.order.toList) :
    v ∈ q.order.toList ∧ q.level v ≤ p.level v := by
  obtain ⟨es, hes, hlength⟩ := h.walk v hv
  obtain ⟨fs, hsub, hfs⟩ := hsteps.exists_walk hes
  obtain ⟨hvisited, hle⟩ := h'.level_le_length hfs
  rw [← hlength]
  exact ⟨hvisited, hle.trans hsub.length_le⟩

theorem level_of_sameSteps (hv : v ∈ p.order.toList) : q.level v = p.level v := by
  obtain ⟨hv', hle⟩ := level_le_of_sameSteps h h' hsteps hv
  exact Nat.le_antisymm hle (level_le_of_sameSteps h' h hsteps.symm hv').2

theorem preds_of_sameSteps {a : Fin m × Fin n} (ha : a ∈ p.preds[v].toList) :
    a ∈ q.preds[v].toList := by
  obtain ⟨hstep, hu, hlevel⟩ := (h.mem_preds_iff a.2 v a.1).mp ha
  have hv : v ∈ p.order.toList := (h.before_of_step ha).right_mem
  have hne : a.2 ≠ v := by
    intro heq
    rw [heq] at hlevel
    omega
  apply (h'.mem_preds_iff a.2 v a.1).mpr
  rw [level_of_sameSteps h h' hsteps hv, level_of_sameSteps h h' hsteps hu]
  exact ⟨(hsteps a.2 v a.1 hne).mp hstep, (level_le_of_sameSteps h h' hsteps hu).1, hlevel⟩

end SameSteps

end Sweeping

section

variable [Zero S] [One S] [Add S] {out : Fin n → List (Fin m × Fin n)} {p : Paths Hops S n m}

theorem exists_swept (hp : p.Tidy) (hout : ∀ u, (out u).Nodup) (s : Fin n) :
    ∃ u, Sweeping out s (p.breadthFirst out s).order.toList u [] (p.breadthFirst out s) :=
  (Sweeping.start hp s).sweep hout n (Nat.le_refl n)

/-- A breadth-first search leaves tables that another search may start on. -/
theorem tidy_breadthFirst (hp : p.Tidy) (hout : ∀ u, (out u).Nodup) (s : Fin n) :
    (p.breadthFirst out s).Tidy := by
  obtain ⟨u, h⟩ := exists_swept hp hout s
  intro v hv
  have hnil := h.preds_unvisited v hv
  refine ⟨?_, ?_, Array.toList_eq_nil_iff.mp hnil⟩
  · have hdist := mt (h.visited_iff v).mpr hv
    rwa [not_not] at hdist
  · rw [h.sigma v fun heq => hv (heq ▸ h.source_visited), hnil]
    rfl

theorem counted_breadthFirst (hp : p.Tidy) (hout : ∀ u, (out u).Nodup) (s : Fin n) :
    Counted out s (p.breadthFirst out s) := by
  obtain ⟨u, h⟩ := exists_swept hp hout s
  exact {
    source := h.source
    nodup := h.nodup
    head := h.head
    visited_iff := h.visited_iff_known
    sigma_source := h.sigma_source
    preds_source := h.preds_source
    step := fun v a ha => (h.step v a ha).1
    before := fun v a ha => h.before_of_step ha
    once := h.once
    sigma := fun v hv => Or.inl (h.sigma v hv) }

end

/-- With exact counts, a breadth-first search leaves recorded tables. -/
theorem recorded_breadthFirst [AddMonoid S] [One S] {out : Fin n → List (Fin m × Fin n)}
    {p : Paths Hops S n m} (hp : p.Tidy) (hout : ∀ u, (out u).Nodup) (s : Fin n) :
    Recorded out s (p.breadthFirst out s) :=
  (counted_breadthFirst hp hout s).recorded

end Geodesic.Paths
