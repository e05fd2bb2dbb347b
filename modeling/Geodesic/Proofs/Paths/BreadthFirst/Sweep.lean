import Geodesic.Proofs.Before
import Geodesic.Proofs.Paths.BreadthFirst.Step
import Geodesic.Proofs.Paths.Restart
import Geodesic.Proofs.Walk

/-!
# The levels of a breadth-first search

The sweep expands the visited vertices in the order in which they were discovered. Levels along that
order never fall, and the vertices discovered so far lie at most one level beyond the vertex that is
being expanded. So the steps that enter a vertex are all recorded before it is expanded itself.
-/

namespace Geodesic.Paths

variable {S : Type} {n m : Nat} [Zero S] [One S] [Add S]

/-- The tables of a search from `s` that has expanded the vertices `done`, up to the steps `todo` of
the last one, `u`. -/
structure Sweeping (out : Fin n → List (Fin m × Fin n)) (s : Fin n) (done : List (Fin n))
    (u : Fin n) (todo : List (Fin m × Fin n)) (p : Paths Hops S n m) : Prop where
  source : p.source = some s
  nodup : p.order.toList.Nodup
  head : p.order.toList.head? = some s
  visited_iff : ∀ v : Fin n, v ∈ p.order.toList ↔ p.dist[v] ≠ none
  dist_source : p.dist[s] = some 0
  sigma_source : p.sigma[s] = 1
  preds_source : p.preds[s].toList = []
  preds_unvisited : ∀ v : Fin n, v ∉ p.order.toList → p.preds[v].toList = []
  known : ∀ v ∈ p.order.toList, v = s ∨ p.preds[v].toList ≠ []
  step : ∀ v : Fin n, ∀ a ∈ p.preds[v].toList,
    (a.1, v) ∈ out a.2 ∧ a.2 ∈ done ∧ p.level v = p.level a.2 + 1
  once : ∀ v : Fin n, p.preds[v].toList.Nodup
  sigma : ∀ v : Fin n, v ≠ s →
    p.sigma[v] = (p.preds[v].toList.map fun a => p.sigma[a.2]).foldl (· + ·) 0
  walk : ∀ v ∈ p.order.toList, ∃ es, Leads out s es v ∧ es.length = p.level v
  sorted : p.order.toList.Pairwise fun v w => p.level v ≤ p.level w
  expanded : done <+: p.order.toList
  behind : ∀ x ∈ done, p.level x ≤ p.level u
  ahead : ∀ w ∈ p.order.toList, w ∉ done → p.level u ≤ p.level w
  within : ∀ v ∈ p.order.toList, p.level v ≤ p.level u + 1
  closed : ∀ x ∈ done, ∀ a ∈ out x, (x = u → a ∉ todo) →
    a.2 ∈ p.order.toList ∧ p.level a.2 ≤ p.level x + 1
  tight : ∀ x ∈ done, ∀ a ∈ out x, (x = u → a ∉ todo) →
    p.level a.2 = p.level x + 1 → (a.1, x) ∈ p.preds[a.2].toList
  active : todo ≠ [] → u ∈ done
  todo_nodup : todo.Nodup
  todo_steps : ∀ a ∈ todo, a ∈ out u
  untried : ∀ a ∈ todo, (a.1, u) ∉ p.preds[a.2].toList

variable {out : Fin n → List (Fin m × Fin n)} {s u : Fin n} {done : List (Fin n)}
  {todo : List (Fin m × Fin n)} {a : Fin m × Fin n} {p p' : Paths Hops S n m}

namespace Sweeping

theorem source_visited (h : Sweeping out s done u todo p) : s ∈ p.order.toList :=
  List.mem_of_mem_head? h.head

theorem visited_of_done (h : Sweeping out s done u todo p) {x : Fin n} (hx : x ∈ done) :
    x ∈ p.order.toList :=
  h.expanded.subset hx

/-- A step that leads to a known vertex at another level changes nothing. -/
theorem pass (h : Sweeping out s done u (a :: todo) p) {j : Nat} (hj : p.dist[a.2] = some j)
    (hne : j ≠ p.level u + 1) : Sweeping out s done u todo p := by
  have hvis : a.2 ∈ p.order.toList := by
    rw [h.visited_iff, hj]
    simp
  have hlevel : p.level a.2 = j := level_of_dist hj
  have hle := h.within a.2 hvis
  refine { h with
    closed := ?_, tight := ?_
    active := fun _ => h.active (by simp)
    todo_nodup := (List.nodup_cons.mp h.todo_nodup).2
    todo_steps := fun b hb => h.todo_steps b (List.mem_cons_of_mem _ hb)
    untried := fun b hb => h.untried b (List.mem_cons_of_mem _ hb) }
  · intro x hx b hb hbt
    by_cases hxa : x = u ∧ b = a
    · obtain ⟨rfl, rfl⟩ := hxa
      exact ⟨hvis, hle⟩
    · exact h.closed x hx b hb (waived_cons hbt hxa)
  · intro x hx b hb hbt hsame
    by_cases hxa : x = u ∧ b = a
    · obtain ⟨rfl, rfl⟩ := hxa
      omega
    · exact h.tight x hx b hb (waived_cons hbt hxa) hsame

/-- What entering one more step of `u` leaves of the orders and levels. -/
structure Grown (done : List (Fin n)) (u w : Fin n) (p p' : Paths Hops S n m) : Prop where
  fresh : w ∉ done
  visited_iff : ∀ v : Fin n, v ∈ p'.order.toList ↔ v = w ∨ v ∈ p.order.toList
  level_new : p'.level w = p.level u + 1
  level_old : ∀ v : Fin n, w ≠ v → p'.level v = p.level v
  level_kept : ∀ v ∈ p.order.toList, p'.level v = p.level v
  nodup : p'.order.toList.Nodup
  sorted : p'.order.toList.Pairwise fun v w => p'.level v ≤ p'.level w
  longer : p.order.toList <+: p'.order.toList

omit [Zero S] [One S] in
theorem level_new (he : Entered u (p.level u + 1) a p p') : p'.level a.2 = p.level u + 1 :=
  level_of_dist (by rw [he.dist, if_pos rfl])

omit [Zero S] [One S] in
theorem level_old (he : Entered u (p.level u + 1) a p p') (v : Fin n) (hv : a.2 ≠ v) :
    p'.level v = p.level v := by
  unfold level
  rw [he.dist, if_neg hv]

theorem grown_discovered (h : Sweeping out s done u (a :: todo) p)
    (he : Entered u (p.level u + 1) a p p') (hnone : p.dist[a.2] = none)
    (horder : p'.order.toList = p.order.toList ++ [a.2]) : Grown done u a.2 p p' := by
  have hunvisited : a.2 ∉ p.order.toList := by
    rw [h.visited_iff, hnone]
    simp
  have hkept : ∀ v ∈ p.order.toList, p'.level v = p.level v := by
    intro v hv
    exact level_old he v fun heq => hunvisited (heq ▸ hv)
  refine ⟨fun hmem => hunvisited (h.visited_of_done hmem), ?_, level_new he, level_old he, hkept,
    ?_, ?_, ?_⟩
  · intro v
    rw [horder, List.mem_append, List.mem_singleton, or_comm]
  · rw [horder]
    refine List.nodup_append.mpr ⟨h.nodup, by simp, fun v hv w hw hvw => hunvisited ?_⟩
    rw [← List.mem_singleton.mp hw, ← hvw]
    exact hv
  · rw [horder]
    refine List.pairwise_append.mpr ⟨?_, by simp, fun v hv w hw => ?_⟩
    · refine h.sorted.imp_of_mem fun hv hw hvw => ?_
      rw [hkept _ hv, hkept _ hw]
      exact hvw
    · rw [List.mem_singleton.mp hw, hkept v hv, level_new he]
      exact h.within v hv
  · rw [horder]
    exact List.prefix_append ..

theorem grown_counted (h : Sweeping out s done u (a :: todo) p)
    (he : Entered u (p.level u + 1) a p p') (hsome : p.dist[a.2] = some (p.level u + 1))
    (horder : p'.order.toList = p.order.toList) : Grown done u a.2 p p' := by
  have hvisited : a.2 ∈ p.order.toList := by
    rw [h.visited_iff, hsome]
    simp
  have hlevel : p.level a.2 = p.level u + 1 := level_of_dist hsome
  have hkept : ∀ v ∈ p.order.toList, p'.level v = p.level v := by
    intro v _
    by_cases hv : a.2 = v
    · rw [← hv, level_new he, hlevel]
    · exact level_old he v hv
  refine ⟨fun hmem => ?_, ?_, level_new he, level_old he, hkept, ?_, ?_, ?_⟩
  · have hle := h.behind a.2 hmem
    omega
  · intro v
    rw [horder]
    constructor
    · exact Or.inr
    · rintro (rfl | hv)
      · exact hvisited
      · exact hv
  · rw [horder]
    exact h.nodup
  · rw [horder]
    refine h.sorted.imp_of_mem fun hv hw hvw => ?_
    rw [hkept _ hv, hkept _ hw]
    exact hvw
  · exact horder.symm ▸ List.prefix_refl _

omit [Zero S] [One S] [Add S] in
theorem Grown.old_or_new {w : Fin n} (hg : Grown done u w p p') {v : Fin n}
    (hv : v ∈ p'.order.toList) : w = v ∨ (w ≠ v ∧ v ∈ p.order.toList) := by
  by_cases hw : w = v
  · exact Or.inl hw
  · exact Or.inr ⟨hw, ((hg.visited_iff v).mp hv).resolve_left (Ne.symm hw)⟩

/-! ### Recording a step of `u` -/

section Enter

omit [Zero S] [One S] in
theorem preds_new (he : Entered u (p.level u + 1) a p p') :
    p'.preds[a.2].toList = p.preds[a.2].toList ++ [(a.1, u)] := by
  rw [he.preds, if_pos rfl]

omit [Zero S] [One S] in
theorem preds_old (he : Entered u (p.level u + 1) a p p') {v : Fin n} (hv : a.2 ≠ v) :
    p'.preds[v].toList = p.preds[v].toList := by
  rw [he.preds, if_neg hv]

variable (h : Sweeping out s done u (a :: todo) p) (he : Entered u (p.level u + 1) a p p')
  (hg : Grown done u a.2 p p')

include h in
theorem mem_done : u ∈ done :=
  h.active (by simp)

include hg in
omit [Zero S] [One S] [Add S] in
theorem ne_of_done {x : Fin n} (hx : x ∈ done) : a.2 ≠ x :=
  fun heq => hg.fresh (heq ▸ hx)

include hg in
omit [Zero S] [One S] [Add S] in
theorem level_done {x : Fin n} (hx : x ∈ done) : p'.level x = p.level x :=
  hg.level_old x (ne_of_done hg hx)

include he hg in
omit [Zero S] [One S] in
theorem sigma_done {x : Fin n} (hx : x ∈ done) : p'.sigma[x] = p.sigma[x] := by
  rw [he.sigma, if_neg (ne_of_done hg hx)]

include h hg

/-- Nothing enters the source again. -/
theorem ne_source : a.2 ≠ s := by
  intro heq
  have hlevel : p'.level s = 0 := by
    rw [hg.level_kept s h.source_visited]
    exact level_of_dist h.dist_source
  have hnew := hg.level_new
  rw [heq, hlevel] at hnew
  omega

include he

theorem step_enter (v : Fin n) (b : Fin m × Fin n) (hb : b ∈ p'.preds[v].toList) :
    (b.1, v) ∈ out b.2 ∧ b.2 ∈ done ∧ p'.level v = p'.level b.2 + 1 := by
  by_cases hva : a.2 = v
  · subst hva
    rw [preds_new he, List.mem_append, List.mem_singleton] at hb
    rcases hb with hb | rfl
    · have hstep := h.step a.2 b hb
      have hvis : a.2 ∈ p.order.toList := by
        by_contra hnot
        rw [h.preds_unvisited a.2 hnot] at hb
        cases hb
      rw [hg.level_kept a.2 hvis, level_done hg hstep.2.1]
      exact hstep
    · rw [hg.level_new, level_done hg h.mem_done]
      exact ⟨h.todo_steps a (by simp), h.mem_done, rfl⟩
  · rw [preds_old he hva] at hb
    have hstep := h.step v b hb
    rw [hg.level_old v hva, level_done hg hstep.2.1]
    exact hstep

omit hg in
theorem once_enter (v : Fin n) : p'.preds[v].toList.Nodup := by
  by_cases hva : a.2 = v
  · subst hva
    rw [preds_new he]
    refine List.nodup_append.mpr ⟨h.once a.2, by simp, fun b hb c hc hbc => ?_⟩
    rw [hbc, List.mem_singleton.mp hc] at hb
    exact h.untried a (by simp) hb
  · rw [preds_old he hva]
    exact h.once v

/-- The counts that a list of recorded steps adds up were all final. -/
theorem sigma_enter (v : Fin n) (hvs : v ≠ s) :
    p'.sigma[v] = (p'.preds[v].toList.map fun b => p'.sigma[b.2]).foldl (· + ·) 0 := by
  have hcongr : (p.preds[v].toList.map fun b => p'.sigma[b.2]) =
      p.preds[v].toList.map fun b => p.sigma[b.2] :=
    List.map_congr_left fun b hb => sigma_done he hg (h.step v b hb).2.1
  by_cases hva : a.2 = v
  · subst hva
    rw [preds_new he, he.sigma, if_pos rfl, List.map_append, List.foldl_append, hcongr,
      h.sigma a.2 hvs]
    simp [sigma_done he hg h.mem_done]
  · rw [preds_old he hva, hcongr, he.sigma, if_neg hva, h.sigma v hvs]

omit he in
theorem walk_enter (v : Fin n) (hv : v ∈ p'.order.toList) :
    ∃ es, Leads out s es v ∧ es.length = p'.level v := by
  rcases hg.old_or_new hv with rfl | ⟨hva, hv⟩
  · obtain ⟨es, hes, hlen⟩ := h.walk u (h.visited_of_done h.mem_done)
    refine ⟨es ++ [a.1], leads_concat.mpr ⟨u, hes, h.todo_steps a (by simp)⟩, ?_⟩
    rw [List.length_append, hlen, hg.level_new, List.length_singleton]
  · rw [hg.level_old v hva]
    exact h.walk v hv

omit he in
theorem closed_enter (x : Fin n) (hx : x ∈ done) (b : Fin m × Fin n) (hb : b ∈ out x)
    (hbt : x = u → b ∉ todo) : b.2 ∈ p'.order.toList ∧ p'.level b.2 ≤ p'.level x + 1 := by
  rw [hg.visited_iff, level_done hg hx]
  by_cases hxa : x = u ∧ b = a
  · obtain ⟨rfl, rfl⟩ := hxa
    exact ⟨Or.inl rfl, Nat.le_of_eq hg.level_new⟩
  · have hold := h.closed x hx b hb (waived_cons hbt hxa)
    rw [hg.level_kept b.2 hold.1]
    exact ⟨Or.inr hold.1, hold.2⟩

theorem tight_enter (x : Fin n) (hx : x ∈ done) (b : Fin m × Fin n) (hb : b ∈ out x)
    (hbt : x = u → b ∉ todo) (hsame : p'.level b.2 = p'.level x + 1) :
    (b.1, x) ∈ p'.preds[b.2].toList := by
  by_cases hxa : x = u ∧ b = a
  · obtain ⟨rfl, rfl⟩ := hxa
    rw [preds_new he]
    simp
  · have hwaived := waived_cons hbt hxa
    rw [hg.level_kept b.2 (h.closed x hx b hb hwaived).1, level_done hg hx] at hsame
    have hold := h.tight x hx b hb hwaived hsame
    rw [he.preds]
    split
    · exact List.mem_append_left _ hold
    · exact hold

omit hg in
theorem untried_enter (b : Fin m × Fin n) (hb : b ∈ todo) :
    (b.1, u) ∉ p'.preds[b.2].toList := by
  intro hmem
  by_cases hba : a.2 = b.2
  · rw [← hba, preds_new he, List.mem_append, List.mem_singleton, hba] at hmem
    rcases hmem with hmem | heq
    · exact h.untried b (List.mem_cons_of_mem _ hb) hmem
    · have hedge : b.1 = a.1 := (Prod.mk.inj heq).1
      have heq : b = a := Prod.ext hedge hba.symm
      exact (List.nodup_cons.mp h.todo_nodup).1 (heq ▸ hb)
  · rw [preds_old he hba] at hmem
    exact h.untried b (List.mem_cons_of_mem _ hb) hmem

theorem enter : Sweeping out s done u todo p' := by
  have hu := h.mem_done
  have hlevelu := level_done hg hu
  have hs := ne_source h hg
  constructor
  · rw [he.source]
    exact h.source
  · exact hg.nodup
  · obtain ⟨l, hl⟩ := hg.longer
    rw [← hl, List.head?_append, h.head]
    rfl
  · intro v
    rw [hg.visited_iff, he.dist]
    by_cases hv : a.2 = v
    · simp [hv]
    · rw [if_neg hv, ← h.visited_iff]
      simp [Ne.symm hv]
  · rw [he.dist, if_neg hs]
    exact h.dist_source
  · rw [he.sigma, if_neg hs]
    exact h.sigma_source
  · rw [preds_old he hs]
    exact h.preds_source
  · intro v hv
    rw [hg.visited_iff, not_or] at hv
    rw [preds_old he (Ne.symm hv.1)]
    exact h.preds_unvisited v hv.2
  · intro v hv
    rcases hg.old_or_new hv with rfl | ⟨hva, hv⟩
    · exact Or.inr (by simp [preds_new he])
    · rw [preds_old he hva]
      exact h.known v hv
  · exact step_enter h he hg
  · exact once_enter h he
  · exact sigma_enter h he hg
  · exact walk_enter h hg
  · exact hg.sorted
  · exact h.expanded.trans hg.longer
  · intro x hx
    rw [hlevelu, level_done hg hx]
    exact h.behind x hx
  · intro w hw hwd
    rw [hlevelu]
    rcases hg.old_or_new hw with rfl | ⟨hwa, hw⟩
    · rw [hg.level_new]
      omega
    · rw [hg.level_old w hwa]
      exact h.ahead w hw hwd
  · intro v hv
    rw [hlevelu]
    rcases hg.old_or_new hv with rfl | ⟨hva, hv⟩
    · exact Nat.le_of_eq hg.level_new
    · rw [hg.level_old v hva]
      exact h.within v hv
  · exact closed_enter h hg
  · exact tight_enter h he hg
  · exact fun _ => hu
  · exact (List.nodup_cons.mp h.todo_nodup).2
  · exact fun b hb => h.todo_steps b (List.mem_cons_of_mem _ hb)
  · exact untried_enter h he

end Enter

end Sweeping

end Geodesic.Paths
