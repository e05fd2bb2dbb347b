import Geodesic.Proofs.Heap
import Geodesic.Proofs.Paths.Weighted.Final

/-!
# Distances during a search by total weight

On lawful lengths a search settles vertices in the order of their distances. `Optimal` is the
invariant behind this. While the steps of a vertex `u` are being followed it waives what it says of
steps for those of `u` that are still to be tried.
-/

namespace Geodesic

open Distance (Admissible AtMost Lawful Reached shorter same)

variable {D S : Type} {n m : Nat} [Distance D]

namespace Candidate

theorem atMost_of_before [Lawful D] {a b : Candidate D n} (ha : Admissible a.distance)
    (hb : Admissible b.distance) (h : a.before b = true) : AtMost a.distance b.distance := by
  unfold before at h
  rcases Bool.or_eq_true_iff.mp h with hlt | hle
  · exact Distance.atMost_of_shorter ha hb hlt
  · have hnot : (!shorter b.distance a.distance) = true := (Bool.and_eq_true_iff.mp hle).1
    rwa [Bool.not_eq_true'] at hnot

theorem before_iff (a b : Candidate D n) : a.before b = true ↔
    shorter a.distance b.distance = true ∨ (AtMost a.distance b.distance ∧ a.vertex ≤ b.vertex) := by
  simp [before, AtMost]

theorem comparable_before [Lawful D] : Heap.Comparable (before : Candidate D n → _)
    (fun c => Admissible c.distance) where
  total {x y} hx hy h := by
    rw [before_iff]
    have hnot : ¬ (shorter x.distance y.distance = true ∨
        (AtMost x.distance y.distance ∧ x.vertex ≤ y.vertex)) := by
      rw [← before_iff, h]
      simp
    rw [not_or, not_and] at hnot
    obtain ⟨hlt, hle⟩ := hnot
    have hyx : AtMost y.distance x.distance := Bool.eq_false_iff.mpr hlt
    by_cases hxy : AtMost x.distance y.distance
    · have hv := hle hxy
      exact Or.inr ⟨hyx, by omega⟩
    · exact Or.inl (by simpa [AtMost] using hxy)
  trans {x y z} hx hy hz hxy hyz := by
    have hle := Lawful.trans hx hy hz (atMost_of_before hx hy hxy) (atMost_of_before hy hz hyz)
    rw [before_iff]
    by_cases hzx : AtMost z.distance x.distance
    · -- All three distances are the same, so the vertices decide.
      have hyx := Lawful.trans hy hz hx (atMost_of_before hy hz hyz) hzx
      have hzy := Lawful.trans hz hx hy hzx (atMost_of_before hx hy hxy)
      rcases (before_iff x y).mp hxy with hlt | ⟨_, hxv⟩
      · rw [AtMost, hlt] at hyx
        cases hyx
      · rcases (before_iff y z).mp hyz with hlt | ⟨_, hyv⟩
        · rw [AtMost, hlt] at hzy
          cases hzy
        · exact Or.inr ⟨hle, by omega⟩
    · exact Or.inl (by simpa [AtMost] using hzx)

end Candidate

namespace Frontier

/-- What lawful lengths add to the tables of a search; `todo` are the steps of `u` that are still to
be tried. -/
structure Optimal (out : Fin n → List (Fin m × Fin n)) (weights : Table D m) (u : Fin n)
    (todo : List (Fin m × Fin n)) (f : Frontier D S n m) : Prop where
  admissible : ∀ v : Fin n, Admissible f.paths.dist[v]
  entries : Heap.Within (fun c => Admissible c.distance) f.pending
  ordered : Heap.Ordered Candidate.before f.pending
  low : ∀ v ∈ f.paths.order.toList, ∀ c ∈ f.pending.toList, AtMost f.paths.dist[v] c.distance
  sorted : f.paths.order.toList.Pairwise fun v w => AtMost f.paths.dist[v] f.paths.dist[w]
  current : ∀ v : Fin n, v ∉ f.paths.order.toList → f.paths.preds[v].toList ≠ [] →
    ⟨f.paths.dist[v], v⟩ ∈ f.pending.toList
  stale : ∀ c ∈ f.pending.toList, AtMost f.paths.dist[c.vertex] c.distance
  exact : ∀ v : Fin n, ∀ a ∈ f.paths.preds[v].toList,
    same (Distance.add f.paths.dist[a.2] weights[a.1]) f.paths.dist[v] = true
  relaxed : ∀ x ∈ f.paths.order.toList, ∀ a ∈ out x, (x = u → a ∉ todo) →
    AtMost f.paths.dist[a.2] (Distance.add f.paths.dist[x] weights[a.1])
  tight : ∀ x ∈ f.paths.order.toList, ∀ a ∈ out x, (x = u → a ∉ todo) →
    Reached f.paths.dist[a.2] →
    same (Distance.add f.paths.dist[x] weights[a.1]) f.paths.dist[a.2] = true →
    (a.1, x) ∈ f.paths.preds[a.2].toList ∨
      (a.2 ∈ f.paths.order.toList ∧ ¬ Before f.paths.order.toList x a.2)

variable {out : Fin n → List (Fin m × Fin n)} {weights : Table D m} {s u : Fin n}
  {f : Frontier D S n m} {a : Fin m × Fin n} {todo : List (Fin m × Fin n)}

namespace Optimal

section Lawful

variable [Lawful D]

/-- The vertex settled last is the farthest. -/
theorem farthest (h : Optimal out weights u todo f) {l : List (Fin n)}
    (hlast : f.paths.order.toList = l ++ [u]) {v : Fin n} (hv : v ∈ f.paths.order.toList) :
    AtMost f.paths.dist[v] f.paths.dist[u] := by
  have hsorted := h.sorted
  rw [hlast] at hv hsorted
  rcases List.mem_append.mp hv with hv | hv
  · exact (List.pairwise_append.mp hsorted).2.2 v hv u (by simp)
  · rw [List.mem_singleton.mp hv]
    exact Distance.AtMost.refl (h.admissible u)

theorem nearest (h : Optimal out weights u todo f) {c d : Candidate D n}
    {rest : Heap (Candidate D n)} (hpop : f.pending.pop? Candidate.before = some (c, rest))
    (hd : d ∈ rest.toList) : AtMost f.paths.dist[c.vertex] d.distance := by
  have hperm := Heap.toList_pop _ hpop
  have hmem : c ∈ f.pending.toList := hperm.mem_iff.mpr (by simp)
  have hdmem : d ∈ f.pending.toList := hperm.mem_iff.mpr (List.mem_cons_of_mem _ hd)
  have hfirst := Heap.first_of_pop h.ordered hpop d hd
  exact Lawful.trans (h.admissible _) (h.entries c hmem) (h.entries d hdmem) (h.stale c hmem)
    (Candidate.atMost_of_before (h.entries c hmem) (h.entries d hdmem) hfirst)

end Lawful

/-- A step counts as tried once it satisfies what was waived for it. -/
theorem tried (h : Optimal out weights u (a :: todo) f)
    (hle : AtMost f.paths.dist[a.2] (Distance.add f.paths.dist[u] weights[a.1]))
    (htight : Reached f.paths.dist[a.2] →
      same (Distance.add f.paths.dist[u] weights[a.1]) f.paths.dist[a.2] = true →
      (a.1, u) ∈ f.paths.preds[a.2].toList ∨
        (a.2 ∈ f.paths.order.toList ∧ ¬ Before f.paths.order.toList u a.2)) :
    Optimal out weights u todo f := by
  refine { h with relaxed := ?_, tight := ?_ }
  · intro x hx b hb hbt
    by_cases hxa : x = u ∧ b = a
    · obtain ⟨rfl, rfl⟩ := hxa
      exact hle
    · exact h.relaxed x hx b hb (waived_cons hbt hxa)
  · intro x hx b hb hbt
    by_cases hxa : x = u ∧ b = a
    · obtain ⟨rfl, rfl⟩ := hxa
      exact htight
    · exact h.tight x hx b hb (waived_cons hbt hxa)

theorem tie [Add S] (h : Optimal out weights u todo f)
    (hknown : f.paths.preds[a.2].toList ≠ [])
    (heq : same (Distance.add f.paths.dist[u] weights[a.1]) f.paths.dist[a.2] = true) :
    Optimal out weights u todo (f.tie u a) := by
  have hmem : ∀ (v : Fin n) (b : Fin m × Fin n), b ∈ f.paths.preds[v].toList →
      b ∈ (f.tie u a).paths.preds[v].toList := by
    intro v b hb
    rw [preds_tie]
    split
    · simp [hb]
    · exact hb
  refine { h with current := ?_, exact := ?_, tight := ?_ }
  · intro v hv hne
    apply h.current v hv
    by_cases hva : a.2 = v
    · subst hva
      exact hknown
    · rwa [preds_tie, if_neg hva] at hne
  · intro v b hb
    rw [preds_tie] at hb
    split at hb
    · rename_i hva
      subst hva
      rw [Array.toList_push, List.mem_append, List.mem_singleton] at hb
      rcases hb with hb | rfl
      · exact h.exact a.2 b hb
      · exact heq
    · exact h.exact v b hb
  · intro x hx b hb hbt hreached hsame
    rcases h.tight x hx b hb hbt hreached hsame with hmem' | hlate
    · exact Or.inl (hmem b.2 _ hmem')
    · exact Or.inr hlate

variable [Zero S] [One S] [Add S] [Lawful D]

/-! ### A strictly shorter way -/

section Improve

variable {sum : D} (hsum : Admissible sum) (hv : a.2 ∉ f.paths.order.toList)
  (hlt : shorter sum f.paths.dist[a.2] = true)

omit [Zero S] [One S] [Add S] [Lawful D] in
theorem dist_improve_self : (f.improve u sum a).paths.dist[a.2] = sum := by
  rw [dist_improve, if_pos rfl]

include hv in
omit [Zero S] [One S] [Add S] [Lawful D] in
theorem dist_improve_visited {v : Fin n} (hvis : v ∈ f.paths.order.toList) :
    (f.improve u sum a).paths.dist[v] = f.paths.dist[v] := by
  have hne : a.2 ≠ v := fun heq => hv (heq ▸ hvis)
  rw [dist_improve, if_neg hne]

include hsum

omit [Zero S] [One S] [Add S] [Lawful D] in
theorem admissible_improve (h : Optimal out weights u todo f) (v : Fin n) :
    Admissible (f.improve u sum a).paths.dist[v] := by
  rw [dist_improve]
  split
  · exact hsum
  · exact h.admissible v

include hlt

omit [Zero S] [One S] [Add S] in
theorem dist_improve_atMost (h : Optimal out weights u todo f) (v : Fin n) :
    AtMost (f.improve u sum a).paths.dist[v] f.paths.dist[v] := by
  rw [dist_improve]
  split
  · rename_i hav
    rw [← hav]
    exact Distance.atMost_of_shorter hsum (h.admissible _) hlt
  · exact Distance.AtMost.refl (h.admissible v)

omit [Zero S] [One S] [Add S] in
/-- No step of another settled vertex stays tight at its end. -/
theorem tight_improve (h : Optimal out weights u todo f)
    (hweights : ∀ e : Fin m, Admissible weights[e]) {x : Fin n} (hx : x ∈ f.paths.order.toList)
    {b : Fin m × Fin n} (hb : b ∈ out x) (hbt : x = u → b ∉ todo) (hab : a.2 = b.2) :
    same (Distance.add f.paths.dist[x] weights[b.1]) sum = false := by
  rw [Bool.eq_false_iff]
  intro hsame
  have hadd := Lawful.add_admissible (h.admissible x) (hweights b.1)
  have hback := ((Lawful.same_iff hadd hsum).mp hsame).1
  have hlong := h.relaxed x hx b hb hbt
  rw [← hab] at hlong
  have hcontra := Lawful.trans (h.admissible a.2) hadd hsum hlong hback
  rw [AtMost, hlt] at hcontra
  cases hcontra

end Improve

theorem improve (h : Optimal out weights u todo f)
    (hrec : Record out weights s f) (hweights : ∀ e : Fin m, Admissible weights[e])
    {l : List (Fin n)} (hlast : f.paths.order.toList = l ++ [u]) {sum : D}
    (hsum : Distance.add f.paths.dist[u] weights[a.1] = sum) (hv : a.2 ∉ f.paths.order.toList)
    (hlt : shorter sum f.paths.dist[a.2] = true) :
    Optimal out weights u todo (f.improve u sum a) := by
  have huv : u ∈ f.paths.order.toList := by simp [hlast]
  have hgrow : AtMost f.paths.dist[u] sum :=
    hsum ▸ Lawful.atMost_add (h.admissible u) (hweights a.1)
  have hadmsum : Admissible sum := hsum ▸ Lawful.add_admissible (h.admissible u) (hweights a.1)
  have hadm := admissible_improve (a := a) hadmsum h
  have hdrop := dist_improve_atMost hadmsum hlt h
  constructor
  · exact hadm
  · intro c hc
    rcases (mem_pending_improve ..).mp hc with rfl | hc
    · exact hadmsum
    · exact h.entries c hc
  · exact Heap.ordered_insert Candidate.comparable_before hadmsum h.entries h.ordered
  · intro v hvis c hc
    rw [dist_improve_visited hv hvis]
    rcases (mem_pending_improve ..).mp hc with rfl | hc
    · exact Lawful.trans (h.admissible v) (h.admissible u) hadmsum (h.farthest hlast hvis) hgrow
    · exact h.low v hvis c hc
  · refine h.sorted.imp_of_mem fun hx hy hxy => ?_
    rw [dist_improve_visited hv hx, dist_improve_visited hv hy]
    exact hxy
  · intro v hvis hne
    rw [mem_pending_improve]
    by_cases hav : a.2 = v
    · subst hav
      exact Or.inl (by rw [dist_improve_self])
    · rw [preds_improve, if_neg hav] at hne
      rw [dist_improve, if_neg hav]
      exact Or.inr (h.current v hvis hne)
  · intro c hc
    rcases (mem_pending_improve ..).mp hc with rfl | hc
    · rw [dist_improve_self]
      exact Distance.AtMost.refl hadmsum
    · exact Lawful.trans (hadm _) (h.admissible _) (h.entries c hc) (hdrop _) (h.stale c hc)
  · intro v b hb
    by_cases hav : a.2 = v
    · subst hav
      rw [preds_improve, if_pos rfl] at hb
      obtain rfl : b = (a.1, u) := List.mem_singleton.mp hb
      rw [dist_improve_self, dist_improve_visited hv huv, hsum]
      exact Distance.same_self hadmsum
    · rw [preds_improve, if_neg hav] at hb
      have hkeep : (f.improve u sum a).paths.dist[v] = f.paths.dist[v] := by
        rw [dist_improve, if_neg hav]
      rw [hkeep, dist_improve_visited hv (hrec.step v b hb).2]
      exact h.exact v b hb
  · intro x hx b hb hbt
    rw [dist_improve_visited hv hx]
    exact Lawful.trans (hadm _) (h.admissible _)
      (Lawful.add_admissible (h.admissible x) (hweights _)) (hdrop _) (h.relaxed x hx b hb hbt)
  · intro x hx b hb hbt
    rw [dist_improve_visited hv hx]
    by_cases hab : a.2 = b.2
    · intro _ hsame
      rw [← hab, dist_improve_self, tight_improve hadmsum hlt h hweights hx hb hbt hab] at hsame
      cases hsame
    · rw [dist_improve, if_neg hab, preds_improve, if_neg hab]
      exact h.tight x hx b hb hbt

/-- What is known of the last settled vertex while its steps are followed. -/
theorem relax (h : Optimal out weights u (a :: todo) f)
    (hrec : Record out weights s f) (hweights : ∀ e : Fin m, Admissible weights[e])
    {l : List (Fin n)} (hlast : f.paths.order.toList = l ++ [u]) :
    Optimal out weights u todo (f.relax weights u f.paths.dist[u] a) := by
  have hu := h.admissible u
  have ht := h.admissible a.2
  have hadd := Lawful.add_admissible hu (hweights a.1)
  have hgrow : AtMost f.paths.dist[u] (Distance.add f.paths.dist[u] weights[a.1]) :=
    Lawful.atMost_add hu (hweights a.1)
  have hr := relaxed_relax weights u f.paths.dist[u] f a
  generalize f.relax weights u f.paths.dist[u] a = f' at hr
  cases hr with
  | settled hs =>
      have hvis := (hrec.settled_iff _).mp hs
      refine h.tried (Lawful.trans ht hu hadd (h.farthest hlast hvis) hgrow) fun _ _ => ?_
      refine Or.inr ⟨hvis, ?_⟩
      have hnodup := hrec.nodup
      rw [hlast] at hnodup ⊢
      exact Before.not_last (notMem_of_nodup hnodup)
  | unreached _ hsum =>
      have hmark := (Lawful.same_iff hadd Lawful.unreached_admissible).mp hsum
      refine h.tried (Lawful.trans ht Lawful.unreached_admissible hadd
        (Lawful.atMost_unreached ht) hmark.2) fun hreached hsame => ?_
      have hback := ((Lawful.same_iff hadd ht).mp hsame).1
      have hmarked := Lawful.trans Lawful.unreached_admissible hadd ht hmark.2 hback
      have : same f.paths.dist[a.2] Distance.unreached = true :=
        (Lawful.same_iff ht Lawful.unreached_admissible).mpr ⟨Lawful.atMost_unreached ht, hmarked⟩
      rw [Reached, this] at hreached
      cases hreached
  | longer _ _ hge hne =>
      refine h.tried hge fun _ hsame => ?_
      rw [hne] at hsame
      cases hsame
  | tied hv hsum hge heq =>
      have hvs : a.2 ≠ s := fun heq => hrec.not_visited hv (heq ▸ hrec.source_visited)
      refine (h.tie (hrec.known_of_same hvs hsum heq) heq).tried hge fun _ _ => Or.inl ?_
      rw [preds_tie, if_pos rfl]
      simp
  | improved hv _ hlt =>
      have hnot := hrec.not_visited hv
      have hua : a.2 ≠ u := fun heq => hnot (by simp [hlast, heq])
      refine (h.improve hrec hweights hlast rfl hnot hlt).tried ?_ fun _ _ => Or.inl ?_
      · rw [dist_improve, if_pos rfl, dist_improve, if_neg hua]
        exact Distance.AtMost.refl hadd
      · rw [preds_improve, if_pos rfl]
        simp

theorem scan (h : Optimal out weights u todo f)
    (hrec : Record out weights s f) (hscan : Scanning out u todo f)
    (hweights : ∀ e : Fin m, Admissible weights[e]) {l : List (Fin n)}
    (hlast : f.paths.order.toList = l ++ [u]) {reach : D} (hreach : f.paths.dist[u] = reach) :
    Optimal out weights u [] (todo.foldl (Frontier.relax weights u reach) f) := by
  induction todo generalizing f with
  | nil => exact h
  | cons a todo ih =>
      have hstep := h.relax hrec hweights hlast
      have hnext := hrec.relax hscan.visited (hscan.steps a (by simp)) (hscan.untried a (by simp))
      rw [hreach] at hstep hnext
      refine ih hstep hnext (hscan.relax reach) ?_ ?_
      · rw [(revised_relax weights u reach f a).order]
        exact hlast
      · rw [hrec.dist_relax reach hscan.visited, hreach]

theorem drop (h : Optimal out weights u todo f)
    (hrec : Record out weights s f) {c : Candidate D n} {rest : Heap (Candidate D n)}
    (hpop : f.pending.pop? Candidate.before = some (c, rest)) (hc : f.settled[c.vertex] = true) :
    Optimal out weights u todo { f with pending := rest } := by
  have hperm := Heap.toList_pop _ hpop
  have hkept : ∀ d ∈ rest.toList, d ∈ f.pending.toList := fun d hd =>
    hperm.mem_iff.mpr (List.mem_cons_of_mem _ hd)
  refine { h with
    entries := fun d hd => h.entries d (hkept d hd)
    ordered := Heap.ordered_of_pop Candidate.comparable_before h.entries h.ordered hpop
    low := fun v hv d hd => h.low v hv d (hkept d hd)
    current := ?_
    stale := fun d hd => h.stale d (hkept d hd) }
  intro v hv hne
  rcases List.mem_cons.mp (hperm.mem_iff.mp (h.current v hv hne)) with heq | hmem
  · have hvertex : v = c.vertex := congrArg Candidate.vertex heq
    exact absurd ((hrec.settled_iff _).mp hc) (hvertex ▸ hv)
  · exact hmem

theorem mark (h : Optimal out weights u [] f)
    (hrec : Record out weights s f) {c : Candidate D n} {rest : Heap (Candidate D n)}
    (hpop : f.pending.pop? Candidate.before = some (c, rest)) (hc : f.settled[c.vertex] = false) :
    Optimal out weights c.vertex (out c.vertex) (f.mark c.vertex rest) := by
  have hperm := Heap.toList_pop _ hpop
  have hmem : c ∈ f.pending.toList := hperm.mem_iff.mpr (by simp)
  have hkept : ∀ d ∈ rest.toList, d ∈ f.pending.toList := fun d hd =>
    hperm.mem_iff.mpr (List.mem_cons_of_mem _ hd)
  have hnew := hrec.not_visited hc
  have hknown : f.paths.preds[c.vertex].toList ≠ [] :=
    (hrec.known_of_pending c hmem).resolve_left fun heq => hnew (heq ▸ hrec.source_visited)
  have hcurrent := h.current c.vertex hnew hknown
  refine { h with
    entries := fun d hd => h.entries d (hkept d hd)
    ordered := Heap.ordered_of_pop Candidate.comparable_before h.entries h.ordered hpop
    low := ?_, sorted := ?_, current := ?_
    stale := fun d hd => h.stale d (hkept d hd)
    relaxed := ?_, tight := ?_ }
  · intro v hv d hd
    rw [order_mark] at hv
    rcases List.mem_append.mp hv with hv | hv
    · exact h.low v hv d (hkept d hd)
    · rw [List.mem_singleton.mp hv]
      exact h.nearest hpop hd
  · rw [order_mark]
    refine List.pairwise_append.mpr ⟨h.sorted, by simp, fun v hv w hw => ?_⟩
    rw [List.mem_singleton.mp hw]
    exact h.low v hv _ hcurrent
  · intro v hv hne
    rw [order_mark, List.mem_append, not_or] at hv
    rcases List.mem_cons.mp (hperm.mem_iff.mp (h.current v hv.1 hne)) with heq | hmem
    · have hvertex : v = c.vertex := congrArg Candidate.vertex heq
      exact absurd (by simp [hvertex]) hv.2
    · exact hmem
  · intro x hx a ha hwaived
    rw [order_mark] at hx
    rcases List.mem_append.mp hx with hx | hx
    · exact h.relaxed x hx a ha (by simp)
    · obtain rfl := List.mem_singleton.mp hx
      exact absurd ha (hwaived rfl)
  · intro x hx a ha hwaived hreached hsame
    rw [order_mark] at hx ⊢
    rcases List.mem_append.mp hx with hx | hx
    · rcases h.tight x hx a ha (by simp) hreached hsame with hpred | ⟨hvis, hlate⟩
      · exact Or.inl hpred
      · exact Or.inr ⟨List.mem_append_left _ hvis, fun hb =>
          hlate (hb.of_concat_of_mem hnew hvis)⟩
    · obtain rfl := List.mem_singleton.mp hx
      exact absurd ha (hwaived rfl)

/-- Between two entries nothing is waived. -/
theorem advance (hrec : Record out weights s f)
    (hweights : ∀ e : Fin m, Admissible weights[e]) (hout : ∀ u, (out u).Nodup)
    (h : ∃ u, Optimal out weights u [] f) {f' : Frontier D S n m}
    (hadv : f.advance? out weights = some f') : ∃ u, Optimal out weights u [] f' := by
  obtain ⟨u, h⟩ := h
  cases advanced_of_advance hadv with
  | stale c rest hpop hc => exact ⟨u, h.drop hrec hpop hc⟩
  | settled c rest hpop hc =>
      refine ⟨c.vertex, (h.mark hrec hpop hc).scan (hrec.mark (Heap.toList_pop _ hpop) hc)
        (hrec.scanning_mark (hout _) hc rest) hweights (order_mark ..) rfl⟩

omit [Add S] in
theorem start {p : Paths D S n m} (hp : p.Tidy) (s : Fin n) :
    Optimal out weights s (out s) ((start s p).mark s Heap.empty) := by
  have horder : ((Frontier.start s p).mark s Heap.empty).paths.order.toList = [s] := by
    simp [Frontier.start, Frontier.enter]
  have hpreds : ∀ v : Fin n,
      ((Frontier.start s p).mark s Heap.empty).paths.preds[v].toList = [] :=
    fun v => congrArg Array.toList (hp.preds_restart s v)
  constructor
  · intro v
    by_cases hv : s = v
    · subst hv
      have hdist : ((Frontier.start s p).mark s Heap.empty).paths.dist[s] = Distance.zero :=
        Paths.dist_restart_self p s
      rw [hdist]
      exact Lawful.zero_admissible
    · have hdist : ((Frontier.start s p).mark s Heap.empty).paths.dist[v] = Distance.unreached :=
        (hp.blank_restart hv).dist
      rw [hdist]
      exact Lawful.unreached_admissible
  · intro c hc
    cases hc
  · trivial
  · intro v _ c hc
    cases hc
  · rw [horder]
    simp
  · intro v _ hne
    exact absurd (hpreds v) hne
  · intro c hc
    cases hc
  · intro v a ha
    rw [hpreds v] at ha
    cases ha
  · intro x hx a ha hwaived
    rw [horder] at hx
    obtain rfl := List.mem_singleton.mp hx
    exact absurd ha (hwaived rfl)
  · intro x hx a ha hwaived
    rw [horder] at hx
    obtain rfl := List.mem_singleton.mp hx
    exact absurd ha (hwaived rfl)

end Optimal

end Frontier

end Geodesic
