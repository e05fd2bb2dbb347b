import Geodesic.Proofs.Dependency
import Geodesic.Proofs.Paths.BreadthFirst.Final
import Geodesic.Proofs.Paths.Weighted.Shortest
import Geodesic.Proofs.Score

/-!
# Trails are the shortest walks

With exact lengths, the trails to a vertex, read in the order of travel, are the shortest walks to
it. So the shares of trails that a search credits are the shares of shortest walks.
-/

namespace Geodesic.Paths

open Distance (Admissible AtMost Reached total)

variable {D : Type}

/-! ## Trails as walks -/

section Walks

variable {n m : Nat}

/-- The edges of a trail in the order of travel. -/
def walkOf (l : List (Fin m × Fin n)) : List (Fin m) :=
  (l.map Prod.fst).reverse

@[simp] theorem walkOf_nil : walkOf ([] : List (Fin m × Fin n)) = [] := rfl

@[simp] theorem walkOf_cons (a : Fin m × Fin n) (l : List (Fin m × Fin n)) :
    walkOf (a :: l) = walkOf l ++ [a.1] := by
  simp [walkOf]

theorem mem_walkOf {l : List (Fin m × Fin n)} {e : Fin m} :
    e ∈ walkOf l ↔ ∃ a ∈ l, a.1 = e := by
  simp only [walkOf, List.mem_reverse, List.mem_map]

end Walks

variable {g : Graph} {s t v : g.Vertex} {p : Paths D ℚ g.vertexCount g.edgeCount}
  {l : List g.Step}

theorem leads_walkOf (h : Recorded g.outEdges s p) (hl : p.Trail s t l) :
    Leads g.outEdges s (walkOf l) t := by
  induction l generalizing t with
  | nil => exact (trail_nil.mp hl).symm
  | cons a l ih =>
      rw [walkOf_cons]
      exact leads_concat.mpr ⟨a.2, ih hl.2, h.step t a hl.1⟩

/-- The origin of each step is known from its edge, so edges determine a trail. -/
theorem injOn_walkOf (h : Recorded g.outEdges s p) (t : g.Vertex) :
    Set.InjOn walkOf (p.trails s t) := by
  intro l hl l' hl' heq
  induction l generalizing t l' with
  | nil =>
      cases l' with
      | nil => rfl
      | cons b l' => simp at heq
  | cons a l ih =>
      cases l' with
      | nil => simp at heq
      | cons b l' =>
          rw [walkOf_cons, walkOf_cons] at heq
          obtain ⟨hinit, hlast⟩ := List.append_inj' heq rfl
          have hedge : a.1 = b.1 := List.singleton_injective hlast
          have hstep := h.step t b hl'.1
          rw [← hedge] at hstep
          have horigin : a.2 = b.2 := Graph.origin_unique (h.step t a hl.1) hstep
          obtain rfl : a = b := Prod.ext hedge horigin
          rw [ih a.2 hl.2 hl'.2 hinit]

theorem exists_origin_iff (h : Recorded g.outEdges s p) (hl : p.Trail s t l) (hv : v ≠ t) :
    (∃ a ∈ l, a.2 = v) ↔ ∃ fs hs, walkOf l = fs ++ hs ∧ Leads g.outEdges s fs v ∧
      Leads g.outEdges v hs t := by
  induction l generalizing t with
  | nil =>
      constructor
      · rintro ⟨a, ha, -⟩
        cases ha
      · rintro ⟨fs, hs, heq, -, hhs⟩
        obtain ⟨-, rfl⟩ := List.append_eq_nil_iff.mp heq.symm
        exact absurd hhs hv
  | cons a l ih =>
      have hstep := h.step t a hl.1
      rw [walkOf_cons]
      constructor
      · rintro ⟨b, hb, rfl⟩
        by_cases hab : b.2 = a.2
        · rw [hab]
          exact ⟨walkOf l, [a.1], rfl, leads_walkOf h hl.2, t, hstep, rfl⟩
        · have hbl : b ∈ l := (List.mem_cons.mp hb).resolve_left fun heq => hab (heq ▸ rfl)
          obtain ⟨fs, hs, heq, hfs, hhs⟩ := (ih hl.2 hab).mp ⟨b, hbl, rfl⟩
          refine ⟨fs, hs ++ [a.1], ?_, hfs, leads_concat.mpr ⟨a.2, hhs, hstep⟩⟩
          rw [heq, List.append_assoc]
      · rintro ⟨fs, hs, heq, hfs, hhs⟩
        rcases List.eq_nil_or_concat hs with rfl | ⟨hs, e, rfl⟩
        · exact absurd hhs hv
        · rw [List.concat_eq_append] at heq hhs
          rw [← List.append_assoc] at heq
          obtain ⟨hinit, hlast⟩ := List.append_inj' heq rfl
          have hedge : a.1 = e := List.singleton_injective hlast
          obtain ⟨w, hhs, hstep'⟩ := leads_concat.mp hhs
          rw [← hedge] at hstep'
          obtain rfl : w = a.2 := Graph.origin_unique hstep' hstep
          by_cases hva : v = a.2
          · exact ⟨a, by simp, hva.symm⟩
          · obtain ⟨b, hb, hbv⟩ := (ih hl.2 hva).mpr ⟨fs, hs, hinit, hfs, hhs⟩
            exact ⟨b, List.mem_cons_of_mem a hb, hbv⟩

/-! ## Measured and exact tables -/

/-- Recorded tables that `dist` measures: it holds the least lengths of walks from `s`, and every
recorded step attains them. -/
structure Measured (lengths : Table Length g.edgeCount) (s : g.Vertex) (dist : g.Vertex → Length)
    (p : Paths D ℚ g.vertexCount g.edgeCount) : Prop where
  recorded : Recorded g.outEdges s p
  source : dist s = 0
  visited_iff : ∀ v : g.Vertex, v ∈ p.order.toList ↔ dist v ≠ ⊤
  least : ∀ (es : List g.EdgeId) (v : g.Vertex), Leads g.outEdges s es v →
    dist v ≤ total lengths es
  tight : ∀ v : g.Vertex, ∀ a ∈ p.preds[v].toList, dist a.2 + lengths[a.1] = dist v

/-- Measured tables that are exact for `lengths`: all steps that attain the least lengths are
recorded. -/
structure Exact (lengths : Table Length g.edgeCount) (s : g.Vertex) (dist : g.Vertex → Length)
    (p : Paths D ℚ g.vertexCount g.edgeCount) : Prop extends Measured lengths s dist p where
  complete : ∀ (u v : g.Vertex) (e : g.EdgeId), (e, v) ∈ g.outEdges u →
    dist u + lengths[e] = dist v → dist v ≠ ⊤ → (e, u) ∈ p.preds[v].toList

namespace Measured

variable {lengths : Table Length g.edgeCount} {dist : g.Vertex → Length} {es : List g.EdgeId}

theorem total_walkOf (h : Measured lengths s dist p) (hl : p.Trail s t l) :
    total lengths (walkOf l) = dist t := by
  induction l generalizing t with
  | nil =>
      rw [trail_nil.mp hl, h.source]
      rfl
  | cons a l ih =>
      rw [walkOf_cons, Distance.total_concat, ih hl.2, ← h.tight t a hl.1]
      rfl

theorem exists_trail_to (h : Measured lengths s dist p) (ht : dist t ≠ ⊤) : ∃ l, p.Trail s t l :=
  h.recorded.nonempty_trails ((h.visited_iff t).mpr ht)

theorem mem_shortestWalks_iff (h : Measured lengths s dist p) :
    es ∈ g.shortestWalks lengths s t ↔
      Leads g.outEdges s es t ∧ total lengths es = dist t ∧ dist t ≠ ⊤ := by
  constructor
  · rintro ⟨hes, hfinite, hleast⟩
    rw [Length.reached_iff] at hfinite
    have hle := h.least es t hes
    have ht : dist t ≠ ⊤ := ne_top_of_le_ne_top hfinite hle
    obtain ⟨l, hl⟩ := h.exists_trail_to ht
    have hother := hleast (walkOf l) (leads_walkOf h.recorded hl)
    rw [Length.atMost_iff, h.total_walkOf hl] at hother
    exact ⟨hes, le_antisymm hother hle, ht⟩
  · rintro ⟨hes, htotal, ht⟩
    refine ⟨hes, ?_, fun fs hfs => ?_⟩
    · rwa [Length.reached_iff, htotal]
    · rw [Length.atMost_iff, htotal]
      exact h.least fs t hfs

theorem dist_le {D' : Type} {dist' : g.Vertex → Length} {q : Paths D' ℚ g.vertexCount g.edgeCount}
    (h : Measured lengths s dist p) (h' : Measured lengths s dist' q) (t : g.Vertex) :
    dist t ≤ dist' t := by
  by_cases ht : dist' t = ⊤
  · rw [ht]
    exact le_top
  · obtain ⟨l, hl⟩ := h'.exists_trail_to ht
    rw [← h'.total_walkOf hl]
    exact h.least _ t (leads_walkOf h'.recorded hl)

/-- There is one measure for a source. -/
theorem dist_unique {D' : Type} {dist' : g.Vertex → Length}
    {q : Paths D' ℚ g.vertexCount g.edgeCount} (h : Measured lengths s dist p)
    (h' : Measured lengths s dist' q) : dist = dist' := by
  funext t
  exact le_antisymm (h.dist_le h' t) (h'.dist_le h t)

theorem connected_iff (h : Measured lengths s dist p) (t : g.Vertex) :
    g.Connected lengths s t ↔ t ∈ p.order.toList := by
  rw [h.visited_iff]
  constructor
  · rintro ⟨es, hes, hfinite⟩
    rw [Length.reached_iff] at hfinite
    exact ne_top_of_le_ne_top hfinite (h.least es t hes)
  · intro ht
    obtain ⟨l, hl⟩ := h.exists_trail_to ht
    refine ⟨walkOf l, leads_walkOf h.recorded hl, ?_⟩
    rwa [Length.reached_iff, h.total_walkOf hl]

end Measured

namespace Exact

variable {lengths : Table Length g.edgeCount} {dist : g.Vertex → Length} {es : List g.EdgeId}

theorem preds_iff (h : Exact lengths s dist p) (u v : g.Vertex) (e : g.EdgeId) :
    (e, u) ∈ p.preds[v].toList ↔
      (e, v) ∈ g.outEdges u ∧ dist u + lengths[e] = dist v ∧ dist v ≠ ⊤ := by
  constructor
  · intro hmem
    have hv := (h.recorded.visited_iff v).mpr (Or.inr (List.ne_nil_of_mem hmem))
    exact ⟨h.recorded.step v _ hmem, h.tight v _ hmem, (h.visited_iff v).mp hv⟩
  · rintro ⟨hstep, htight, hfinite⟩
    exact h.complete u v e hstep htight hfinite

/-- Beginnings of a least walk are least, so every step of it is recorded. -/
theorem exists_trail (h : Exact lengths s dist p) (hes : Leads g.outEdges s es t)
    (htotal : total lengths es = dist t) (ht : dist t ≠ ⊤) :
    ∃ l, p.Trail s t l ∧ walkOf l = es := by
  induction es using List.reverseRecOn generalizing t with
  | nil => exact ⟨[], hes.symm, rfl⟩
  | append_singleton es e ih =>
      obtain ⟨w, hes, hstep⟩ := leads_concat.mp hes
      have hsum : total lengths es + lengths[e] = dist t := by
        rw [← htotal, Distance.total_concat]
        rfl
      obtain ⟨hfirst, hlast⟩ : total lengths es ≠ ⊤ ∧ lengths[e] ≠ ⊤ := by
        rw [← hsum] at ht
        exact WithTop.add_ne_top.mp ht
      have hw := h.least es w hes
      have hwtop : dist w ≠ ⊤ := ne_top_of_le_ne_top hfirst hw
      have hle : total lengths es ≤ dist w := by
        obtain ⟨l, hl⟩ := h.exists_trail_to hwtop
        have hdetour := h.least (walkOf l ++ [e]) t
          (leads_concat.mpr ⟨w, leads_walkOf h.recorded hl, hstep⟩)
        rw [Distance.total_concat, h.total_walkOf hl, ← hsum] at hdetour
        exact (WithTop.add_le_add_iff_right hlast).mp hdetour
      have heq : total lengths es = dist w := le_antisymm hle hw
      obtain ⟨l, hl, hwalk⟩ := ih hes heq hwtop
      refine ⟨(e, w) :: l, ⟨h.complete w t e hstep ?_ ht, hl⟩, ?_⟩
      · rw [← heq, hsum]
      · rw [walkOf_cons, hwalk]

theorem shortestWalks_eq (h : Exact lengths s dist p) (t : g.Vertex) :
    g.shortestWalks lengths s t = walkOf '' p.trails s t := by
  ext es
  rw [h.mem_shortestWalks_iff]
  constructor
  · rintro ⟨hes, htotal, ht⟩
    exact h.exists_trail hes htotal ht
  · rintro ⟨l, hl, rfl⟩
    refine ⟨leads_walkOf h.recorded hl, h.total_walkOf hl, ?_⟩
    exact (h.visited_iff t).mp (h.recorded.visited_of_trail hl)

theorem walksThrough_eq (h : Exact lengths s dist p) (hv : v ≠ t) :
    g.walksThrough lengths v s t = walkOf '' p.trailsBy s (fun a => a.2 = v) t := by
  unfold Graph.walksThrough
  rw [h.shortestWalks_eq]
  ext es
  constructor
  · rintro ⟨⟨l, hl, rfl⟩, hpass⟩
    exact ⟨l, ⟨hl, (exists_origin_iff h.recorded hl hv).mpr hpass⟩, rfl⟩
  · rintro ⟨l, ⟨hl, horigin⟩, rfl⟩
    exact ⟨⟨l, hl, rfl⟩, (exists_origin_iff h.recorded hl hv).mp horigin⟩

theorem walksAlong_eq (h : Exact lengths s dist p) (e : g.EdgeId) (t : g.Vertex) :
    g.walksAlong lengths e s t = walkOf '' p.trailsBy s (fun a => a.1 = e) t := by
  unfold Graph.walksAlong
  rw [h.shortestWalks_eq]
  ext es
  constructor
  · rintro ⟨⟨l, hl, rfl⟩, hmem⟩
    exact ⟨l, ⟨hl, mem_walkOf.mp hmem⟩, rfl⟩
  · rintro ⟨l, ⟨hl, hedge⟩, rfl⟩
    exact ⟨⟨l, hl, rfl⟩, mem_walkOf.mpr hedge⟩

theorem ncard_shortestWalks (h : Exact lengths s dist p) (t : g.Vertex) :
    (g.shortestWalks lengths s t).ncard = (p.trails s t).ncard := by
  rw [h.shortestWalks_eq, (injOn_walkOf h.recorded t).ncard_image]

theorem vertexShare_eq (h : Exact lengths s dist p) (hv : v ≠ t) :
    g.vertexShare lengths v s t = p.share s (fun a => a.2 = v) t := by
  have hinj : Set.InjOn walkOf (p.trailsBy s (fun a => a.2 = v) t) :=
    (injOn_walkOf h.recorded t).mono trailsBy_subset
  rw [Graph.vertexShare, share, h.walksThrough_eq hv, h.ncard_shortestWalks,
    hinj.ncard_image]

theorem edgeShare_eq (h : Exact lengths s dist p) (e : g.EdgeId) (t : g.Vertex) :
    g.edgeShare lengths e s t = p.share s (fun a => a.1 = e) t := by
  have hinj : Set.InjOn walkOf (p.trailsBy s (fun a => a.1 = e) t) :=
    (injOn_walkOf h.recorded t).mono trailsBy_subset
  rw [Graph.edgeShare, share, h.walksAlong_eq, h.ncard_shortestWalks,
    hinj.ncard_image]

/-! Exact tables differ in the order of what they record at most. -/

section Unique

variable {D' : Type} {dist' : g.Vertex → Length} {q : Paths D' ℚ g.vertexCount g.edgeCount}

theorem preds_perm (h : Exact lengths s dist p) (h' : Exact lengths s dist' q) (v : g.Vertex) :
    p.preds[v].toList.Perm q.preds[v].toList := by
  rw [List.perm_ext_iff_of_nodup (h.recorded.once v) (h'.recorded.once v)]
  intro a
  have hp := h.preds_iff a.2 v a.1
  rw [h.dist_unique h'.toMeasured] at hp
  exact hp.trans (h'.preds_iff a.2 v a.1).symm

theorem sigma_unique (h : Exact lengths s dist p) (h' : Exact lengths s dist' q) (v : g.Vertex) :
    p.sigma[v] = q.sigma[v] := by
  rw [h.recorded.sigma_eq_ncard, h'.recorded.sigma_eq_ncard, ← h.ncard_shortestWalks,
    ← h'.ncard_shortestWalks]

end Unique

end Exact

/-! ## Both searches are exact -/

section Weighted

variable {lengths : Table Length g.edgeCount} {q : Paths Length ℚ g.vertexCount g.edgeCount}

/-- Nothing is shorter than the distance of a visited vertex. -/
theorem ShortestFrom.dist_eq (h : ShortestFrom g.outEdges lengths s q)
    (hv : v ∈ q.order.toList) : ∃ es, Leads g.outEdges s es v ∧ q.dist[v] = total lengths es ∧
      ∀ fs, Leads g.outEdges s fs v → q.dist[v] ≤ total lengths fs := by
  have hreaches := (h.visited_iff v).mp hv
  obtain ⟨es, hes, hdist, hleast⟩ := h.distance_reached v hreaches
  rw [distance?, if_pos hreaches] at hdist
  have hdist := Option.some.inj hdist
  refine ⟨es, hes, hdist, fun fs hfs => ?_⟩
  rw [hdist]
  exact Length.atMost_iff.mp (hleast fs hfs)

theorem ShortestFrom.dist_ne_top (h : ShortestFrom g.outEdges lengths s q)
    (hv : v ∈ q.order.toList) : q.dist[v] ≠ ⊤ := by
  obtain ⟨-, -, -, hleast⟩ := h.dist_eq hv
  obtain ⟨fs, hfs, hfinite⟩ := (h.reaches_iff v).mp ((h.visited_iff v).mp hv)
  exact ne_top_of_le_ne_top (Length.reached_iff.mp hfinite) (hleast fs hfs)

/-- A tight step of positive length leads to a larger distance, so the order of the search agrees
with it. -/
theorem ShortestFrom.before_of_tight (h : ShortestFrom g.outEdges lengths s q)
    {u : g.Vertex} {e : g.EdgeId} (hpos : 0 < lengths[e])
    (hu : u ∈ q.order.toList) (hv : v ∈ q.order.toList)
    (htight : q.dist[u] + lengths[e] = q.dist[v]) : Before q.order.toList u v := by
  have hlt : q.dist[u] < q.dist[v] := by
    calc q.dist[u] = q.dist[u] + 0 := (add_zero _).symm
      _ < q.dist[u] + lengths[e] := WithTop.add_lt_add_left (h.dist_ne_top hu) hpos
      _ = q.dist[v] := htight
  have hne : u ≠ v := by
    rintro rfl
    exact lt_irrefl _ hlt
  rcases Before.total hu hv hne with hbefore | hafter
  · exact hbefore
  · have hle := List.pairwise_pair.mp (h.sorted.sublist hafter)
    rw [Length.atMost_iff] at hle
    exact absurd hle (not_le_of_gt hlt)

end Weighted

theorem measured_weighted {lengths : Table Length g.edgeCount}
    (hadmissible : ∀ e : g.EdgeId, Admissible lengths[e])
    {p : Paths Length ℚ g.vertexCount g.edgeCount} (hp : p.Tidy) (s : g.Vertex) :
    Measured lengths s (fun v => (p.weighted g.outEdges lengths s).dist[v])
      (p.weighted g.outEdges lengths s) := by
  have hshortest := shortestFrom_of_nodup hadmissible hp g.nodup_outEdges s
  have htidy : (p.weighted g.outEdges lengths s).Tidy := tidy_weighted hp g.nodup_outEdges s
  have hrecorded : Recorded g.outEdges s (p.weighted g.outEdges lengths s) :=
    recorded_weighted hp g.nodup_outEdges s
  generalize p.weighted g.outEdges lengths s = q at hshortest htidy hrecorded
  have hvisited : ∀ v : g.Vertex, v ∈ q.order.toList ↔ q.dist[v] ≠ ⊤ := by
    intro v
    refine ⟨hshortest.dist_ne_top, fun hfinite => ?_⟩
    by_contra hv
    exact hfinite (htidy v hv).dist
  refine ⟨hrecorded, ?_, hvisited, fun es v hes => ?_, fun v a ha => ?_⟩
  · obtain ⟨es, -, hdist, hleast⟩ := hshortest.dist_eq hrecorded.source_visited
    have hnonneg := Length.admissible_iff.mp (admissible_total hadmissible es)
    rw [← hdist] at hnonneg
    exact le_antisymm (hleast [] rfl) hnonneg
  · by_cases hfinite : total lengths es = ⊤
    · rw [hfinite]
      exact le_top
    · have hreaches := (hshortest.reaches_iff v).mpr ⟨es, hes, Length.reached_iff.mpr hfinite⟩
      obtain ⟨-, -, -, hleast⟩ := hshortest.dist_eq ((hshortest.visited_iff v).mpr hreaches)
      exact hleast es hes
  · exact Length.same_iff.mp ((hshortest.preds_iff a.2 v a.1).mp ha).2.2

theorem exact_weighted {lengths : Table Length g.edgeCount}
    (hpos : ∀ e : g.EdgeId, 0 < lengths[e])
    {p : Paths Length ℚ g.vertexCount g.edgeCount} (hp : p.Tidy) (s : g.Vertex) :
    Exact lengths s (fun v => (p.weighted g.outEdges lengths s).dist[v])
      (p.weighted g.outEdges lengths s) := by
  have hadmissible : ∀ e : g.EdgeId, Admissible lengths[e] :=
    fun e => Length.admissible_iff.mpr (hpos e).le
  have hmeasured := measured_weighted hadmissible hp s
  have hshortest := shortestFrom_of_nodup hadmissible hp g.nodup_outEdges s
  refine ⟨hmeasured, fun u v e hstep htight hfinite => ?_⟩
  have hu := hfinite
  rw [← htight] at hu
  have hbefore := hshortest.before_of_tight (hpos e)
    ((hmeasured.visited_iff u).mpr (WithTop.add_ne_top.mp hu).1)
    ((hmeasured.visited_iff v).mpr hfinite) htight
  exact (hshortest.preds_iff u v e).mpr ⟨hstep, hbefore, Length.same_iff.mpr htight⟩

def levelLength {S : Type} {n m : Nat} (p : Paths Hops S n m) (v : Fin n) : Length :=
  if v ∈ p.order.toList then p.level v else ⊤

def levelTimes {S : Type} {n m : Nat} (p : Paths Hops S n m) (c : ℚ) (v : Fin n) : Length :=
  if v ∈ p.order.toList then ((p.level v * c : ℚ) : Length) else ⊤

theorem levelTimes_one {S : Type} {n m : Nat} (p : Paths Hops S n m) :
    p.levelTimes 1 = p.levelLength := by
  funext v
  simp [levelTimes, levelLength]

theorem total_of_const {m : Nat} {lengths : Table Length m} {c : ℚ}
    (hconst : ∀ e : Fin m, lengths[e] = c) (es : List (Fin m)) :
    total lengths es = ((es.length * c : ℚ) : Length) := by
  induction es using List.reverseRecOn with
  | nil => simp [Distance.zero]
  | append_singleton es e ih =>
      have hsum : ((es.length + 1 : ℕ) * c : ℚ) = es.length * c + c := by
        push_cast
        ring
      rw [Distance.total_concat, ih, hconst, List.length_append, List.length_singleton, hsum]
      rfl

theorem total_of_hops {m : Nat} {lengths : Table Length m} (hone : ∀ e : Fin m, lengths[e] = 1)
    (es : List (Fin m)) : total lengths es = es.length := by
  have htotal := total_of_const (c := 1) hone es
  rwa [mul_one] at htotal

/-- A breadth-first search is exact for lengths that are all the same. -/
theorem exact_breadthFirst_of_const {lengths : Table Length g.edgeCount} {c : ℚ} (hc : 0 < c)
    (hconst : ∀ e : g.EdgeId, lengths[e] = c)
    {p : Paths Hops ℚ g.vertexCount g.edgeCount} (hp : p.Tidy) (s : g.Vertex) :
    Exact lengths s ((p.breadthFirst g.outEdges s).levelTimes c)
      (p.breadthFirst g.outEdges s) := by
  have hrecorded := recorded_breadthFirst hp g.nodup_outEdges s
  obtain ⟨u, hswept⟩ := exists_swept hp g.nodup_outEdges s
  generalize p.breadthFirst g.outEdges s = q at hrecorded hswept
  have hlevel : ∀ {v : g.Vertex}, v ∈ q.order.toList →
      q.levelTimes c v = ((q.level v * c : ℚ) : Length) :=
    fun hv => if_pos hv
  have hvisited : ∀ v : g.Vertex, v ∈ q.order.toList ↔ q.levelTimes c v ≠ ⊤ := by
    intro v
    by_cases hv : v ∈ q.order.toList
    · rw [hlevel hv]
      exact iff_of_true hv WithTop.coe_ne_top
    · simp [levelTimes, hv]
  have hnext : ∀ u v : g.Vertex, ((q.level u * c : ℚ) : Length) + c = ((q.level v * c : ℚ) : Length) ↔
      q.level v = q.level u + 1 := by
    intro u v
    rw [← WithTop.coe_add, WithTop.coe_inj, ← add_one_mul, mul_left_inj' hc.ne', eq_comm]
    exact_mod_cast Iff.rfl
  refine ⟨⟨hrecorded, ?_, hvisited, fun es v hes => ?_, fun v a ha => ?_⟩,
    fun u v e hstep htight hfinite => ?_⟩
  · rw [hlevel hrecorded.source_visited, level_of_dist hswept.dist_source, Nat.cast_zero, zero_mul]
    rfl
  · obtain ⟨hv, hle⟩ := hswept.level_le_length hes
    rw [hlevel hv, total_of_const hconst, WithTop.coe_le_coe]
    exact mul_le_mul_of_nonneg_right (Nat.cast_le.mpr hle) hc.le
  · obtain ⟨-, hu, hstep⟩ := (hswept.mem_preds_iff a.2 v a.1).mp ha
    have hv := (hrecorded.visited_iff v).mpr (Or.inr (List.ne_nil_of_mem ha))
    rw [hconst, hlevel hu, hlevel hv]
    exact (hnext a.2 v).mpr hstep
  · have hv := (hvisited v).mpr hfinite
    have hu : u ∈ q.order.toList := by
      rw [← htight] at hfinite
      exact (hvisited u).mpr (WithTop.add_ne_top.mp hfinite).1
    rw [hconst, hlevel hu, hlevel hv] at htight
    exact (hswept.mem_preds_iff u v e).mpr ⟨hstep, hu, (hnext u v).mp htight⟩

theorem exact_breadthFirst {lengths : Table Length g.edgeCount}
    (hone : ∀ e : g.EdgeId, lengths[e] = 1)
    {p : Paths Hops ℚ g.vertexCount g.edgeCount} (hp : p.Tidy) (s : g.Vertex) :
    Exact lengths s (p.breadthFirst g.outEdges s).levelLength (p.breadthFirst g.outEdges s) := by
  rw [← levelTimes_one]
  exact exact_breadthFirst_of_const zero_lt_one hone hp s

end Geodesic.Paths
