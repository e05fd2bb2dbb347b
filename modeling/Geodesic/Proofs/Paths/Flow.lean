import Geodesic.Proofs.Paths.Exact

/-!
# What the trails to a vertex carry

The trails to a vertex carry one unit in equal parts. Summed over all edges, the shares count the
steps of an average trail, and over all vertices its origins, which are as many. Weighted by the
lengths of the edges they add up to the distance, because every trail is that long.
-/

namespace Geodesic.Paths

variable {D : Type}

/-! ## Averages over trails -/

namespace Recorded

variable {n m k : Nat} {p : Paths D ℚ n m} {out : Fin n → List (Fin m × Fin n)} {s t : Fin n}
  {key : Fin m × Fin n → Fin k}

/-- A trail whose steps have different keys counts once for each of them. -/
theorem sum_mul_ncard (h : Recorded out s p) (x : Fin k → ℚ)
    (hkeys : ∀ l, p.Trail s t l → (l.map key).Nodup) :
    ∑ i, x i * (p.trailsBy s (fun a => key a = i) t).ncard =
      ∑ l ∈ (h.finite_trails t).toFinset, (l.map fun a => x (key a)).sum := by
  classical
  have hcount : ∀ i : Fin k, ((p.trailsBy s (fun a => key a = i) t).ncard : ℚ) =
      ∑ l ∈ (h.finite_trails t).toFinset, if i ∈ l.map key then 1 else 0 := by
    intro i
    have hset : p.trailsBy s (fun a => key a = i) t =
        ((h.finite_trails t).toFinset.filter fun l => i ∈ l.map key : Finset _) := by
      ext l
      simp
    rw [hset, Set.ncard_coe_finset, Finset.sum_boole]
  simp only [hcount, Finset.mul_sum]
  rw [Finset.sum_comm]
  apply Finset.sum_congr rfl
  intro l hl
  have hnodup := hkeys l (by simpa using hl)
  calc ∑ i, x i * (if i ∈ l.map key then 1 else 0)
      = ∑ i ∈ (l.map key).toFinset, x i := by
        simp only [mul_ite, mul_one, mul_zero, ← List.mem_toFinset, Finset.sum_ite_mem,
          Finset.univ_inter]
    _ = ((l.map key).map x).sum := List.sum_toFinset x hnodup
    _ = (l.map fun a => x (key a)).sum := by rw [List.map_map]; rfl

/-- The shares of the keys, weighted, are the mean weight of a trail. -/
theorem sum_mul_share (h : Recorded out s p) (x : Fin k → ℚ)
    (hkeys : ∀ l, p.Trail s t l → (l.map key).Nodup) :
    ∑ i, x i * p.share s (fun a => key a = i) t =
      (∑ l ∈ (h.finite_trails t).toFinset, (l.map fun a => x (key a)).sum) /
        (p.trails s t).ncard := by
  rw [← h.sum_mul_ncard x hkeys, Finset.sum_div]
  apply Finset.sum_congr rfl
  intro i _
  rw [share, mul_div_assoc]

theorem ncard_trails_ne_zero (h : Recorded out s p) (ht : t ∈ p.order.toList) :
    ((p.trails s t).ncard : ℚ) ≠ 0 := by
  rw [← h.sigma_eq_ncard]
  exact (Dependency.sigma_pos h ht).ne'

theorem sum_mul_share_of_const (h : Recorded out s p) (ht : t ∈ p.order.toList) {x : Fin k → ℚ}
    {c : ℚ} (hkeys : ∀ l, p.Trail s t l → (l.map key).Nodup)
    (hconst : ∀ l, p.Trail s t l → (l.map fun a => x (key a)).sum = c) :
    ∑ i, x i * p.share s (fun a => key a = i) t = c := by
  have hsum : ∀ l ∈ (h.finite_trails t).toFinset, (l.map fun a => x (key a)).sum = c := by
    intro l hl
    exact hconst l (by simpa using hl)
  rw [h.sum_mul_share x hkeys, Finset.sum_congr rfl hsum, Finset.sum_const, nsmul_eq_mul,
    ← Set.ncard_eq_toFinset_card _ (h.finite_trails t),
    mul_div_cancel_left₀ _ (h.ncard_trails_ne_zero ht)]

theorem nodup_keys {l : List (Fin m × Fin n)} (hl : p.Trail s t l)
    (hsingle : ∀ t : Fin n, ∀ a ∈ p.preds[t].toList,
      p.trailsBy s (fun b => key b = key a) a.2 = ∅) : (l.map key).Nodup := by
  induction l generalizing t with
  | nil => exact List.nodup_nil
  | cons a l ih =>
      rw [List.map_cons, List.nodup_cons]
      constructor
      · intro hmem
        obtain ⟨b, hb, hkey⟩ := List.mem_map.mp hmem
        have hnone : l ∉ p.trailsBy s (fun b => key b = key a) a.2 := by
          rw [hsingle t a hl.1]
          exact Set.notMem_empty l
        exact hnone ⟨hl.2, b, hb, hkey⟩
      · exact ih hl.2

theorem nodup_origins (h : Recorded out s p) {l : List (Fin m × Fin n)} (hl : p.Trail s t l) :
    (l.map Prod.snd).Nodup :=
  nodup_keys hl fun _ _ _ => h.trailsBy_origin_eq_empty (Before.irrefl h.nodup)

theorem nodup_edges_of_trail {g : Graph} {s t : g.Vertex}
    {p : Paths D ℚ g.vertexCount g.edgeCount} (h : Recorded g.outEdges s p) {l : List g.Step}
    (hl : p.Trail s t l) : (l.map Prod.fst).Nodup :=
  nodup_keys hl fun _ _ ha => h.trailsBy_edge_eq_empty h.edge_unique ha

theorem share_eq_sum {k' : Nat} (h : Recorded out s p) (f : Fin k → Fin k')
    (hkeys : ∀ l, p.Trail s t l → (l.map fun a => f (key a)).Nodup) (j : Fin k') :
    p.share s (fun a => f (key a) = j) t =
      ∑ i with f i = j, p.share s (fun a => key a = i) t := by
  have hfine : ∀ l, p.Trail s t l → (l.map key).Nodup := by
    intro l hl
    have hcoarse := hkeys l hl
    rw [← Function.comp_def, ← List.map_map] at hcoarse
    exact hcoarse.of_map f
  have hwhole := h.sum_mul_share (fun i => if i = j then 1 else 0) hkeys
  have hparts := h.sum_mul_share (fun i => if f i = j then 1 else 0) hfine
  rw [← hparts] at hwhole
  simpa [Finset.sum_filter] using hwhole

/-! ## One unit to each vertex -/

theorem exists_origin_source {l : List (Fin m × Fin n)} (hl : p.Trail s t l) (ht : t ≠ s) :
    ∃ a ∈ l, a.2 = s := by
  induction l generalizing t with
  | nil => exact absurd hl ht
  | cons a l ih =>
      by_cases ha : a.2 = s
      · exact ⟨a, by simp, ha⟩
      · obtain ⟨b, hb, hbs⟩ := ih hl.2 ha
        exact ⟨b, List.mem_cons_of_mem a hb, hbs⟩

theorem share_source (h : Recorded out s p) (ht : t ∈ p.order.toList) (hts : t ≠ s) :
    p.share s (fun a => a.2 = s) t = 1 := by
  have hall : p.trailsBy s (fun a => a.2 = s) t = p.trails s t := by
    apply Set.Subset.antisymm trailsBy_subset
    intro l hl
    exact ⟨hl, exists_origin_source hl hts⟩
  rw [share, hall, div_self (h.ncard_trails_ne_zero ht)]

end Recorded

section Graph

variable {g : Graph} {s : g.Vertex} {p : Paths D ℚ g.vertexCount g.edgeCount}

/-- A trail has as many edges as origins. -/
theorem Recorded.sum_share_edges (h : Recorded g.outEdges s p) (t : g.Vertex) :
    ∑ e : g.EdgeId, p.share s (fun a => a.1 = e) t =
      ∑ v : g.Vertex, p.share s (fun a => a.2 = v) t := by
  have hedges := h.sum_mul_share (t := t) (fun _ => 1) fun _ => h.nodup_edges_of_trail
  have horigins := h.sum_mul_share (t := t) (fun _ => 1) fun _ => h.nodup_origins
  simp only [one_mul] at hedges horigins
  rw [hedges, horigins]

/-- More by one unit flows along edges than through vertices, when the end is another vertex. -/
theorem Recorded.sum_share_surplus (h : Recorded g.outEdges s p) (t : g.Vertex) :
    ∑ e : g.EdgeId, p.share s (fun a => a.1 = e) t -
        ∑ v : g.Vertex, (if v = s then 0 else p.share s (fun a => a.2 = v) t) =
      if t ∈ p.order.toList ∧ t ≠ s then 1 else 0 := by
  have hothers : ∑ v : g.Vertex, p.share s (fun a => a.2 = v) t =
      p.share s (fun a => a.2 = s) t +
        ∑ v : g.Vertex, (if v = s then 0 else p.share s (fun a => a.2 = v) t) := by
    have hsplit : ∀ v : g.Vertex, p.share s (fun a => a.2 = v) t =
        (if v = s then p.share s (fun a => a.2 = s) t else 0) +
          if v = s then 0 else p.share s (fun a => a.2 = v) t := by
      intro v
      by_cases hv : v = s
      · simp [hv]
      · simp [hv]
    rw [Finset.sum_congr rfl fun v _ => hsplit v, Finset.sum_add_distrib]
    simp
  rw [h.sum_share_edges, hothers, add_sub_cancel_right]
  split
  · rename_i ht
    exact h.share_source ht.1 ht.2
  · rename_i ht
    by_cases hts : t = s
    · rw [hts]
      exact Dependency.share_eq_zero h.trailsBy_source
    · exact Dependency.share_of_not_visited h fun hvisited => ht ⟨hvisited, hts⟩

end Graph

/-! ## Lengths -/

namespace Measured

variable {g : Graph} {s t : g.Vertex} {p : Paths D ℚ g.vertexCount g.edgeCount}
  {lengths : Table Length g.edgeCount} {dist : g.Vertex → Length}

theorem sum_untopD_of_trail (h : Measured lengths s dist p) {l : List g.Step}
    (hl : p.Trail s t l) : (l.map fun a => lengths[a.1].untopD 0).sum = (dist t).untopD 0 := by
  induction l generalizing t with
  | nil =>
      rw [trail_nil.mp hl, h.source]
      rfl
  | cons a l ih =>
      have hfinite : dist t ≠ ⊤ := (h.visited_iff t).mp (h.recorded.visited_of_trail hl)
      have htight := h.tight t a hl.1
      rw [← htight] at hfinite
      rw [List.map_cons, List.sum_cons, ih hl.2, ← htight, Length.untopD_add hfinite, add_comm]

/-- The mean length of a trail is the distance. -/
theorem sum_length_share (h : Measured lengths s dist p) (t : g.Vertex) :
    ∑ e : g.EdgeId, lengths[e].untopD 0 * p.share s (fun a => a.1 = e) t =
      (dist t).untopD 0 := by
  by_cases ht : t ∈ p.order.toList
  · exact h.recorded.sum_mul_share_of_const (x := fun e => lengths[e].untopD 0) ht
      (fun _ => h.recorded.nodup_edges_of_trail) fun _ => h.sum_untopD_of_trail
  · have htop : dist t = ⊤ := by
      by_contra hfinite
      exact ht ((h.visited_iff t).mpr hfinite)
    simp [Dependency.share_of_not_visited h.recorded ht, htop]

end Measured

end Geodesic.Paths
