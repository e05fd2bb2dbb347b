import Mathlib.Algebra.BigOperators.Field
import Mathlib.Algebra.Order.Field.Rat
import Mathlib.Tactic.FieldSimp
import Mathlib.Tactic.Ring
import Geodesic.Proofs.HandBack
import Geodesic.Proofs.Paths.Trail

/-!
# What handing back adds up to

One sweep from the last visited vertex to the first hands every vertex and every edge, for each
visited vertex `t`, the share of the trails to `t` that use it. The counts and dependencies are exact
rational numbers here.
-/

namespace Geodesic

variable {D : Type} {n m : Nat}

/-- The share of the trails to `t` that have a step of `hit`. -/
noncomputable def Paths.share (p : Paths D ℚ n m) (s : Fin n) (hit : Fin m × Fin n → Prop)
    (t : Fin n) : ℚ :=
  (p.trailsBy s hit t).ncard / (p.trails s t).ncard

namespace Dependency

open Paths (Recorded)

/-! ## Slots -/

/-- A number that crediting a step of `hit` raises by the amount credited. -/
structure Slot (p : Paths D ℚ n m) (hit : Fin m × Fin n → Prop) [DecidablePred hit]
    (x : Dependency ℚ n m → ℚ) : Prop where
  creditStep : ∀ (c : ℚ) (d : Dependency ℚ n m) (a : Fin m × Fin n),
    x (creditStep p c d a) = x d + if hit a then p.sigma[a.2] * c else 0
  creditVertex : ∀ (d : Dependency ℚ n m) (w : Fin n), x (creditVertex p d w) = x d

variable {p : Paths D ℚ n m} {out : Fin n → List (Fin m × Fin n)} {s : Fin n}

theorem slot_delta (p : Paths D ℚ n m) (v : Fin n) :
    Slot p (fun a => a.2 = v) (fun d => d.delta[v]) where
  creditStep c d a := by
    by_cases hv : a.2 = v
    · subst hv
      simp [Dependency.creditStep]
    · simp only [Dependency.creditStep, if_neg hv, add_zero]
      exact Table.getElem_set_ne _ _ hv
  creditVertex d w := by
    unfold Dependency.creditVertex
    split
    · rfl
    · rfl

theorem slot_edge (p : Paths D ℚ n m) (e : Fin m) :
    Slot p (fun a => a.1 = e) (fun d => d.tally.edges[e]) where
  creditStep c d a := by
    by_cases he : a.1 = e
    · subst he
      simp [Dependency.creditStep, Tally.addEdge]
    · simp only [Dependency.creditStep, Tally.addEdge, if_neg he, add_zero]
      exact Table.getElem_set_ne _ _ he
  creditVertex d w := by
    unfold Dependency.creditVertex
    split
    · rfl
    · rfl

section Slot

variable {hit : Fin m × Fin n → Prop} [DecidablePred hit] {x : Dependency ℚ n m → ℚ}

theorem Slot.foldl_creditStep (hx : Slot p hit x) (c : ℚ) (steps : List (Fin m × Fin n))
    (d : Dependency ℚ n m) : x (steps.foldl (Dependency.creditStep p c) d) =
      x d + (steps.map fun a => if hit a then p.sigma[a.2] * c else 0).sum := by
  induction steps generalizing d with
  | nil => simp
  | cons a steps ih =>
      rw [List.foldl_cons, ih, hx.creditStep, List.map_cons, List.sum_cons]
      ring

/-- Handing back from `w` raises a slot by what the recorded steps of `hit` into `w` carry. -/
theorem Slot.passBack (hx : Slot p hit x) (h : Recorded out s p) {w : Fin n} (hw : 0 < p.sigma[w])
    (d : Dependency ℚ n m) : x (passBack p d w) = x d +
      (1 + d.delta[w]) / p.sigma[w] *
        ∑ a ∈ p.preds[w].toList.toFinset, if hit a then p.sigma[a.2] else 0 := by
  unfold Dependency.passBack
  rw [if_neg (not_le.mpr hw)]
  dsimp only
  rw [hx.creditVertex, ← Array.foldl_toList, hx.foldl_creditStep, List.sum_toFinset _ (h.once w),
    ← List.sum_map_mul_left]
  refine congrArg (fun l => x d + List.sum l) (List.map_congr_left fun a _ => ?_)
  split
  · ring
  · ring

end Slot

/-! ## One sweep -/

section Sweep

variable {hit : Fin m × Fin n → Prop} [DecidablePred hit] {x : Dependency ℚ n m → ℚ}

theorem sigma_pos (h : Recorded out s p) {t : Fin n} (ht : t ∈ p.order.toList) :
    0 < p.sigma[t] := by
  rw [h.sigma_eq_ncard, Nat.cast_pos, Set.ncard_pos (h.finite_trails t)]
  exact h.nonempty_trails ht

omit [DecidablePred hit] in
theorem sigma_mul_share (h : Recorded out s p) {t : Fin n} (ht : t ∈ p.order.toList) :
    p.sigma[t] * p.share s hit t = (p.trailsBy s hit t).ncard := by
  have hpos := sigma_pos h ht
  rw [Paths.share, ← h.sigma_eq_ncard]
  field_simp

/-- The trails to `t`, when none takes two steps of `hit`. -/
theorem ncard_trailsBy_eq_sum (h : Recorded out s p)
    (hsingle : ∀ t : Fin n, ∀ a ∈ p.preds[t].toList, hit a → p.trailsBy s hit a.2 = ∅)
    (t : Fin n) : ((p.trailsBy s hit t).ncard : ℚ) = ∑ a ∈ p.preds[t].toList.toFinset,
      ((if hit a then p.sigma[a.2] else 0) + (p.trailsBy s hit a.2).ncard) := by
  by_cases ht : t = s
  · subst ht
    simp [h.trailsBy_source, h.preds_source]
  · rw [h.ncard_trailsBy ht, Nat.cast_list_sum, List.map_map, List.sum_toFinset _ (h.once t)]
    refine congrArg List.sum (List.map_congr_left fun a ha => ?_)
    by_cases hita : hit a
    · simp [hita, hsingle t a ha hita, h.sigma_eq_ncard]
    · simp [hita]

omit [DecidablePred hit] in
/-- What `w` hands to earlier vertices reaches a slot through their own trails. -/
theorem sum_handed_on (h : Recorded out s p) {l r : List (Fin n)} {w : Fin n}
    (horder : p.order.toList = l ++ w :: r) :
    ∑ t ∈ l.toFinset, (∑ a ∈ p.preds[w].toList.toFinset, if a.2 = t then p.sigma[a.2] else 0) *
      p.share s hit t =
    ∑ a ∈ p.preds[w].toList.toFinset, ((p.trailsBy s hit a.2).ncard : ℚ) := by
  have hterm : ∀ a ∈ p.preds[w].toList.toFinset,
      ∑ t ∈ l.toFinset, (if a.2 = t then p.sigma[a.2] else 0) * p.share s hit t =
        ((p.trailsBy s hit a.2).ncard : ℚ) := by
    intro a ha
    have hbefore := h.before w a (List.mem_toFinset.mp ha)
    have hvisited := hbefore.left_mem
    have hnodup := h.nodup
    rw [horder] at hbefore hnodup
    have hmem : a.2 ∈ l.toFinset := List.mem_toFinset.mpr (hbefore.mem_of_append hnodup)
    simp only [ite_mul, zero_mul]
    rw [Finset.sum_ite_eq, if_pos hmem]
    exact sigma_mul_share h hvisited
  rw [← Finset.sum_congr rfl hterm, Finset.sum_comm]
  exact Finset.sum_congr rfl fun t _ => Finset.sum_mul ..

/-- A sweep over the first vertices of the order. Each `t` among them brings its own dependency and
one more, in proportion to its trails. -/
theorem Slot.sweep (hx : Slot p hit x) (h : Recorded out s p)
    (hsingle : ∀ t : Fin n, ∀ a ∈ p.preds[t].toList, hit a → p.trailsBy s hit a.2 = ∅)
    {l r : List (Fin n)} (horder : p.order.toList = l ++ r) (d : Dependency ℚ n m) :
    x (l.reverse.foldl (Dependency.passBack p) d) =
      x d + ∑ t ∈ l.toFinset, (1 + d.delta[t]) * p.share s hit t := by
  induction l using List.reverseRecOn generalizing r d with
  | nil => simp
  | append_singleton l w ih =>
      have horder' : p.order.toList = l ++ w :: r := by simp [horder]
      have hvisited : w ∈ p.order.toList := by simp [horder]
      have hpos := sigma_pos h hvisited
      have hnodup := h.nodup
      rw [horder'] at hnodup
      have hw : w ∉ l.toFinset := fun hmem => notMem_of_nodup hnodup (List.mem_toFinset.mp hmem)
      have hdelta : ∀ t : Fin n, (Dependency.passBack p d w).delta[t] = d.delta[t] +
          (1 + d.delta[w]) / p.sigma[w] *
            ∑ a ∈ p.preds[w].toList.toFinset, if a.2 = t then p.sigma[a.2] else 0 :=
        fun t => (slot_delta p t).passBack h hpos d
      have htrails := ncard_trailsBy_eq_sum h hsingle w
      rw [Finset.sum_add_distrib, ← sum_handed_on h horder', ← sigma_mul_share h hvisited] at htrails
      have hinsert : (l ++ [w]).toFinset = insert w l.toFinset := by
        ext t
        simp
      rw [List.reverse_append, List.reverse_singleton, List.singleton_append, List.foldl_cons,
        ih horder' (Dependency.passBack p d w), hx.passBack h hpos d, hinsert,
        Finset.sum_insert hw]
      have hsplit : ∑ t ∈ l.toFinset, (1 + (Dependency.passBack p d w).delta[t]) * p.share s hit t =
          ∑ t ∈ l.toFinset, (1 + d.delta[t]) * p.share s hit t +
            (1 + d.delta[w]) / p.sigma[w] * ∑ t ∈ l.toFinset,
              (∑ a ∈ p.preds[w].toList.toFinset, if a.2 = t then p.sigma[a.2] else 0) *
                p.share s hit t := by
        rw [Finset.mul_sum, ← Finset.sum_add_distrib]
        refine Finset.sum_congr rfl fun t _ => ?_
        rw [hdelta]
        ring
      rw [hsplit]
      have hshare : (1 + d.delta[w]) * p.share s hit w = (1 + d.delta[w]) / p.sigma[w] *
          (p.sigma[w] * p.share s hit w) := by
        field_simp
      rw [hshare, htrails]
      ring

end Sweep

/-! ## Vertices -/

theorem share_eq_zero {hit : Fin m × Fin n → Prop} {t : Fin n} (h : p.trailsBy s hit t = ∅) :
    p.share s hit t = 0 := by
  simp [Paths.share, h]

theorem share_of_not_visited (h : Recorded out s p) {hit : Fin m × Fin n → Prop} {t : Fin n}
    (ht : t ∉ p.order.toList) : p.share s hit t = 0 := by
  refine share_eq_zero (Set.eq_empty_of_subset_empty ?_)
  rw [← h.trails_of_not_visited ht]
  exact Paths.trailsBy_subset

theorem single_origin (h : Recorded out s p) (v t : Fin n) :
    ∀ a ∈ p.preds[t].toList, a.2 = v → p.trailsBy s (fun a => a.2 = v) a.2 = ∅ := by
  intro a _ hv
  apply h.trailsBy_origin_eq_empty
  rw [hv]
  exact Before.irrefl h.nodup

theorem vertices_passBack (h : Recorded out s p) {w : Fin n} (hw : 0 < p.sigma[w])
    (d : Dependency ℚ n m) (v : Fin n) :
    (passBack p d w).tally.vertices[v] =
      d.tally.vertices[v] + if w = v ∧ w ≠ s then (passBack p d w).delta[v] else 0 := by
  unfold passBack
  rw [if_neg (not_le.mpr hw)]
  dsimp only
  have hkept := vertices_foldl_creditStep (p := p) ((1 + d.delta[w]) / p.sigma[w])
    p.preds[w].toList d
  rw [Array.foldl_toList] at hkept
  generalize p.preds[w].foldl (creditStep p ((1 + d.delta[w]) / p.sigma[w])) d = d' at hkept
  unfold creditVertex
  rw [h.source, ← hkept]
  by_cases hs : w = s
  · simp [hs]
  · have hs' : ¬ (some s = some w) := fun heq => hs (Option.some.inj heq).symm
    rw [if_neg hs']
    dsimp only [Tally.addVertex]
    rw [Table.getElem_set]
    by_cases hv : w = v
    · subst hv
      rw [if_pos rfl, if_pos ⟨rfl, hs⟩]
    · rw [if_neg hv, if_neg fun heq => hv heq.1, add_zero]

theorem vertices_sweep (h : Recorded out s p) {l r : List (Fin n)}
    (horder : p.order.toList = l ++ r) (d : Dependency ℚ n m) (v : Fin n) :
    (l.reverse.foldl (passBack p) d).tally.vertices[v] = d.tally.vertices[v] +
      if v ∈ l ∧ v ≠ s then (l.reverse.foldl (passBack p) d).delta[v] else 0 := by
  induction l using List.reverseRecOn generalizing r d with
  | nil => simp
  | append_singleton l w ih =>
      have horder' : p.order.toList = l ++ w :: r := by simp [horder]
      have hpos := sigma_pos h (show w ∈ p.order.toList by simp [horder])
      have hnodup := h.nodup
      rw [horder'] at hnodup
      have hw : w ∉ l := notMem_of_nodup hnodup
      rw [List.reverse_append, List.reverse_singleton, List.singleton_append, List.foldl_cons,
        ih horder' (passBack p d w), vertices_passBack h hpos]
      by_cases hv : w = v
      · -- Nothing is handed to `w` after its turn.
        subst hv
        have hlater : ∑ t ∈ l.toFinset, (1 + (passBack p d w).delta[t]) *
            p.share s (fun a => a.2 = w) t = 0 := by
          refine Finset.sum_eq_zero fun t ht => ?_
          have hbefore : Before p.order.toList t w := by
            rw [horder']
            exact Before.append (List.mem_toFinset.mp ht) (by simp)
          rw [share_eq_zero (h.trailsBy_origin_eq_empty (Before.asymm h.nodup hbefore)), mul_zero]
        have hfinal : (l.reverse.foldl (passBack p) (passBack p d w)).delta[w] =
            (passBack p d w).delta[w] + ∑ t ∈ l.toFinset, (1 + (passBack p d w).delta[t]) *
              p.share s (fun a => a.2 = w) t :=
          (slot_delta p w).sweep h (single_origin h w) horder' (passBack p d w)
        rw [hlater, add_zero] at hfinal
        simp only [hw, hfinal, List.mem_append, List.mem_singleton, true_and, false_and, or_true,
          if_false, add_zero]
      · have hmem : v ∈ l ++ [w] ↔ v ∈ l := by simp [Ne.symm hv]
        rw [if_neg fun heq => hv heq.1, add_zero]
        simp only [hmem]

/-! ## All of it -/

section Accumulate

variable {d : Dependency ℚ n m} (hzero : ∀ v : Fin n, d.delta[v] = 0)

include hzero

/-- What a whole sweep adds to a slot, from no dependencies at all. -/
theorem Slot.sweep_all {hit : Fin m × Fin n → Prop} [DecidablePred hit]
    {x : Dependency ℚ n m → ℚ} (hx : Slot p hit x) (h : Recorded out s p)
    (hsingle : ∀ t : Fin n, ∀ a ∈ p.preds[t].toList, hit a → p.trailsBy s hit a.2 = ∅) :
    x (p.order.toList.reverse.foldl (Dependency.passBack p) d) =
      x d + ∑ t : Fin n, p.share s hit t := by
  rw [hx.sweep h hsingle (List.append_nil _).symm]
  refine congrArg (x d + ·) ?_
  have hvisited : ∑ t : Fin n, p.share s hit t =
      ∑ t ∈ p.order.toList.toFinset, p.share s hit t := by
    refine (Finset.sum_subset (Finset.subset_univ _) fun t _ ht => ?_).symm
    rw [List.mem_toFinset] at ht
    exact share_of_not_visited h ht
  rw [hvisited]
  refine Finset.sum_congr rfl fun t _ => ?_
  rw [hzero]
  ring

theorem edges_accumulate (h : Recorded out s p)
    (hunique : ∀ (t t' : Fin n) (a a' : Fin m × Fin n), a ∈ p.preds[t].toList →
      a' ∈ p.preds[t'].toList → a.1 = a'.1 → t = t') (e : Fin m) :
    (d.accumulate p).tally.edges[e] =
      d.tally.edges[e] + ∑ t : Fin n, p.share s (fun a => a.1 = e) t := by
  rw [accumulate_eq, (foldl_clear ..).1]
  refine (slot_edge p e).sweep_all hzero h fun t a ha he => ?_
  rw [← he]
  exact h.trailsBy_edge_eq_empty hunique ha

theorem vertices_accumulate (h : Recorded out s p) (v : Fin n) :
    (d.accumulate p).tally.vertices[v] = d.tally.vertices[v] +
      if v = s then 0 else ∑ t : Fin n, p.share s (fun a => a.2 = v) t := by
  rw [accumulate_eq, (foldl_clear ..).1, vertices_sweep h (List.append_nil _).symm]
  refine congrArg (d.tally.vertices[v] + ·) ?_
  have hdelta := (slot_delta p v).sweep_all hzero h (single_origin h v)
  rw [hzero, zero_add] at hdelta
  by_cases hs : v = s
  · simp [hs]
  · rw [if_neg hs, hdelta]
    by_cases hv : v ∈ p.order.toList
    · rw [if_pos ⟨hv, hs⟩]
    · rw [if_neg fun heq => hv heq.1]
      refine (Finset.sum_eq_zero fun t _ => share_eq_zero (h.trailsBy_origin_eq_empty ?_)).symm
      exact fun hbefore => hv hbefore.left_mem

end Accumulate

end Dependency

end Geodesic
