import Mathlib.Algebra.BigOperators.Group.List.Basic
import Mathlib.Data.Set.Card
import Mathlib.Algebra.BigOperators.Ring.Finset
import Geodesic.Proofs.Paths.Recorded

/-!
# Trails

A trail follows recorded steps from a vertex back to the source. Recorded steps come from earlier
vertices, so there are finitely many trails, and they are counted along the order of the search.
-/

namespace Geodesic.Paths

variable {D S : Type} {n m : Nat}

/-- The steps lead from `t` back to `s`; each is recorded at the vertex that it enters. -/
def Trail (p : Paths D S n m) (s : Fin n) : Fin n → List (Fin m × Fin n) → Prop
  | t, [] => t = s
  | t, a :: as => a ∈ p.preds[t].toList ∧ Trail p s a.2 as

def trails (p : Paths D S n m) (s t : Fin n) : Set (List (Fin m × Fin n)) :=
  {l | p.Trail s t l}

/-- The trails to `t` with a step of `hit`. -/
def trailsBy (p : Paths D S n m) (s : Fin n) (hit : Fin m × Fin n → Prop) (t : Fin n) :
    Set (List (Fin m × Fin n)) :=
  {l | p.Trail s t l ∧ ∃ a ∈ l, hit a}

variable {p : Paths D S n m} {s t : Fin n} {hit : Fin m × Fin n → Prop}
  {l : List (Fin m × Fin n)}

@[simp] theorem trail_nil : p.Trail s t [] ↔ t = s := Iff.rfl

@[simp] theorem trail_cons {a : Fin m × Fin n} {as : List (Fin m × Fin n)} :
    p.Trail s t (a :: as) ↔ a ∈ p.preds[t].toList ∧ p.Trail s a.2 as := Iff.rfl

@[simp] theorem mem_trails : l ∈ p.trails s t ↔ p.Trail s t l := Iff.rfl

@[simp] theorem mem_trailsBy : l ∈ p.trailsBy s hit t ↔ p.Trail s t l ∧ ∃ a ∈ l, hit a := Iff.rfl

theorem trailsBy_subset : p.trailsBy s hit t ⊆ p.trails s t :=
  fun _ hl => hl.1

theorem ncard_cons_union {α : Type} (as : List α) (A : α → Set (List α)) (has : as.Nodup)
    (hfin : ∀ a ∈ as, (A a).Finite) :
    {l | ∃ a ∈ as, ∃ l' ∈ A a, l = a :: l'}.Finite ∧
      {l | ∃ a ∈ as, ∃ l' ∈ A a, l = a :: l'}.ncard = (as.map fun a => (A a).ncard).sum := by
  induction as with
  | nil => simp
  | cons a as ih =>
      obtain ⟨ha, has⟩ := List.nodup_cons.mp has
      obtain ⟨hrest, hcount⟩ := ih has fun b hb => hfin b (List.mem_cons_of_mem _ hb)
      have hsplit : {l | ∃ b ∈ a :: as, ∃ l' ∈ A b, l = b :: l'} =
          List.cons a '' A a ∪ {l | ∃ b ∈ as, ∃ l' ∈ A b, l = b :: l'} := by
        ext l
        constructor
        · rintro ⟨b, hb, l', hl', rfl⟩
          rcases List.mem_cons.mp hb with rfl | hb
          · exact Or.inl ⟨l', hl', rfl⟩
          · exact Or.inr ⟨b, hb, l', hl', rfl⟩
        · rintro (⟨l', hl', rfl⟩ | ⟨b, hb, l', hl', rfl⟩)
          · exact ⟨a, by simp, l', hl', rfl⟩
          · exact ⟨b, List.mem_cons_of_mem _ hb, l', hl', rfl⟩
      have hfirst : (List.cons a '' A a).Finite := (hfin a (by simp)).image _
      have hdisjoint : Disjoint (List.cons a '' A a)
          {l | ∃ b ∈ as, ∃ l' ∈ A b, l = b :: l'} := by
        rw [Set.disjoint_left]
        rintro _ ⟨l', _, rfl⟩ ⟨b, hb, l'', _, heq⟩
        rw [(List.cons.inj heq).1] at ha
        exact ha hb
      rw [hsplit, Set.ncard_union_eq hdisjoint hfirst hrest, hcount,
        Set.ncard_image_of_injective _ (List.cons_injective), List.map_cons, List.sum_cons]
      exact ⟨hfirst.union hrest, rfl⟩

namespace Recorded

variable [AddMonoid S] [One S] {out : Fin n → List (Fin m × Fin n)}

theorem visited_of_trail (h : Recorded out s p) (hl : p.Trail s t l) : t ∈ p.order.toList := by
  cases l with
  | nil =>
      rw [trail_nil.mp hl]
      exact h.source_visited
  | cons a as => exact (h.visited_iff t).mpr (Or.inr (List.ne_nil_of_mem hl.1))

theorem before_of_trail (h : Recorded out s p) (hl : p.Trail s t l) {a : Fin m × Fin n}
    (ha : a ∈ l) : Before p.order.toList a.2 t := by
  induction l generalizing t with
  | nil => cases ha
  | cons b as ih =>
      have hb := h.before t b hl.1
      rcases List.mem_cons.mp ha with rfl | ha
      · exact hb
      · exact Before.trans h.nodup (ih hl.2 ha) hb

theorem recorded_of_trail (h : Recorded out s p) (hl : p.Trail s t l) {a : Fin m × Fin n}
    (ha : a ∈ l) : ∃ v : Fin n, a ∈ p.preds[v].toList ∧ (v = t ∨ Before p.order.toList v t) := by
  induction l generalizing t with
  | nil => cases ha
  | cons b as ih =>
      have hb := h.before t b hl.1
      rcases List.mem_cons.mp ha with rfl | ha
      · exact ⟨t, hl.1, Or.inl rfl⟩
      · obtain ⟨v, hv, rfl | hbefore⟩ := ih hl.2 ha
        · exact ⟨b.2, hv, Or.inr hb⟩
        · exact ⟨v, hv, Or.inr (Before.trans h.nodup hbefore hb)⟩

theorem trailsBy_origin_eq_empty (h : Recorded out s p) {v : Fin n}
    (hv : ¬ Before p.order.toList v t) : p.trailsBy s (fun a => a.2 = v) t = ∅ := by
  rw [Set.eq_empty_iff_forall_notMem]
  rintro l ⟨hl, a, ha, rfl⟩
  exact hv (h.before_of_trail hl ha)

/-- An edge that is recorded at one vertex only is taken at most once. -/
theorem trailsBy_edge_eq_empty (h : Recorded out s p)
    (hunique : ∀ (t t' : Fin n) (a a' : Fin m × Fin n), a ∈ p.preds[t].toList →
      a' ∈ p.preds[t'].toList → a.1 = a'.1 → t = t')
    {a : Fin m × Fin n} (ha : a ∈ p.preds[t].toList) :
    p.trailsBy s (fun b => b.1 = a.1) a.2 = ∅ := by
  rw [Set.eq_empty_iff_forall_notMem]
  rintro l ⟨hl, b, hb, hedge⟩
  have hbefore := h.before t a ha
  obtain ⟨v, hv, hplace⟩ := h.recorded_of_trail hl hb
  have hvt : v = t := hunique v t b a hv ha hedge
  rcases hplace with heq | hplace
  · rw [← heq, hvt] at hbefore
    exact Before.irrefl h.nodup hbefore
  · rw [hvt] at hplace
    exact Before.asymm h.nodup hbefore hplace

theorem trails_source (h : Recorded out s p) : p.trails s s = {[]} := by
  ext l
  cases l with
  | nil => simp
  | cons a as => simp [h.preds_source]

theorem trailsBy_source (h : Recorded out s p) : p.trailsBy s hit s = ∅ := by
  ext l
  cases l with
  | nil => simp
  | cons a as => simp [h.preds_source]

theorem trails_of_not_visited (h : Recorded out s p) (ht : t ∉ p.order.toList) :
    p.trails s t = ∅ := by
  ext l
  constructor
  · exact fun hl => ht (h.visited_of_trail hl)
  · exact fun hl => absurd hl (Set.notMem_empty l)

omit [AddMonoid S] [One S] in
/-- A trail ends with one of the recorded steps. -/
theorem trails_eq (ht : t ≠ s) : p.trails s t =
    {l | ∃ a ∈ p.preds[t].toList, ∃ l' ∈ p.trails s a.2, l = a :: l'} := by
  ext l
  cases l with
  | nil => simp [ht]
  | cons a as =>
      constructor
      · rintro ⟨ha, has⟩
        exact ⟨a, ha, as, has, rfl⟩
      · rintro ⟨b, hb, l', hl', heq⟩
        obtain ⟨rfl, rfl⟩ := List.cons.inj heq
        exact ⟨hb, hl'⟩

omit [AddMonoid S] [One S] in
theorem trailsBy_eq [DecidablePred hit] (ht : t ≠ s) : p.trailsBy s hit t =
    {l | ∃ a ∈ p.preds[t].toList,
      ∃ l' ∈ (if hit a then p.trails s a.2 else p.trailsBy s hit a.2), l = a :: l'} := by
  ext l
  cases l with
  | nil => simp [ht]
  | cons a as =>
      constructor
      · rintro ⟨⟨ha, has⟩, b, hb, hhit⟩
        refine ⟨a, ha, as, ?_, rfl⟩
        by_cases hita : hit a
        · rw [if_pos hita]
          exact has
        · rw [if_neg hita]
          rcases List.mem_cons.mp hb with rfl | hb
          · exact absurd hhit hita
          · exact ⟨has, b, hb, hhit⟩
      · rintro ⟨b, hb, l', hl', heq⟩
        obtain ⟨rfl, rfl⟩ := List.cons.inj heq
        by_cases hita : hit a
        · rw [if_pos hita] at hl'
          exact ⟨⟨hb, hl'⟩, a, by simp, hita⟩
        · rw [if_neg hita] at hl'
          obtain ⟨htrail, c, hc, hhit⟩ := hl'
          exact ⟨⟨hb, htrail⟩, c, List.mem_cons_of_mem _ hc, hhit⟩

theorem finite_trails (h : Recorded out s p) (t : Fin n) : (p.trails s t).Finite := by
  by_cases ht : t ∈ p.order.toList
  · refine Before.induction h.nodup (P := fun t => (p.trails s t).Finite) ?_ t ht
    intro t _ ih
    by_cases hts : t = s
    · rw [hts, h.trails_source]
      exact Set.finite_singleton []
    · rw [trails_eq hts]
      exact (ncard_cons_union _ _ (h.once t) fun a ha => ih a.2 (h.before t a ha)).1
  · rw [h.trails_of_not_visited ht]
    exact Set.finite_empty

theorem finite_trailsBy (h : Recorded out s p) (t : Fin n) : (p.trailsBy s hit t).Finite :=
  (h.finite_trails t).subset trailsBy_subset

theorem nonempty_trails (h : Recorded out s p) (ht : t ∈ p.order.toList) :
    (p.trails s t).Nonempty := by
  refine Before.induction h.nodup (P := fun t => (p.trails s t).Nonempty) ?_ t ht
  intro t ht ih
  rcases (h.visited_iff t).mp ht with rfl | hne
  · exact ⟨[], rfl⟩
  · obtain ⟨a, ha⟩ := List.exists_mem_of_ne_nil _ hne
    obtain ⟨l, hl⟩ := ih a.2 (h.before t a ha)
    exact ⟨a :: l, ha, hl⟩

theorem ncard_trails (h : Recorded out s p) (ht : t ≠ s) : (p.trails s t).ncard =
    (p.preds[t].toList.map fun a => (p.trails s a.2).ncard).sum := by
  rw [trails_eq ht]
  exact (ncard_cons_union _ _ (h.once t) fun a _ => h.finite_trails a.2).2

theorem ncard_trailsBy [DecidablePred hit] (h : Recorded out s p) (ht : t ≠ s) :
    (p.trailsBy s hit t).ncard = (p.preds[t].toList.map fun a =>
      if hit a then (p.trails s a.2).ncard else (p.trailsBy s hit a.2).ncard).sum := by
  rw [trailsBy_eq ht]
  refine (ncard_cons_union _ _ (h.once t) fun a _ => ?_).2.trans ?_
  · split
    · exact h.finite_trails a.2
    · exact h.finite_trailsBy a.2
  · refine congrArg List.sum (List.map_congr_left fun a _ => ?_)
    exact apply_ite Set.ncard ..

end Recorded

/-- The counts of a search are the numbers of its trails. -/
theorem Recorded.sigma_eq_ncard {S : Type} [AddMonoidWithOne S] {p : Paths D S n m}
    {out : Fin n → List (Fin m × Fin n)} (h : Recorded out s p) (t : Fin n) :
    p.sigma[t] = ((p.trails s t).ncard : S) := by
  by_cases ht : t ∈ p.order.toList
  · refine Before.induction h.nodup (P := fun t => p.sigma[t] = ((p.trails s t).ncard : S)) ?_ t ht
    intro t _ ih
    by_cases hts : t = s
    · rw [hts, h.sigma_source, h.trails_source]
      simp
    · rw [h.sigma t hts, h.ncard_trails hts, Nat.cast_list_sum, List.map_map]
      refine congrArg List.sum (List.map_congr_left fun a ha => ?_)
      exact ih a.2 (h.before t a ha)
  · rw [h.sigma_of_not_visited ht, h.trails_of_not_visited ht]
    simp

end Geodesic.Paths
