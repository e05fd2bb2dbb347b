import Mathlib.Data.List.Nodup
import Geodesic.Dependency
import Geodesic.Proofs.Paths.Recorded

/-!
# What handing back touches

Whatever the numbers are, a vertex hands only to the recorded steps that enter it: each of their
edges is credited once, their origins owe it on, and nothing else changes. After a whole sweep the
dependencies are cleared.
-/

namespace Geodesic.Dependency

open Paths (Searched)

variable {D S : Type} {n m : Nat} {p : Paths D S n m} {out : Fin n → List (Fin m × Fin n)}
  {s w v : Fin n} {e : Fin m} {c : S} {steps : List (Fin m × Fin n)} {d : Dependency S n m}

/-! ## The steps into one vertex -/

section Steps

variable [Add S] [Mul S]

theorem delta_creditStep_of_ne {a : Fin m × Fin n} (h : a.2 ≠ v) :
    (creditStep p c d a).delta[v] = d.delta[v] :=
  Table.getElem_set_ne _ _ h

theorem delta_creditStep_self (a : Fin m × Fin n) :
    (creditStep p c d a).delta[a.2] = d.delta[a.2] + p.sigma[a.2] * c :=
  Table.getElem_set_self _ _ _

theorem edges_creditStep_of_ne {a : Fin m × Fin n} (h : a.1 ≠ e) :
    (creditStep p c d a).tally.edges[e] = d.tally.edges[e] :=
  Table.getElem_set_ne _ _ h

theorem edges_creditStep_self (a : Fin m × Fin n) :
    (creditStep p c d a).tally.edges[a.1] = d.tally.edges[a.1] + p.sigma[a.2] * c :=
  Table.getElem_set_self _ _ _

theorem delta_foldl_of_ne (h : ∀ a ∈ steps, a.2 ≠ v) :
    (steps.foldl (creditStep p c) d).delta[v] = d.delta[v] := by
  induction steps generalizing d with
  | nil => rfl
  | cons a steps ih =>
      rw [List.foldl_cons, ih fun b hb => h b (List.mem_cons_of_mem a hb)]
      exact delta_creditStep_of_ne (h a (by simp))

theorem edges_foldl_of_ne (h : ∀ a ∈ steps, a.1 ≠ e) :
    (steps.foldl (creditStep p c) d).tally.edges[e] = d.tally.edges[e] := by
  induction steps generalizing d with
  | nil => rfl
  | cons a steps ih =>
      rw [List.foldl_cons, ih fun b hb => h b (List.mem_cons_of_mem a hb)]
      exact edges_creditStep_of_ne (h a (by simp))

theorem edges_foldl_of_mem (hnodup : (steps.map Prod.fst).Nodup) {a : Fin m × Fin n}
    (ha : a ∈ steps) : (steps.foldl (creditStep p c) d).tally.edges[a.1] =
      d.tally.edges[a.1] + p.sigma[a.2] * c := by
  induction steps generalizing d with
  | nil => cases ha
  | cons b steps ih =>
      rw [List.map_cons, List.nodup_cons] at hnodup
      rw [List.foldl_cons]
      rcases List.mem_cons.mp ha with rfl | ha
      · have hother : ∀ b ∈ steps, b.1 ≠ a.1 :=
          fun b hb heq => hnodup.1 (List.mem_map.mpr ⟨b, hb, heq⟩)
        rw [edges_foldl_of_ne hother, edges_creditStep_self]
      · have hne : b.1 ≠ a.1 := fun heq => hnodup.1 (List.mem_map.mpr ⟨a, ha, heq.symm⟩)
        rw [ih hnodup.2 ha, edges_creditStep_of_ne hne]

theorem vertices_foldl_creditStep (c : S) (steps : List (Fin m × Fin n))
    (d : Dependency S n m) :
    (steps.foldl (creditStep p c) d).tally.vertices = d.tally.vertices := by
  induction steps generalizing d with
  | nil => rfl
  | cons a steps ih => exact ih _

omit [Mul S] in
theorem delta_creditVertex (d : Dependency S n m) (w v : Fin n) :
    (creditVertex p d w).delta[v] = d.delta[v] := by
  unfold creditVertex
  split <;> rfl

omit [Mul S] in
theorem edges_creditVertex (d : Dependency S n m) (w : Fin n) (e : Fin m) :
    (creditVertex p d w).tally.edges[e] = d.tally.edges[e] := by
  unfold creditVertex
  split <;> rfl

omit [Mul S] in
theorem vertices_creditVertex_of_ne (h : w ≠ v) :
    (creditVertex p d w).tally.vertices[v] = d.tally.vertices[v] := by
  unfold creditVertex
  split
  · rfl
  · exact Table.getElem_set_ne _ _ h

omit [Mul S] in
/-- The source is not credited, every other vertex with its own dependency. -/
theorem vertices_creditVertex_self (d : Dependency S n m) (w : Fin n) :
    (creditVertex p d w).tally.vertices[w] = d.tally.vertices[w] ∨
      (creditVertex p d w).tally.vertices[w] = d.tally.vertices[w] + d.delta[w] := by
  unfold creditVertex
  split
  · exact Or.inl rfl
  · exact Or.inr (Table.getElem_set_self _ _ _)

end Steps

/-! ## A whole sweep -/

theorem foldl_clear [Zero S] (vs : List (Fin n)) (d : Dependency S n m) :
    (vs.foldl clear d).tally = d.tally ∧
      ∀ v : Fin n, (vs.foldl clear d).delta[v] = if v ∈ vs then 0 else d.delta[v] := by
  induction vs generalizing d with
  | nil => simp
  | cons w vs ih =>
      obtain ⟨htally, hdelta⟩ := ih (d.clear w)
      refine ⟨htally, fun v => ?_⟩
      rw [List.foldl_cons, hdelta]
      by_cases hv : v ∈ vs
      · simp [hv]
      · simp only [hv, if_false, List.mem_cons, or_false, clear, Table.getElem_set]
        by_cases hw : w = v
        · simp [hw]
        · simp [hw, Ne.symm hw]

variable [Zero S] [One S] [Add S] [Mul S] [Div S] [LE S] [DecidableLE S]

theorem accumulate_eq (p : Paths D S n m) (d : Dependency S n m) : d.accumulate p =
    p.order.toList.foldl clear (p.order.toList.reverse.foldl (passBack p) d) := by
  unfold accumulate
  rw [← Array.foldl_toList, ← Array.foldl_toList, Array.toList_reverse]

theorem passBack_of_nonpos (hw : p.sigma[w] ≤ 0) : passBack p d w = d :=
  if_pos hw

theorem passBack_eq (hw : ¬ p.sigma[w] ≤ 0) : passBack p d w =
    (p.preds[w].toList.foldl (creditStep p ((1 + d.delta[w]) / p.sigma[w])) d).creditVertex p w := by
  unfold passBack
  rw [if_neg hw, Array.foldl_toList]

/-- Only origins of recorded steps are handed anything. -/
theorem delta_passBack_of_ne (h : ∀ a ∈ p.preds[w].toList, a.2 ≠ v) :
    (passBack p d w).delta[v] = d.delta[v] := by
  by_cases hw : p.sigma[w] ≤ 0
  · rw [passBack_of_nonpos hw]
  · rw [passBack_eq hw, delta_creditVertex, delta_foldl_of_ne h]

theorem edges_passBack_of_ne (h : ∀ a ∈ p.preds[w].toList, a.1 ≠ e) :
    (passBack p d w).tally.edges[e] = d.tally.edges[e] := by
  by_cases hw : p.sigma[w] ≤ 0
  · rw [passBack_of_nonpos hw]
  · rw [passBack_eq hw, edges_creditVertex, edges_foldl_of_ne h]

theorem vertices_passBack_of_ne (h : w ≠ v) :
    (passBack p d w).tally.vertices[v] = d.tally.vertices[v] := by
  by_cases hw : p.sigma[w] ≤ 0
  · rw [passBack_of_nonpos hw]
  · rw [passBack_eq hw, vertices_creditVertex_of_ne h, vertices_foldl_creditStep]

theorem sweep_of_ne {T : Type} {x : Dependency S n m → T} {ws : List (Fin n)}
    (h : ∀ w ∈ ws, ∀ d : Dependency S n m, x (passBack p d w) = x d) (d : Dependency S n m) :
    x (ws.foldl (passBack p) d) = x d :=
  List.foldlRecOn (motive := fun d' => x d' = x d) ws (passBack p) rfl
    fun d' hd' w hw => (h w hw d').trans hd'

/-- The dependencies are cleared again. -/
theorem delta_accumulate (hzero : ∀ v : Fin n, d.delta[v] = 0) (h : Searched out s p) (v : Fin n) :
    (d.accumulate p).delta[v] = 0 := by
  rw [accumulate_eq, (foldl_clear ..).2]
  by_cases hv : v ∈ p.order.toList
  · rw [if_pos hv]
  · have hkept : ∀ w ∈ p.order.toList.reverse, ∀ d : Dependency S n m,
        (passBack p d w).delta[v] = d.delta[v] := by
      intro w _ d
      refine delta_passBack_of_ne fun a ha heq => hv ?_
      rw [← heq]
      exact (h.before w a ha).left_mem
    rw [if_neg hv]
    exact (sweep_of_ne (x := fun d => d.delta[v]) hkept d).trans (hzero v)

end Geodesic.Dependency
