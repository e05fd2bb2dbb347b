import Geodesic.Proofs.Paths.Recorded
import Geodesic.Proofs.Paths.Weighted.Drain
import Geodesic.Proofs.Paths.Weighted.Scan

/-!
# The end of a search by total weight

The search ends on an empty heap, so every vertex that was ever entered is settled. What holds after
the source is settled and survives every further entry holds of the tables that are left.
-/

namespace Geodesic.Paths

open Frontier (Record)

variable {D S : Type} {n m : Nat} [Distance D]

section

variable [Zero S] [One S] [Add S] {out : Fin n → List (Fin m × Fin n)} {weights : Table D m}
  {s : Fin n} {p : Paths D S n m} {f : Frontier D S n m}

def settleSource (out : Fin n → List (Fin m × Fin n)) (weights : Table D m) (s : Fin n)
    (p : Paths D S n m) : Frontier D S n m :=
  (out s).foldl (Frontier.relax weights s Distance.zero)
    ((Frontier.start s p).mark s Heap.empty)

omit [Add S] in
theorem scanning_start (hp : p.Tidy) (hout : ∀ u, (out u).Nodup) (s : Fin n) :
    Frontier.Scanning out s (out s) ((Frontier.start s p).mark s Heap.empty) where
  visited := by simp
  nodup := hout s
  steps _ ha := ha
  untried a _ hmem := by
    have hnil : ((Frontier.start s p).mark s Heap.empty).paths.preds[a.2].toList = [] :=
      congrArg Array.toList (hp.preds_restart s a.2)
    rw [hnil] at hmem
    cases hmem

theorem record_settleSource (hp : p.Tidy) (hout : ∀ u, (out u).Nodup) (s : Fin n) :
    Record out weights s (settleSource out weights s p) :=
  (Record.start hp s).scan (scanning_start hp hout s) (dist_restart_self p s)

theorem weighted_eq (s : Fin n) :
    p.weighted out weights s = ((settleSource out weights s p).run out weights
      (stepCount out)).paths := by
  rw [weighted, Frontier.run, Frontier.advance?_start]
  rfl

theorem drained_settleSource (s : Fin n) :
    ((settleSource out weights s p).run out weights (stepCount out)).pending.toList = [] := by
  have hlt := Frontier.load_advance_lt (Frontier.advance?_start out weights s p)
  rw [Frontier.load_start] at hlt
  exact Frontier.drained_run _ (Nat.le_of_lt_succ hlt)

/-- What survives every entry holds at the end, where no entry is left. -/
theorem exists_final (hp : p.Tidy) (hout : ∀ u, (out u).Nodup) (s : Fin n)
    {P : Frontier D S n m → Prop} (hfirst : P (settleSource out weights s p))
    (hstep : ∀ f f', Record out weights s f → P f → f.advance? out weights = some f' → P f') :
    ∃ f, f.paths = p.weighted out weights s ∧ f.pending.toList = [] ∧
      Record out weights s f ∧ P f := by
  have hrun : ∀ fuel f, Record out weights s f → P f → P (f.run out weights fuel) := by
    intro fuel
    induction fuel with
    | zero => exact fun f _ hf => hf
    | succ fuel ih =>
        intro f hrec hf
        unfold Frontier.run
        split
        · exact hf
        · rename_i f' hadv
          exact ih f' (hrec.advance hout hadv) (hstep f f' hrec hf hadv)
  have hrec : Record out weights s (settleSource out weights s p) :=
    record_settleSource hp hout s
  exact ⟨_, (weighted_eq s).symm, drained_settleSource s, hrec.run hout _,
    hrun _ _ hrec hfirst⟩

/-- With no entry left, the known vertices are the visited ones. -/
theorem known_iff_visited (hrec : Record out weights s f) (hempty : f.pending.toList = [])
    (v : Fin n) : v ∈ f.paths.order.toList ↔ v = s ∨ f.paths.preds[v].toList ≠ [] := by
  constructor
  · exact hrec.known_of_visited v
  · rintro (rfl | hne)
    · exact hrec.source_visited
    · rcases hrec.entered v hne with hvis | ⟨c, hc, _⟩
      · exact hvis
      · rw [hempty] at hc
        cases hc

theorem dist_not_visited (hrec : Record out weights s f) (hempty : f.pending.toList = [])
    {v : Fin n} (hv : v ∉ f.paths.order.toList) : f.paths.dist[v] = Distance.unreached := by
  rw [known_iff_visited hrec hempty, not_or, not_not] at hv
  exact hrec.unknown v hv.1 hv.2

theorem tidy_weighted (hp : p.Tidy) (hout : ∀ u, (out u).Nodup) (s : Fin n) :
    (p.weighted out weights s).Tidy := by
  obtain ⟨f, hf, hempty, hrec, -⟩ : ∃ f : Frontier D S n m, f.paths = p.weighted out weights s ∧
      f.pending.toList = [] ∧ Record out weights s f ∧ True :=
    exists_final hp hout s trivial fun _ _ _ _ _ => trivial
  intro v hv
  rw [← hf] at hv ⊢
  have hknown := hv
  rw [known_iff_visited hrec hempty, not_or, not_not] at hknown
  refine ⟨dist_not_visited hrec hempty hv, ?_, Array.toList_eq_nil_iff.mp hknown.2⟩
  rw [hrec.sigma v hknown.1, hknown.2]
  rfl

theorem counted_weighted (hp : p.Tidy) (hout : ∀ u, (out u).Nodup) (s : Fin n) :
    Counted out s (p.weighted out weights s) := by
  obtain ⟨f, hf, hempty, hrec, -⟩ : ∃ f : Frontier D S n m, f.paths = p.weighted out weights s ∧
      f.pending.toList = [] ∧ Record out weights s f ∧ True :=
    exists_final hp hout s trivial fun _ _ _ _ _ => trivial
  rw [← hf]
  exact {
    source := hrec.source
    nodup := hrec.nodup
    head := hrec.head
    visited_iff := known_iff_visited hrec hempty
    sigma_source := hrec.sigma_source
    preds_source := hrec.preds_source
    step := fun v a ha => (hrec.step v a ha).1
    before := fun v a ha => hrec.before v
      ((known_iff_visited hrec hempty v).mpr (Or.inr (List.ne_nil_of_mem ha))) a ha
    once := hrec.once
    sigma := fun v hv => Or.inr (hrec.sigma v hv) }

end

variable [AddMonoid S] [One S] {out : Fin n → List (Fin m × Fin n)} {weights : Table D m}
  {p : Paths D S n m}

theorem recorded_weighted (hp : p.Tidy) (hout : ∀ u, (out u).Nodup) (s : Fin n) :
    Recorded out s (p.weighted out weights s) :=
  (counted_weighted hp hout s).recorded

end Geodesic.Paths
