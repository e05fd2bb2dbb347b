import Mathlib.Algebra.BigOperators.Fin
import Geodesic.Proofs.Paths.Weighted.Step

/-!
# The heap runs empty

The load of a search is the number of its entries plus the number of steps of the vertices that are
not settled yet. Taking an entry lowers it: a settled vertex trades its steps for at most as many
entries. Nothing is asked of the lengths, so a search ends on any weights whatever.
-/

namespace Geodesic.Frontier

variable {D S : Type} {n m : Nat} [Distance D] [Add S]

def openSteps (out : Fin n → List (Fin m × Fin n)) (f : Frontier D S n m) : Nat :=
  ∑ v : Fin n, if f.settled[v] then 0 else (out v).length

/-- A bound on the entries that are still to be taken. -/
def load (out : Fin n → List (Fin m × Fin n)) (f : Frontier D S n m) : Nat :=
  f.pending.size + f.openSteps out

variable {out : Fin n → List (Fin m × Fin n)} {weights : Table D m} {f : Frontier D S n m}

theorem load_relax_le (u : Fin n) (reach : D) (a : Fin m × Fin n) :
    (f.relax weights u reach a).load out ≤ f.load out + 1 := by
  have hr := relaxed_relax weights u reach f a
  generalize f.relax weights u reach a = f' at hr
  cases hr with
  | settled _ => exact Nat.le_succ _
  | unreached _ _ => exact Nat.le_succ _
  | longer _ _ _ _ => exact Nat.le_succ _
  | tied _ _ _ _ => exact Nat.le_succ _
  | improved _ _ _ =>
      rw [load, load, size_pending_improve, openSteps, settled_improve, ← openSteps]
      omega

theorem load_scan_le (u : Fin n) (reach : D) (todo : List (Fin m × Fin n)) :
    (todo.foldl (relax weights u reach) f).load out ≤ f.load out + todo.length := by
  induction todo generalizing f with
  | nil => exact Nat.le_refl _
  | cons a todo ih =>
      have hfirst : (f.relax weights u reach a).load out ≤ f.load out + 1 := load_relax_le u reach a
      have hrest := ih (f := f.relax weights u reach a)
      rw [List.foldl_cons, List.length_cons]
      omega

omit [Distance D] [Add S] in
theorem openSteps_mark {u : Fin n} (hu : f.settled[u] = false) (rest : Heap (Candidate D n)) :
    (f.mark u rest).openSteps out + (out u).length = f.openSteps out := by
  have hterm : ∀ v : Fin n, (if (f.mark u rest).settled[v] then 0 else (out v).length) +
      (if v = u then (out u).length else 0) = if f.settled[v] then 0 else (out v).length := by
    intro v
    rw [settled_mark]
    by_cases hv : u = v
    · subst hv
      simp [hu]
    · simp [hv, Ne.symm hv]
  unfold openSteps
  rw [← Finset.sum_congr rfl fun v _ => hterm v, Finset.sum_add_distrib, Finset.sum_ite_eq']
  simp

theorem load_advance_lt {f' : Frontier D S n m} (h : f.advance? out weights = some f') :
    f'.load out < f.load out := by
  cases advanced_of_advance h with
  | stale c rest hpop hc =>
      have hsize := Heap.size_pop _ hpop
      show rest.size + f.openSteps out < f.pending.size + f.openSteps out
      omega
  | settled c rest hpop hc =>
      have hsize := Heap.size_pop _ hpop
      have hopen : (f.mark c.vertex rest).openSteps out + (out c.vertex).length =
          f.openSteps out := openSteps_mark hc rest
      have hscan : ((out c.vertex).foldl (relax weights c.vertex f.paths.dist[c.vertex])
          (f.mark c.vertex rest)).load out ≤
          (f.mark c.vertex rest).load out + (out c.vertex).length := load_scan_le ..
      have hmark : (f.mark c.vertex rest).load out =
          rest.size + (f.mark c.vertex rest).openSteps out := rfl
      have hload : f.load out = f.pending.size + f.openSteps out := rfl
      omega

/-- Fuel for every entry empties the heap. -/
theorem drained_run (fuel : Nat) (h : f.load out ≤ fuel) :
    (f.run out weights fuel).pending.toList = [] := by
  induction fuel generalizing f with
  | zero =>
      have hsize : f.pending.size = 0 := by
        unfold load at h
        omega
      rw [← Heap.length_toList] at hsize
      exact List.length_eq_zero_iff.mp hsize
  | succ fuel ih =>
      unfold run
      split
      · rename_i hadv
        exact advance?_eq_none_iff.mp hadv
      · rename_i f' hadv
        have hlt := load_advance_lt hadv
        exact ih (by omega)

omit [Add S] in
theorem load_start [Zero S] [One S] (s : Fin n) (p : Paths D S n m) :
    (start s p).load out = Paths.stepCount out + 1 := by
  have hsize : (start s p).pending.size = 1 := rfl
  have hopen : (start s p).openSteps out = Paths.stepCount out := by
    unfold openSteps Paths.stepCount
    rw [List.length_flatMap, Fin.sum_univ_def]
    refine congrArg List.sum (List.map_congr_left fun v _ => ?_)
    simp [start, enter]
  rw [load, hsize, hopen, Nat.add_comm]

theorem drained_start [Zero S] [One S] (s : Fin n) (p : Paths D S n m) :
    ((start s p).run out weights (Paths.stepCount out + 1)).pending.toList = [] :=
  drained_run _ (load_start s p).le

end Geodesic.Frontier
