import Geodesic.Proofs.Paths.Weighted.Record

/-!
# Following the steps of a settled vertex

A vertex is settled once and each of its steps is tried once, so a step still to be tried is not
recorded yet. `Scanning` is what holds in the middle of the list of steps.
-/

namespace Geodesic.Frontier

variable {D S : Type} {n m : Nat} [Distance D] [Zero S] [One S] [Add S]

/-- The steps `todo` of the settled vertex `u` are still to be tried. -/
structure Scanning (out : Fin n → List (Fin m × Fin n)) (u : Fin n) (todo : List (Fin m × Fin n))
    (f : Frontier D S n m) : Prop where
  visited : u ∈ f.paths.order.toList
  nodup : todo.Nodup
  steps : ∀ a ∈ todo, a ∈ out u
  untried : ∀ a ∈ todo, (a.1, u) ∉ f.paths.preds[a.2].toList

variable {out : Fin n → List (Fin m × Fin n)} {weights : Table D m} {s u : Fin n}
  {f : Frontier D S n m} {a : Fin m × Fin n} {todo : List (Fin m × Fin n)}

/-- Distances of settled vertices are final. -/
theorem Record.dist_relax (h : Record out weights s f) (reach : D) {v : Fin n}
    (hv : v ∈ f.paths.order.toList) :
    (f.relax weights u reach a).paths.dist[v] = f.paths.dist[v] := by
  by_cases hne : a.2 = v
  · subst hne
    rw [relax_of_settled weights u reach ((h.settled_iff _).mpr hv)]
  · exact (revised_relax weights u reach f a).dist v hne

omit [Zero S] [One S] in
theorem Scanning.relax (h : Scanning out u (a :: todo) f) (reach : D) :
    Scanning out u todo (f.relax weights u reach a) where
  visited := by
    rw [(revised_relax weights u reach f a).order]
    exact h.visited
  nodup := (List.nodup_cons.mp h.nodup).2
  steps b hb := h.steps b (List.mem_cons_of_mem _ hb)
  untried b hb hmem := by
    rcases mem_preds_relax hmem with hmem | ⟨heq, htarget⟩
    · exact h.untried b (List.mem_cons_of_mem _ hb) hmem
    · have hedge : b.1 = a.1 := (Prod.mk.inj heq).1
      have : b = a := Prod.ext hedge htarget
      exact (List.nodup_cons.mp h.nodup).1 (this ▸ hb)

theorem Record.scan (h : Record out weights s f) (hs : Scanning out u todo f) {reach : D}
    (hreach : f.paths.dist[u] = reach) :
    Record out weights s (todo.foldl (Frontier.relax weights u reach) f) := by
  induction todo generalizing f with
  | nil => exact h
  | cons a todo ih =>
      have ha : a ∈ out u := hs.steps a (by simp)
      have hnext := h.relax hs.visited ha (hs.untried a (by simp))
      rw [hreach] at hnext
      apply ih hnext (hs.relax reach)
      rw [h.dist_relax reach hs.visited, hreach]

/-- A vertex that is settled just now has no recorded step of its own. -/
theorem Record.scanning_mark (h : Record out weights s f) (hout : (out u).Nodup)
    (hu : f.settled[u] = false) (rest : Heap (Candidate D n)) :
    Scanning out u (out u) (f.mark u rest) where
  visited := by simp
  nodup := hout
  steps _ ha := ha
  untried a _ hmem := h.not_visited hu (h.step a.2 (a.1, u) hmem).2

theorem Record.advance (h : Record out weights s f) (hout : ∀ u, (out u).Nodup)
    {f' : Frontier D S n m} (hadv : f.advance? out weights = some f') :
    Record out weights s f' := by
  cases advanced_of_advance hadv with
  | stale c rest hpop hc => exact h.drop (Heap.toList_pop _ hpop) hc
  | settled c rest hpop hc =>
      exact (h.mark (Heap.toList_pop _ hpop) hc).scan (h.scanning_mark (hout _) hc rest) rfl

theorem Record.run (h : Record out weights s f) (hout : ∀ u, (out u).Nodup) (fuel : Nat) :
    Record out weights s (f.run out weights fuel) := by
  induction fuel generalizing f with
  | zero => exact h
  | succ fuel ih =>
      unfold Frontier.run
      split
      · exact h
      · rename_i f' hadv
        exact ih (h.advance hout hadv)

end Geodesic.Frontier
