import Geodesic.Paths

/-!
# Tables that a search may start on

A restart clears only the vertices of the last order. That is enough exactly when every other vertex
is blank; on such tables a restart forgets all that came before.
-/

namespace Geodesic.Paths

variable {D S : Type} {n m : Nat} [Distance D] [Zero S]

structure Blank (p : Paths D S n m) (v : Fin n) : Prop where
  dist : p.dist[v] = Distance.unreached
  sigma : p.sigma[v] = 0
  preds : p.preds[v] = #[]

/-- What was not visited is blank. -/
def Tidy (p : Paths D S n m) : Prop :=
  ∀ v, v ∉ p.order.toList → p.Blank v

theorem blank_fresh (v : Fin n) : (fresh D S n m).Blank v :=
  ⟨by simp [fresh], by simp [fresh], by simp [fresh]⟩

theorem tidy_fresh : (fresh D S n m).Tidy :=
  fun v _ => blank_fresh v

theorem blank_forget (p : Paths D S n m) (v : Fin n) : (p.forget v).Blank v :=
  ⟨by simp [forget], by simp [forget], by simp [forget]⟩

theorem Blank.forget {p : Paths D S n m} {v : Fin n} (h : p.Blank v) (w : Fin n) :
    (p.forget w).Blank v := by
  by_cases hw : w = v
  · subst hw
    exact blank_forget p w
  · refine ⟨?_, ?_, ?_⟩
    · rw [← h.dist]
      exact Table.getElem_set_ne _ _ hw
    · rw [← h.sigma]
      exact Table.getElem_set_ne _ _ hw
    · rw [← h.preds]
      exact Table.getElem_set_ne _ _ hw

theorem blank_foldl_forget {vs : List (Fin n)} {p : Paths D S n m} {v : Fin n}
    (h : v ∈ vs ∨ p.Blank v) : (vs.foldl forget p).Blank v := by
  induction vs generalizing p with
  | nil =>
      rcases h with h | h
      · cases h
      · exact h
  | cons w vs ih =>
      apply ih
      by_cases hw : v = w
      · subst hw
        exact Or.inr (blank_forget p v)
      · rcases h with h | h
        · exact Or.inl ((List.mem_cons.mp h).resolve_left hw)
        · exact Or.inr (h.forget w)

/-- Clearing the visited vertices of tidy tables clears all of them. -/
theorem Tidy.blank_cleared {p : Paths D S n m} (h : p.Tidy) (v : Fin n) :
    (p.order.foldl forget p).Blank v := by
  rw [← Array.foldl_toList]
  apply blank_foldl_forget
  by_cases hv : v ∈ p.order.toList
  · exact Or.inl hv
  · exact Or.inr (h v hv)

variable [One S]

/-- On tidy tables a restart keeps nothing of the last search. -/
theorem Tidy.restart_eq {p : Paths D S n m} (h : p.Tidy) (s : Fin n) :
    p.restart s = (fresh D S n m).restart s := by
  have hp := h.blank_cleared
  have hf : ∀ v, ((fresh D S n m).order.foldl forget (fresh D S n m)).Blank v :=
    tidy_fresh.blank_cleared
  have hdist : (p.order.foldl forget p).dist =
      ((fresh D S n m).order.foldl forget (fresh D S n m)).dist :=
    Table.ext fun v => (hp v).dist.trans (hf v).dist.symm
  have hsigma : (p.order.foldl forget p).sigma =
      ((fresh D S n m).order.foldl forget (fresh D S n m)).sigma :=
    Table.ext fun v => (hp v).sigma.trans (hf v).sigma.symm
  have hpreds : (p.order.foldl forget p).preds =
      ((fresh D S n m).order.foldl forget (fresh D S n m)).preds :=
    Table.ext fun v => (hp v).preds.trans (hf v).preds.symm
  simp only [restart, hdist, hsigma, hpreds]

theorem Tidy.blank_restart {p : Paths D S n m} (h : p.Tidy) {s v : Fin n} (hv : s ≠ v) :
    (p.restart s).Blank v := by
  have hp := h.blank_cleared v
  refine ⟨?_, ?_, hp.preds⟩
  · rw [← hp.dist]
    exact Table.getElem_set_ne _ _ hv
  · rw [← hp.sigma]
    exact Table.getElem_set_ne _ _ hv

theorem dist_restart_self (p : Paths D S n m) (s : Fin n) :
    (p.restart s).dist[s] = Distance.zero := by
  simp [restart]

theorem sigma_restart_self (p : Paths D S n m) (s : Fin n) : (p.restart s).sigma[s] = 1 := by
  simp [restart]

theorem Tidy.preds_restart {p : Paths D S n m} (h : p.Tidy) (s v : Fin n) :
    (p.restart s).preds[v] = #[] :=
  (h.blank_cleared v).preds

end Geodesic.Paths
