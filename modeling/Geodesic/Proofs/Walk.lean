import Geodesic.Distance
import Geodesic.Table

/-!
# Walks

A walk is the list of its edge numbers; parallel edges make different walks. `out u` lists the steps
that leave `u`, each an edge and the vertex it leads to. Lengths are added from left to right, since
machine addition is not associative.
-/

namespace Geodesic

section Leads

variable {n m : Nat}

/-- The edges lead from the first vertex to the second. -/
def Leads (out : Fin n → List (Fin m × Fin n)) : Fin n → List (Fin m) → Fin n → Prop
  | u, [], v => u = v
  | u, e :: es, v => ∃ w, (e, w) ∈ out u ∧ Leads out w es v

variable {out : Fin n → List (Fin m × Fin n)}

@[simp] theorem leads_nil {u v : Fin n} : Leads out u [] v ↔ u = v := Iff.rfl

@[simp] theorem leads_cons {u v : Fin n} {e : Fin m} {es : List (Fin m)} :
    Leads out u (e :: es) v ↔ ∃ w, (e, w) ∈ out u ∧ Leads out w es v := Iff.rfl

theorem leads_append {u v : Fin n} {es fs : List (Fin m)} :
    Leads out u (es ++ fs) v ↔ ∃ w, Leads out u es w ∧ Leads out w fs v := by
  induction es generalizing u with
  | nil => simp
  | cons e es ih =>
      simp only [List.cons_append, leads_cons, ih]
      constructor
      · rintro ⟨x, hx, w, hes, hfs⟩
        exact ⟨w, ⟨x, hx, hes⟩, hfs⟩
      · rintro ⟨w, ⟨x, hx, hes⟩, hfs⟩
        exact ⟨x, hx, w, hes, hfs⟩

theorem leads_concat {u v : Fin n} {es : List (Fin m)} {e : Fin m} :
    Leads out u (es ++ [e]) v ↔ ∃ w, Leads out u es w ∧ (e, v) ∈ out w := by
  simp [leads_append]

theorem exists_first_step {u v : Fin n} {es : List (Fin m)} (h : Leads out u es v) (huv : u ≠ v) :
    ∃ a ∈ out u, ∃ fs, es = a.1 :: fs ∧ Leads out a.2 fs v := by
  cases es with
  | nil => exact absurd h huv
  | cons e es =>
      obtain ⟨w, hstep, hrest⟩ := h
      exact ⟨(e, w), hstep, es, rfl, hrest⟩

/-- Two listings of the same steps between different vertices. -/
def SameSteps (out out' : Fin n → List (Fin m × Fin n)) : Prop :=
  ∀ (u v : Fin n) (e : Fin m), u ≠ v → ((e, v) ∈ out u ↔ (e, v) ∈ out' u)

theorem SameSteps.symm {out' : Fin n → List (Fin m × Fin n)} (h : SameSteps out out') :
    SameSteps out' out :=
  fun u v e huv => (h u v e huv).symm

/-- A walk takes the same steps in the other listing, with some loops left out. -/
theorem SameSteps.exists_walk {out' : Fin n → List (Fin m × Fin n)} (h : SameSteps out out')
    {u v : Fin n} {es : List (Fin m)} (hes : Leads out u es v) :
    ∃ fs : List (Fin m), fs.Sublist es ∧ Leads out' u fs v := by
  induction es generalizing u with
  | nil => exact ⟨[], List.Sublist.refl [], hes⟩
  | cons e es ih =>
      obtain ⟨w, hstep, hrest⟩ := hes
      obtain ⟨fs, hsub, hfs⟩ := ih hrest
      by_cases huw : u = w
      · rw [huw]
        exact ⟨fs, hsub.cons e, hfs⟩
      · exact ⟨e :: fs, hsub.cons_cons e, w, (h u w e huw).mp hstep, hfs⟩

/-- Once `a` is tried, only the steps behind it are waived. -/
theorem waived_cons {u x : Fin n} {a b : Fin m × Fin n} {todo : List (Fin m × Fin n)}
    (hb : x = u → b ∉ todo) (hne : ¬ (x = u ∧ b = a)) : x = u → b ∉ a :: todo := by
  intro hxu hmem
  rcases List.mem_cons.mp hmem with hba | hmem
  · exact hne ⟨hxu, hba⟩
  · exact hb hxu hmem

end Leads

namespace Distance

variable {D : Type} [Distance D] {m : Nat}

def total (weights : Table D m) (es : List (Fin m)) : D :=
  es.foldl (fun d e => add d weights[e]) zero

@[simp] theorem total_nil (weights : Table D m) : total weights [] = zero := rfl

theorem total_concat (weights : Table D m) (es : List (Fin m)) (e : Fin m) :
    total weights (es ++ [e]) = add (total weights es) weights[e] := by
  simp [total]

end Distance

end Geodesic
