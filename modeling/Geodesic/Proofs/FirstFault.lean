import Mathlib.Data.List.Forall2

/-!
# The first fault

A chain of checks reports the fault of the first check that finds one. `Reports` says this of a
computation that may fail; it is put together along the computation.
-/

namespace Geodesic

variable {κ ε α β : Type} {finds : κ → ε → Prop} {k : κ} {ks ls : List κ} {e : ε}

def Faultless (finds : κ → ε → Prop) (ks : List κ) : Prop :=
  ∀ k ∈ ks, ∀ e, ¬ finds k e

/-- The fault `e` is found by the first of the checks that finds any. -/
def FirstFault (finds : κ → ε → Prop) (ks : List κ) (e : ε) : Prop :=
  ∃ before k after, ks = before ++ k :: after ∧ finds k e ∧ Faultless finds before

theorem faultless_nil : Faultless finds [] := by
  simp [Faultless]

theorem faultless_cons :
    Faultless finds (k :: ks) ↔ (∀ e, ¬ finds k e) ∧ Faultless finds ks := by
  simp [Faultless]

theorem not_firstFault_nil : ¬ FirstFault finds [] e := by
  rintro ⟨before, k, after, heq, -⟩
  cases before <;> cases heq

theorem firstFault_cons : FirstFault finds (k :: ks) e ↔
    finds k e ∨ (∀ e', ¬ finds k e') ∧ FirstFault finds ks e := by
  constructor
  · rintro ⟨before, l, after, heq, hfinds, hbefore⟩
    cases before with
    | nil =>
        obtain ⟨rfl, -⟩ := List.cons.inj heq
        exact Or.inl hfinds
    | cons b before =>
        obtain ⟨rfl, rfl⟩ := List.cons.inj heq
        obtain ⟨hfirst, hrest⟩ := faultless_cons.mp hbefore
        exact Or.inr ⟨hfirst, before, l, after, rfl, hfinds, hrest⟩
  · rintro (hfinds | ⟨hfirst, before, l, after, rfl, hfinds, hbefore⟩)
    · exact ⟨[], k, ks, rfl, hfinds, faultless_nil⟩
    · exact ⟨k :: before, l, after, rfl, hfinds, faultless_cons.mpr ⟨hfirst, hbefore⟩⟩

theorem firstFault_append : FirstFault finds (ks ++ ls) e ↔
    FirstFault finds ks e ∨ Faultless finds ks ∧ FirstFault finds ls e := by
  induction ks with
  | nil => simp [not_firstFault_nil, faultless_nil]
  | cons k ks ih =>
      rw [List.cons_append, firstFault_cons, firstFault_cons, faultless_cons, ih]
      grind

theorem exists_firstFault_iff : (∃ e, FirstFault finds ks e) ↔ ¬ Faultless finds ks := by
  induction ks with
  | nil => simp [not_firstFault_nil, faultless_nil]
  | cons k ks ih =>
      simp only [firstFault_cons, exists_or, exists_and_left, ih, faultless_cons]
      by_cases hfirst : ∃ e, finds k e
      · exact iff_of_true (Or.inl hfirst) fun h => hfirst.elim h.1
      · simp [not_exists.mp hfirst]

theorem firstFault_congr {ι : Type} {finds' : ι → ε → Prop} {ls : List ι}
    (h : List.Forall₂ (fun k l => ∀ e, finds k e ↔ finds' l e) ks ls) :
    FirstFault finds ks e ↔ FirstFault finds' ls e := by
  induction h with
  | nil => simp [not_firstFault_nil]
  | cons hsame _ ih => simp only [firstFault_cons, hsame, ih]

theorem bind_eq_ok_iff {x : Except ε α} {f : α → Except ε β} {b : β} :
    x >>= f = .ok b ↔ ∃ a, x = .ok a ∧ f a = .ok b := by
  cases x with
  | ok a =>
      have hnext : (.ok a >>= f : Except ε β) = f a := rfl
      simp [hnext]
  | error e =>
      have hfails : (.error e >>= f : Except ε β) = .error e := rfl
      simp [hfails]

theorem map_eq_ok_iff {x : Except ε α} {f : α → β} {b : β} :
    x.map f = .ok b ↔ ∃ a, x = .ok a ∧ f a = b := by
  cases x <;> simp [Except.map]

/-- A computation that fails exactly with the first fault that the checks find. -/
def Reports (finds : κ → ε → Prop) (ks : List κ) (x : Except ε α) : Prop :=
  ∀ e, x = .error e ↔ FirstFault finds ks e

namespace Reports

theorem ok (a : α) : Reports finds [] (.ok a : Except ε α) := by
  intro e
  simp [not_firstFault_nil]

theorem of_faultless (h : Faultless finds ks) (a : α) : Reports finds ks (.ok a : Except ε α) := by
  intro e
  refine iff_of_false (by simp) fun he => ?_
  exact exists_firstFault_iff.mp ⟨e, he⟩ h

theorem check {x : Except ε α} (h : ∀ e, x = .error e ↔ finds k e) : Reports finds [k] x := by
  intro e
  rw [h, firstFault_cons]
  simp [not_firstFault_nil]

theorem exists_ok_iff {x : Except ε α} (h : Reports finds ks x) :
    (∃ a, x = .ok a) ↔ Faultless finds ks := by
  cases x with
  | ok a =>
      have hnone : ¬ ∃ e, FirstFault finds ks e := by
        rintro ⟨e, he⟩
        cases (h e).mpr he
      rw [exists_firstFault_iff, Classical.not_not] at hnone
      exact iff_of_true ⟨a, rfl⟩ hnone
  | error e =>
      have hfault := exists_firstFault_iff.mp ⟨e, (h e).mp rfl⟩
      exact iff_of_false (fun ⟨a, ha⟩ => by cases ha) hfault

/-- The checks of a first step come before those of the rest. -/
theorem bind {x : Except ε α} {f : α → Except ε β} (hx : Reports finds ks x)
    (hf : ∀ a, x = .ok a → Reports finds ls (f a)) : Reports finds (ks ++ ls) (x >>= f) := by
  intro e
  rw [firstFault_append]
  cases x with
  | ok a =>
      have hfaultless := hx.exists_ok_iff.mp ⟨a, rfl⟩
      have hnone : ¬ FirstFault finds ks e := fun he => by cases (hx e).mpr he
      rw [or_iff_right hnone, and_iff_right hfaultless]
      exact hf a rfl e
  | error e' =>
      have hfault := exists_firstFault_iff.mp ⟨e', (hx e').mp rfl⟩
      have hfails : (.error e' >>= f : Except ε β) = .error e' := rfl
      have hsame := hx e
      rw [Except.error.injEq] at hsame
      rw [or_iff_left fun h => hfault h.1, hfails, Except.error.injEq]
      exact hsame

theorem map {x : Except ε α} (h : Reports finds ks x) (f : α → β) :
    Reports finds ks (x.map f) := by
  intro e
  rw [← h e]
  cases x <;> simp [Except.map]

theorem mapM {finds : α → ε → Prop} {f : α → Except ε β} {xs : List α}
    (hf : ∀ a ∈ xs, ∀ e, f a = .error e ↔ finds a e) : Reports finds xs (xs.mapM f) := by
  induction xs with
  | nil => exact ok []
  | cons a xs ih =>
      have hrest := ih fun b hb => hf b (List.mem_cons_of_mem _ hb)
      have hall : Reports finds ([a] ++ (xs ++ [])) ((a :: xs).mapM f) := by
        rw [List.mapM_cons]
        exact (check (hf a List.mem_cons_self)).bind fun b _ => hrest.bind fun bs _ => ok (b :: bs)
      rwa [List.append_nil] at hall

end Reports

end Geodesic
