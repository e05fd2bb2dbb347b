import Mathlib.Data.List.Basic
import Mathlib.Data.List.Induction

/-!
# Positions in a visiting order

`Before l x y` says that `x` stands at an earlier place of `l` than `y`. The order of a search grows
at its end, so the facts are about `l ++ [w]`.
-/

namespace Geodesic

variable {α : Type} {l : List α} {w x y : α}

theorem notMem_of_nodup {r : List α} (hl : (l ++ w :: r).Nodup) : w ∉ l :=
  fun hmem => (List.nodup_append.mp hl).2.2 w hmem w (by simp) rfl

/-- `x` stands before `y` in `l`. -/
def Before (l : List α) (x y : α) : Prop :=
  [x, y].Sublist l

namespace Before

theorem left_mem (h : Before l x y) : x ∈ l :=
  h.subset (by simp)

theorem right_mem (h : Before l x y) : y ∈ l :=
  h.subset (by simp)

theorem concat (h : Before l x y) (w : α) : Before (l ++ [w]) x y :=
  h.trans (List.sublist_append_left l [w])

theorem last (hx : x ∈ l) (w : α) : Before (l ++ [w]) x w :=
  (List.singleton_sublist.mpr hx).append (List.Sublist.refl [w])

theorem append {r : List α} (hx : x ∈ l) (hy : y ∈ r) : Before (l ++ r) x y :=
  (List.singleton_sublist.mpr hx).append (List.singleton_sublist.mpr hy)

theorem of_concat (h : Before (l ++ [w]) x y) : Before l x y ∨ (x ∈ l ∧ y = w) := by
  obtain ⟨l₁, l₂, heq, h₁, h₂⟩ := List.sublist_append_iff.mp h
  rcases List.sublist_singleton.mp h₂ with rfl | rfl
  · rw [List.append_nil] at heq
    subst heq
    exact Or.inl h₁
  · have hsplit : [x] ++ [y] = l₁ ++ [w] := heq
    obtain ⟨rfl, hy⟩ := List.append_inj' hsplit rfl
    exact Or.inr ⟨List.singleton_sublist.mp h₁, List.singleton_injective hy⟩

theorem of_concat_of_mem (hw : w ∉ l) (hy : y ∈ l) (h : Before (l ++ [w]) x y) : Before l x y := by
  rcases h.of_concat with h | ⟨_, rfl⟩
  · exact h
  · exact absurd hy hw

theorem mem_of_concat (hw : w ∉ l) (h : Before (l ++ [w]) x w) : x ∈ l := by
  rcases h.of_concat with h | ⟨hx, _⟩
  · exact absurd h.right_mem hw
  · exact hx

/-- What stands before an element lies in the part of the order that ends before it. -/
theorem mem_of_append {r : List α} (hl : (l ++ w :: r).Nodup) (h : Before (l ++ w :: r) x w) :
    x ∈ l := by
  obtain ⟨l₁, l₂, heq, h₁, h₂⟩ := List.sublist_append_iff.mp h
  have hw : w ∉ l := notMem_of_nodup hl
  have hr : w ∉ r := (List.nodup_cons.mp (List.nodup_append.mp hl).2.1).1
  cases l₁ with
  | cons y l₁ =>
      obtain ⟨rfl, _⟩ := List.cons.inj heq
      exact h₁.subset (by simp)
  | nil =>
      rw [List.nil_append] at heq
      subst heq
      have hpair : [w].Sublist r := by
        cases h₂ with
        | cons _ h => exact (List.sublist_cons_self x [w]).trans h
        | cons_cons _ h => exact h
      exact absurd (List.singleton_sublist.mp hpair) hr

theorem not_last (hw : w ∉ l) : ¬ Before (l ++ [w]) w y := by
  intro h
  rcases h.of_concat with h | ⟨hx, _⟩
  · exact hw h.left_mem
  · exact hw hx

theorem irrefl (hl : l.Nodup) : ¬ Before l x x := by
  intro h
  have := h.nodup hl
  simp at this

protected theorem trans (hl : l.Nodup) {z : α} (hxy : Before l x y) (hyz : Before l y z) :
    Before l x z := by
  induction l using List.reverseRecOn with
  | nil => exact absurd hxy.left_mem List.not_mem_nil
  | append_singleton l w ih =>
      have hw : w ∉ l := notMem_of_nodup hl
      rcases hyz.of_concat with hyz | ⟨hy, rfl⟩
      · have hxy := hxy.of_concat_of_mem hw hyz.left_mem
        exact (ih (List.nodup_append.mp hl).1 hxy hyz).concat w
      · exact last (hxy.of_concat_of_mem hw hy).left_mem z

theorem asymm (hl : l.Nodup) (h : Before l x y) : ¬ Before l y x :=
  fun h' => irrefl hl (Before.trans hl h h')

theorem total (hx : x ∈ l) (hy : y ∈ l) (hxy : x ≠ y) : Before l x y ∨ Before l y x := by
  induction l using List.reverseRecOn with
  | nil => cases hx
  | append_singleton l w ih =>
      rcases List.mem_append.mp hx with hx | hx
      · rcases List.mem_append.mp hy with hy | hy
        · exact (ih hx hy).imp (·.concat w) (·.concat w)
        · rw [List.mem_singleton.mp hy]
          exact Or.inl (last hx w)
      · rw [List.mem_singleton.mp hx] at hxy ⊢
        rcases List.mem_append.mp hy with hy | hy
        · exact Or.inr (last hy w)
        · exact absurd (List.mem_singleton.mp hy).symm hxy

/-- Induction along an order: what follows from all earlier elements holds of all elements. -/
theorem induction {P : α → Prop} (hl : l.Nodup)
    (step : ∀ y ∈ l, (∀ x, Before l x y → P x) → P y) : ∀ y ∈ l, P y := by
  induction l using List.reverseRecOn with
  | nil => simp
  | append_singleton l w ih =>
      have hw : w ∉ l := notMem_of_nodup hl
      have hP : ∀ y ∈ l, P y := by
        refine ih (List.nodup_append.mp hl).1 fun y hy hbefore => ?_
        refine step y (List.mem_append_left _ hy) fun x hxy => ?_
        exact hbefore x (hxy.of_concat_of_mem hw hy)
      intro y hy
      rcases List.mem_append.mp hy with hy | hy
      · exact hP y hy
      · rw [List.mem_singleton.mp hy]
        exact step w (by simp) fun x hxw => hP x (hxw.mem_of_concat hw)

end Before

/-- Orders of the same elements are the same when each element is determined by those before it. -/
theorem eq_of_next {l l' : List α} (hl : l.Nodup) (hl' : l'.Nodup) (hmem : ∀ x, x ∈ l ↔ x ∈ l')
    (hnext : ∀ (init : List α) (x y : α) (rest rest' : List α), l = init ++ x :: rest →
      l' = init ++ y :: rest' → x = y) : l = l' := by
  have hrest : ∀ rest rest' init : List α, l = init ++ rest → l' = init ++ rest' →
      rest = rest' := by
    intro rest
    induction rest with
    | nil =>
        intro rest' init heq heq'
        cases rest' with
        | nil => rfl
        | cons y rest' =>
            have hy : y ∈ init := by simpa [heq] using (hmem y).mpr (by simp [heq'])
            rw [heq'] at hl'
            exact absurd hy (notMem_of_nodup hl')
    | cons x rest ih =>
        intro rest' init heq heq'
        cases rest' with
        | nil =>
            have hx : x ∈ init := by simpa [heq'] using (hmem x).mp (by simp [heq])
            rw [heq] at hl
            exact absurd hx (notMem_of_nodup hl)
        | cons y rest' =>
            have hxy : x = y := hnext init x y rest rest' heq heq'
            subst hxy
            rw [ih rest' (init ++ [x]) (by simp [heq]) (by simp [heq'])]
  exact hrest l l' [] rfl rfl

end Geodesic
