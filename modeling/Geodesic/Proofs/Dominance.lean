import Mathlib.Algebra.BigOperators.Fin
import Mathlib.Algebra.BigOperators.Group.List.Basic
import Mathlib.Algebra.Order.BigOperators.Group.Finset
import Mathlib.Algebra.Order.BigOperators.Group.List
import Mathlib.Algebra.Order.Field.Rat
import Mathlib.Data.Fintype.Lattice
import Mathlib.Tactic.FieldSimp
import Mathlib.Tactic.Linarith
import Mathlib.Tactic.Ring
import Geodesic.Dominance

/-!
# Bounds for the central point dominance

The largest score is one of the scores or zero. So no distance below it is negative, and one of them
is zero, which is why the mean is taken over the other vertices. The mean is zero when all scores are
the same, and it is the largest score when no other vertex has a score.
-/

namespace Geodesic

variable {scores : Array ℚ}

/-! ## The largest score -/

theorem largest_eq (scores : Array ℚ) : largest scores = scores.toList.foldl max 0 := by
  unfold largest
  rw [← Array.foldl_toList]
  rfl

theorem le_largest {c : ℚ} (hc : c ∈ scores.toList) : c ≤ largest scores := by
  have hfold : ∀ (l : List ℚ) (top : ℚ), (c ∈ l ∨ c ≤ top) → c ≤ l.foldl max top := by
    intro l
    induction l with
    | nil => simp
    | cons d l ih =>
        intro top h
        apply ih
        rcases h with h | h
        · rcases List.mem_cons.mp h with rfl | h
          · exact Or.inr (le_max_right _ _)
          · exact Or.inl h
        · exact Or.inr (le_max_of_le_left h)
  rw [largest_eq]
  exact hfold _ 0 (Or.inl hc)

theorem largest_le {bound : ℚ} (hbound : 0 ≤ bound) (h : ∀ c ∈ scores.toList, c ≤ bound) :
    largest scores ≤ bound := by
  rw [largest_eq]
  exact List.foldlRecOn (motive := fun top => top ≤ bound) _ _ hbound
    fun top htop c hc => max_le htop (h c hc)

theorem exists_largest_le (hne : scores.toList ≠ []) (h : ∀ c ∈ scores.toList, 0 ≤ c) :
    ∃ c ∈ scores.toList, largest scores ≤ c := by
  have hfold : largest scores = 0 ∨ largest scores ∈ scores.toList := by
    rw [largest_eq]
    apply List.foldlRecOn (motive := fun top => top = 0 ∨ top ∈ scores.toList) _ _ (Or.inl rfl)
    intro top htop c hc
    rcases max_choice top c with hmax | hmax
    · rw [hmax]
      exact htop
    · rw [hmax]
      exact Or.inr hc
  rcases hfold with hzero | hmem
  · obtain ⟨c, hc⟩ := List.exists_mem_of_ne_nil _ hne
    rw [hzero]
    exact ⟨c, hc, h c hc⟩
  · exact ⟨_, hmem, le_rfl⟩

/-! ## Distances below it -/

theorem spread_eq (top : ℚ) (scores : Array ℚ) :
    spread top scores = (scores.toList.map (top - ·)).sum := by
  unfold spread
  rw [← Array.foldl_toList, List.sum_eq_foldl, List.foldl_map]

theorem sum_le_length_sub_one {l : List ℚ} (h : ∀ a ∈ l, a ≤ 1) {a : ℚ} (ha : a ∈ l)
    (hnonpos : a ≤ 0) : l.sum ≤ l.length - 1 := by
  have hrest : (l.erase a).sum ≤ (l.erase a).length • (1 : ℚ) :=
    List.sum_le_card_nsmul _ _ fun b hb => h b (List.mem_of_mem_erase hb)
  have hlength : ((l.erase a).length : ℚ) + 1 = l.length := by
    rw [← List.length_erase_add_one ha]
    push_cast
    rfl
  rw [nsmul_eq_mul, mul_one] at hrest
  rw [← List.sum_erase ha]
  linarith

theorem dominance_bounds (h : ∀ c ∈ scores.toList, 0 ≤ c ∧ c ≤ 1) :
    0 ≤ dominance scores ∧ dominance scores ≤ 1 := by
  unfold dominance
  split
  · exact ⟨le_rfl, zero_le_one⟩
  · rename_i hsize
    have htwo : 1 < (scores.size : ℚ) := by exact_mod_cast not_le.mp hsize
    have hlength : scores.toList.length = scores.size := Array.length_toList
    have hne : scores.toList ≠ [] := by
      intro hnil
      rw [hnil] at hlength
      simp [← hlength] at hsize
    rw [spread_eq]
    constructor
    · apply div_nonneg
      · apply List.sum_nonneg
        intro a ha
        obtain ⟨c, hc, rfl⟩ := List.mem_map.mp ha
        exact sub_nonneg.mpr (le_largest hc)
      · linarith
    · have htop : largest scores ≤ 1 := largest_le zero_le_one fun c hc => (h c hc).2
      obtain ⟨c, hc, hlargest⟩ := exists_largest_le hne fun c hc => (h c hc).1
      have hterms : ∀ a ∈ scores.toList.map (largest scores - ·), a ≤ 1 := by
        intro a ha
        obtain ⟨d, hd, rfl⟩ := List.mem_map.mp ha
        have hd := (h d hd).1
        linarith
      have hsum := sum_le_length_sub_one hterms (List.mem_map_of_mem hc) (sub_nonpos.mpr hlargest)
      rw [List.length_map, hlength] at hsum
      exact div_le_one_of_le₀ hsum (by linarith)

/-! ## Extreme dominance -/

section Extreme

variable {n : Nat} {x : Fin n → ℚ} {c : Fin n}

theorem others_ne_zero (hn : 1 < n) : (n : ℚ) - 1 ≠ 0 := by
  have htwo : (1 : ℚ) < n := by exact_mod_cast hn
  linarith

theorem largest_ofFn (hpos : 0 ≤ x c) (hc : ∀ v, x v ≤ x c) : largest (Array.ofFn x) = x c := by
  apply le_antisymm
  · apply largest_le hpos
    intro d hd
    obtain ⟨v, rfl⟩ := List.mem_ofFn.mp (by simpa using hd)
    exact hc v
  · apply le_largest
    simp

/-- The mean distance below a vertex `c` that no other exceeds. -/
theorem dominance_eq_mean (hn : 1 < n) (hpos : 0 ≤ x c) (hc : ∀ v, x v ≤ x c) :
    dominance (Array.ofFn x) = (∑ v, (x c - x v)) / ((n : ℚ) - 1) := by
  have hsize : ¬ (Array.ofFn x).size ≤ 1 := by
    rw [Array.size_ofFn]
    exact not_le.mpr hn
  unfold dominance
  rw [if_neg hsize, largest_ofFn hpos hc, spread_eq, Array.size_ofFn, Array.toList_ofFn,
    List.map_ofFn, List.sum_ofFn]
  rfl

/-- The dominance falls short of the score of `c` by the mean of the other scores. -/
theorem sub_dominance (hn : 1 < n) (hpos : 0 ≤ x c) (hc : ∀ v, x v ≤ x c) :
    x c - dominance (Array.ofFn x) = (∑ v ∈ Finset.univ.erase c, x v) / ((n : ℚ) - 1) := by
  have hothers := others_ne_zero hn
  rw [dominance_eq_mean hn hpos hc, Finset.sum_sub_distrib, Finset.sum_const, Finset.card_univ,
    Fintype.card_fin, nsmul_eq_mul, ← Finset.add_sum_erase _ x (Finset.mem_univ c)]
  field_simp
  ring

variable (hn : 1 < n) (hx : ∀ v, 0 ≤ x v)

include hn hx

theorem dominance_le (hc : ∀ v, x v ≤ x c) : dominance (Array.ofFn x) ≤ x c := by
  have htwo : (1 : ℚ) < n := by exact_mod_cast hn
  rw [← sub_nonneg, sub_dominance hn (hx c) hc]
  exact div_nonneg (Finset.sum_nonneg fun v _ => hx v) (by linarith)

/-- The dominance is the largest score exactly when no other vertex has a score. -/
theorem dominance_eq_iff (hc : ∀ v, x v ≤ x c) :
    dominance (Array.ofFn x) = x c ↔ ∀ v, v ≠ c → x v = 0 := by
  have hothers := others_ne_zero hn
  rw [eq_comm, ← sub_eq_zero, sub_dominance hn (hx c) hc, div_eq_zero_iff, or_iff_left hothers,
    Finset.sum_eq_zero_iff_of_nonneg fun v _ => hx v]
  simp

theorem dominance_eq_zero_iff : dominance (Array.ofFn x) = 0 ↔ ∀ v w, x v = x w := by
  have : Nonempty (Fin n) := ⟨⟨0, Nat.zero_lt_of_lt hn⟩⟩
  obtain ⟨c, hc⟩ := Finite.exists_max x
  have hothers := others_ne_zero hn
  rw [dominance_eq_mean hn (hx c) hc, div_eq_zero_iff, or_iff_left hothers,
    Finset.sum_eq_zero_iff_of_nonneg fun v _ => sub_nonneg.mpr (hc v)]
  constructor
  · intro hzero v w
    have hv := sub_eq_zero.mp (hzero v (Finset.mem_univ v))
    have hw := sub_eq_zero.mp (hzero w (Finset.mem_univ w))
    exact hv.symm.trans hw
  · intro hsame v _
    rw [hsame c v, sub_self]

theorem dominance_eq_one_iff (hone : ∀ v, x v ≤ 1) :
    dominance (Array.ofFn x) = 1 ↔ ∃ c, x c = 1 ∧ ∀ v, v ≠ c → x v = 0 := by
  constructor
  · intro hdominance
    have : Nonempty (Fin n) := ⟨⟨0, Nat.zero_lt_of_lt hn⟩⟩
    obtain ⟨c, hc⟩ := Finite.exists_max x
    have hle := dominance_le hn hx hc
    have hxc : x c = 1 := le_antisymm (hone c) (hdominance ▸ hle)
    exact ⟨c, hxc, (dominance_eq_iff hn hx hc).mp (hdominance.trans hxc.symm)⟩
  · rintro ⟨c, hxc, hothers⟩
    have hc : ∀ v, x v ≤ x c := fun v => hxc ▸ hone v
    rw [← hxc]
    exact (dominance_eq_iff hn hx hc).mpr hothers

end Extreme

end Geodesic
