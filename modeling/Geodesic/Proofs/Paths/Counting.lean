import Mathlib.Algebra.BigOperators.Group.List.Basic
import Mathlib.Algebra.Order.Ring.Defs
import Mathlib.Data.List.Induction

/-!
# Sums in list order

Path counts are added up one by one in the order of the predecessor list. Where addition is
associative this is the sum of the list.
-/

namespace Geodesic

variable {S : Type}

/-- The sum of a list, from left to right and without a leading zero. -/
def sumInOrder [Zero S] [Add S] : List S → S
  | [] => 0
  | c :: cs => cs.foldl (· + ·) c

theorem sumInOrder_concat [Zero S] [Add S] {cs : List S} (h : cs ≠ []) (c : S) :
    sumInOrder (cs ++ [c]) = sumInOrder cs + c := by
  cases cs with
  | nil => exact absurd rfl h
  | cons d ds => simp [sumInOrder]

theorem sumInOrder_eq_sum [AddMonoid S] (cs : List S) : sumInOrder cs = cs.sum := by
  induction cs using List.reverseRecOn with
  | nil => rfl
  | append_singleton cs c ih =>
      by_cases h : cs = []
      · subst h
        simp [sumInOrder]
      · rw [sumInOrder_concat h, ih, List.sum_append, List.sum_singleton]

/-! ## Positive counts -/

/-- Sums of positive counts are positive, whether or not they are rounded. -/
class PositiveCounts (S : Type) [Zero S] [One S] [Add S] [LT S] : Prop where
  one_pos : (0 : S) < 1
  add_pos : ∀ {a b : S}, 0 < a → 0 < b → 0 < a + b
  not_zero_pos : ¬ (0 : S) < 0

instance [Semiring S] [PartialOrder S] [IsStrictOrderedRing S] : PositiveCounts S where
  one_pos := zero_lt_one
  add_pos := add_pos
  not_zero_pos := lt_irrefl 0

theorem sumInOrder_pos [Zero S] [One S] [Add S] [LT S] [PositiveCounts S] {cs : List S}
    (hne : cs ≠ []) (hpos : ∀ c ∈ cs, 0 < c) : 0 < sumInOrder cs := by
  induction cs using List.reverseRecOn with
  | nil => exact absurd rfl hne
  | append_singleton cs c ih =>
      have hc : 0 < c := hpos c (by simp)
      by_cases h : cs = []
      · subst h
        exact hc
      · rw [sumInOrder_concat h]
        exact PositiveCounts.add_pos (ih h fun d hd => hpos d (by simp [hd])) hc

end Geodesic
