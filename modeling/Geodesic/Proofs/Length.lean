import Mathlib.Algebra.BigOperators.Group.List.Basic
import Mathlib.Algebra.Order.Monoid.WithTop
import Mathlib.Algebra.Order.Field.Rat
import Mathlib.Data.List.Induction
import Geodesic.Number
import Geodesic.Proofs.Distance
import Geodesic.Proofs.Walk

/-!
# Exact lengths

Rational lengths, with a top for the infinite one. Nothing is rounded, so the length of a walk does
not depend on the order in which its edges are added.
-/

namespace Geodesic

open Distance (Admissible AtMost Lawful Reached total)

abbrev Length : Type :=
  WithTop ℚ

namespace Length

instance : Distance Length where
  zero := 0
  unreached := ⊤
  add := (· + ·)
  shorter a b := decide (a < b)
  same a b := decide (a = b)

instance : IntCast Length := ⟨fun z => ((z : ℚ) : WithTop ℚ)⟩

/-! Exact numbers need no second precision. -/

instance : Precision Length Length := ⟨id, id⟩

instance : Precision ℚ ℚ := ⟨id, id⟩

variable {a b : Length} {m : Nat}

@[simp] theorem atMost_iff : AtMost a b ↔ a ≤ b := by
  simp [AtMost, Distance.shorter]

@[simp] theorem reached_iff : Reached a ↔ a ≠ ⊤ := by
  simp [Reached, Distance.same, Distance.unreached]

@[simp] theorem same_iff : Distance.same a b = true ↔ a = b := by
  simp [Distance.same]

@[simp] theorem admissible_iff : Admissible a ↔ 0 ≤ a := by
  simp [Admissible, Distance.admissible, Distance.same, Distance.shorter, Distance.zero]

instance : Lawful Length where
  zero_admissible := by simp [Distance.zero]
  unreached_admissible := by simp [Distance.unreached]
  add_admissible ha hb := by
    rw [admissible_iff] at *
    exact add_nonneg ha hb
  total {a b} _ _ := by
    rw [atMost_iff, atMost_iff]
    exact le_total a b
  trans _ _ _ hab hbc := by
    rw [atMost_iff] at *
    exact hab.trans hbc
  same_iff _ _ := by
    rw [same_iff, atMost_iff, atMost_iff]
    exact le_antisymm_iff
  atMost_unreached _ := by simp [Distance.unreached]
  zero_reached := by simp [Distance.zero]
  add_mono _ _ _ hab := by
    rw [atMost_iff] at *
    exact add_le_add_left hab _
  atMost_add _ hb := by
    rw [admissible_iff] at hb
    rw [atMost_iff]
    exact le_add_of_nonneg_right hb

theorem total_eq_sum (lengths : Table Length m) (es : List (Fin m)) :
    total lengths es = (es.map fun e => lengths[e]).sum := by
  induction es using List.reverseRecOn with
  | nil => rfl
  | append_singleton es e ih =>
      rw [Distance.total_concat, ih, List.map_append, List.sum_append]
      simp [Distance.add]

theorem untopD_add (h : a + b ≠ ⊤) : (a + b).untopD 0 = a.untopD 0 + b.untopD 0 := by
  obtain ⟨ha, hb⟩ := WithTop.add_ne_top.mp h
  lift a to ℚ using ha
  lift b to ℚ using hb
  rfl

end Length

/-- The length of so many edges of the length `c`. -/
def Hops.times (c : ℚ) : Hops → Length
  | some k => ((k * c : ℚ) : Length)
  | none => ⊤

end Geodesic
