import Mathlib
import Geodesic.Decimal.Rounding

/-!
# Rounding to a number of binary digits

Machine addition rounds a whole number of units to the nearest one with at most `p` binary digits, a
half to the even one. This is monotone and leaves numbers that have so few digits alone.
-/

namespace Geodesic.Decimal

theorem div_le_roundHalfEven (num den : Nat) : num / den ≤ roundHalfEven num den := by
  unfold roundHalfEven
  dsimp only
  split
  · exact Nat.le_refl _
  · exact Nat.le_succ _
  · exact Nat.le_add_right _ _

theorem roundHalfEven_le_succ (num den : Nat) : roundHalfEven num den ≤ num / den + 1 := by
  have hparity := Nat.mod_two_eq_zero_or_one (num / den)
  unfold roundHalfEven
  dsimp only
  split <;> omega

theorem roundHalfEven_mono {a b : Nat} (den : Nat) (h : a ≤ b) :
    roundHalfEven a den ≤ roundHalfEven b den := by
  have hle : a / den ≤ b / den := Nat.div_le_div_right h
  rcases Nat.lt_or_eq_of_le hle with hlt | heq
  · have hupper := roundHalfEven_le_succ a den
    have hlower := div_le_roundHalfEven b den
    omega
  · -- With equal quotients the remainders are ordered, and so are their places around a half.
    have ha := Nat.div_add_mod a den
    have hb := Nat.div_add_mod b den
    rw [← heq] at hb
    have hrem : a % den ≤ b % den := by omega
    have hparity := Nat.mod_two_eq_zero_or_one (a / den)
    unfold roundHalfEven
    dsimp only
    rw [← heq]
    split <;> split <;> simp only [Nat.compare_eq_lt, Nat.compare_eq_eq, Nat.compare_eq_gt] at * <;>
      omega

/-- Only the ratio matters. -/
theorem roundHalfEven_mul (num den : Nat) {c : Nat} (hc : 0 < c) :
    roundHalfEven (num * c) (den * c) = roundHalfEven num den := by
  unfold roundHalfEven
  rw [Nat.mul_div_mul_right _ _ hc, Nat.mul_mod_mul_right, ← Nat.mul_assoc]
  have hcompare : compare (2 * (num % den) * c) (den * c) = compare (2 * (num % den)) den := by
    rcases Nat.lt_trichotomy (2 * (num % den)) den with h | h | h
    · rw [Nat.compare_eq_lt.mpr h, Nat.compare_eq_lt.mpr (Nat.mul_lt_mul_of_pos_right h hc)]
    · rw [h]
      simp
    · rw [Nat.compare_eq_gt.mpr h, Nat.compare_eq_gt.mpr (Nat.mul_lt_mul_of_pos_right h hc)]
  rw [hcompare]

theorem roundHalfEven_one (num : Nat) : roundHalfEven num 1 = num := by
  have hlt : compare 0 1 = Ordering.lt := rfl
  simp [roundHalfEven, Nat.mod_one, hlt]

theorem roundHalfEven_mul_self (q : Nat) {den : Nat} (hden : 0 < den) :
    roundHalfEven (q * den) den = q := by
  have h := roundHalfEven_mul q 1 hden
  rwa [Nat.one_mul, roundHalfEven_one] at h

end Geodesic.Decimal

namespace Geodesic.Machine

open Decimal

/-- The number of low digits that do not fit. -/
def excess (p N : Nat) : Nat :=
  N.log2 + 1 - p

/-- The nearest whole number with at most `p` binary digits before its trailing zeros. -/
def nearest (p N : Nat) : Nat :=
  roundHalfEven N (2 ^ excess p N) * 2 ^ excess p N

theorem lt_pow_excess (p N : Nat) : N < 2 ^ (p + excess p N) := by
  have hlog : N < 2 ^ (N.log2 + 1) := Nat.lt_log2_self
  refine Nat.lt_of_lt_of_le hlog (Nat.pow_le_pow_right (by decide) ?_)
  unfold excess
  omega

theorem pow_excess_le {p N : Nat} (hN : N ≠ 0) (hp : 0 < p) (he : 0 < excess p N) :
    2 ^ (p - 1 + excess p N) ≤ N := by
  have hlog := Nat.log2_self_le hN
  refine Nat.le_trans (Nat.pow_le_pow_right (by decide) ?_) hlog
  unfold excess at *
  omega

/-- The rounded quotient has at most `p` digits, or is the power of two beyond them. -/
theorem roundHalfEven_le_two_pow {p N j : Nat} (hj : excess p N ≤ j) :
    roundHalfEven N (2 ^ j) ≤ 2 ^ p := by
  have hlt : N < 2 ^ j * 2 ^ p := by
    rw [← Nat.pow_add, Nat.add_comm]
    exact Nat.lt_of_lt_of_le (lt_pow_excess p N) (Nat.pow_le_pow_right (by decide) (by omega))
  have hdiv : N / 2 ^ j < 2 ^ p := Nat.div_lt_of_lt_mul hlt
  have hsucc := roundHalfEven_le_succ N (2 ^ j)
  omega

theorem quotient_le (p N : Nat) : roundHalfEven N (2 ^ excess p N) ≤ 2 ^ p :=
  roundHalfEven_le_two_pow (Nat.le_refl _)

theorem le_quotient {p N : Nat} (hN : N ≠ 0) (hp : 0 < p) (he : 0 < excess p N) :
    2 ^ (p - 1) ≤ roundHalfEven N (2 ^ excess p N) := by
  have hle := pow_excess_le hN hp he
  rw [Nat.pow_add] at hle
  refine Nat.le_trans ?_ (div_le_roundHalfEven N (2 ^ excess p N))
  exact (Nat.le_div_iff_mul_le (Nat.two_pow_pos _)).mpr hle

theorem excess_mono (p : Nat) {M N : Nat} (h : M ≤ N) : excess p M ≤ excess p N := by
  have hlog : M.log2 ≤ N.log2 := by
    rw [Nat.log2_eq_log_two, Nat.log2_eq_log_two]
    exact Nat.log_mono_right h
  unfold excess
  omega

/-- `N` in units of which `2 ^ d` are one new unit, rounded to new units and at most `p` digits. -/
def nearestOf (p d N : Nat) : Nat :=
  roundHalfEven N (2 ^ max d (excess p N)) * 2 ^ (max d (excess p N) - d)

theorem nearestOf_zero_left (p N : Nat) : nearestOf p 0 N = nearest p N := by
  rw [nearestOf, nearest, Nat.zero_max, Nat.sub_zero]

theorem nearestOf_mono {p M N : Nat} (hp : 0 < p) (d : Nat) (h : M ≤ N) :
    nearestOf p d M ≤ nearestOf p d N := by
  have hexcess := excess_mono p h
  unfold nearestOf
  rcases Nat.lt_or_eq_of_le (show max d (excess p M) ≤ max d (excess p N) by omega) with hlt | heq
  · -- The larger number has more digits, so a power of two lies between the two results.
    have hmax : max d (excess p N) = excess p N := by omega
    have hN : N ≠ 0 := by
      rintro rfl
      obtain rfl : M = 0 := by omega
      exact Nat.lt_irrefl _ hlt
    have hlower := le_quotient hN hp (by omega)
    rw [hmax] at hlt ⊢
    calc roundHalfEven M (2 ^ max d (excess p M)) * 2 ^ (max d (excess p M) - d)
        ≤ 2 ^ p * 2 ^ (max d (excess p M) - d) :=
          Nat.mul_le_mul_right _ (roundHalfEven_le_two_pow (Nat.le_max_right ..))
      _ = 2 ^ (p + (max d (excess p M) - d)) := (Nat.pow_add ..).symm
      _ ≤ 2 ^ (p - 1 + (excess p N - d)) := Nat.pow_le_pow_right (by decide) (by omega)
      _ = 2 ^ (p - 1) * 2 ^ (excess p N - d) := Nat.pow_add ..
      _ ≤ roundHalfEven N (2 ^ excess p N) * 2 ^ (excess p N - d) :=
          Nat.mul_le_mul_right _ hlower
  · rw [← heq]
    exact Nat.mul_le_mul_right _ (roundHalfEven_mono _ h)

theorem nearest_mono {p M N : Nat} (hp : 0 < p) (h : M ≤ N) : nearest p M ≤ nearest p N := by
  rw [← nearestOf_zero_left, ← nearestOf_zero_left]
  exact nearestOf_mono hp 0 h

theorem log2_mul_pow {m : Nat} (hm : m ≠ 0) (k : Nat) : (m * 2 ^ k).log2 = m.log2 + k := by
  induction k with
  | zero => rw [Nat.pow_zero, Nat.mul_one, Nat.add_zero]
  | succ k ih =>
      have hne : m * 2 ^ k ≠ 0 := Nat.mul_ne_zero hm (Nat.two_pow_pos k).ne'
      have hdouble : m * 2 ^ (k + 1) = 2 * (m * 2 ^ k) := by
        rw [Nat.pow_succ]
        ac_rfl
      rw [hdouble, Nat.log2_two_mul hne, ih]
      omega

/-- Numbers with few enough digits are left alone. -/
theorem nearest_of_lt {p m : Nat} (hm : m < 2 ^ p) (k : Nat) : nearest p (m * 2 ^ k) = m * 2 ^ k := by
  by_cases hzero : m = 0
  · subst hzero
    have hquotient := roundHalfEven_mul_self 0 (Nat.two_pow_pos (excess p 0))
    rw [Nat.zero_mul] at hquotient
    rw [Nat.zero_mul, nearest, hquotient, Nat.zero_mul]
  · have hlog : m.log2 < p := (Nat.log2_lt hzero).mpr hm
    have hexcess : excess p (m * 2 ^ k) ≤ k := by
      unfold excess
      rw [log2_mul_pow hzero]
      omega
    unfold nearest
    generalize excess p (m * 2 ^ k) = i at hexcess
    have hsplit : m * 2 ^ k = m * 2 ^ (k - i) * 2 ^ i := by
      rw [Nat.mul_assoc, ← Nat.pow_add, Nat.sub_add_cancel hexcess]
    rw [hsplit, roundHalfEven_mul_self _ (Nat.two_pow_pos i)]

end Geodesic.Machine
