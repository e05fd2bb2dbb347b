import Geodesic.Proofs.Machine.Rounding

/-!
# Rounding in a floating-point format

A format keeps `p` binary digits and has a least exponent. In units of two to that exponent, all its
finite numbers are whole, and its rounding is `nearest p`.
-/

namespace Geodesic.Machine

open Decimal Float.Model Float.Model.UnpackedFloat

/-! ## Dropping digits -/

/-- The extended mantissa holds `N` without its `j` lowest digits; the bits say what was dropped. -/
structure Shifted (N j : Nat) (em : ExtendedMantissa) : Prop where
  mantissa : em.mantissa = N / 2 ^ j
  roundBit : em.roundBit = decide (2 ^ j ≤ 2 * (N % 2 ^ j))
  stickyBit : em.stickyBit = decide (2 * (N % 2 ^ j) ≠ 0 ∧ 2 * (N % 2 ^ j) ≠ 2 ^ j)

theorem shifted_zero (N : Nat) : Shifted N 0 (.ofMantissaAndAccuracy N .exact) := by
  constructor <;> simp [ExtendedMantissa.ofMantissaAndAccuracy, Nat.mod_one]

theorem Shifted.shiftRightOne {N j : Nat} {em : ExtendedMantissa} (h : Shifted N j em) :
    Shifted N (j + 1) em.shiftRightOne := by
  have hlt : N % 2 ^ j < 2 ^ j := Nat.mod_lt N (Nat.two_pow_pos j)
  have hmod : N % 2 ^ (j + 1) = N % 2 ^ j + 2 ^ j * (N / 2 ^ j % 2) := Nat.mod_pow_succ
  have hpow : 2 ^ (j + 1) = 2 * 2 ^ j := by rw [Nat.pow_succ, Nat.mul_comm]
  have hbit := Nat.mod_two_eq_zero_or_one (N / 2 ^ j)
  constructor
  · rw [hpow, Nat.mul_comm, ← Nat.div_div_eq_div_mul, ← h.mantissa]
    rfl
  · have hround : em.shiftRightOne.roundBit = (N / 2 ^ j % 2 != 0) := by
      rw [← h.mantissa]
      rfl
    rw [hround, hmod, hpow]
    rcases hbit with hb | hb
    · have hbelow : ¬ 2 * 2 ^ j ≤ 2 * (N % 2 ^ j + 2 ^ j * 0) := by omega
      rw [hb, decide_eq_false hbelow]
      rfl
    · have habove : 2 * 2 ^ j ≤ 2 * (N % 2 ^ j + 2 ^ j * 1) := by omega
      rw [hb, decide_eq_true habove]
      rfl
  · have hsticky : em.shiftRightOne.stickyBit = (em.roundBit || em.stickyBit) := rfl
    rw [hsticky, h.roundBit, h.stickyBit, ← Bool.decide_or, decide_eq_decide, hmod, hpow]
    rcases hbit with hb | hb
    · rw [hb]
      omega
    · rw [hb]
      omega

theorem shifted_shiftRight (N j : Nat) :
    Shifted N j (ExtendedMantissa.ofMantissaAndAccuracy N .exact >>> j) := by
  show Shifted N j (j.repeat ExtendedMantissa.shiftRightOne _)
  induction j with
  | zero => exact shifted_zero N
  | succ j ih => exact ih.shiftRightOne

theorem Shifted.roundedMantissa {N j : Nat} {em : ExtendedMantissa} (h : Shifted N j em) :
    em.roundedMantissa = roundHalfEven N (2 ^ j) := by
  obtain ⟨mantissa, roundBit, stickyBit⟩ := em
  obtain ⟨hm, hr, hs⟩ := h
  dsimp only at hm hr hs
  subst hm
  unfold ExtendedMantissa.roundedMantissa roundHalfEven
  have hpos := Nat.two_pow_pos j
  rcases Nat.lt_trichotomy (2 * (N % 2 ^ j)) (2 ^ j) with hlt | heq | hgt
  · have hround : roundBit = false := by
      rw [hr, decide_eq_false_iff_not]
      omega
    rw [Nat.compare_eq_lt.mpr hlt, hround]
    cases stickyBit <;> rfl
  · have hround : roundBit = true := by
      rw [hr, decide_eq_true_iff]
      omega
    have hsticky : stickyBit = false := by
      rw [hs, decide_eq_false_iff_not]
      omega
    rw [Nat.compare_eq_eq.mpr heq, hround, hsticky]
    rfl
  · have hround : roundBit = true := by
      rw [hr, decide_eq_true_iff]
      omega
    have hsticky : stickyBit = true := by
      rw [hs, decide_eq_true_iff]
      omega
    rw [Nat.compare_eq_gt.mpr hgt, hround, hsticky]
    rfl

/-! ## Rounding -/

section Digits

variable {spec : Format}

theorem mantissaBits_pos : 0 < spec.mantissaBits := by
  unfold Format.mantissaBits
  omega

theorem mantissaBits_sub_one : spec.mantissaBits - 1 = spec.mantissaBitsWithoutImplicit := by
  unfold Format.mantissaBits
  omega

theorem two_pow_mantissaBits :
    2 ^ spec.mantissaBits = 2 * 2 ^ spec.mantissaBitsWithoutImplicit := by
  rw [Format.mantissaBits, Nat.pow_add, Nat.pow_one]

end Digits

variable (spec : Format)

theorem targetExponent_eq {m : Nat} (hm : m ≠ 0) (k : Nat) :
    spec.targetExponent (totalExponent m (spec.minExponent + k)) =
      spec.minExponent + (excess spec.mantissaBits (m * 2 ^ k) : Nat) := by
  unfold Format.targetExponent totalExponent excess
  rw [log2_mul_pow hm]
  omega

/-- The shift drops what is in excess, if anything is. -/
theorem shiftToTargetExponent_eq {m : Nat} (hm : m ≠ 0) (k : Nat) :
    let i := excess spec.mantissaBits (m * 2 ^ k) - k
    Shifted m i (shiftToTargetExponent spec m (spec.minExponent + k) .exact).1 ∧
      (shiftToTargetExponent spec m (spec.minExponent + k) .exact).2 =
        spec.minExponent + (k + i : Nat) := by
  unfold shiftToTargetExponent shiftToExponent
  rw [targetExponent_eq spec hm]
  have hshift : (spec.minExponent + (excess spec.mantissaBits (m * 2 ^ k) : Nat) -
      (spec.minExponent + k)).toNat = excess spec.mantissaBits (m * 2 ^ k) - k := by omega
  dsimp only
  rw [hshift]
  refine ⟨shifted_shiftRight m _, ?_⟩
  omega

/-- A finite number of the format, in units of the least exponent. -/
structure Canonical (m k : Nat) : Prop where
  digits : m < 2 ^ spec.mantissaBits
  full : k = 0 ∨ 2 ^ spec.mantissaBitsWithoutImplicit ≤ m

theorem roundedMantissa_shiftToTargetExponent {m k : Nat} (hm : m ≠ 0)
    (hk : k ≤ excess spec.mantissaBits (m * 2 ^ k)) :
    (shiftToTargetExponent spec m (spec.minExponent + k) .exact).1.roundedMantissa =
      roundHalfEven (m * 2 ^ k) (2 ^ excess spec.mantissaBits (m * 2 ^ k)) := by
  obtain ⟨hshifted, _⟩ := shiftToTargetExponent_eq spec hm k
  generalize excess spec.mantissaBits (m * 2 ^ k) = j at *
  have hscale := roundHalfEven_mul m (2 ^ (j - k)) (Nat.two_pow_pos k)
  rw [← Nat.pow_add, Nat.sub_add_cancel hk] at hscale
  rw [hshifted.roundedMantissa, hscale]

theorem mantissa_of_lt {r : Nat} (hr : r ≠ 0) (hlt : r < 2 ^ spec.mantissaBits) (j : Nat) :
    (shiftToTargetExponent spec r (spec.minExponent + j) .exact).1.mantissa = r ∧
      (shiftToTargetExponent spec r (spec.minExponent + j) .exact).2 = spec.minExponent + j := by
  obtain ⟨hshifted, hexponent⟩ := shiftToTargetExponent_eq spec hr j
  have hlog := (Nat.log2_lt hr).mpr hlt
  have hexcess : excess spec.mantissaBits (r * 2 ^ j) = r.log2 + j + 1 - spec.mantissaBits := by
    rw [excess, log2_mul_pow hr]
  have hi : excess spec.mantissaBits (r * 2 ^ j) - j = 0 := by omega
  have hmantissa := hshifted.mantissa
  rw [hi, Nat.pow_zero, Nat.div_one] at hmantissa
  rw [hi, Nat.add_zero] at hexponent
  exact ⟨hmantissa, hexponent⟩

/-- A quotient that was rounded up to the next power of two loses one more digit. -/
theorem mantissa_of_two_pow (j : Nat) :
    (shiftToTargetExponent spec (2 ^ spec.mantissaBits) (spec.minExponent + j) .exact).1.mantissa =
        2 ^ spec.mantissaBitsWithoutImplicit ∧
      (shiftToTargetExponent spec (2 ^ spec.mantissaBits) (spec.minExponent + j) .exact).2 =
        spec.minExponent + (j + 1 : Nat) := by
  have hr : 2 ^ spec.mantissaBits ≠ 0 := (Nat.two_pow_pos _).ne'
  obtain ⟨hshifted, hexponent⟩ := shiftToTargetExponent_eq spec hr j
  have hexcess : excess spec.mantissaBits (2 ^ spec.mantissaBits * 2 ^ j) =
      spec.mantissaBits + j + 1 - spec.mantissaBits := by
    rw [excess, log2_mul_pow hr, Nat.log2_two_pow]
  have hi : excess spec.mantissaBits (2 ^ spec.mantissaBits * 2 ^ j) - j = 1 := by omega
  have hmantissa := hshifted.mantissa
  rw [hi, Nat.pow_one, two_pow_mantissaBits] at hmantissa
  rw [hi] at hexponent
  refine ⟨?_, hexponent⟩
  rw [two_pow_mantissaBits, hmantissa]
  omega

theorem roundWithAccuracy_eq {m k : Nat} (hm : m ≠ 0)
    (hk : k ≤ excess spec.mantissaBits (m * 2 ^ k)) (s : Sign) :
    ∃ (m' k' : Nat) (hm' : 0 < m'),
      roundWithAccuracy spec s m (spec.minExponent + k) .exact =
        .finite s m' (spec.minExponent + k') hm' ∧
      m' * 2 ^ k' = nearest spec.mantissaBits (m * 2 ^ k) ∧ Canonical spec m' k' := by
  have hN : m * 2 ^ k ≠ 0 := Nat.mul_ne_zero hm (Nat.two_pow_pos k).ne'
  have hupper := quotient_le spec.mantissaBits (m * 2 ^ k)
  have hlower : 0 < excess spec.mantissaBits (m * 2 ^ k) →
      2 ^ spec.mantissaBitsWithoutImplicit ≤
        roundHalfEven (m * 2 ^ k) (2 ^ excess spec.mantissaBits (m * 2 ^ k)) := by
    rw [← mantissaBits_sub_one]
    exact le_quotient hN mantissaBits_pos
  have hround := roundedMantissa_shiftToTargetExponent spec hm hk
  have hexponent := (shiftToTargetExponent_eq spec hm k).2
  unfold roundWithAccuracy nearest
  generalize excess spec.mantissaBits (m * 2 ^ k) = j at *
  rw [Nat.add_sub_cancel' hk] at hexponent
  dsimp only
  rw [hround, hexponent]
  have hquotient : roundHalfEven (m * 2 ^ k) (2 ^ j) ≠ 0 := by
    rcases Nat.eq_zero_or_pos j with rfl | hj
    · rwa [Nat.pow_zero, roundHalfEven_one]
    · have hle := hlower hj
      have hpos := Nat.two_pow_pos spec.mantissaBitsWithoutImplicit
      omega
  generalize roundHalfEven (m * 2 ^ k) (2 ^ j) = r at *
  rcases Nat.lt_or_eq_of_le hupper with hlt | rfl
  · obtain ⟨hmantissa, hfinal⟩ := mantissa_of_lt spec hquotient hlt j
    refine ⟨r, j, Nat.pos_of_ne_zero hquotient, ?_, rfl, hlt, ?_⟩
    · rw [dif_neg (by rwa [hmantissa])]
      congr 1
    · rcases Nat.eq_zero_or_pos j with rfl | hj
      · exact Or.inl rfl
      · exact Or.inr (hlower hj)
  · obtain ⟨hmantissa, hfinal⟩ := mantissa_of_two_pow spec j
    have hpos := Nat.two_pow_pos spec.mantissaBitsWithoutImplicit
    refine ⟨2 ^ spec.mantissaBitsWithoutImplicit, j + 1, hpos, ?_, ?_, ?_, Or.inr (Nat.le_refl _)⟩
    · rw [dif_neg (by rw [hmantissa]; exact hpos.ne')]
      congr 1
    · rw [two_pow_mantissaBits, Nat.pow_succ, Nat.mul_comm (2 ^ j) 2, ← Nat.mul_assoc,
        Nat.mul_comm 2]
    · rw [two_pow_mantissaBits]
      omega

/-- Rounding a finite number rounds its number of units. -/
theorem round_eq {m : Nat} (hm : m ≠ 0) (k : Nat) (s : Sign) :
    ∃ (m' k' : Nat) (hm' : 0 < m'),
      UnpackedFloat.round spec s m (spec.minExponent + k) =
        .finite s m' (spec.minExponent + k') hm' ∧
      m' * 2 ^ k' = nearest spec.mantissaBits (m * 2 ^ k) ∧ Canonical spec m' k' := by
  have htarget := targetExponent_eq spec hm k
  have hvalue : m * 2 ^ (k - excess spec.mantissaBits (m * 2 ^ k)) *
      2 ^ (k - (k - excess spec.mantissaBits (m * 2 ^ k))) = m * 2 ^ k := by
    rw [Nat.mul_assoc, ← Nat.pow_add]
    congr 2
    omega
  have hround := roundWithAccuracy_eq spec
    (m := m * 2 ^ (k - excess spec.mantissaBits (m * 2 ^ k)))
    (k := k - (k - excess spec.mantissaBits (m * 2 ^ k)))
    (Nat.mul_ne_zero hm (Nat.two_pow_pos _).ne') (by rw [hvalue]; omega) s
  rw [hvalue] at hround
  unfold UnpackedFloat.round decreaseExponent
  rw [htarget]
  generalize excess spec.mantissaBits (m * 2 ^ k) = j at *
  have hshift : (spec.minExponent + (k : Int) - (spec.minExponent + (j : Int))).toNat = k - j := by
    omega
  have hexponent : spec.minExponent + (k : Int) - ((k - j : Nat) : Int) =
      spec.minExponent + ((k - (k - j) : Nat) : Int) := by omega
  dsimp only
  rw [hshift, hexponent, Nat.shiftLeft_eq]
  exact hround

end Geodesic.Machine
