import Geodesic.Proofs.Machine.Magnitude

/-!
# Products and quotients of magnitudes

A product or quotient is cut down to the digits of the format and then rounded, so it exceeds the
exact value by at most one unit in the last place: a fraction of the value, or one unit of the
format where the value is small.
-/

namespace Geodesic.Machine

open Float.Model Float.Model.UnpackedFloat

variable (spec : Format)

/-! ## Cutting and rounding -/

theorem mantissa_shiftRight (em : ExtendedMantissa) (j : Nat) :
    (em >>> j).mantissa = em.mantissa / 2 ^ j := by
  show (j.repeat ExtendedMantissa.shiftRightOne em).mantissa = _
  induction j with
  | zero => exact (Nat.div_one _).symm
  | succ j ih =>
      have hhalf : ((j + 1).repeat ExtendedMantissa.shiftRightOne em).mantissa =
          (j.repeat ExtendedMantissa.shiftRightOne em).mantissa / 2 := rfl
      rw [hhalf, ih, Nat.div_div_eq_div_mul, Nat.pow_succ]

theorem roundedMantissa_bounds (em : ExtendedMantissa) :
    em.mantissa ≤ em.roundedMantissa ∧ em.roundedMantissa ≤ em.mantissa + 1 := by
  obtain ⟨m, r, s⟩ := em
  cases r <;> cases s <;>
    simp only [ExtendedMantissa.roundedMantissa, ExtendedMantissa.accuracy,
      Accuracy.roundToNearestEven] <;> omega

/-- The exponent that the digits of `m` are cut to. -/
def cutExponent (m : Nat) (e : Int) : Int :=
  spec.targetExponent (totalExponent m e)

/-- What is left of `m` there. -/
def cut (m : Nat) (e : Int) : Nat :=
  m / 2 ^ (cutExponent spec m e - e).toNat

theorem minExponent_le_cutExponent (m : Nat) (e : Int) :
    spec.minExponent ≤ cutExponent spec m e := by
  unfold cutExponent Format.targetExponent
  omega

theorem cut_mul_le (m : Nat) (e : Int) : cut spec m e * 2 ^ (cutExponent spec m e - e).toNat ≤ m :=
  Nat.div_mul_le_self m _

variable {spec} {m : Nat} {e : Int}

theorem cut_lt (h : e ≤ cutExponent spec m e) : cut spec m e < 2 ^ spec.mantissaBits := by
  have hlog : m < 2 ^ (m.log2 + 1) := Nat.lt_log2_self
  unfold cut
  unfold cutExponent Format.targetExponent totalExponent at *
  rw [Nat.div_lt_iff_lt_mul (Nat.two_pow_pos _), ← Nat.pow_add]
  refine Nat.lt_of_lt_of_le hlog (Nat.pow_le_pow_right (by decide) ?_)
  omega

/-- Above the least exponent all digits of the format remain. -/
theorem le_cut (h : e ≤ cutExponent spec m e) (hmin : spec.minExponent < cutExponent spec m e) :
    2 ^ spec.mantissaBitsWithoutImplicit ≤ cut spec m e := by
  have hm : m ≠ 0 := by
    rintro rfl
    unfold cutExponent Format.targetExponent totalExponent Format.mantissaBits at *
    have hpos := spec.hm
    rw [Nat.log2_zero] at *
    omega
  have hlog := Nat.log2_self_le hm
  unfold cut
  unfold cutExponent Format.targetExponent totalExponent Format.mantissaBits at *
  rw [Nat.le_div_iff_mul_le (Nat.two_pow_pos _), ← Nat.pow_add]
  refine Nat.le_trans (Nat.pow_le_pow_right (by decide) ?_) hlog
  omega

/-- Rounding keeps what was cut, or adds one in the last place: `r` is what it makes of it. -/
theorem roundWithAccuracy_shifted (h : e ≤ cutExponent spec m e) (acc : Accuracy) (s : Sign) {r : Nat}
    (hr : (shiftToTargetExponent spec m e acc).1.roundedMantissa = r) :
    (cut spec m e ≤ r ∧ r ≤ cut spec m e + 1) ∧
      ((r = 0 ∧ roundWithAccuracy spec s m e acc = .zero s) ∨
        ∃ (m' k' : Nat) (hm' : 0 < m'),
          roundWithAccuracy spec s m e acc = .finite s m' (spec.minExponent + k') hm' ∧
          m' * 2 ^ k' = r * 2 ^ (cutExponent spec m e - spec.minExponent).toNat ∧
          Canonical spec m' k') := by
  have hlt := cut_lt h
  have hfull := le_cut h
  have hmin := minExponent_le_cutExponent spec m e
  obtain ⟨k, hk⟩ : ∃ k : Nat, cutExponent spec m e = spec.minExponent + k :=
    ⟨(cutExponent spec m e - spec.minExponent).toNat, by omega⟩
  have hcut : (shiftToTargetExponent spec m e acc).1.mantissa = cut spec m e := by
    refine (mantissa_shiftRight _ _).trans ?_
    have hmantissa : (ExtendedMantissa.ofMantissaAndAccuracy m acc).mantissa = m := by
      unfold ExtendedMantissa.ofMantissaAndAccuracy
      split <;> rfl
    rw [hmantissa]
    rfl
  have hexponent : (shiftToTargetExponent spec m e acc).2 = spec.minExponent + k := by
    rw [← hk]
    show e + ((cutExponent spec m e - e).toNat : Int) = _
    omega
  obtain ⟨hlower, hupper⟩ := roundedMantissa_bounds (shiftToTargetExponent spec m e acc).1
  rw [hcut, hr] at hlower hupper
  have hshift : (cutExponent spec m e - spec.minExponent).toNat = k := by omega
  refine ⟨⟨hlower, hupper⟩, ?_⟩
  unfold roundWithAccuracy
  rw [hshift]
  dsimp only
  rw [hexponent, hr]
  rcases Nat.eq_zero_or_pos r with rfl | hpos
  · refine Or.inl ⟨rfl, dif_pos ?_⟩
    show (_ >>> _ : ExtendedMantissa).mantissa = 0
    rw [mantissa_shiftRight]
    exact Nat.zero_div _
  · right
    rcases Nat.lt_or_eq_of_le (show r ≤ 2 ^ spec.mantissaBits by omega) with hlt' | rfl
    · obtain ⟨hmantissa, hfinal⟩ := mantissa_of_lt spec hpos.ne' hlt' k
      refine ⟨r, k, hpos, ?_, rfl, hlt', ?_⟩
      · rw [dif_neg (by rw [hmantissa]; exact hpos.ne')]
        congr 1
      · rcases Nat.eq_zero_or_pos k with rfl | hkpos
        · exact Or.inl rfl
        · exact Or.inr (Nat.le_trans (hfull (by omega)) hlower)
    · obtain ⟨hmantissa, hfinal⟩ := mantissa_of_two_pow spec k
      have hpos' := Nat.two_pow_pos spec.mantissaBitsWithoutImplicit
      refine ⟨2 ^ spec.mantissaBitsWithoutImplicit, k + 1, hpos', ?_, ?_, ?_, Or.inr (Nat.le_refl _)⟩
      · rw [dif_neg (by rw [hmantissa]; exact hpos'.ne')]
        congr 1
      · rw [two_pow_mantissaBits, Nat.pow_succ, Nat.mul_comm (2 ^ k) 2, ← Nat.mul_assoc,
          Nat.mul_comm 2]
      · rw [two_pow_mantissaBits]
        omega

/-! ## Magnitudes -/

variable (spec) in
/-- `r` exceeds `N` by at most one unit in the last place. -/
def OneUlpAbove (N r : Nat) : Prop :=
  r ≤ N + N / 2 ^ spec.mantissaBitsWithoutImplicit + 1

theorem magnitude_of_units (hbits : 1 < spec.exponentBits) {x : UnpackedFloat} {r k : Nat}
    (hx : (r = 0 ∧ x = .zero .positive) ∨ ∃ (m' k' : Nat) (hm' : 0 < m'),
      x = .finite .positive m' (spec.minExponent + k') hm' ∧ m' * 2 ^ k' = r * 2 ^ k ∧
        Canonical spec m' k') :
    Magnitude spec (UnpackedFloat.unpack spec (UnpackedFloat.pack spec x))
      (ranged spec (r * 2 ^ k)) := by
  unfold ranged
  rcases hx with ⟨rfl, hzero⟩ | ⟨m', k', hm', hfinite, hvalue, hc⟩
  · have hlimit : 0 < limit spec := Nat.mul_pos (Nat.two_pow_pos _) (Nat.two_pow_pos _)
    rw [hzero, Nat.zero_mul, if_pos hlimit]
    exact (Magnitude.zero .positive).repack hbits
  · rw [hfinite, unpack_pack_finite hbits hm' hc, ← hvalue]
    by_cases hk' : k' + 2 < 2 ^ spec.exponentBits
    · rw [if_pos hk', if_pos ((lt_limit_iff hbits hc).mpr hk')]
      exact .finite hm' hc hk' rfl
    · rw [if_neg hk', if_neg (mt (lt_limit_iff hbits hc).mp hk')]
      exact .infinity

/-- The units of what was cut are rounded up by at most one unit in the last place. -/
theorem magnitude_roundWithAccuracy (hbits : 1 < spec.exponentBits)
    (h : e ≤ cutExponent spec m e) (acc : Accuracy) :
    ∃ r, OneUlpAbove spec
        (cut spec m e * 2 ^ (cutExponent spec m e - spec.minExponent).toNat) r ∧
      Magnitude spec (UnpackedFloat.unpack spec (UnpackedFloat.pack spec
        (roundWithAccuracy spec .positive m e acc))) (ranged spec r) := by
  obtain ⟨r, hr⟩ : ∃ r, (shiftToTargetExponent spec m e acc).1.roundedMantissa = r := ⟨_, rfl⟩
  obtain ⟨⟨-, hupper⟩, hresult⟩ := roundWithAccuracy_shifted h acc .positive hr
  have hfull := le_cut h
  have hmin := minExponent_le_cutExponent spec m e
  obtain ⟨k, hk⟩ : ∃ k : Nat, (cutExponent spec m e - spec.minExponent).toNat = k := ⟨_, rfl⟩
  rw [hk] at hresult ⊢
  refine ⟨r * 2 ^ k, ?_, ?_⟩
  · unfold OneUlpAbove
    rcases Nat.eq_zero_or_pos k with rfl | hkpos
    · rw [Nat.pow_zero, Nat.mul_one, Nat.mul_one]
      exact Nat.le_trans hupper (Nat.succ_le_succ (Nat.le_add_right _ _))
    · have hlast : 2 ^ k ≤ cut spec m e * 2 ^ k / 2 ^ spec.mantissaBitsWithoutImplicit := by
        rw [Nat.le_div_iff_mul_le (Nat.two_pow_pos _), Nat.mul_comm]
        exact Nat.mul_le_mul_right _ (hfull (by omega))
      have hone : r * 2 ^ k ≤ (cut spec m e + 1) * 2 ^ k := Nat.mul_le_mul_right _ hupper
      rw [Nat.succ_mul] at hone
      omega
  · exact magnitude_of_units hbits hresult

theorem ranged_zero : ranged spec 0 = 0 :=
  if_pos (Nat.mul_pos (Nat.two_pow_pos _) (Nat.two_pow_pos _))

theorem oneUlpAbove_zero : OneUlpAbove spec 0 0 :=
  Nat.zero_le _

theorem magnitude_packed_zero (hbits : 1 < spec.exponentBits) (s : Sign) :
    Magnitude spec (UnpackedFloat.unpack spec (UnpackedFloat.pack spec (.zero s))) (ranged spec 0) := by
  rw [ranged_zero]
  exact (Magnitude.zero s).repack hbits

variable (spec) in
def unity : Nat :=
  2 ^ (-spec.minExponent).toNat

theorem minExponent_le_zero : spec.minExponent ≤ 0 := by
  have hpow : (1 : Int) ≤ 2 ^ (spec.exponentBits - 1) := by
    exact_mod_cast Nat.one_le_two_pow
  have hpos := spec.hm
  unfold Format.minExponent Format.mantissaBits
  omega

/-! ## Products -/

/-- The digits of two numbers of the format suffice for their product. -/
theorem mul_le_cutExponent {m k m' k' : Nat} (hm : 0 < m) (hm' : 0 < m') (hc : Canonical spec m k)
    (hc' : Canonical spec m' k') : spec.minExponent + k + (spec.minExponent + k') ≤
      cutExponent spec (m * m') (spec.minExponent + k + (spec.minExponent + k')) := by
  have hzero : spec.minExponent ≤ 0 := minExponent_le_zero
  have hpos : m * m' ≠ 0 := (Nat.mul_pos hm hm').ne'
  have hlog : k + k' = 0 ∨ spec.mantissaBitsWithoutImplicit ≤ (m * m').log2 := by
    rw [Nat.le_log2 hpos]
    rcases hc.full with rfl | hfull
    · rcases hc'.full with rfl | hfull
      · exact Or.inl rfl
      · exact Or.inr (Nat.le_trans hfull (Nat.le_mul_of_pos_left m' hm))
    · exact Or.inr (Nat.le_trans hfull (Nat.le_mul_of_pos_right m hm'))
  unfold cutExponent Format.targetExponent totalExponent Format.mantissaBits
  omega

/-- A product is the exact one cut and rounded. -/
theorem Magnitude.mul (hbits : 1 < spec.exponentBits) {x y : UnpackedFloat} {a b : Nat}
    (hx : Magnitude spec x a) (hy : Magnitude spec y b) :
    ∃ N r, N * unity spec ≤ a * b ∧ OneUlpAbove spec N r ∧
      Magnitude spec (UnpackedFloat.unpack spec (UnpackedFloat.pack spec
        (UnpackedFloat.mul spec x y))) (ranged spec r) := by
  generalize hα : (a : ℕ∞) = α at hx
  generalize hβ : (b : ℕ∞) = β at hy
  cases hx with
  | infinity => cases hα
  | zero s =>
      cases hy with
      | infinity => cases hβ
      | zero s' =>
          exact ⟨0, 0, by omega, oneUlpAbove_zero, magnitude_packed_zero hbits _⟩
      | finite hm hc hk hN =>
          exact ⟨0, 0, by omega, oneUlpAbove_zero, magnitude_packed_zero hbits _⟩
  | @finite m k N hm hc hk hN =>
      cases hy with
      | infinity => cases hβ
      | zero s' =>
          exact ⟨0, 0, by omega, oneUlpAbove_zero, magnitude_packed_zero hbits _⟩
      | @finite m' k' N' hm' hc' hk' hN' =>
          obtain rfl : a = N := Nat.cast_inj.mp hα
          obtain rfl : b = N' := Nat.cast_inj.mp hβ
          have hexponent := mul_le_cutExponent hm hm' hc hc'
          obtain ⟨r, hr, hmagnitude⟩ := magnitude_roundWithAccuracy hbits hexponent .exact
          refine ⟨_, r, ?_, hr, hmagnitude⟩
          have hcut := cut_mul_le spec (m * m')
            (spec.minExponent + k + (spec.minExponent + k'))
          have hmin : spec.minExponent ≤ 0 := minExponent_le_zero
          generalize hE : cutExponent spec (m * m')
            (spec.minExponent + k + (spec.minExponent + k')) = E at *
          generalize cut spec (m * m') (spec.minExponent + k + (spec.minExponent + k')) = c at *
          have hsplit : (E - spec.minExponent).toNat + (-spec.minExponent).toNat =
              (E - (spec.minExponent + k + (spec.minExponent + k'))).toNat + (k + k') := by
            have hlower := minExponent_le_cutExponent spec (m * m')
              (spec.minExponent + k + (spec.minExponent + k'))
            omega
          calc c * 2 ^ (E - spec.minExponent).toNat * unity spec
              = c * 2 ^ ((E - spec.minExponent).toNat + (-spec.minExponent).toNat) := by
                rw [unity, Nat.mul_assoc, ← Nat.pow_add]
            _ = c * 2 ^ (E - (spec.minExponent + k + (spec.minExponent + k'))).toNat *
                2 ^ (k + k') := by
                rw [hsplit, Nat.pow_add, Nat.mul_assoc]
            _ ≤ m * m' * 2 ^ (k + k') := Nat.mul_le_mul_right _ hcut
            _ = a * b := by
                rw [← hN, ← hN', Nat.pow_add]
                ac_rfl

/-! ## Quotients -/

theorem div_le_cutExponent {m m' s : Nat} {e e' t : Int} (hm : 0 < m) (hm' : 0 < m')
    (hs : e - e' = t + s)
    (ht : t ≤ spec.targetExponent (totalExponent m e - totalExponent m' e')) :
    t ≤ cutExponent spec ((m <<< s) / m') t := by
  unfold cutExponent Format.targetExponent totalExponent Format.mantissaBits at *
  rcases Int.lt_or_le spec.minExponent t with hlow | hlow
  · have hdigits : spec.mantissaBitsWithoutImplicit + m'.log2 + 1 ≤ m.log2 + s := by omega
    have hquotient : 2 ^ spec.mantissaBitsWithoutImplicit ≤ (m <<< s) / m' := by
      rw [Nat.le_div_iff_mul_le hm', Nat.shiftLeft_eq]
      calc 2 ^ spec.mantissaBitsWithoutImplicit * m'
          ≤ 2 ^ spec.mantissaBitsWithoutImplicit * 2 ^ (m'.log2 + 1) :=
            Nat.mul_le_mul_left _ Nat.lt_log2_self.le
        _ = 2 ^ (spec.mantissaBitsWithoutImplicit + m'.log2 + 1) := by rw [← Nat.pow_add]; rfl
        _ ≤ 2 ^ (m.log2 + s) := Nat.pow_le_pow_right (by decide) hdigits
        _ = 2 ^ m.log2 * 2 ^ s := Nat.pow_add ..
        _ ≤ m * 2 ^ s := Nat.mul_le_mul_right _ (Nat.log2_self_le hm.ne')
    have hpos : (m <<< s) / m' ≠ 0 := by
      have := Nat.two_pow_pos spec.mantissaBitsWithoutImplicit
      omega
    have hlog := (Nat.le_log2 hpos).mpr hquotient
    omega
  · omega

theorem Magnitude.div (hbits : 1 < spec.exponentBits) {x y : UnpackedFloat} {a b : Nat}
    (hx : Magnitude spec x a) (hy : Magnitude spec y b) (hb : 0 < b) :
    ∃ N r, N * b ≤ a * unity spec ∧ OneUlpAbove spec N r ∧
      Magnitude spec (UnpackedFloat.unpack spec (UnpackedFloat.pack spec
        (UnpackedFloat.div spec x y))) (ranged spec r) := by
  generalize hα : (a : ℕ∞) = α at hx
  generalize hβ : (b : ℕ∞) = β at hy
  cases hy with
  | infinity => cases hβ
  | zero s' =>
      have hzero : b = 0 := Nat.cast_eq_zero.mp hβ
      omega
  | @finite m' k' N' hm' hc' hk' hN' =>
      cases hx with
      | infinity => cases hα
      | zero s =>
          exact ⟨0, 0, by omega, oneUlpAbove_zero, magnitude_packed_zero hbits _⟩
      | @finite m k N hm hc hk hN =>
          obtain rfl : a = N := Nat.cast_inj.mp hα
          obtain rfl : b = N' := Nat.cast_inj.mp hβ
          obtain ⟨t, ht⟩ : ∃ t, min (spec.minExponent + k - (spec.minExponent + k'))
              (spec.targetExponent (totalExponent m (spec.minExponent + k) -
                totalExponent m' (spec.minExponent + k'))) = t := ⟨_, rfl⟩
          obtain ⟨s, hs⟩ : ∃ s : Nat,
              spec.minExponent + k - (spec.minExponent + k') = t + s :=
            ⟨(spec.minExponent + k - (spec.minExponent + k') - t).toNat, by omega⟩
          have hexponent : t ≤ cutExponent spec ((m <<< s) / m') t :=
            div_le_cutExponent hm hm' hs (by omega)
          have hshift : (spec.minExponent + k - (spec.minExponent + k') - t).toNat = s := by omega
          obtain ⟨r, hr, hmagnitude⟩ := magnitude_roundWithAccuracy hbits hexponent
            (accuracyOfFraction ((m <<< s) % m') m')
          have hdiv : UnpackedFloat.div spec (.finite .positive m (spec.minExponent + k) hm)
              (.finite .positive m' (spec.minExponent + k') hm') =
              roundWithAccuracy spec .positive ((m <<< s) / m') t
                (accuracyOfFraction ((m <<< s) % m') m') := by
            unfold UnpackedFloat.div divCore
            dsimp only
            rw [ht, hshift]
            rfl
          refine ⟨_, r, ?_, hr, hdiv ▸ hmagnitude⟩
          have hcut := cut_mul_le spec ((m <<< s) / m') t
          have hmin : spec.minExponent ≤ 0 := minExponent_le_zero
          have hlower := minExponent_le_cutExponent spec ((m <<< s) / m') t
          generalize cutExponent spec ((m <<< s) / m') t = E at *
          generalize cut spec ((m <<< s) / m') t = c at *
          have hsplit : (E - spec.minExponent).toNat + k' + s =
              (E - t).toNat + (k + (-spec.minExponent).toNat) := by omega
          have hquotient : (m <<< s) / m' * m' ≤ m * 2 ^ s := by
            rw [← Nat.shiftLeft_eq]
            exact Nat.div_mul_le_self _ _
          refine Nat.le_of_mul_le_mul_right ?_ (Nat.two_pow_pos s)
          calc c * 2 ^ (E - spec.minExponent).toNat * b * 2 ^ s
              = c * m' * 2 ^ ((E - spec.minExponent).toNat + k' + s) := by
                rw [← hN', Nat.pow_add, Nat.pow_add]
                ac_rfl
            _ = c * 2 ^ (E - t).toNat * m' * 2 ^ (k + (-spec.minExponent).toNat) := by
                rw [hsplit, Nat.pow_add]
                ac_rfl
            _ ≤ (m <<< s) / m' * m' * 2 ^ (k + (-spec.minExponent).toNat) :=
                Nat.mul_le_mul_right _ (Nat.mul_le_mul_right _ hcut)
            _ ≤ m * 2 ^ s * 2 ^ (k + (-spec.minExponent).toNat) :=
                Nat.mul_le_mul_right _ hquotient
            _ = a * unity spec * 2 ^ s := by
                rw [← hN, unity, Nat.pow_add]
                ring

end Geodesic.Machine
