import Geodesic.Proofs.Machine.Double

/-!
# How far rounding can lead

One operation on doubles multiplies the exact result by a factor close to one, as long as the result
does not fall below the numbers with all digits. `growth` bounds that factor generously, so that one
constant does for sums, products and quotients of the numbers that path counts lead to.
-/

namespace Geodesic.Machine

open Float.Model (Format)

/-! ## Sums of units -/

theorem two_pow_excess_le {p N : Nat} (hp : 0 < p) (hN : N ≠ 0) (he : 0 < excess p N) :
    2 ^ excess p N ≤ N / 2 ^ (p - 1) := by
  rw [Nat.le_div_iff_mul_le (Nat.two_pow_pos _), ← Nat.pow_add, Nat.add_comm]
  exact pow_excess_le hN hp he

/-- Rounding moves a number by at most one in the last place, either way. -/
theorem nearest_bounds {p : Nat} (hp : 0 < p) (N : Nat) :
    nearest p N ≤ N + N / 2 ^ (p - 1) ∧ N ≤ nearest p N + N / 2 ^ (p - 1) := by
  have hlower := Decimal.div_le_roundHalfEven N (2 ^ excess p N)
  have hupper := Decimal.roundHalfEven_le_succ N (2 ^ excess p N)
  have hdiv := Nat.div_add_mod N (2 ^ excess p N)
  have hmod := Nat.mod_lt N (Nat.two_pow_pos (excess p N))
  unfold nearest
  rcases Nat.eq_zero_or_pos (excess p N) with hzero | hpos
  · rw [hzero, Nat.pow_zero, Decimal.roundHalfEven_one, Nat.mul_one]
    exact ⟨Nat.le_add_right _ _, Nat.le_add_right _ _⟩
  · have hN : N ≠ 0 := by
      rintro rfl
      have hlog : excess p 0 = 0 + 1 - p := by rw [excess, Nat.log2_zero]
      omega
    have hlast := two_pow_excess_le hp hN hpos
    generalize Decimal.roundHalfEven N (2 ^ excess p N) = q at *
    generalize 2 ^ excess p N = d at *
    constructor
    · have hmul : q * d ≤ (N / d + 1) * d := Nat.mul_le_mul_right d hupper
      rw [Nat.succ_mul, Nat.mul_comm (N / d)] at hmul
      omega
    · have hmul : N / d * d ≤ q * d := Nat.mul_le_mul_right d hlower
      rw [Nat.mul_comm (N / d)] at hmul
      omega

/-! ## Finite doubles -/

/-- The magnitude of a finite double, in units of the format. -/
def units (x : Float) : Nat :=
  match x.toModel.unpack with
  | .finite _ m e _ => m * 2 ^ (e - Format.binary64.minExponent).toNat
  | _ => 0

def Proper (x : Float) : Prop :=
  Reads x (units x)

variable {x y : Float}

theorem Reads.units_eq {N : Nat} (h : Reads x N) : units x = N := by
  unfold Reads at h
  unfold units
  generalize x.toModel.unpack = u at h
  generalize hα : (N : ℕ∞) = α at h
  cases h with
  | zero s => exact (Nat.cast_eq_zero.mp hα).symm
  | infinity => cases hα
  | @finite m k M hm hc hk hM =>
      obtain rfl : N = M := Nat.cast_inj.mp hα
      have hexponent :
          ((Format.binary64).minExponent + k - (Format.binary64).minExponent).toNat = k := by
        omega
      dsimp only
      rw [hexponent, hM]

theorem proper_iff : Proper x ↔ ∃ N : Nat, Reads x N := by
  constructor
  · exact fun h => ⟨units x, h⟩
  · rintro ⟨N, h⟩
    unfold Proper
    rwa [h.units_eq]

theorem Reads.proper {N : Nat} (h : Reads x N) : Proper x :=
  proper_iff.mpr ⟨N, h⟩

theorem units_lt_limit (h : Proper x) : units x < limit .binary64 := by
  have hrounded := h.roundedSum_eq (by decide)
  rw [roundedSum_coe] at hrounded
  by_contra hlimit
  unfold rounded at hrounded
  split at hrounded
  · rename_i hlt
    rw [Nat.cast_inj.mp hrounded] at hlt
    exact hlimit hlt
  · cases hrounded

/-- Results up to here are finite. -/
def cap : Nat :=
  2 ^ 51 * 2 ^ (2 ^ (Format.binary64).exponentBits - 2)

theorem limit_eq : limit .binary64 = 2 * cap := by
  have hdigits : 2 ^ (Format.binary64).mantissaBitsWithoutImplicit = 2 * 2 ^ 51 := by decide
  unfold limit cap
  rw [hdigits, Nat.mul_assoc]

theorem two_pow_le_cap {k : Nat} (hk : k ≤ 2097) : 2 ^ k ≤ cap := by
  have hexponent : k ≤ 51 + (2 ^ (Format.binary64).exponentBits - 2) := hk
  unfold cap
  rw [← Nat.pow_add]
  exact Nat.pow_le_pow_right (by decide) hexponent

theorem one_eq : one = 2 ^ 1074 := by
  decide +kernel

theorem unity_pos : 0 < one := by
  rw [one_eq]
  positivity

/-! ## One operation -/

/-- A factor that no single operation exceeds. -/
def growth : ℚ :=
  1 + 1 / 2 ^ 49

theorem one_le_growth : 1 ≤ growth := by
  norm_num [growth]

theorem growth_pos : 0 < growth :=
  lt_of_lt_of_le one_pos one_le_growth

theorem Proper.units_add (hx : Proper x) (hy : Proper y) (hxy : Proper (x + y)) :
    units (x + y) = nearest (Format.binary64).mantissaBits (units x + units y) := by
  have hsum := (Reads.add hx hy).unique hxy
  rw [← Nat.cast_add, roundedSum_coe] at hsum
  unfold rounded at hsum
  split at hsum
  · exact (Nat.cast_inj.mp hsum).symm
  · cases hsum

theorem Proper.add_bounds (hx : Proper x) (hy : Proper y) (hxy : Proper (x + y)) :
    (units (x + y) : ℚ) ≤ (units x + units y) * growth ∧
      (units x + units y : ℚ) ≤ units (x + y) * growth := by
  obtain ⟨hupper, hlower⟩ := nearest_bounds (p := (Format.binary64).mantissaBits) (by decide)
    (units x + units y)
  rw [← hx.units_add hy hxy] at hupper hlower
  have hbits : (Format.binary64).mantissaBits - 1 = 52 := by decide
  rw [hbits] at hupper hlower
  have hdiv : (((units x + units y) / 2 ^ 52 : Nat) : ℚ) ≤ (units x + units y : ℚ) / 2 ^ 52 := by
    have := Nat.cast_div_le (α := ℚ) (m := units x + units y) (n := 2 ^ 52)
    push_cast at this
    exact this
  have hupper' : (units (x + y) : ℚ) ≤ units x + units y + ((units x + units y) / 2 ^ 52 : Nat) := by
    exact_mod_cast hupper
  have hlower' : (units x + units y : ℚ) ≤ units (x + y) + ((units x + units y) / 2 ^ 52 : Nat) := by
    exact_mod_cast hlower
  unfold growth
  constructor
  · linarith
  · have hnonneg : (0 : ℚ) ≤ units (x + y) := Nat.cast_nonneg _
    linarith

/-- Sums below the range are finite. -/
theorem Proper.add (hx : Proper x) (hy : Proper y) (hcap : (units x + units y : ℚ) ≤ cap) :
    Proper (x + y) := by
  have hsum := Reads.add hx hy
  rw [← Nat.cast_add, roundedSum_coe] at hsum
  have hcap' : units x + units y ≤ cap := by exact_mod_cast hcap
  obtain ⟨hupper, -⟩ := nearest_bounds (p := (Format.binary64).mantissaBits) (by decide)
    (units x + units y)
  have hbits : (Format.binary64).mantissaBits - 1 = 52 := by decide
  have hlarge := two_pow_le_cap (show 52 ≤ 2097 by decide)
  rw [hbits] at hupper
  have hlt : nearest (Format.binary64).mantissaBits (units x + units y) < limit .binary64 := by
    rw [limit_eq]
    omega
  rw [rounded, if_pos hlt] at hsum
  exact hsum.proper

theorem rounded_two_pow (i : Nat) :
    rounded .binary64 (2 ^ i) = ⊤ ∨ rounded .binary64 (2 ^ i) = (2 ^ i : Nat) := by
  have hkept := nearest_of_lt (p := (Format.binary64).mantissaBits) (m := 1) (by decide) i
  rw [Nat.one_mul] at hkept
  unfold rounded
  rw [hkept]
  split
  · exact Or.inr rfl
  · exact Or.inl rfl

theorem Reads.twice {a : ℕ∞} (hx : Reads x a) :
    Reads (Zero.zero + x + x) (roundedSum .binary64 (a + a)) := by
  have hsum := Reads.add reads_zero hx
  rw [zero_add, Magnitude.roundedSum_eq (by decide) hx] at hsum
  exact hsum.add hx

/-- A result that is one in the last place above its exact value at most. -/
theorem proper_of_ranged {z : Float} {N r : Nat} {q : ℚ} (hr : OneUlpAbove .binary64 N r)
    (hz : Reads z (ranged .binary64 r)) (hq : (N : ℚ) ≤ q) (hcap : q ≤ cap) (hlow : 2 ^ 50 ≤ q) :
    Proper z ∧ (units z : ℚ) ≤ q * growth := by
  have hN : N ≤ cap := by exact_mod_cast hq.trans hcap
  unfold OneUlpAbove at hr
  have hbits : (Format.binary64).mantissaBitsWithoutImplicit = 52 := rfl
  rw [hbits] at hr
  have hlarge := two_pow_le_cap (show 52 ≤ 2097 by decide)
  have hlt : r < limit .binary64 := by
    rw [limit_eq]
    omega
  rw [ranged, if_pos hlt] at hz
  refine ⟨hz.proper, ?_⟩
  rw [hz.units_eq]
  have hdiv : ((N / 2 ^ 52 : Nat) : ℚ) ≤ N / 2 ^ 52 := by
    have := Nat.cast_div_le (α := ℚ) (m := N) (n := 2 ^ 52)
    push_cast at this
    exact this
  have hr' : (r : ℚ) ≤ N + (N / 2 ^ 52 : Nat) + 1 := by exact_mod_cast hr
  unfold growth
  linarith

/-- A product of at least `2 ^ 50` units. -/
theorem Proper.mul {q : ℚ} (hx : Proper x) (hy : Proper y) (hq : (units x * units y : ℚ) ≤ q * one)
    (hcap : q ≤ cap) (hlow : 2 ^ 50 ≤ q) : Proper (x * y) ∧ (units (x * y) : ℚ) ≤ q * growth := by
  obtain ⟨N, r, hN, hr, hz⟩ := Magnitude.mul (by decide) hx hy
  refine proper_of_ranged hr hz ?_ hcap hlow
  have hone : (0 : ℚ) < one := Nat.cast_pos.mpr unity_pos
  have hN' : (N * one : ℚ) ≤ units x * units y := by exact_mod_cast hN
  exact le_of_mul_le_mul_right (hN'.trans hq) hone

theorem Proper.div {q : ℚ} (hx : Proper x) (hy : Proper y) (hpos : 0 < units y)
    (hq : (units x * one : ℚ) ≤ q * units y) (hcap : q ≤ cap) (hlow : 2 ^ 50 ≤ q) :
    Proper (x / y) ∧ (units (x / y) : ℚ) ≤ q * growth := by
  obtain ⟨N, r, hN, hr, hz⟩ := Magnitude.div (by decide) hx hy hpos
  refine proper_of_ranged hr hz ?_ hcap hlow
  have hpos' : (0 : ℚ) < units y := Nat.cast_pos.mpr hpos
  have hN' : (N * units y : ℚ) ≤ units x * one := by exact_mod_cast hN
  exact le_of_mul_le_mul_right (hN'.trans hq) hpos'

theorem Proper.half (hx : Proper x) : Proper (x / 2) := by
  have htwo : units 2 = 2 * one := reads_two.units_eq
  have hone : (0 : ℚ) ≤ one := Nat.cast_nonneg _
  have hbelow : (units x : ℚ) ≤ 2 * cap := by
    have hlimit := (units_lt_limit hx).le
    rw [limit_eq] at hlimit
    exact_mod_cast hlimit
  have hscaled : (units x * one : ℚ) ≤ cap * units 2 := by
    rw [htwo, Nat.cast_mul, Nat.cast_ofNat, ← mul_assoc, mul_comm (cap : ℚ)]
    exact mul_le_mul_of_nonneg_right hbelow hone
  have hlow : (2 : ℚ) ^ 50 ≤ cap := by
    have hcap := two_pow_le_cap (show 50 ≤ 2097 by decide)
    exact_mod_cast hcap
  refine (hx.div reads_two.proper ?_ hscaled le_rfl hlow).1
  rw [htwo]
  exact Nat.mul_pos (by decide) unity_pos

theorem Proper.onto_zero (hx : Proper x) : Proper (Zero.zero + x) := by
  have hsum := Reads.add reads_zero hx
  rw [zero_add, Magnitude.roundedSum_eq (by decide) hx] at hsum
  exact hsum.proper

theorem two_pow_mul_limit : 2 ^ 50 * limit .binary64 = one * one := by
  decide +kernel

theorem limit_le : limit .binary64 ≤ 2 ^ 1024 * one := by
  decide +kernel

/-- What `y` of `z` paths carry of `x`, where no number is less than one. -/
theorem Proper.share {z : Float} (hx : Proper x) (hy : Proper y) (hz : Proper z)
    (hxone : one ≤ units x) (hyone : one ≤ units y) (hyz : units y ≤ units z)
    (hcap : (units x : ℚ) * growth ≤ cap) : Proper (y * (x / z)) ∧
      (units (y * (x / z)) : ℚ) ≤ units x / units z * growth ^ 2 * units y := by
  have hxone' : (one : ℚ) ≤ units x := Nat.cast_le.mpr hxone
  have hyone' : (one : ℚ) ≤ units y := Nat.cast_le.mpr hyone
  have hyz' : (units y : ℚ) ≤ units z := Nat.cast_le.mpr hyz
  have hone : (0 : ℚ) < one := Nat.cast_pos.mpr unity_pos
  have hzpos : 0 < units z := unity_pos.trans_le (hyone.trans hyz)
  have hzpos' : (0 : ℚ) < units z := Nat.cast_pos.mpr hzpos
  have hratio : (0 : ℚ) ≤ units x / units z := div_nonneg (Nat.cast_nonneg _) hzpos'.le
  have hgrow : (units x : ℚ) ≤ units x * growth :=
    le_mul_of_one_le_right (Nat.cast_nonneg _) one_le_growth
  -- One path carries at least `2 ^ 50` units, since there are fewer than `limit` paths.
  have hlow : (2 : ℚ) ^ 50 ≤ units x / units z * one := by
    rw [div_mul_eq_mul_div, le_div_iff₀ hzpos']
    have hlimit : (2 : ℚ) ^ 50 * units z ≤ one * one := by
      have hbelow : 2 ^ 50 * units z ≤ one * one := by
        rw [← two_pow_mul_limit]
        exact Nat.mul_le_mul_left _ (units_lt_limit hz).le
      exact_mod_cast hbelow
    exact hlimit.trans (mul_le_mul_of_nonneg_right hxone' hone.le)
  have hone_cap : (units x : ℚ) / units z * one ≤ cap := by
    rw [div_mul_eq_mul_div, div_le_iff₀ hzpos']
    calc (units x : ℚ) * one ≤ units x * units z :=
          mul_le_mul_of_nonneg_left (hyone'.trans hyz') (Nat.cast_nonneg _)
      _ ≤ cap * units z := mul_le_mul_of_nonneg_right (hgrow.trans hcap) hzpos'.le
  obtain ⟨hcoeff, hcoeff_le⟩ := hx.div hz hzpos (q := units x / units z * one)
    (by field_simp; exact le_rfl) hone_cap hlow
  have hproduct : (units y : ℚ) * units (x / z) ≤ units x / units z * growth * units y * one := by
    calc (units y : ℚ) * units (x / z) ≤ units y * (units x / units z * one * growth) :=
          mul_le_mul_of_nonneg_left hcoeff_le (Nat.cast_nonneg _)
      _ = units x / units z * growth * units y * one := by ring
  have hshare_cap : (units x : ℚ) / units z * growth * units y ≤ cap := by
    calc (units x : ℚ) / units z * growth * units y ≤ units x / units z * growth * units z :=
          mul_le_mul_of_nonneg_left hyz' (mul_nonneg hratio growth_pos.le)
      _ = units x * growth := by field_simp
      _ ≤ cap := hcap
  have hshare_low : (2 : ℚ) ^ 50 ≤ units x / units z * growth * units y := by
    calc (2 : ℚ) ^ 50 ≤ units x / units z * one := hlow
      _ ≤ units x / units z * units y := mul_le_mul_of_nonneg_left hyone' hratio
      _ ≤ units x / units z * units y * growth :=
          le_mul_of_one_le_right (mul_nonneg hratio (Nat.cast_nonneg _)) one_le_growth
      _ = units x / units z * growth * units y := by ring
  obtain ⟨hshare, hshare_le⟩ := hy.mul hcoeff hproduct hshare_cap hshare_low
  refine ⟨hshare, hshare_le.trans (le_of_eq ?_)⟩
  ring

/-! ## Many operations -/

theorem growth_pow_le {K j : Nat} (hK : K ≤ 2 ^ 48 * j) : growth ^ K ≤ 2 ^ j := by
  have hstep : growth ^ 2 ^ 48 ≤ 2 := by
    have hinverse : growth⁻¹ = 1 + -(1 / (2 ^ 49 + 1)) := by norm_num [growth]
    have hbernoulli := one_add_mul_le_pow (R := ℚ) (a := -(1 / (2 ^ 49 + 1))) (by norm_num) (2 ^ 48)
    rw [← hinverse, inv_pow] at hbernoulli
    have hhalf : (1 / 2 : ℚ) ≤ 1 + ((2 ^ 48 : Nat) : ℚ) * -(1 / (2 ^ 49 + 1)) := by norm_num
    have hpos : 0 < growth ^ 2 ^ 48 := pow_pos growth_pos _
    have hle := hhalf.trans hbernoulli
    rw [le_inv_comm₀ (by norm_num) hpos] at hle
    norm_num at hle
    exact hle
  calc growth ^ K ≤ growth ^ (2 ^ 48 * j) := pow_le_pow_right₀ one_le_growth hK
    _ = (growth ^ 2 ^ 48) ^ j := pow_mul ..
    _ ≤ 2 ^ j := pow_le_pow_left₀ (pow_pos growth_pos _).le hstep j

end Geodesic.Machine
