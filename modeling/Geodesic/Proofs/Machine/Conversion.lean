import Geodesic.Proofs.Machine.Double

/-!
# Conversions keep the order

Whole numbers and numbers of another format become the nearest number of a format. What is too small
becomes zero and what is too large becomes infinite, but nothing changes places, and what is negative
stays so.
-/

namespace Geodesic.Machine

open Decimal
open Float.Model (UnpackedFloat Format totalExponent)
open Float.Model.UnpackedFloat

/-! ## Rounding finer units -/

section Rounding

variable {spec : Format} {m : Nat}

/-- Where digits are dropped from a number of finer units. -/
theorem cutExponent_eq (hm : m ≠ 0) (d k : Nat) :
    cutExponent spec m (spec.minExponent - d + k) =
      spec.minExponent - d + (max d (excess spec.mantissaBits (m * 2 ^ k)) : Nat) := by
  unfold cutExponent Format.targetExponent totalExponent excess
  rw [log2_mul_pow hm]
  omega

theorem roundedMantissa_cut (m : Nat) (e : Int) :
    (shiftToTargetExponent spec m e .exact).1.roundedMantissa =
      roundHalfEven m (2 ^ (cutExponent spec m e - e).toNat) :=
  (shifted_shiftRight m _).roundedMantissa

/-- Rounding first adds zeros for the digits that the format still has room for: the number is `m'`
times two to the smaller of `k` and `j`. -/
theorem exists_round_eq (hm : m ≠ 0) {d k j : Nat}
    (hj : max d (excess spec.mantissaBits (m * 2 ^ k)) = j) (s : Sign) :
    ∃ m', m' ≠ 0 ∧ m' * 2 ^ min k j = m * 2 ^ k ∧
      UnpackedFloat.round spec s m (spec.minExponent - d + k) =
        roundWithAccuracy spec s m' (spec.minExponent - d + (min k j : Nat)) .exact := by
  have hcut : cutExponent spec m (spec.minExponent - d + k) = spec.minExponent - d + j := by
    rw [cutExponent_eq hm, hj]
  have hshift : (spec.minExponent - (d : Int) + k - (spec.minExponent - d + j)).toNat = k - j := by
    omega
  have hexponent : spec.minExponent - (d : Int) + k - ((k - j : Nat) : Int) =
      spec.minExponent - d + (min k j : Nat) := by omega
  refine ⟨m * 2 ^ (k - j), Nat.mul_ne_zero hm (Nat.two_pow_pos _).ne', ?_, ?_⟩
  · rw [Nat.mul_assoc, ← Nat.pow_add]
    congr 2
    omega
  · unfold UnpackedFloat.round decreaseExponent
    rw [← cutExponent, hcut]
    dsimp only
    rw [hshift, hexponent, Nat.shiftLeft_eq]

theorem magnitude_round_of (hbits : 1 < spec.exponentBits) (hm : m ≠ 0) (d k : Nat) :
    Magnitude spec (UnpackedFloat.unpack spec (UnpackedFloat.pack spec
      (UnpackedFloat.round spec .positive m (spec.minExponent - d + k))))
      (ranged spec (nearestOf spec.mantissaBits d (m * 2 ^ k))) := by
  unfold nearestOf
  generalize hj : max d (excess spec.mantissaBits (m * 2 ^ k)) = j
  obtain ⟨m', hpos, hvalue, hround⟩ := exists_round_eq hm hj .positive
  have hcut : cutExponent spec m' (spec.minExponent - d + (min k j : Nat)) =
      spec.minExponent - d + j := by
    rw [cutExponent_eq hpos, hvalue, hj]
  have hle : spec.minExponent - d + (min k j : Nat) ≤
      cutExponent spec m' (spec.minExponent - d + (min k j : Nat)) := by omega
  have hshift : (cutExponent spec m' (spec.minExponent - d + (min k j : Nat)) -
      (spec.minExponent - d + (min k j : Nat))).toNat = j - min k j := by omega
  have hunits : (cutExponent spec m' (spec.minExponent - d + (min k j : Nat)) -
      spec.minExponent).toNat = j - d := by omega
  have hmantissa : (shiftToTargetExponent spec m' (spec.minExponent - d + (min k j : Nat))
      .exact).1.roundedMantissa = roundHalfEven (m * 2 ^ k) (2 ^ j) := by
    have hscale := roundHalfEven_mul m' (2 ^ (j - min k j)) (Nat.two_pow_pos (min k j))
    rw [← Nat.pow_add, Nat.sub_add_cancel (Nat.min_le_right k j), hvalue] at hscale
    rw [roundedMantissa_cut, hshift, hscale]
  obtain ⟨-, hresult⟩ := roundWithAccuracy_shifted hle .exact .positive hmantissa
  rw [hunits] at hresult
  rw [hround]
  exact magnitude_of_units hbits hresult

/-- What is negative stays so, and is not rounded to zero where no unit is lost. -/
theorem not_magnitude_round (hbits : 1 < spec.exponentBits) (hm : m ≠ 0) (k : Nat) (a : ℕ∞) :
    ¬ Magnitude spec (UnpackedFloat.unpack spec (UnpackedFloat.pack spec
      (UnpackedFloat.round spec .negative m (spec.minExponent + k)))) a := by
  obtain ⟨m', k', hm', hround, -, hc⟩ := round_eq spec hm k .negative
  rw [hround, unpack_pack_finite hbits hm' hc]
  intro h
  split at h <;> cases h

end Rounding

/-! ## Conversion of magnitudes -/

section Conversion

variable {source target : Format} {c d : Nat}

theorem converted_zero (d : Nat) : converted target d 0 = 0 := by
  have hzero : nearestOf target.mantissaBits d 0 = 0 := by
    have hquotient := roundHalfEven_mul_self 0
      (Nat.two_pow_pos (max d (excess target.mantissaBits 0)))
    rw [Nat.zero_mul] at hquotient
    rw [nearestOf, hquotient, Nat.zero_mul]
  have hcoe : converted target d (0 : Nat) = _ := converted_coe d 0
  rwa [hzero, ranged_zero] at hcoe

/-- A number of one format becomes one of another. One of the two has the smaller unit. -/
theorem Magnitude.convert (hbits : 1 < target.exponentBits)
    (hmin : source.minExponent + d = target.minExponent + c) {x : UnpackedFloat} {a : ℕ∞}
    (hx : Magnitude source x a) :
    Magnitude target (UnpackedFloat.unpack target (UnpackedFloat.pack target
      (roundTo target x))) (converted target d (a * (2 ^ c : Nat))) := by
  cases hx with
  | zero s =>
      rw [zero_mul, converted_zero]
      exact (Magnitude.zero s).repack hbits
  | infinity =>
      rw [ENat.top_mul (Nat.cast_ne_zero.mpr (Nat.two_pow_pos c).ne'), converted_top]
      exact Magnitude.infinity.repack hbits
  | @finite m k N hm hc hk hN =>
      have hexponent : source.minExponent + (k : Int) = target.minExponent - d + (k + c : Nat) := by
        omega
      have hround := magnitude_round_of hbits hm.ne' d (k + c)
      rw [Nat.pow_add, ← Nat.mul_assoc, hN, ← hexponent] at hround
      rw [← Nat.cast_mul, converted_coe]
      exact hround

end Conversion

/-! ## Conversion of numbers -/

/-- The single-precision number has this magnitude, in units of the format. -/
def ReadsSingle (x : Float32) (a : ℕ∞) : Prop :=
  Magnitude .binary32 x.toModel.unpack a

section Numbers

variable {x y : Float} {u v : Float32} {a b : ℕ∞}

theorem double_bits : 1 < Format.binary64.exponentBits := by
  decide

theorem Reads.le_iff (hx : Reads x a) (hy : Reads y b) : x ≤ y ↔ a ≤ b := by
  show decide (x.toModel.unpack.le y.toModel.unpack = true) = true ↔ _
  rw [decide_eq_true_iff]
  exact Magnitude.le_iff hx hy

theorem ReadsSingle.le_iff (hu : ReadsSingle u a) (hv : ReadsSingle v b) : u ≤ v ↔ a ≤ b := by
  show decide (u.toModel.unpack.le v.toModel.unpack = true) = true ↔ _
  rw [decide_eq_true_iff]
  exact Magnitude.le_iff hu hv

/-- A single-precision unit is two to 925 units of doubles. -/
theorem Reads.narrow (hx : Reads x a) :
    ReadsSingle (Single.ofDouble x) (converted .binary32 925 a) := by
  have hmin : Format.binary64.minExponent + (925 : Nat) = Format.binary32.minExponent + (0 : Nat) := by
    decide
  have hconvert := Magnitude.convert (by decide) hmin hx
  rw [Nat.pow_zero, Nat.cast_one, mul_one] at hconvert
  exact hconvert

theorem ReadsSingle.widen (hu : ReadsSingle u a) :
    Reads (Double.ofSingle u) (converted .binary64 0 (a * (2 ^ 925 : Nat))) := by
  have hmin : Format.binary32.minExponent + (0 : Nat) = Format.binary64.minExponent + (925 : Nat) := by
    decide
  exact Magnitude.convert (by decide) hmin hu

theorem ReadsSingle.of_widen (h : Reads (Double.ofSingle u) b) : ∃ a, ReadsSingle u a := by
  have hmin : Format.binary32.minExponent = Format.binary64.minExponent + (925 : Nat) := by decide
  have hcases : Unpacked .binary32 u.toModel.unpack := unpacked_unpack (by decide) _
  have h : Magnitude .binary64 (UnpackedFloat.unpack .binary64 (UnpackedFloat.pack .binary64
    (roundTo .binary64 u.toModel.unpack))) b := h
  unfold ReadsSingle
  generalize u.toModel.unpack = w at hcases h
  cases hcases with
  | notANumber => cases h
  | infinity s =>
      cases s with
      | positive => exact ⟨⊤, .infinity⟩
      | negative => cases h
  | zero s => exact ⟨0, .zero s⟩
  | @finite s m e hm k he hc hk =>
      subst he
      cases s with
      | positive => exact ⟨_, .finite hm hc hk rfl⟩
      | negative =>
          have hexponent : Format.binary32.minExponent + (k : Int) =
              Format.binary64.minExponent + (k + 925 : Nat) := by omega
          have hround := not_magnitude_round double_bits hm.ne' (k + 925) b
          rw [← hexponent] at hround
          exact absurd h hround

theorem unpack_intCast (z : Int) : (z : Float).toModel.unpack =
    UnpackedFloat.unpack .binary64 (UnpackedFloat.pack .binary64 (.ofInt .binary64 z)) :=
  rfl

theorem reads_intCast (n : Nat) :
    Reads ((n : Int) : Float) (converted .binary64 0 (n * 2 ^ 1074 : Nat)) := by
  have hmin : Format.binary64.minExponent - (0 : Nat) + (1074 : Nat) = 0 := by decide
  unfold Reads
  rw [unpack_intCast]
  cases n with
  | zero =>
      have hzero : ((0 * 2 ^ 1074 : Nat) : ℕ∞) = 0 := by rw [Nat.zero_mul, Nat.cast_zero]
      rw [hzero, converted_zero]
      exact .zero .positive
  | succ n =>
      have hround := magnitude_round_of double_bits n.succ_ne_zero 0 1074
      rw [hmin] at hround
      rw [converted_coe]
      exact hround

theorem not_reads_intCast {z : Int} (hz : z < 0) (a : ℕ∞) : ¬ Reads (z : Float) a := by
  have hmin : Format.binary64.minExponent + (1074 : Nat) = 0 := by decide
  have hofInt : UnpackedFloat.ofInt .binary64 z =
      UnpackedFloat.round .binary64 .negative (-z).toNat 0 := by
    unfold UnpackedFloat.ofInt UnpackedFloat.normalize
    rw [Int.compare_eq_lt.mpr hz]
  have hround := not_magnitude_round double_bits (show (-z).toNat ≠ 0 by omega) 1074 a
  rw [hmin] at hround
  unfold Reads
  rwa [unpack_intCast, hofInt]

/-! ### Order -/

theorem narrow_le (hx : Reads x a) (hy : Reads y b) (h : x ≤ y) :
    Single.ofDouble x ≤ Single.ofDouble y :=
  (hx.narrow.le_iff hy.narrow).mpr (converted_mono _ ((hx.le_iff hy).mp h))

theorem widen_le (hu : Reads (Double.ofSingle u) a) (hv : Reads (Double.ofSingle v) b) (h : u ≤ v) :
    Double.ofSingle u ≤ Double.ofSingle v := by
  obtain ⟨a', hu'⟩ := ReadsSingle.of_widen hu
  obtain ⟨b', hv'⟩ := ReadsSingle.of_widen hv
  have hle : a' ≤ b' := (hu'.le_iff hv').mp h
  exact (hu'.widen.le_iff hv'.widen).mpr (converted_mono 0 (mul_le_mul_left hle _))

theorem intCast_le {z z' : Int} (hz : Reads (z : Float) a) (hz' : Reads (z' : Float) b)
    (h : z ≤ z') : (z : Float) ≤ (z' : Float) := by
  obtain ⟨n, rfl⟩ := Int.eq_ofNat_of_zero_le (not_lt.mp fun hneg => not_reads_intCast hneg a hz)
  obtain ⟨n', rfl⟩ := Int.eq_ofNat_of_zero_le (not_lt.mp fun hneg => not_reads_intCast hneg b hz')
  have hle : n * 2 ^ 1074 ≤ n' * 2 ^ 1074 := Nat.mul_le_mul_right _ (Int.ofNat_le.mp h)
  exact ((reads_intCast n).le_iff (reads_intCast n')).mpr (converted_mono 0 (Nat.cast_le.mpr hle))

end Numbers

end Geodesic.Machine
