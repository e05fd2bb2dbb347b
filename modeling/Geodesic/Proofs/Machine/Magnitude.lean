import Geodesic.Proofs.Machine.Format

/-!
# Magnitudes

A number of a format that is neither negative nor undefined has a magnitude: a whole number of units,
or infinity. Comparison is comparison of magnitudes, and addition rounds the sum of the magnitudes.
-/

namespace Geodesic.Machine

open Float.Model Float.Model.UnpackedFloat

variable (spec : Format)

/-- Either zero has magnitude zero. -/
inductive Magnitude : UnpackedFloat → ℕ∞ → Prop
  | zero (s : Sign) : Magnitude (.zero s) 0
  | finite {m k N : Nat} (hm : 0 < m) (hc : Canonical spec m k)
      (hk : k + 2 < 2 ^ spec.exponentBits) (hN : m * 2 ^ k = N) :
      Magnitude (.finite .positive m (spec.minExponent + k) hm) N
  | infinity : Magnitude (.infinity .positive) ⊤

/-! ## Comparison -/

variable {spec}

theorem canonical_lt {m k m' k' : Nat} (h : Canonical spec m k) (h' : Canonical spec m' k')
    (hk : k < k') : m * 2 ^ k < m' * 2 ^ k' := by
  have hfull : 2 ^ spec.mantissaBitsWithoutImplicit ≤ m' := h'.full.resolve_left (by omega)
  calc m * 2 ^ k < 2 ^ spec.mantissaBits * 2 ^ k :=
        Nat.mul_lt_mul_of_pos_right h.digits (Nat.two_pow_pos k)
    _ = 2 ^ spec.mantissaBitsWithoutImplicit * 2 ^ (k + 1) := by
        rw [Format.mantissaBits, ← Nat.pow_add, ← Nat.pow_add]
        congr 1
        omega
    _ ≤ m' * 2 ^ k' := Nat.mul_le_mul hfull (Nat.pow_le_pow_right (by decide) hk)

theorem compare_finite {m k m' k' : Nat} (h : Canonical spec m k) (h' : Canonical spec m' k') :
    (compare (spec.minExponent + k) (spec.minExponent + k')).then (compare m m') =
      compare (m * 2 ^ k) (m' * 2 ^ k') := by
  have hexponent : compare (spec.minExponent + (k : Int)) (spec.minExponent + (k' : Int)) =
      compare k k' := by
    rcases Nat.lt_trichotomy k k' with hlt | heq | hgt
    · rw [Nat.compare_eq_lt.mpr hlt, Int.compare_eq_lt.mpr (by omega)]
    · rw [heq]
      simp
    · rw [Nat.compare_eq_gt.mpr hgt, Int.compare_eq_gt.mpr (by omega)]
  rw [hexponent]
  rcases Nat.lt_trichotomy k k' with hlt | heq | hgt
  · rw [Nat.compare_eq_lt.mpr hlt, Nat.compare_eq_lt.mpr (canonical_lt h h' hlt)]
    rfl
  · subst heq
    have hpos := Nat.two_pow_pos k
    rcases Nat.lt_trichotomy m m' with hlt | heq | hgt
    · rw [Nat.compare_eq_lt.mpr (Nat.mul_lt_mul_of_pos_right hlt hpos), Nat.compare_eq_lt.mpr hlt]
      simp
    · rw [heq]
      simp
    · rw [Nat.compare_eq_gt.mpr (Nat.mul_lt_mul_of_pos_right hgt hpos), Nat.compare_eq_gt.mpr hgt]
      simp
  · rw [Nat.compare_eq_gt.mpr hgt, Nat.compare_eq_gt.mpr (canonical_lt h' h hgt)]
    rfl

theorem units_pos {m k N : Nat} (hm : 0 < m) (hN : m * 2 ^ k = N) : 0 < N := by
  rw [← hN]
  exact Nat.mul_pos hm (Nat.two_pow_pos k)

theorem Magnitude.lt_iff {x y : UnpackedFloat} {a b : ℕ∞} (hx : Magnitude spec x a)
    (hy : Magnitude spec y b) : x.lt y = true ↔ a < b := by
  unfold UnpackedFloat.lt
  cases hx with
  | zero s =>
      cases hy with
      | zero s' => simp [UnpackedFloat.compare]
      | infinity => simp [UnpackedFloat.compare]
      | finite hm hc hk hN =>
          have hpos := units_pos hm hN
          simp [UnpackedFloat.compare, hpos]
  | infinity =>
      cases hy with
      | zero s' => simp [UnpackedFloat.compare]
      | infinity =>
          simp only [UnpackedFloat.compare, lt_irrefl, iff_false]
          decide
      | finite hm hc hk hN => simp [UnpackedFloat.compare]
  | finite hm hc hk hN =>
      cases hy with
      | zero s' => simp [UnpackedFloat.compare]
      | infinity => simp [UnpackedFloat.compare]
      | finite hm' hc' hk' hN' =>
          rw [Nat.cast_lt, ← Nat.compare_eq_lt, ← hN, ← hN', ← compare_finite hc hc']
          simp [UnpackedFloat.compare]

theorem Magnitude.beq_iff {x y : UnpackedFloat} {a b : ℕ∞} (hx : Magnitude spec x a)
    (hy : Magnitude spec y b) : x.beq y = true ↔ a = b := by
  unfold UnpackedFloat.beq
  cases hx with
  | zero s =>
      cases hy with
      | zero s' => simp [UnpackedFloat.compare]
      | infinity => simp [UnpackedFloat.compare]
      | finite hm hc hk hN =>
          have hpos := units_pos hm hN
          simp only [UnpackedFloat.compare]
          exact iff_of_false (by decide) (by exact_mod_cast hpos.ne)
  | infinity =>
      cases hy with
      | zero s' => simp [UnpackedFloat.compare]
      | infinity =>
          simp only [UnpackedFloat.compare, iff_true]
          decide
      | finite hm hc hk hN => simp [UnpackedFloat.compare]
  | finite hm hc hk hN =>
      cases hy with
      | zero s' =>
          have hpos := units_pos hm hN
          simp [UnpackedFloat.compare, hpos.ne']
      | infinity => simp [UnpackedFloat.compare]
      | finite hm' hc' hk' hN' =>
          rw [Nat.cast_inj, ← Nat.compare_eq_eq, ← hN, ← hN', ← compare_finite hc hc']
          simp [UnpackedFloat.compare]

theorem Magnitude.le_iff {x y : UnpackedFloat} {a b : ℕ∞} (hx : Magnitude spec x a)
    (hy : Magnitude spec y b) : x.le y = true ↔ a ≤ b := by
  have hsplit : x.le y = (x.lt y || x.beq y) := by
    unfold UnpackedFloat.le UnpackedFloat.lt UnpackedFloat.beq
    rcases UnpackedFloat.compare x y with _ | _ | _ | _ <;> rfl
  rw [hsplit, Bool.or_eq_true, hx.lt_iff hy, hx.beq_iff hy, le_iff_lt_or_eq]

/-! ## Packing -/

theorem minExponent_eq (spec : Format) :
    spec.minExponent + spec.exponentBias + spec.mantissaBitsWithoutImplicit = 1 := by
  have hpow : 1 ≤ 2 ^ (spec.exponentBits - 1) := Nat.two_pow_pos _
  have hcast : (2 ^ (spec.exponentBits - 1) : Int) = ((2 ^ (spec.exponentBits - 1) : Nat) : Int) := by
    push_cast
    rfl
  unfold Format.minExponent Format.exponentBias Format.mantissaBits
  rw [hcast]
  omega

theorem unpackSign_packComponents (s : Sign) (e : BitVec spec.exponentBits)
    (m : BitVec spec.mantissaBitsWithoutImplicit) :
    unpackSign (packComponents spec s e m) = s.toBitVec := by
  ext i hi
  have hi0 : i = 0 := by omega
  subst hi0
  simp [unpackSign, packComponents, BitVec.getLsbD_append, BitVec.getLsbD_eq_getElem,
    BitVec.getElem_append]

theorem ofBitVec_toBitVec (s : Sign) : Sign.ofBitVec s.toBitVec = s := by
  cases s <;> rfl

theorem toNat_implicit {f : Nat} (m : BitVec f) : (1#1 ++ m).toNat = 2 ^ f + m.toNat := by
  rw [BitVec.toNat_append, ← Nat.shiftLeft_add_eq_or_of_lt m.isLt, Nat.shiftLeft_eq]
  simp

theorem unpack_packComponents (s : Sign) (e : BitVec spec.exponentBits)
    (m : BitVec spec.mantissaBitsWithoutImplicit) :
    UnpackedFloat.unpack spec (packComponents spec s e m) =
      if e = -1#_ then if m = 0#_ then .infinity s else .notANumber
      else if e = 0#_ then
        if h : m = 0#_ then .zero s
        else .finite s m.toNat ((e.toNat : Int) - (spec.exponentBias + spec.mantissaBitsWithoutImplicit) + 1)
          (by simpa [BitVec.toNat_pos, BitVec.pos_iff_ne_zero] using h)
      else .finite s (1#1 ++ m).toNat
        ((e.toNat : Int) - (spec.exponentBias + spec.mantissaBitsWithoutImplicit)) (by simp) := by
  unfold UnpackedFloat.unpack
  simp only [unpackMantissa_packComponents, unpackExponent_packComponents,
    unpackSign_packComponents, ofBitVec_toBitVec]

theorem toNat_ones {n : Nat} : (-1#n).toNat = 2 ^ n - 1 := by
  rw [BitVec.neg_one_eq_allOnes, BitVec.toNat_allOnes]

theorem ne_ones {n x : Nat} (hx : x + 1 < 2 ^ n) : BitVec.ofNat n x ≠ -1#_ := by
  intro heq
  have hvalue := congrArg BitVec.toNat heq
  rw [BitVec.toNat_ofNat, Nat.mod_eq_of_lt (by omega), toNat_ones] at hvalue
  omega

theorem ne_zeros {n x : Nat} (hpos : 0 < x) (hx : x < 2 ^ n) : BitVec.ofNat n x ≠ 0#_ := by
  intro heq
  have hvalue := congrArg BitVec.toNat heq
  rw [BitVec.toNat_ofNat, Nat.mod_eq_of_lt hx, BitVec.toNat_zero] at hvalue
  omega

/-- A number with all its digits is stored without the first of them. -/
theorem unpack_normal {m k : Nat} (hm : 0 < m) (hdigits : m < 2 ^ spec.mantissaBits)
    (hfull : 2 ^ spec.mantissaBitsWithoutImplicit ≤ m) (hk : k + 2 < 2 ^ spec.exponentBits)
    (s : Sign) :
    UnpackedFloat.unpack spec (packComponents spec s (BitVec.ofNat _ (k + 1)) (BitVec.ofNat _ m)) =
      .finite s m (spec.minExponent + k) hm := by
  have hmin := minExponent_eq spec
  have hexponent : (BitVec.ofNat spec.exponentBits (k + 1)).toNat = k + 1 := by
    rw [BitVec.toNat_ofNat, Nat.mod_eq_of_lt (by omega)]
  have hmantissa : (1#1 ++ BitVec.ofNat spec.mantissaBitsWithoutImplicit m).toNat = m := by
    rw [two_pow_mantissaBits] at hdigits
    rw [toNat_implicit, BitVec.toNat_ofNat, Nat.mod_eq_sub_mod hfull,
      Nat.mod_eq_of_lt (by omega)]
    omega
  rw [unpack_packComponents, if_neg (ne_ones hk), if_neg (ne_zeros (by omega) (by omega))]
  congr 1
  rw [hexponent]
  omega

/-- The smallest numbers have an exponent field of zeros. -/
theorem unpack_subnormal (hbits : 1 < spec.exponentBits) {m : Nat} (hm : 0 < m)
    (hshort : m < 2 ^ spec.mantissaBitsWithoutImplicit) (s : Sign) :
    UnpackedFloat.unpack spec (packComponents spec s 0#_ (BitVec.ofNat _ m)) =
      .finite s m (spec.minExponent + (0 : Nat)) hm := by
  have hmin := minExponent_eq spec
  have hfour : 2 ^ 2 ≤ 2 ^ spec.exponentBits := Nat.pow_le_pow_right (by decide) hbits
  have hmantissa : (BitVec.ofNat spec.mantissaBitsWithoutImplicit m).toNat = m := by
    rw [BitVec.toNat_ofNat, Nat.mod_eq_of_lt hshort]
  have hnotones : (0#(spec.exponentBits)) ≠ -1#_ := ne_ones (by omega)
  rw [unpack_packComponents, if_neg hnotones, if_pos rfl, dif_neg (ne_zeros hm hshort)]
  congr 1
  rw [BitVec.toNat_zero]
  omega

/-- Packing keeps what fits, and the rest becomes infinite. -/
theorem unpack_pack_finite (hbits : 1 < spec.exponentBits) {m k : Nat} (hm : 0 < m)
    (hc : Canonical spec m k) (s : Sign) :
    UnpackedFloat.unpack spec (UnpackedFloat.pack spec (.finite s m (spec.minExponent + k) hm)) =
      if k + 2 < 2 ^ spec.exponentBits then .finite s m (spec.minExponent + k) hm
      else .infinity s := by
  have hmin := minExponent_eq spec
  have hbiased : (spec.minExponent + k + spec.exponentBias + spec.mantissaBitsWithoutImplicit).toNat
      = k + 1 := by omega
  have hupper := (Nat.log2_lt hm.ne').mpr hc.digits
  unfold UnpackedFloat.pack
  dsimp only
  rw [hbiased]
  by_cases hk : k + 2 < 2 ^ spec.exponentBits
  · rw [if_pos hk, if_neg (by omega)]
    by_cases hfull : 2 ^ spec.mantissaBitsWithoutImplicit ≤ m
    · have hlog : m.log2 + 1 = spec.mantissaBits := by
        have hlower := (Nat.le_log2 hm.ne').mpr hfull
        unfold Format.mantissaBits at *
        omega
      rw [if_pos hlog]
      exact unpack_normal hm hc.digits hfull hk s
    · have hlog : ¬ m.log2 + 1 = spec.mantissaBits := by
        have hshort := (Nat.log2_lt hm.ne').mpr (Nat.lt_of_not_le hfull)
        unfold Format.mantissaBits
        omega
      obtain rfl : k = 0 := hc.full.resolve_right hfull
      rw [if_neg hlog]
      exact unpack_subnormal hbits hm (Nat.lt_of_not_le hfull) s
  · rw [if_neg hk, if_pos (by omega), packedInfinity, unpack_packComponents, if_pos rfl]
    exact if_pos rfl

variable (spec) in
/-- What bits can hold: finite numbers are canonical and in range. -/
inductive Unpacked : UnpackedFloat → Prop
  | notANumber : Unpacked .notANumber
  | infinity (s : Sign) : Unpacked (.infinity s)
  | zero (s : Sign) : Unpacked (.zero s)
  | finite {s : Sign} {m : Nat} {e : Int} (hm : 0 < m) (k : Nat) (he : e = spec.minExponent + k)
      (hc : Canonical spec m k) (hk : k + 2 < 2 ^ spec.exponentBits) : Unpacked (.finite s m e hm)

theorem unpacked_unpack (hbits : 1 < spec.exponentBits) (b : BitVec spec.numBits) :
    Unpacked spec (UnpackedFloat.unpack spec b) := by
  have hmin := minExponent_eq spec
  have hfour : 2 ^ 2 ≤ 2 ^ spec.exponentBits := Nat.pow_le_pow_right (by decide) hbits
  have hhalf : 2 ^ spec.mantissaBits = 2 * 2 ^ spec.mantissaBitsWithoutImplicit :=
    two_pow_mantissaBits
  have hdigits := (unpackMantissa b).isLt
  unfold UnpackedFloat.unpack
  dsimp only
  split
  · split
    · exact .infinity _
    · exact .notANumber
  · rename_i hones
    split
    · rename_i hzero
      split
      · exact .zero _
      · refine .finite _ 0 ?_ ⟨by omega, Or.inl rfl⟩ (by omega)
        rw [hzero, BitVec.toNat_zero]
        omega
    · rename_i hzero
      have hlow : (unpackExponent b).toNat ≠ 0 := by
        intro heq
        exact hzero (BitVec.eq_of_toNat_eq heq)
      have hhigh : (unpackExponent b).toNat ≠ 2 ^ spec.exponentBits - 1 := by
        intro heq
        refine hones (BitVec.eq_of_toNat_eq ?_)
        rw [heq, toNat_ones]
      have hlt := (unpackExponent b).isLt
      have hvalue := toNat_implicit (unpackMantissa b)
      exact .finite _ ((unpackExponent b).toNat - 1) (by omega)
        ⟨by omega, Or.inr (by omega)⟩ (by omega)

/-! ## Addition -/

variable (spec) in
def limit : Nat :=
  2 ^ spec.mantissaBitsWithoutImplicit * 2 ^ (2 ^ spec.exponentBits - 2)

variable (spec) in
/-- A magnitude, or infinity beyond the range of the format. -/
def ranged (N : Nat) : ℕ∞ :=
  if N < limit spec then N else ⊤

theorem ranged_mono {M N : Nat} (h : M ≤ N) : ranged spec M ≤ ranged spec N := by
  unfold ranged
  by_cases hN : N < limit spec
  · rw [if_pos hN, if_pos (Nat.lt_of_le_of_lt h hN)]
    exact Nat.cast_le.mpr h
  · rw [if_neg hN]
    exact le_top

variable (spec) in
/-- The magnitude that a sum is rounded to: beyond the range, infinity. -/
def rounded (N : Nat) : ℕ∞ :=
  if nearest spec.mantissaBits N < limit spec then nearest spec.mantissaBits N else ⊤

theorem lt_limit_iff (hbits : 1 < spec.exponentBits) {m k : Nat} (hc : Canonical spec m k) :
    m * 2 ^ k < limit spec ↔ k + 2 < 2 ^ spec.exponentBits := by
  have hfour : 2 ^ 2 ≤ 2 ^ spec.exponentBits := Nat.pow_le_pow_right (by decide) hbits
  unfold limit
  constructor
  · intro hlt
    by_contra hk
    have hfull := hc.full.resolve_left (by omega)
    have hle : 2 ^ spec.mantissaBitsWithoutImplicit * 2 ^ (2 ^ spec.exponentBits - 2) ≤ m * 2 ^ k :=
      Nat.mul_le_mul hfull (Nat.pow_le_pow_right (by decide) (by omega))
    omega
  · intro hk
    calc m * 2 ^ k < 2 ^ spec.mantissaBits * 2 ^ k :=
          Nat.mul_lt_mul_of_pos_right hc.digits (Nat.two_pow_pos k)
      _ = 2 ^ spec.mantissaBitsWithoutImplicit * 2 ^ (k + 1) := by
          rw [Format.mantissaBits, ← Nat.pow_add, ← Nat.pow_add]
          congr 1
          omega
      _ ≤ _ := Nat.mul_le_mul_left _ (Nat.pow_le_pow_right (by decide) (by omega))

/-- Numbers of the format are rounded to themselves. -/
theorem rounded_canonical (hbits : 1 < spec.exponentBits) {m k : Nat} (hc : Canonical spec m k)
    (hk : k + 2 < 2 ^ spec.exponentBits) : rounded spec (m * 2 ^ k) = (m * 2 ^ k : Nat) := by
  unfold rounded
  rw [nearest_of_lt hc.digits, if_pos ((lt_limit_iff hbits hc).mpr hk)]

theorem magnitude_round (hbits : 1 < spec.exponentBits) {m : Nat} (hm : m ≠ 0) (k : Nat) :
    Magnitude spec (UnpackedFloat.unpack spec (UnpackedFloat.pack spec
      (UnpackedFloat.round spec .positive m (spec.minExponent + k)))) (rounded spec (m * 2 ^ k)) := by
  obtain ⟨m', k', hm', hround, hvalue, hc⟩ := round_eq spec hm k .positive
  rw [hround, unpack_pack_finite hbits hm' hc]
  unfold rounded
  rw [← hvalue]
  by_cases hk : k' + 2 < 2 ^ spec.exponentBits
  · rw [if_pos hk, if_pos ((lt_limit_iff hbits hc).mpr hk)]
    exact .finite hm' hc hk rfl
  · rw [if_neg hk, if_neg (mt (lt_limit_iff hbits hc).mp hk)]
    exact .infinity

/-- Packing and unpacking again keeps a magnitude. -/
theorem Magnitude.repack (hbits : 1 < spec.exponentBits) {x : UnpackedFloat} {a : ℕ∞}
    (hx : Magnitude spec x a) :
    Magnitude spec (UnpackedFloat.unpack spec (UnpackedFloat.pack spec x)) a := by
  cases hx with
  | zero s =>
      have hfour : 2 ^ 2 ≤ 2 ^ spec.exponentBits := Nat.pow_le_pow_right (by decide) hbits
      have hnotones : (0 : BitVec spec.exponentBits) ≠ -1#_ := by
        intro heq
        have := congrArg BitVec.toNat heq
        rw [BitVec.neg_one_eq_allOnes, BitVec.toNat_allOnes, BitVec.ofNat_eq_ofNat,
          BitVec.toNat_zero] at this
        omega
      have hzero : UnpackedFloat.unpack spec (UnpackedFloat.pack spec (.zero s)) = .zero s := by
        unfold UnpackedFloat.pack packedZero
        rw [unpack_packComponents, if_neg hnotones]
        rfl
      rw [hzero]
      exact .zero s
  | infinity =>
      have hinfinity : UnpackedFloat.unpack spec (UnpackedFloat.pack spec (.infinity .positive)) =
          .infinity .positive := by
        unfold UnpackedFloat.pack packedInfinity
        rw [unpack_packComponents, if_pos rfl]
        rfl
      rw [hinfinity]
      exact .infinity
  | finite hm hc hk hN =>
      rw [unpack_pack_finite hbits hm hc, if_pos hk]
      exact .finite hm hc hk hN

variable (spec) in
/-- What magnitudes in finer units become, of which `2 ^ d` are one unit of the format. -/
noncomputable def converted (d : Nat) (a : ℕ∞) : ℕ∞ :=
  if a = ⊤ then ⊤ else ranged spec (nearestOf spec.mantissaBits d a.toNat)

theorem converted_coe (d N : Nat) :
    converted spec d N = ranged spec (nearestOf spec.mantissaBits d N) := by
  unfold converted
  rw [if_neg (ENat.natCast_ne_top N), ENat.toNat_natCast]

theorem converted_top (d : Nat) : converted spec d ⊤ = ⊤ :=
  if_pos rfl

theorem converted_mono (d : Nat) {a b : ℕ∞} (h : a ≤ b) :
    converted spec d a ≤ converted spec d b := by
  by_cases hb : b = ⊤
  · rw [hb, converted_top]
    exact le_top
  · have ha : a ≠ ⊤ := ne_top_of_le_ne_top hb h
    obtain ⟨M, rfl⟩ := ENat.ne_top_iff_exists.mp ha
    obtain ⟨N, rfl⟩ := ENat.ne_top_iff_exists.mp hb
    rw [converted_coe, converted_coe]
    exact ranged_mono (nearestOf_mono mantissaBits_pos d (Nat.cast_le.mp h))

variable (spec) in
noncomputable def roundedSum (a : ℕ∞) : ℕ∞ :=
  if a = ⊤ then ⊤ else rounded spec a.toNat

theorem roundedSum_eq_converted (a : ℕ∞) : roundedSum spec a = converted spec 0 a := by
  unfold roundedSum converted
  rw [nearestOf_zero_left]
  rfl

theorem roundedSum_coe (N : Nat) : roundedSum spec N = rounded spec N := by
  rw [roundedSum_eq_converted, converted_coe, nearestOf_zero_left]
  rfl

theorem roundedSum_mono {a b : ℕ∞} (h : a ≤ b) : roundedSum spec a ≤ roundedSum spec b := by
  rw [roundedSum_eq_converted, roundedSum_eq_converted]
  exact converted_mono 0 h

theorem Magnitude.roundedSum_eq (hbits : 1 < spec.exponentBits) {x : UnpackedFloat} {a : ℕ∞}
    (hx : Magnitude spec x a) : roundedSum spec a = a := by
  cases hx with
  | zero s =>
      have hc : Canonical spec 0 0 := ⟨Nat.two_pow_pos _, Or.inl rfl⟩
      have hfour : 2 ^ 2 ≤ 2 ^ spec.exponentBits := Nat.pow_le_pow_right (by decide) hbits
      have hround := rounded_canonical hbits hc (by omega)
      rw [Nat.zero_mul] at hround
      exact (roundedSum_coe 0).trans hround
  | infinity => exact if_pos rfl
  | finite hm hc hk hN =>
      rw [roundedSum_coe, ← hN]
      exact rounded_canonical hbits hc hk

theorem add_finite {m k m' k' : Nat} (hm : 0 < m) (hm' : 0 < m') :
    ∃ (M j : Nat), M ≠ 0 ∧ M * 2 ^ j = m * 2 ^ k + m' * 2 ^ k' ∧
      UnpackedFloat.add spec (.finite .positive m (spec.minExponent + k) hm)
        (.finite .positive m' (spec.minExponent + k') hm') =
      UnpackedFloat.round spec .positive M (spec.minExponent + j) := by
  refine ⟨m * 2 ^ (k - min k k') + m' * 2 ^ (k' - min k k'), min k k', ?_, ?_, ?_⟩
  · have hpos := Nat.mul_pos hm (Nat.two_pow_pos (k - min k k'))
    omega
  · rw [Nat.add_mul, Nat.mul_assoc, Nat.mul_assoc, ← Nat.pow_add, ← Nat.pow_add,
      Nat.sub_add_cancel (Nat.min_le_left k k'), Nat.sub_add_cancel (Nat.min_le_right k k')]
  · have hmin : min (spec.minExponent + (k : Int)) (spec.minExponent + k') =
        spec.minExponent + (min k k' : Nat) := by omega
    have hshift : (spec.minExponent + (k : Int) - (spec.minExponent + (min k k' : Nat))).toNat =
        k - min k k' := by omega
    have hshift' : (spec.minExponent + (k' : Int) - (spec.minExponent + (min k k' : Nat))).toNat =
        k' - min k k' := by omega
    have hpos := Nat.mul_pos hm (Nat.two_pow_pos (k - min k k'))
    unfold UnpackedFloat.add decreaseExponent
    dsimp only
    rw [hmin, hshift, hshift', Nat.shiftLeft_eq, Nat.shiftLeft_eq]
    unfold Sign.apply UnpackedFloat.normalize
    dsimp only
    rw [← Int.natCast_add, Int.compare_eq_gt.mpr (by omega)]
    rfl

/-- Addition rounds the sum of the magnitudes. -/
theorem Magnitude.add (hbits : 1 < spec.exponentBits) {x y : UnpackedFloat} {a b : ℕ∞}
    (hx : Magnitude spec x a) (hy : Magnitude spec y b) :
    Magnitude spec (UnpackedFloat.unpack spec (UnpackedFloat.pack spec
      (UnpackedFloat.add spec x y))) (roundedSum spec (a + b)) := by
  cases hx with
  | zero s =>
      rw [zero_add, hy.roundedSum_eq hbits]
      cases hy with
      | zero s' =>
          have hzero : ∃ s'', UnpackedFloat.add spec (.zero s) (.zero s') = .zero s'' := by
            cases s <;> cases s' <;> exact ⟨_, rfl⟩
          obtain ⟨s'', hzero⟩ := hzero
          rw [hzero]
          exact (Magnitude.zero s'').repack hbits
      | infinity => exact Magnitude.infinity.repack hbits
      | finite hm hc hk hN => exact (Magnitude.finite hm hc hk hN).repack hbits
  | infinity =>
      rw [top_add]
      have htop : roundedSum spec ⊤ = ⊤ := if_pos rfl
      rw [htop]
      cases hy with
      | zero s' => exact Magnitude.infinity.repack hbits
      | infinity => exact Magnitude.infinity.repack hbits
      | finite hm hc hk hN => exact Magnitude.infinity.repack hbits
  | finite hm hc hk hN =>
      cases hy with
      | zero s' =>
          have hx := Magnitude.finite hm hc hk hN
          rw [add_zero, hx.roundedSum_eq hbits]
          exact hx.repack hbits
      | infinity =>
          rw [add_top]
          have htop : roundedSum spec ⊤ = ⊤ := if_pos rfl
          rw [htop]
          exact Magnitude.infinity.repack hbits
      | finite hm' hc' hk' hN' =>
          obtain ⟨M, j, hM, hunits, hadd⟩ := add_finite hm hm'
          rw [hadd, ← Nat.cast_add, roundedSum_coe, ← hN, ← hN', ← hunits]
          exact magnitude_round hbits hM j

end Geodesic.Machine
