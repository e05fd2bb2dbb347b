import Geodesic.Number
import Geodesic.Proofs.Machine.Product

/-!
# Double-precision numbers and their magnitudes

Sums, products and quotients of doubles that are not negative have a magnitude again or are
undefined, and what is undefined stays so. Undefined are the product of zero and infinity and the
quotient of two infinities.
-/

namespace Geodesic.Machine

open Float.Model (UnpackedFloat Format)
open Float.Model.UnpackedFloat

/-! ## What is defined -/

section Unpacked

variable {spec : Format} {x y : UnpackedFloat} {a b : ℕ∞}

/-- Products are undefined or have a magnitude. -/
theorem Magnitude.mul_cases (hbits : 1 < spec.exponentBits) (hx : Magnitude spec x a)
    (hy : Magnitude spec y b) : UnpackedFloat.mul spec x y = .notANumber ∨
      ∃ c, Magnitude spec (UnpackedFloat.unpack spec (UnpackedFloat.pack spec
        (UnpackedFloat.mul spec x y))) c := by
  cases a with
  | coe a =>
      cases b with
      | coe b =>
          obtain ⟨N, r, -, -, h⟩ := hx.mul hbits hy
          exact Or.inr ⟨_, h⟩
      | top =>
          cases hy
          cases hx with
          | zero s => exact Or.inl rfl
          | finite hm hc hk hN => exact Or.inr ⟨⊤, Magnitude.infinity.repack hbits⟩
  | top =>
      cases hx
      cases hy with
      | zero s => exact Or.inl rfl
      | finite hm hc hk hN => exact Or.inr ⟨⊤, Magnitude.infinity.repack hbits⟩
      | infinity => exact Or.inr ⟨⊤, Magnitude.infinity.repack hbits⟩

theorem Magnitude.div_cases (hbits : 1 < spec.exponentBits) (hx : Magnitude spec x a)
    (hy : Magnitude spec y b) (hb : 0 < b) : UnpackedFloat.div spec x y = .notANumber ∨
      ∃ c, Magnitude spec (UnpackedFloat.unpack spec (UnpackedFloat.pack spec
        (UnpackedFloat.div spec x y))) c := by
  cases b with
  | coe b =>
      cases a with
      | coe a =>
          obtain ⟨N, r, -, -, h⟩ := hx.div hbits hy (by exact_mod_cast hb)
          exact Or.inr ⟨_, h⟩
      | top =>
          cases hx
          cases hy with
          | zero s => exact absurd hb (lt_irrefl _)
          | finite hm hc hk hN => exact Or.inr ⟨⊤, Magnitude.infinity.repack hbits⟩
  | top =>
      cases hy
      cases hx with
      | zero s => exact Or.inr ⟨0, (Magnitude.zero _).repack hbits⟩
      | finite hm hc hk hN => exact Or.inr ⟨0, (Magnitude.zero _).repack hbits⟩
      | infinity => exact Or.inl rfl

end Unpacked

/-- The double has this magnitude, in units of the format. -/
def Reads (x : Float) (a : ℕ∞) : Prop :=
  Magnitude .binary64 x.toModel.unpack a

def Unsigned (x : Float) : Prop :=
  x.isNaN = true ∨ ∃ a, Reads x a

abbrev one : Nat :=
  unity .binary64

variable {x y : Float} {a b : ℕ∞}

theorem isNaN_iff : x.isNaN = true ↔ x.toModel.unpack = .notANumber := by
  show x.toModel.unpack.isNaN = true ↔ _
  cases x.toModel.unpack <;> simp [UnpackedFloat.isNaN]

theorem Reads.not_nan (h : Reads x a) : x.isNaN = false := by
  show x.toModel.unpack.isNaN = false
  unfold Reads at h
  generalize x.toModel.unpack = u at h
  cases h <;> rfl

theorem Reads.isFinite_iff (h : Reads x a) : x.isFinite = true ↔ a ≠ ⊤ := by
  show x.toModel.unpack.isFinite = true ↔ _
  unfold Reads at h
  generalize x.toModel.unpack = u at h
  cases h <;> simp [UnpackedFloat.isFinite]

theorem Reads.unique (h : Reads x a) (h' : Reads x b) : a = b :=
  (h.beq_iff h').mp ((h.beq_iff h).mpr rfl)

theorem Reads.nonneg (h : Reads x a) : 0 ≤ x := by
  show decide ((UnpackedFloat.le (0 : Float).toModel.unpack x.toModel.unpack) = true) = true
  have hzero : (0 : Float).toModel.unpack = .zero .positive := rfl
  unfold Reads at h
  rw [hzero, decide_eq_true_iff]
  generalize x.toModel.unpack = u at h
  cases h <;> rfl

theorem Reads.not_nonpos (h : Reads x a) (ha : 0 < a) : ¬ x ≤ Zero.zero := by
  show ¬ decide ((UnpackedFloat.le x.toModel.unpack (Zero.zero : Float).toModel.unpack) = true) = true
  have hzero : (Zero.zero : Float).toModel.unpack = .zero .positive := rfl
  unfold Reads at h
  rw [hzero, decide_eq_true_iff]
  generalize x.toModel.unpack = u at h
  cases h with
  | zero s => exact absurd ha (lt_irrefl _)
  | finite hm hc hk hN => exact Bool.false_ne_true
  | infinity => exact Bool.false_ne_true

theorem isFinite_of_nan (h : x.isNaN = true) : x.isFinite = false := by
  show x.toModel.unpack.isFinite = false
  rw [isNaN_iff.mp h]
  rfl

theorem not_nonneg_of_nan (h : x.isNaN = true) : ¬ 0 ≤ x := by
  show ¬ decide ((UnpackedFloat.le (0 : Float).toModel.unpack x.toModel.unpack) = true) = true
  rw [decide_eq_true_iff, isNaN_iff.mp h]
  exact Bool.false_ne_true

theorem Unsigned.isFinite_iff (h : Unsigned x) : x.isFinite = true ↔ ∃ N : Nat, Reads x N := by
  rcases h with hnan | ⟨a, ha⟩
  · rw [isFinite_of_nan hnan]
    refine iff_of_false Bool.false_ne_true ?_
    rintro ⟨N, hN⟩
    rw [hN.not_nan] at hnan
    cases hnan
  · rw [ha.isFinite_iff]
    constructor
    · intro hne
      obtain ⟨N, rfl⟩ := ENat.ne_top_iff_exists.mp hne
      exact ⟨N, ha⟩
    · rintro ⟨N, hN⟩
      rw [ha.unique hN]
      exact ENat.natCast_ne_top N

theorem reads_zero : Reads Zero.zero 0 :=
  .zero .positive

theorem reads_one : Reads One.one (one : Nat) := by
  have hunits : 2 ^ 52 * 2 ^ 1022 = one := by decide +kernel
  exact .finite (by decide) ⟨by decide, Or.inr (by decide)⟩ (by decide) hunits

theorem reads_two : Reads 2 (2 * one : Nat) := by
  have hunits : 2 ^ 52 * 2 ^ 1023 = 2 * one := by decide +kernel
  exact .finite (by decide) ⟨by decide, Or.inr (by decide)⟩ (by decide) hunits

/-! ## Arithmetic -/

theorem unpack_nan :
    UnpackedFloat.unpack .binary64 (UnpackedFloat.pack .binary64 .notANumber) = .notANumber := by
  rfl

theorem unpack_add (x y : Float) : (x + y).toModel.unpack = UnpackedFloat.unpack .binary64
    (UnpackedFloat.pack .binary64 (UnpackedFloat.add .binary64 x.toModel.unpack y.toModel.unpack)) :=
  rfl

theorem unpack_mul (x y : Float) : (x * y).toModel.unpack = UnpackedFloat.unpack .binary64
    (UnpackedFloat.pack .binary64 (UnpackedFloat.mul .binary64 x.toModel.unpack y.toModel.unpack)) :=
  rfl

theorem unpack_div (x y : Float) : (x / y).toModel.unpack = UnpackedFloat.unpack .binary64
    (UnpackedFloat.pack .binary64 (UnpackedFloat.div .binary64 x.toModel.unpack y.toModel.unpack)) :=
  rfl

theorem Reads.add (hx : Reads x a) (hy : Reads y b) :
    Reads (x + y) (roundedSum .binary64 (a + b)) :=
  Magnitude.add (by decide) hx hy

theorem nan_add_left (h : x.isNaN = true) (y : Float) : (x + y).isNaN = true := by
  rw [isNaN_iff] at *
  rw [unpack_add, h]
  exact unpack_nan

theorem nan_add_right (x : Float) (h : y.isNaN = true) : (x + y).isNaN = true := by
  rw [isNaN_iff] at *
  rw [unpack_add, h]
  cases x.toModel.unpack <;> exact unpack_nan

theorem nan_mul_left (h : x.isNaN = true) (y : Float) : (x * y).isNaN = true := by
  rw [isNaN_iff] at *
  rw [unpack_mul, h]
  exact unpack_nan

theorem nan_mul_right (x : Float) (h : y.isNaN = true) : (x * y).isNaN = true := by
  rw [isNaN_iff] at *
  rw [unpack_mul, h]
  cases x.toModel.unpack <;> exact unpack_nan

theorem nan_div_left (h : x.isNaN = true) (y : Float) : (x / y).isNaN = true := by
  rw [isNaN_iff] at *
  rw [unpack_div, h]
  exact unpack_nan

theorem Unsigned.add (hx : Unsigned x) (hy : Unsigned y) : Unsigned (x + y) := by
  rcases hx with hx | ⟨a, hx⟩
  · exact Or.inl (nan_add_left hx y)
  · rcases hy with hy | ⟨b, hy⟩
    · exact Or.inl (nan_add_right x hy)
    · exact Or.inr ⟨_, hx.add hy⟩

theorem Reads.mul_cases (hx : Reads x a) (hy : Reads y b) : Unsigned (x * y) := by
  rcases Magnitude.mul_cases (by decide) hx hy with hnan | ⟨c, hc⟩
  · left
    rw [isNaN_iff, unpack_mul, hnan]
    exact unpack_nan
  · exact Or.inr ⟨c, hc⟩

theorem Unsigned.mul (hx : Unsigned x) (hy : Unsigned y) : Unsigned (x * y) := by
  rcases hx with hx | ⟨a, hx⟩
  · exact Or.inl (nan_mul_left hx y)
  · rcases hy with hy | ⟨b, hy⟩
    · exact Or.inl (nan_mul_right x hy)
    · exact hx.mul_cases hy

theorem Unsigned.div (hx : Unsigned x) (hy : Reads y b) (hb : 0 < b) : Unsigned (x / y) := by
  rcases hx with hx | ⟨a, hx⟩
  · exact Or.inl (nan_div_left hx y)
  · rcases Magnitude.div_cases (by decide) hx hy hb with hnan | ⟨c, hc⟩
    · left
      rw [isNaN_iff, unpack_div, hnan]
      exact unpack_nan
    · exact Or.inr ⟨c, hc⟩

/-- Nothing per path of infinitely many. -/
theorem Reads.div_top {N : Nat} (hx : Reads x N) (hy : Reads y ⊤) : Reads (x / y) 0 := by
  unfold Reads at *
  rw [unpack_div]
  generalize x.toModel.unpack = u at hx
  generalize y.toModel.unpack = w at hy
  generalize hα : (N : ℕ∞) = α at hx
  cases hy
  cases hx with
  | zero s => exact (Magnitude.zero _).repack (by decide)
  | finite hm hc hk hN => exact (Magnitude.zero _).repack (by decide)
  | infinity => cases hα

theorem nan_top_div (hx : Reads x ⊤) (hy : Reads y ⊤) : (x / y).isNaN = true := by
  unfold Reads at *
  rw [isNaN_iff, unpack_div]
  generalize x.toModel.unpack = u at hx
  generalize y.toModel.unpack = w at hy
  cases hx
  cases hy
  exact unpack_nan

theorem Unsigned.div_top (hx : Unsigned x) (hy : Reads y ⊤) :
    (x / y).isNaN = true ∨ Reads (x / y) 0 := by
  rcases hx with hx | ⟨a, hx⟩
  · exact Or.inl (nan_div_left hx y)
  · cases a with
    | coe N => exact Or.inr (hx.div_top hy)
    | top => exact Or.inl (nan_top_div hx hy)

theorem Reads.mul_zero {N : Nat} (hx : Reads x N) (hy : Reads y 0) : Reads (x * y) 0 := by
  unfold Reads at *
  rw [unpack_mul]
  generalize x.toModel.unpack = u at hx
  generalize y.toModel.unpack = w at hy
  generalize hα : (N : ℕ∞) = α at hx
  generalize hz : (0 : ℕ∞) = z at hy
  cases hy with
  | zero s =>
      cases hx with
      | zero s' => exact (Magnitude.zero _).repack (by decide)
      | finite hm hc hk hN => exact (Magnitude.zero _).repack (by decide)
      | infinity => cases hα
  | finite hm hc hk hN =>
      have hzero := Nat.cast_eq_zero.mp hz.symm
      exact absurd hzero (units_pos hm hN).ne'
  | infinity => cases hz

/-- Infinitely many paths of nothing each. -/
theorem nan_top_mul (hx : Reads x ⊤) (hy : y.isNaN = true ∨ Reads y 0) : (x * y).isNaN = true := by
  rcases hy with hy | hy
  · exact nan_mul_right x hy
  · unfold Reads at *
    rw [isNaN_iff, unpack_mul]
    generalize x.toModel.unpack = u at hx
    generalize y.toModel.unpack = w at hy
    cases hx
    generalize hz : (0 : ℕ∞) = z at hy
    cases hy with
    | zero s => exact unpack_nan
    | finite hm hc hk hN =>
        have hzero := Nat.cast_eq_zero.mp hz.symm
        exact absurd hzero (units_pos hm hN).ne'
    | infinity => cases hz

end Geodesic.Machine
