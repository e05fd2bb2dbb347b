import Geodesic.Number
import Geodesic.Proofs.Distance
import Geodesic.Proofs.Machine.Magnitude
import Geodesic.Proofs.Paths.Counting

/-!
# Machine numbers are lawful lengths

Both precisions add and compare through their magnitudes, so they obey the laws of lengths on all
values that are neither negative nor undefined. Sums beyond the range are infinite, which marks what
is not reached.
-/

namespace Geodesic

open Distance (Admissible AtMost Lawful Reached)
open Float.Model (UnpackedFloat Format)

namespace Machine

/-- Lengths that are computed in a format; `bits` is how they are stored. -/
structure Computed (spec : Format) {T : Type} [Distance T] (bits : T → BitVec spec.numBits) :
    Prop where
  zero : UnpackedFloat.unpack spec (bits Distance.zero) = .zero .positive
  unreached : UnpackedFloat.unpack spec (bits Distance.unreached) = .infinity .positive
  add : ∀ a b : T, UnpackedFloat.unpack spec (bits (Distance.add a b)) =
    UnpackedFloat.unpack spec (UnpackedFloat.pack spec (UnpackedFloat.add spec
      (UnpackedFloat.unpack spec (bits a)) (UnpackedFloat.unpack spec (bits b))))
  shorter : ∀ a b : T, Distance.shorter a b =
    (UnpackedFloat.unpack spec (bits a)).lt (UnpackedFloat.unpack spec (bits b))
  same : ∀ a b : T, Distance.same a b =
    (UnpackedFloat.unpack spec (bits a)).beq (UnpackedFloat.unpack spec (bits b))

variable {spec : Format} {T : Type} [Distance T] {bits : T → BitVec spec.numBits}

namespace Computed

theorem magnitude_zero (h : Computed spec bits) :
    Magnitude spec (UnpackedFloat.unpack spec (bits Distance.zero)) 0 := by
  rw [h.zero]
  exact .zero .positive

theorem magnitude_unreached (h : Computed spec bits) :
    Magnitude spec (UnpackedFloat.unpack spec (bits Distance.unreached)) ⊤ := by
  rw [h.unreached]
  exact .infinity

variable {a b : T} {x y : ℕ∞}

theorem atMost_iff (h : Computed spec bits)
    (ha : Magnitude spec (UnpackedFloat.unpack spec (bits a)) x)
    (hb : Magnitude spec (UnpackedFloat.unpack spec (bits b)) y) : AtMost a b ↔ x ≤ y := by
  rw [AtMost, h.shorter, ← Bool.not_eq_true, hb.lt_iff ha, not_lt]

theorem same_iff (h : Computed spec bits)
    (ha : Magnitude spec (UnpackedFloat.unpack spec (bits a)) x)
    (hb : Magnitude spec (UnpackedFloat.unpack spec (bits b)) y) :
    Distance.same a b = true ↔ x = y := by
  rw [h.same, ha.beq_iff hb]

/-- The admissible values are those with a magnitude. -/
theorem admissible_iff (h : Computed spec bits) (hbits : 1 < spec.exponentBits) :
    Admissible a ↔ ∃ x, Magnitude spec (UnpackedFloat.unpack spec (bits a)) x := by
  have hadmissible : Admissible a ↔ Distance.same a a = true ∧ AtMost Distance.zero a := by
    unfold Distance.Admissible Distance.admissible AtMost
    rw [Bool.and_eq_true_iff, Bool.not_eq_true']
  constructor
  · rw [hadmissible, h.same, AtMost, h.shorter, h.zero]
    have hcases := unpacked_unpack hbits (bits a)
    generalize UnpackedFloat.unpack spec (bits a) = u at hcases
    rintro ⟨hsame, hle⟩
    cases hcases with
    | notANumber => cases hsame
    | zero s => exact ⟨0, .zero s⟩
    | infinity s =>
        cases s with
        | positive => exact ⟨⊤, .infinity⟩
        | negative => cases hle
    | @finite s m e hm k he hc hk =>
        subst he
        cases s with
        | positive => exact ⟨_, .finite hm hc hk rfl⟩
        | negative => cases hle
  · rintro ⟨x, hx⟩
    rw [hadmissible, h.same_iff hx hx, h.atMost_iff h.magnitude_zero hx]
    exact ⟨rfl, zero_le⟩

theorem lawful (h : Computed spec bits) (hbits : 1 < spec.exponentBits) : Lawful T where
  zero_admissible := (h.admissible_iff hbits).mpr ⟨0, h.magnitude_zero⟩
  unreached_admissible := (h.admissible_iff hbits).mpr ⟨⊤, h.magnitude_unreached⟩
  add_admissible := by
    intro a b ha hb
    obtain ⟨x, hx⟩ := (h.admissible_iff hbits).mp ha
    obtain ⟨y, hy⟩ := (h.admissible_iff hbits).mp hb
    rw [h.admissible_iff hbits, h.add]
    exact ⟨_, hx.add hbits hy⟩
  total := by
    intro a b ha hb
    obtain ⟨x, hx⟩ := (h.admissible_iff hbits).mp ha
    obtain ⟨y, hy⟩ := (h.admissible_iff hbits).mp hb
    rw [h.atMost_iff hx hy, h.atMost_iff hy hx]
    exact le_total x y
  trans := by
    intro a b c ha hb hc
    obtain ⟨x, hx⟩ := (h.admissible_iff hbits).mp ha
    obtain ⟨y, hy⟩ := (h.admissible_iff hbits).mp hb
    obtain ⟨z, hz⟩ := (h.admissible_iff hbits).mp hc
    rw [h.atMost_iff hx hy, h.atMost_iff hy hz, h.atMost_iff hx hz]
    exact le_trans
  same_iff := by
    intro a b ha hb
    obtain ⟨x, hx⟩ := (h.admissible_iff hbits).mp ha
    obtain ⟨y, hy⟩ := (h.admissible_iff hbits).mp hb
    rw [h.atMost_iff hx hy, h.atMost_iff hy hx, h.same_iff hx hy]
    exact le_antisymm_iff
  atMost_unreached := by
    intro a ha
    obtain ⟨x, hx⟩ := (h.admissible_iff hbits).mp ha
    rw [h.atMost_iff hx h.magnitude_unreached]
    exact le_top
  zero_reached := by
    rw [Reached, ← Bool.not_eq_true, h.same_iff h.magnitude_zero h.magnitude_unreached]
    exact ENat.zero_ne_top
  add_mono := by
    intro a b c ha hb hc
    obtain ⟨x, hx⟩ := (h.admissible_iff hbits).mp ha
    obtain ⟨y, hy⟩ := (h.admissible_iff hbits).mp hb
    obtain ⟨z, hz⟩ := (h.admissible_iff hbits).mp hc
    have hxz := hx.add hbits hz
    have hyz := hy.add hbits hz
    rw [← h.add] at hxz hyz
    rw [h.atMost_iff hx hy, h.atMost_iff hxz hyz]
    exact fun hle => roundedSum_mono (add_le_add_left hle z)
  atMost_add := by
    intro a b ha hb
    obtain ⟨x, hx⟩ := (h.admissible_iff hbits).mp ha
    obtain ⟨y, hy⟩ := (h.admissible_iff hbits).mp hb
    have hxy := hx.add hbits hy
    rw [← h.add] at hxy
    rw [h.atMost_iff hx hxy]
    have hmono : roundedSum spec x ≤ roundedSum spec (x + y) := roundedSum_mono le_self_add
    rwa [hx.roundedSum_eq hbits] at hmono

theorem magnitude_of_positive (h : Computed spec bits) (hbits : 1 < spec.exponentBits)
    (ha : Distance.shorter Distance.zero a = true) :
    ∃ x, Magnitude spec (UnpackedFloat.unpack spec (bits a)) x ∧ 0 < x := by
  have hadmissible : Admissible a := by
    rw [h.shorter, h.zero] at ha
    unfold Distance.Admissible Distance.admissible
    rw [h.same, h.shorter, h.zero]
    have hcases := unpacked_unpack hbits (bits a)
    generalize UnpackedFloat.unpack spec (bits a) = u at ha hcases
    cases hcases with
    | notANumber => cases ha
    | zero s => cases ha
    | infinity s =>
        cases s with
        | positive => rfl
        | negative => cases ha
    | @finite s m e hm k he hc hk =>
        subst he
        have hself : Magnitude spec _ _ := .finite hm hc hk rfl
        cases s with
        | positive =>
            rw [Bool.and_eq_true_iff, hself.beq_iff hself]
            exact ⟨rfl, rfl⟩
        | negative => cases ha
  obtain ⟨x, hx⟩ := (h.admissible_iff hbits).mp hadmissible
  rw [h.shorter, h.magnitude_zero.lt_iff hx] at ha
  exact ⟨x, hx, ha⟩

theorem positive_add (h : Computed spec bits) (hbits : 1 < spec.exponentBits)
    (ha : Distance.shorter Distance.zero a = true) (hb : Distance.shorter Distance.zero b = true) :
    Distance.shorter Distance.zero (Distance.add a b) = true := by
  obtain ⟨x, hx, hpos⟩ := h.magnitude_of_positive hbits ha
  obtain ⟨y, hy, _⟩ := h.magnitude_of_positive hbits hb
  have hxy := hx.add hbits hy
  rw [← h.add] at hxy
  have hmono : roundedSum spec x ≤ roundedSum spec (x + y) := roundedSum_mono le_self_add
  rw [hx.roundedSum_eq hbits] at hmono
  rw [h.shorter, h.magnitude_zero.lt_iff hxy]
  exact lt_of_lt_of_le hpos hmono

end Computed

theorem computed_double : Computed .binary64 fun x : Float => x.toModel.toBits.toBitVec where
  zero := rfl
  unreached := rfl
  add _ _ := rfl
  shorter a b := by
    show decide (decide (a.toModel.unpack.lt b.toModel.unpack = true) = true) = _
    rw [Bool.decide_eq_true, Bool.decide_eq_true]
    rfl
  same _ _ := rfl

theorem computed_single : Computed .binary32 fun x : Float32 => x.toModel.toBits.toBitVec where
  zero := rfl
  unreached := rfl
  add _ _ := rfl
  shorter a b := by
    show decide (decide (a.toModel.unpack.lt b.toModel.unpack = true) = true) = _
    rw [Bool.decide_eq_true, Bool.decide_eq_true]
    rfl
  same _ _ := rfl

instance : Lawful Float :=
  computed_double.lawful (by decide)

instance : Lawful Float32 :=
  computed_single.lawful (by decide)

/-- Path counts in double precision may round and overflow, but stay positive. -/
instance : PositiveCounts Float where
  one_pos := by decide
  add_pos ha hb := of_decide_eq_true
    (computed_double.positive_add (by decide) (decide_eq_true ha) (decide_eq_true hb))
  not_zero_pos := by decide

end Machine

end Geodesic
