import Geodesic.Distance

/-!
# Machine numbers

Scores and weights are computed in binary floating point. Integers and wider numbers become the
nearest number of the target format, ties going to the even one; beyond the range they become
infinite.
-/

namespace Geodesic

/-- A narrow and a wide number type, with rounding down to the narrow one. -/
class Precision (F D : Type) where
  narrow : D → F
  widen : F → D

open Float.Model in
def roundTo (format : Format) : UnpackedFloat → UnpackedFloat
  | .infinity s => .infinity s
  | .notANumber => .notANumber
  | .zero s => .zero s
  | .finite s m e _ => .round format s m e

def Single.ofDouble (x : Float) : Float32 :=
  .ofModel (.pack (roundTo .binary32 x.toModel.unpack))

def Double.ofSingle (x : Float32) : Float :=
  .ofModel (.pack (roundTo .binary64 x.toModel.unpack))

instance : Precision Float32 Float where
  narrow := Single.ofDouble
  widen := Double.ofSingle

instance zeroDouble : Zero Float := ⟨0.0⟩

instance oneDouble : One Float := ⟨1.0⟩

instance natCastDouble : NatCast Float := ⟨fun n => .ofModel (.ofNat n)⟩

instance intCastDouble : IntCast Float := ⟨fun z => .ofModel (.ofInt z)⟩

/-! Lengths add up in the precision of the weights, and infinity marks what is not reached. -/

instance : Distance Float where
  zero := 0.0
  unreached := 1.0 / 0.0
  add := (· + ·)
  shorter a b := decide (a < b)
  same a b := a == b

instance : Distance Float32 where
  zero := 0.0
  unreached := 1.0 / 0.0
  add := (· + ·)
  shorter a b := decide (a < b)
  same a b := a == b

end Geodesic
