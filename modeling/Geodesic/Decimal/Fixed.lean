import Geodesic.Decimal.Rounding

/-!
# A fixed number of decimal places

The exact value is rounded to the last place, a half to the even digit. The sign is kept even where
every digit is zero.
-/

namespace Geodesic.Decimal

/-- Whole units of the last place, as digits with a point before the last `places` of them. -/
def pointed (places units : Nat) : String :=
  let ds := (Nat.toDigits 10 units).leftpad (places + 1) '0'
  let whole := ds.take (ds.length - places)
  if places = 0 then String.ofList whole
  else String.ofList (whole ++ '.' :: ds.drop (ds.length - places))

def signText : Float.Model.UnpackedFloat.Sign → String
  | .positive => ""
  | .negative => "-"

def fixed (places : Nat) (x : Float) : String :=
  match x.toModel.unpack with
  | .notANumber => "NaN"
  | .infinity s => signText s ++ "inf"
  | .zero s => signText s ++ pointed places 0
  | .finite s m e _ =>
      let (num, den) := dyadic m e
      signText s ++ pointed places (roundHalfEven (num * powerOfTen places) den)

end Geodesic.Decimal
