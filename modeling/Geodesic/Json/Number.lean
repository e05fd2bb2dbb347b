import Geodesic.Decimal.Shortest

/-!
# Numbers in JSON

The shortest digits of a double, laid out so that they read back as a floating-point number: values
from `10 ^ -5` up to `10 ^ 16` are positional, with a digit on either side of the point, others have
an exponent. What is not finite becomes `null`.
-/

namespace Geodesic.Json

structure NumberLayout where
  /-- The most digits before the point. -/
  maxWhole : Int
  /-- The point stands at most this many places before the first digit. -/
  maxLeading : Int
  /-- Which of two equally near decimals is taken. -/
  tie : Decimal.TieRule

/-- Up to sixteen digits before the point, up to four zeros right after it; ties go to the even
decimal. -/
def numberLayout : NumberLayout :=
  ⟨16, 4, .toEven⟩

/-- Digits with an exponent: one digit, a point before any others, and the exponent of the first. -/
def exponential (ds : List Char) (p : Int) : String :=
  let mantissa := match ds with
    | d :: e :: rest => d :: '.' :: e :: rest
    | ds => ds
  String.ofList mantissa ++ "e" ++ toString p

def layOut (layout : NumberLayout) (s : Decimal.Scaled) : String :=
  let ds := Nat.toDigits 10 s.digits
  let whole : Int := ds.length + s.exponent
  if 0 ≤ s.exponent ∧ whole ≤ layout.maxWhole then s.positional ++ ".0"
  else if -layout.maxLeading ≤ whole ∧ whole ≤ layout.maxWhole then s.positional
  else exponential ds (whole - 1)

def numberText (x : Float) : String :=
  match x.toModel.unpack with
  | .notANumber => "null"
  | .infinity _ => "null"
  | .zero s => Decimal.signText s ++ "0.0"
  | .finite s m e _ =>
      Decimal.signText s ++ layOut numberLayout (Decimal.shortest numberLayout.tie m e)

end Geodesic.Json
