import Geodesic.Number

/-!
# Reading decimal numbers

A numeral is an optional sign followed by `inf`, `infinity` or `nan` in any case, or by digits with
an optional point and an optional exponent; at least one digit stands before the exponent. It is
rounded once, from its exact value to the nearest number of the target format.
-/

namespace Geodesic.Decimal

/-- What a numeral denotes: an exact decimal value, or none. -/
inductive Numeral where
  | nan
  | infinite (negative : Bool)
  /-- `digits · 10 ^ exponent` -/
  | finite (negative : Bool) (digits : Nat) (exponent : Int)
deriving DecidableEq, Repr

def ofDigits (cs : List Char) : Nat :=
  cs.foldl (fun n c => 10 * n + (c.toNat - '0'.toNat)) 0

def splitSign : List Char → Bool × List Char
  | '-' :: rest => (true, rest)
  | '+' :: rest => (false, rest)
  | cs => (false, cs)

def digits? (cs : List Char) : Option Nat :=
  if !cs.isEmpty && cs.all Char.isDigit then some (ofDigits cs) else none

/-- The exponent at the end of a numeral; none at all stands for zero. -/
def exponent? : List Char → Option Int
  | [] => some 0
  | c :: rest =>
      if c = 'e' ∨ c = 'E' then
        let (negative, ds) := splitSign rest
        (digits? ds).map fun n => if negative then -(n : Int) else n
      else none

def splitFraction : List Char → List Char × List Char
  | '.' :: rest => rest.span Char.isDigit
  | cs => ([], cs)

def unsigned? (cs : List Char) : Option (Nat × Int) :=
  let (whole, rest) := cs.span Char.isDigit
  let (fraction, rest) := splitFraction rest
  if whole.isEmpty && fraction.isEmpty then none
  else (exponent? rest).map fun e => (ofDigits (whole ++ fraction), e - fraction.length)

/-- The names of what is not finite, in lower case. -/
def word? (negative : Bool) (word : String) : Option Numeral :=
  if word = "nan" then some .nan
  else if word = "inf" ∨ word = "infinity" then some (.infinite negative)
  else none

namespace Numeral

def ofChars? (cs : List Char) : Option Numeral :=
  let (negative, rest) := splitSign cs
  match unsigned? rest with
  | some (n, e) => some (finite negative n e)
  | none => word? negative (String.ofList (rest.map Char.toLower))

def toDouble : Numeral → Float
  | nan => 0.0 / 0.0
  | infinite negative => if negative then -1.0 / 0.0 else 1.0 / 0.0
  | finite negative n e =>
      let x := Float.ofModel (.ofScientific n e)
      if negative then -x else x

def toSingle : Numeral → Float32
  | nan => 0.0 / 0.0
  | infinite negative => if negative then -1.0 / 0.0 else 1.0 / 0.0
  | finite negative n e =>
      let x := Float32.ofModel (.ofScientific n e)
      if negative then -x else x

end Numeral

def double? (cs : List Char) : Option Float :=
  (Numeral.ofChars? cs).map Numeral.toDouble

end Geodesic.Decimal
