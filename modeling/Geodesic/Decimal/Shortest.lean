import Geodesic.Decimal.Fixed

/-!
# The fewest digits that read back

A double stands for all the reals that round to it: an interval around its exact value, whose ends
belong to it when the significand is even. Among the decimals in that interval, those with the
fewest digits are wanted, and of these the one nearest to the exact value.

If a decimal with `k` digits lies in the interval, so does one of the two such decimals next to the
exact value; so only these are tried, for `k = 1, 2, …`. Seventeen digits always suffice.
-/

namespace Geodesic.Decimal

/-- `digits · 10 ^ exponent` -/
structure Scaled where
  digits : Nat
  exponent : Int
deriving DecidableEq, Repr

structure Interval where
  low : Nat
  value : Nat
  high : Nat
  den : Nat
  /-- The ends belong to it. -/
  closed : Bool
deriving Repr

namespace Interval

/-- The reals that round to the double `m · 2 ^ e`. Below a power of two the doubles lie twice as
dense, except among the smallest. -/
def ofDouble (m : Nat) (e : Int) : Interval :=
  let (unit, den) := dyadic 1 (e - 2)
  let gap := if m = 1 <<< 52 ∧ -1074 < e then 1 else 2
  { low := (4 * m - gap) * unit
    value := 4 * m * unit
    high := (4 * m + 2) * unit
    den
    closed := m % 2 = 0 }

def scale (i : Interval) (j : Int) : Interval :=
  let k := powerOfTen (-j).toNat
  { low := i.low * k
    value := i.value * k
    high := i.high * k
    den := i.den * powerOfTen j.toNat
    closed := i.closed }

def holds (i : Interval) (d : Nat) : Bool :=
  if i.closed then i.low ≤ d * i.den && d * i.den ≤ i.high
  else i.low < d * i.den && d * i.den < i.high

/-- The whole number in the interval that is nearest to the value, if it holds one of the two next
to the value; `up` decides for the larger one when both are equally near. -/
def nearest? (i : Interval) (up : Nat → Bool) : Option Nat :=
  let d := i.value / i.den
  let rest := 2 * (i.value % i.den)
  match i.holds d, i.holds (d + 1) with
  | false, false => none
  | true, false => some d
  | false, true => some (d + 1)
  | true, true =>
      if rest < i.den then some d
      else if rest = i.den ∧ !up d then some d
      else some (d + 1)

end Interval

structure TieRule where
  up : Nat → Bool

namespace TieRule

def toEven : TieRule := ⟨fun d => d % 2 = 1⟩

def away : TieRule := ⟨fun _ => true⟩

end TieRule

def Scaled.trim : Nat → Scaled → Scaled
  | 0, s => s
  | fuel + 1, s =>
      if s.digits % 10 = 0 then trim fuel ⟨s.digits / 10, s.exponent + 1⟩ else s

/-- The fewest digits that read back as the double `m · 2 ^ e`, for positive `m`. -/
def shortest (tie : TieRule) (m : Nat) (e : Int) : Scaled :=
  let i := Interval.ofDouble m e
  let top := leadingExponent i.value i.den
  let attempt (k : Nat) : Option Scaled :=
    let j := top - k
    ((i.scale j).nearest? tie.up).map fun d => ⟨d, j⟩
  (((List.range 17).findSome? attempt).getD ⟨0, 0⟩).trim 20

/-- A positive decimal in positional notation, without an exponent; a point only before digits. -/
def Scaled.positional (s : Scaled) : String :=
  let ds := Nat.toDigits 10 s.digits
  if 0 ≤ s.exponent then String.ofList (ds ++ List.replicate s.exponent.toNat '0')
  else pointed (-s.exponent).toNat s.digits

/-- The shortest positional text of a double; of two equally near decimals the larger. -/
def plain (x : Float) : String :=
  match x.toModel.unpack with
  | .notANumber => "NaN"
  | .infinity s => signText s ++ "inf"
  | .zero s => signText s ++ "0"
  | .finite s m e _ => signText s ++ (shortest .away m e).positional

end Geodesic.Decimal
