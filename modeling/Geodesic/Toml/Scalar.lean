import Geodesic.Decimal.Numeral
import Geodesic.Toml.Tree

/-!
# TOML numbers, truth values, dates and times

Values that are written without quotes or brackets. Each is a run of letters, digits and a few
signs, which must match one of the forms as a whole; only a date may be parted from its time by a
blank.
-/

namespace Geodesic.Toml

def isTokenChar (c : Char) : Bool :=
  c.isAlphanum || c = '+' || c = '-' || c = '.' || c = ':' || c = '_'

/-- Digits of which any two may be parted by one underscore, without the underscores. -/
def groupedDigits? (isDigit : Char → Bool) : List Char → Option (List Char)
  | [] => none
  | [c] => if isDigit c then some [c] else none
  | c :: '_' :: rest => if isDigit c then (groupedDigits? isDigit rest).map (c :: ·) else none
  | c :: rest => if isDigit c then (groupedDigits? isDigit rest).map (c :: ·) else none

/-- Decimal digits without a needless zero in front. -/
def wholeDigits? (cs : List Char) : Option (List Char) :=
  match groupedDigits? Char.isDigit cs with
  | some ('0' :: _ :: _) => none
  | other => other

def ofBase (base : Nat) (ds : List Char) : Option Nat :=
  ds.foldlM (fun n c => do
    let d ← if c.isDigit then some (c.toNat - '0'.toNat)
      else if 'a' ≤ c ∧ c ≤ 'f' then some (c.toNat - 'a'.toNat + 10)
      else if 'A' ≤ c ∧ c ≤ 'F' then some (c.toNat - 'A'.toNat + 10)
      else none
    return base * n + d) 0

def isBaseDigit (base : Nat) (c : Char) : Bool :=
  match ofBase 16 [c] with
  | some d => decide (d < base)
  | none => false

def based? (base : Nat) (cs : List Char) : Option Int := do
  let ds ← groupedDigits? (isBaseDigit base) cs
  return (← ofBase base ds : Nat)

def signed? (cs : List Char) : Option Int := do
  let (negative, rest) := Decimal.splitSign cs
  let n := Decimal.ofDigits (← wholeDigits? rest)
  return if negative then -(n : Int) else n

/-- A whole number in base ten with an optional sign, or in another base without one. -/
def wholeNumber? : List Char → Option Int
  | '0' :: 'x' :: rest => based? 16 rest
  | '0' :: 'o' :: rest => based? 8 rest
  | '0' :: 'b' :: rest => based? 2 rest
  | cs => signed? cs

def fits64 (z : Int) : Bool :=
  -9223372036854775808 ≤ z && z ≤ 9223372036854775807

def integer? (cs : List Char) : Option Int :=
  (wholeNumber? cs).filter fits64

def floatExponent? : List Char → Option (List Char)
  | [] => some []
  | c :: rest =>
      if c = 'e' ∨ c = 'E' then do
        let (negative, ds) := Decimal.splitSign rest
        let ds ← groupedDigits? Char.isDigit ds
        return 'e' :: (if negative then '-' :: ds else ds)
      else none

def floatTail? : List Char → Option (List Char)
  | [] => none
  | '.' :: rest => do
      let (fraction, rest) := rest.span fun c => c ≠ 'e' ∧ c ≠ 'E'
      return '.' :: (← groupedDigits? Char.isDigit fraction) ++ (← floatExponent? rest)
  | cs => floatExponent? cs

/-- A float; its finite forms must not be too large to be represented. -/
def float? (cs : List Char) : Option Float := do
  let (negative, rest) := Decimal.splitSign cs
  let sign := if negative then ['-'] else []
  if rest = ['i', 'n', 'f'] ∨ rest = ['n', 'a', 'n'] then Decimal.double? (sign ++ rest)
  else
    let (whole, tail) := rest.span fun c => c ≠ '.' ∧ c ≠ 'e' ∧ c ≠ 'E'
    let x ← Decimal.double? (sign ++ (← wholeDigits? whole) ++ (← floatTail? tail))
    if x == 1.0 / 0.0 then none else return x

/-- A number of exactly `k` decimal digits between two bounds. -/
def field? (k low high : Nat) (cs : List Char) : Option (Nat × List Char) := do
  let ds := cs.take k
  if ds.length = k ∧ ds.all Char.isDigit then
    let n := Decimal.ofDigits ds
    if low ≤ n ∧ n ≤ high then return (n, cs.drop k) else none
  else none

def after? (c : Char) : List Char → Option (List Char)
  | d :: rest => if c = d then some rest else none
  | [] => none

def daysIn (year month : Nat) : Nat :=
  let leap := year % 4 = 0 ∧ (year % 100 ≠ 0 ∨ year % 400 = 0)
  if month = 2 then (if leap then 29 else 28)
  else if month = 4 ∨ month = 6 ∨ month = 9 ∨ month = 11 then 30
  else 31

def date? (cs : List Char) : Option (List Char) := do
  let (year, cs) ← field? 4 0 9999 cs
  let (month, cs) ← field? 2 1 12 (← after? '-' cs)
  let (_, cs) ← field? 2 1 (daysIn year month) (← after? '-' cs)
  return cs

def secondFraction? : List Char → Option (List Char)
  | '.' :: rest =>
      let (ds, rest) := rest.span Char.isDigit
      if ds.isEmpty then none else some rest
  | cs => some cs

/-- A time of day, and what follows it; a minute may have a leap second. -/
def time? (cs : List Char) : Option (List Char) := do
  let (_, cs) ← field? 2 0 23 cs
  let (_, cs) ← field? 2 0 59 (← after? ':' cs)
  let (_, cs) ← field? 2 0 60 (← after? ':' cs)
  secondFraction? cs

/-- The whole text is empty or an offset from universal time. -/
def isOffset (cs : List Char) : Bool :=
  match cs with
  | [] => true
  | 'Z' :: rest | 'z' :: rest => rest.isEmpty
  | '+' :: rest | '-' :: rest =>
      match (do
        let (_, cs) ← field? 2 0 23 rest
        let (_, cs) ← field? 2 0 59 (← after? ':' cs)
        return cs : Option (List Char)) with
      | some rest => rest.isEmpty
      | none => false
  | _ => false

def isOffsetTime (cs : List Char) : Bool :=
  match time? cs with
  | some rest => isOffset rest
  | none => false

def isDate (cs : List Char) : Bool :=
  date? cs = some []

def isDateTime (cs : List Char) : Bool :=
  isDate cs || time? cs = some [] ||
    match date? cs with
    | some ('T' :: rest) | some ('t' :: rest) => isOffsetTime rest
    | _ => false

def token? (cs : List Char) : Option Value :=
  if cs = "true".toList then some (.bool true)
  else if cs = "false".toList then some (.bool false)
  else if isDateTime cs then some (.dateTime (String.ofList cs))
  else match float? cs with
    | some x => some (.float x)
    | none => (integer? cs).map .integer

/-- A value without quotes or brackets, and what follows it. A date takes in a time that follows
after one blank. -/
def scalar (cs : List Char) : Option (Value × List Char) :=
  let (token, rest) := cs.span isTokenChar
  match isDate token, rest with
  | true, ' ' :: more =>
      let (time, rest') := more.span isTokenChar
      if isOffsetTime time then some (.dateTime (String.ofList (token ++ ' ' :: time)), rest')
      else some (.dateTime (String.ofList token), rest)
  | _, _ => (token? token).map (·, rest)

end Geodesic.Toml
