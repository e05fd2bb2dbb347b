/-!
# Rounding exact values

Numbers are decoded into `m · 2 ^ e` and rounded with whole numbers alone.
-/

namespace Geodesic.Decimal

def roundHalfEven (num den : Nat) : Nat :=
  let q := num / den
  match compare (2 * (num % den)) den with
  | .lt => q
  | .gt => q + 1
  | .eq => q + q % 2

/-- `m · 2 ^ e` as a fraction. -/
def dyadic (m : Nat) (e : Int) : Nat × Nat :=
  (m <<< e.toNat, 1 <<< (-e).toNat)

def powerOfTen (k : Nat) : Nat :=
  Nat.pow 10 k

def digitCount (n : Nat) : Nat :=
  (Nat.toDigits 10 n).length

/-- The `p` with `10 ^ p ≤ num / den < 10 ^ (p + 1)`, for a positive fraction. -/
def leadingExponent (num den : Nat) : Int :=
  let p : Int := (digitCount num : Int) - digitCount den
  if den * powerOfTen p.toNat ≤ num * powerOfTen (-p).toNat then p else p - 1

end Geodesic.Decimal
