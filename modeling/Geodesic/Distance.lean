/-!
# Path lengths

What a search asks of a length: an origin, an addition, a mark for "not reached", and two tests.
The tests are Boolean because lengths may be machine numbers, on which neither need be an order.
-/

namespace Geodesic

class Distance (D : Type) where
  /-- The length of the empty path. -/
  zero : D
  /-- Stands where no path is known. -/
  unreached : D
  /-- A path followed by one more edge. -/
  add : D → D → D
  /-- Strictly shorter. -/
  shorter : D → D → Bool
  /-- Of one length. -/
  same : D → D → Bool

namespace Distance

variable {D : Type} [Distance D]

/-- A weight that a search accepts: equal to itself, and not below the empty path. -/
def admissible (w : D) : Bool :=
  same w w && !shorter w zero

end Distance

/-- Hop counts; `none` where no path is known. -/
abbrev Hops : Type :=
  Option Nat

namespace Hops

def shorter : Hops → Hops → Bool
  | some a, some b => a < b
  | some _, none => true
  | none, _ => false

instance : Distance Hops where
  zero := some 0
  unreached := none
  add a b := a.bind fun x => b.map (x + ·)
  shorter := shorter
  same a b := a == b

end Hops

end Geodesic
