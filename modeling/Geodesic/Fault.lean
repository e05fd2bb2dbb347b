import Geodesic.ErrorCode
import Geodesic.Property.ValueType

/-!
# Faults

Why maps cannot be used together with a graph. They are found before anything is computed.
-/

namespace Geodesic

inductive MapRole where
  | vertexScores
  | edgeScores
  | weights
deriving DecidableEq, Repr

namespace MapRole

def name : MapRole → String
  | vertexScores => "vertex betweenness"
  | edgeScores => "edge betweenness"
  | weights => "edge weight"

end MapRole

inductive Demand where
  | scalar
  | floatingPoint
deriving DecidableEq, Repr

namespace Demand

def name : Demand → String
  | scalar => "scalar"
  | floatingPoint => "floating point"

end Demand

/-- A reason to refuse a computation; weights are numbers of type `D`. -/
inductive Fault (D : Type) where
  | wrongType (role : MapRole) (expected : Demand) (found : ValueType)
  | wrongSize (role : MapRole) (expected found : Nat)
  /-- A weight that is negative or not a number. -/
  | badWeight (edge : Nat) (weight : D)
deriving DecidableEq, Repr, BEq

namespace Fault

variable {D : Type}

def code : Fault D → ErrorCode
  | wrongType .. => .valueType
  | wrongSize .. => .mapSize
  | badWeight .. => .negativeWeight

def message (showWeight : D → String) : Fault D → String
  | wrongType role expected found =>
      role.name ++ " property must be of " ++ expected.name ++ " value type, found " ++ found.name
  | wrongSize role expected found =>
      role.name ++ " property has " ++ toString found ++ " entries, graph has " ++
        toString expected
  | badWeight edge weight =>
      "edge " ++ toString edge ++ " has weight " ++ showWeight weight ++
        "; weights must be non-negative numbers"

end Fault

end Geodesic
