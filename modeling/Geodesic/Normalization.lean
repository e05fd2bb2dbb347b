/-!
# Normalization

A score is divided by the number of pairs that its vertex or edge could serve: `(n - 1)(n - 2)`
ordered pairs for a vertex, `n(n - 1)` for an edge, and half as many when the graph is undirected.
Where there is no pair the factor keeps its plain value, so nothing is divided by zero.
-/

namespace Geodesic

structure Factors (S : Type) where
  vertex : S
  edge : S
deriving DecidableEq, Repr

variable {S : Type} [NatCast S] [One S] [Sub S] [Mul S] [Div S] [OfNat S 2]

def normalizationFactors (n : Nat) (directed : Bool) : Factors S :=
  let vertex : S := if 2 < n then 1 / (((n : S) - 1) * ((n : S) - 2)) else 1
  let edge : S := if 1 < n then 1 / ((n : S) * ((n : S) - 1)) else 1
  if directed then ⟨vertex, edge⟩ else ⟨vertex * 2, edge * 2⟩

omit [OfNat S 2] [NatCast S] [One S] [Sub S] [Div S] in
def scale (factor : S) (scores : Array S) : Array S :=
  scores.map (· * factor)

omit [OfNat S 2] [NatCast S] [One S] [Sub S] [Div S] in
@[simp] theorem size_scale (factor : S) (scores : Array S) :
    (scale factor scores).size = scores.size := by
  simp [scale]

end Geodesic
