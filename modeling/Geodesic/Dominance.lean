/-!
# Central point dominance

How far the most central vertex stands out: the mean, over the other vertices, of the distance of
every score below the largest.
-/

namespace Geodesic

variable {S : Type} [Zero S] [LE S] [DecidableLE S]

/-- The largest score, and at least zero. What compares with nothing is passed over. -/
def largest (scores : Array S) : S :=
  scores.foldl (fun top c => if top ≤ c then c else top) 0

variable [One S] [Add S] [Sub S] [Div S] [NatCast S]

def spread (top : S) (scores : Array S) : S :=
  scores.foldl (fun sum c => sum + (top - c)) 0

/-- The dominance of a list of scores; a single vertex dominates nobody. -/
def dominance (scores : Array S) : S :=
  if scores.size ≤ 1 then 0
  else spread (largest scores) scores / ((scores.size : S) - 1)

end Geodesic
