import Geodesic.Paths
import Geodesic.Tally

/-!
# Dependencies of one source

The dependency of a source on a vertex is the share of its shortest paths that runs through the
vertex, summed over their ends. Seen from the farthest vertex back, each vertex hands its own share,
one for itself and its dependency for the vertices beyond, to the steps that enter it, in proportion
to their numbers of paths.
-/

namespace Geodesic

structure Dependency (S : Type) (n m : Nat) where
  /-- Zero between sources. -/
  delta : Table S n
  tally : Tally S n m

namespace Dependency

variable {D S : Type} {n m : Nat}

def fresh (S : Type) [Zero S] (n m : Nat) : Dependency S n m :=
  ⟨Table.replicate n 0, Tally.zero n m⟩

/-- Hand `coeff` per path to one entering step: its edge is credited, and its origin owes it on. -/
def creditStep [Add S] [Mul S] (p : Paths D S n m) (coeff : S) (d : Dependency S n m)
    (a : Fin m × Fin n) : Dependency S n m :=
  let c := p.sigma[a.2] * coeff
  { delta := d.delta.set a.2 (d.delta[a.2] + c)
    tally := d.tally.addEdge a.1 c }

/-- Credit a vertex with its dependency, unless it is the source. -/
def creditVertex [Add S] (p : Paths D S n m) (d : Dependency S n m) (w : Fin n) :
    Dependency S n m :=
  if p.source = some w then d else { d with tally := d.tally.addVertex w d.delta[w] }

variable [Zero S] [One S] [Add S] [Mul S] [Div S] [LE S] [DecidableLE S]

/-- Hand on what `w` holds; a vertex without paths holds nothing. -/
def passBack (p : Paths D S n m) (d : Dependency S n m) (w : Fin n) : Dependency S n m :=
  if p.sigma[w] ≤ 0 then d
  else
    let coeff := (1 + d.delta[w]) / p.sigma[w]
    (p.preds[w].foldl (creditStep p coeff) d).creditVertex p w

omit [One S] [Add S] [Mul S] [Div S] [LE S] [DecidableLE S] in
def clear (d : Dependency S n m) (v : Fin n) : Dependency S n m :=
  { d with delta := d.delta.set v 0 }

/-- Hand everything back, from the last visited vertex to the first, and clear what was used. -/
def accumulate (p : Paths D S n m) (d : Dependency S n m) : Dependency S n m :=
  p.order.foldl clear (p.order.reverse.foldl (passBack p) d)

end Dependency

end Geodesic
