import Geodesic.Distance
import Geodesic.Table

/-!
# Shortest paths from one source

`Paths` is what a search leaves behind: for every vertex its distance, the number of shortest paths
to it, and the steps by which those paths enter it, together with the order in which vertices were
visited. The tables are reused from source to source; `restart` clears only the vertices that the
last search visited.
-/

namespace Geodesic

/-- Search results on `n` vertices and `m` edges, with lengths in `D` and path counts in `S`. -/
structure Paths (D S : Type) (n m : Nat) where
  /-- The source of the last search, if there was one. -/
  source : Option (Fin n)
  /-- Tentative, then final distances. -/
  dist : Table D n
  /-- The number of shortest paths. -/
  sigma : Table S n
  /-- The last steps of the shortest paths: an edge and the vertex that it comes from. -/
  preds : Table (Array (Fin m × Fin n)) n
  /-- The visited vertices, nearest first. -/
  order : Array (Fin n)

namespace Paths

variable {D S : Type} {n m : Nat} [Distance D] [Zero S] [One S]

def fresh (D S : Type) [Distance D] [Zero S] (n m : Nat) : Paths D S n m where
  source := none
  dist := Table.replicate n Distance.unreached
  sigma := Table.replicate n 0
  preds := Table.replicate n #[]
  order := #[]

def forget (p : Paths D S n m) (v : Fin n) : Paths D S n m :=
  { p with
    dist := p.dist.set v Distance.unreached
    sigma := p.sigma.set v 0
    preds := p.preds.set v #[] }

/-- Forget the visited vertices and begin at `s`, which one empty path reaches. -/
def restart (p : Paths D S n m) (s : Fin n) : Paths D S n m :=
  let p := p.order.foldl forget p
  { p with
    source := some s
    dist := p.dist.set s Distance.zero
    sigma := p.sigma.set s 1
    order := #[] }

def visit (p : Paths D S n m) (v : Fin n) : Paths D S n m :=
  { p with order := p.order.push v }

def reaches [LT S] [DecidableLT S] (p : Paths D S n m) (v : Fin n) : Bool :=
  decide (0 < p.sigma[v])

def distance? [LT S] [DecidableLT S] (p : Paths D S n m) (v : Fin n) : Option D :=
  if p.reaches v then some p.dist[v] else none

@[simp] theorem order_restart (p : Paths D S n m) (s : Fin n) : (p.restart s).order = #[] := rfl

end Paths

end Geodesic
