import Geodesic.Dependency
import Geodesic.Graph
import Geodesic.Paths.BreadthFirst
import Geodesic.Paths.Weighted

/-!
# Sums over all sources

Sources are independent, so they may be dealt out to workers in any way. A schedule says how: which
sources one worker takes in turn, on its own tables, and in which order the workers' tallies are
merged. `Schedule.sequential` is the schedule of a single worker.
-/

namespace Geodesic

/-- A way to deal out `n` sources. -/
inductive Schedule (n : Nat) where
  /-- No source: an empty tally. -/
  | idle
  /-- One worker takes these sources in turn. -/
  | batch (sources : List (Fin n))
  /-- The merged tallies of two parts. -/
  | join (left right : Schedule n)
deriving DecidableEq, Repr

structure Worker (D S : Type) (n m : Nat) where
  paths : Paths D S n m
  dependency : Dependency S n m

namespace Worker

variable {D S : Type} {n m : Nat} [Distance D] [Zero S]

def fresh (D S : Type) [Distance D] [Zero S] (n m : Nat) : Worker D S n m :=
  ⟨Paths.fresh D S n m, Dependency.fresh S n m⟩

variable [One S] [Add S] [Mul S] [Div S] [LE S] [DecidableLE S]

omit [Distance D] in
def take (search : Fin n → Paths D S n m → Paths D S n m) (w : Worker D S n m) (s : Fin n) :
    Worker D S n m :=
  let p := search s w.paths
  ⟨p, w.dependency.accumulate p⟩

end Worker

namespace Schedule

variable {n : Nat}

def sequential (n : Nat) : Schedule n :=
  batch (List.finRange n)

def sources : Schedule n → List (Fin n)
  | idle => []
  | batch ss => ss
  | join l r => l.sources ++ r.sources

/-- Every source once, in order, over the batches. -/
def Complete (s : Schedule n) : Prop :=
  s.sources = List.finRange n

theorem complete_sequential (n : Nat) : (sequential n).Complete := rfl

variable {D S : Type} {m : Nat} [Distance D] [Zero S] [One S] [Add S] [Mul S] [Div S] [LE S]
  [DecidableLE S]

/-- The tally of a schedule, each batch on fresh tables. -/
def tally (search : Fin n → Paths D S n m → Paths D S n m) : Schedule n → Tally S n m
  | idle => Tally.zero n m
  | batch ss => (ss.foldl (Worker.take search) (Worker.fresh D S n m)).dependency.tally
  | join l r => (l.tally search).merge (r.tally search)

end Schedule

/-! ## The two kinds of search on a graph -/

namespace Graph

variable {S : Type} [Zero S] [One S] [Add S] [Mul S] [Div S] [LE S] [DecidableLE S]

def hopTally (g : Graph) (plan : Schedule g.vertexCount) :
    Tally S g.vertexCount g.edgeCount :=
  let table := g.adjacency
  plan.tally fun s p => p.breadthFirst table.get s

def weightTally {D : Type} [Distance D] (g : Graph) (weights : Table D g.edgeCount)
    (plan : Schedule g.vertexCount) : Tally S g.vertexCount g.edgeCount :=
  let table := g.adjacency
  plan.tally fun s p => p.weighted table.get weights s

theorem hopTally_eq (g : Graph) (plan : Schedule g.vertexCount) :
    (g.hopTally plan : Tally S _ _) = plan.tally fun s p => p.breadthFirst g.outEdges s := by
  simp [hopTally]

theorem weightTally_eq {D : Type} [Distance D] (g : Graph) (weights : Table D g.edgeCount)
    (plan : Schedule g.vertexCount) :
    (g.weightTally weights plan : Tally S _ _) =
      plan.tally fun s p => p.weighted g.outEdges weights s := by
  simp [weightTally]

end Graph

end Geodesic
