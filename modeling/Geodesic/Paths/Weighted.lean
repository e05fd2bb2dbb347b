import Geodesic.Heap
import Geodesic.Paths

/-!
# Search by total weight

Dijkstra's search with a heap whose entries are never taken back. An improved vertex is entered
again, and an entry of a vertex that is already settled is dropped when it comes up.

A sum equal to the mark for "not reached" is no path: an edge of infinite weight, or a path whose
sum overflows, leads nowhere.
-/

namespace Geodesic

structure Candidate (D : Type) (n : Nat) where
  distance : D
  vertex : Fin n
deriving Repr

namespace Candidate

variable {D : Type} {n : Nat} [Distance D]

/-- The shorter distance leaves first; among distances that neither test tells apart, the lower
vertex. -/
def before (a b : Candidate D n) : Bool :=
  Distance.shorter a.distance b.distance ||
    (!Distance.shorter b.distance a.distance && decide (a.vertex ≤ b.vertex))

end Candidate

structure Frontier (D S : Type) (n m : Nat) where
  paths : Paths D S n m
  /-- The vertices whose steps have been followed. -/
  settled : Table Bool n
  /-- Entries still to be looked at, stale ones included. -/
  pending : Heap (Candidate D n)

namespace Frontier

variable {D S : Type} {n m : Nat} [Distance D]

def enter (f : Frontier D S n m) (d : D) (v : Fin n) : Frontier D S n m :=
  { f with pending := f.pending.insert Candidate.before ⟨d, v⟩ }

/-- A strictly shorter way to the end of `a`, by `a` from `u`: whatever was known of it is
replaced. -/
def improve (f : Frontier D S n m) (u : Fin n) (d : D) (a : Fin m × Fin n) : Frontier D S n m :=
  { f with
    paths := { f.paths with
      dist := f.paths.dist.set a.2 d
      sigma := f.paths.sigma.set a.2 f.paths.sigma[u]
      preds := f.paths.preds.set a.2 #[(a.1, u)] } }.enter d a.2

def tie [Add S] (f : Frontier D S n m) (u : Fin n) (a : Fin m × Fin n) : Frontier D S n m :=
  { f with
    paths := { f.paths with
      sigma := f.paths.sigma.set a.2 (f.paths.sigma[a.2] + f.paths.sigma[u])
      preds := f.paths.preds.set a.2 (f.paths.preds[a.2].push (a.1, u)) } }

/-- Try the step `a` from the settled vertex `u` at distance `reach`. Settled vertices are left
alone, so no step enters a vertex after its own steps were followed. -/
def relax [Add S] (weights : Table D m) (u : Fin n) (reach : D) (f : Frontier D S n m)
    (a : Fin m × Fin n) : Frontier D S n m :=
  if f.settled[a.2] then f
  else
    let sum := Distance.add reach weights[a.1]
    if Distance.same sum Distance.unreached then f
    else if Distance.shorter sum f.paths.dist[a.2] then f.improve u sum a
    else if Distance.same sum f.paths.dist[a.2] then f.tie u a
    else f

def settle [Add S] (out : Fin n → List (Fin m × Fin n)) (weights : Table D m)
    (f : Frontier D S n m) (u : Fin n) : Frontier D S n m :=
  let f := { f with settled := f.settled.set u true, paths := f.paths.visit u }
  (out u).foldl (relax weights u f.paths.dist[u]) f

def advance? [Add S] (out : Fin n → List (Fin m × Fin n)) (weights : Table D m)
    (f : Frontier D S n m) : Option (Frontier D S n m) :=
  match f.pending.pop? Candidate.before with
  | none => none
  | some (c, rest) =>
      let f := { f with pending := rest }
      some (if f.settled[c.vertex] then f else f.settle out weights c.vertex)

def run [Add S] (out : Fin n → List (Fin m × Fin n)) (weights : Table D m) :
    Nat → Frontier D S n m → Frontier D S n m
  | 0, f => f
  | fuel + 1, f =>
      match f.advance? out weights with
      | none => f
      | some f => run out weights fuel f

def start [Zero S] [One S] (s : Fin n) (p : Paths D S n m) : Frontier D S n m :=
  enter
    { paths := p.restart s
      settled := Table.replicate n false
      pending := Heap.empty } Distance.zero s

end Frontier

namespace Paths

variable {D S : Type} {n m : Nat} [Distance D] [Zero S] [One S] [Add S]

def stepCount (out : Fin n → List (Fin m × Fin n)) : Nat :=
  ((List.finRange n).flatMap out).length

/-- Search from `s` for the least total weights, on tables left by any earlier search. A vertex is
entered once for the source and at most once for each step, so the entries are fewer than the fuel
given here. -/
def weighted (out : Fin n → List (Fin m × Fin n)) (weights : Table D m) (s : Fin n)
    (p : Paths D S n m) : Paths D S n m :=
  ((Frontier.start s p).run out weights (stepCount out + 1)).paths

end Paths

end Geodesic
