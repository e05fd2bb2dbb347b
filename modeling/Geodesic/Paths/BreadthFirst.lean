import Geodesic.Paths

/-!
# Breadth-first search

Every edge is one hop. The visited vertices double as the queue: a vertex is appended when it is
discovered, and the sweep looks at them in that order.
-/

namespace Geodesic.Paths

variable {S : Type} {n m : Nat} [Zero S] [One S] [Add S]

def discover (d : Hops) (p : Paths Hops S n m) (v : Fin n) : Paths Hops S n m :=
  if p.dist[v] = none then { p.visit v with dist := p.dist.set v d } else p

/-- Count the paths that come from `u` by the step `a`, when they are `d` hops long in all and no
shorter way exists. -/
def countStep (u : Fin n) (d : Hops) (p : Paths Hops S n m) (a : Fin m × Fin n) :
    Paths Hops S n m :=
  if p.dist[a.2] = d then
    { p with
      sigma := p.sigma.set a.2 (p.sigma[a.2] + p.sigma[u])
      preds := p.preds.set a.2 (p.preds[a.2].push (a.1, u)) }
  else p

def followStep (u : Fin n) (d : Hops) (p : Paths Hops S n m) (a : Fin m × Fin n) :
    Paths Hops S n m :=
  (p.discover d a.2).countStep u d a

def expand (out : Fin n → List (Fin m × Fin n)) (p : Paths Hops S n m) (u : Fin n) :
    Paths Hops S n m :=
  (out u).foldl (followStep u (p.dist[u].map (· + 1))) p

/-- Expand the visited vertices from position `i` on, at most `fuel` of them. -/
def sweep (out : Fin n → List (Fin m × Fin n)) : Nat → Nat → Paths Hops S n m → Paths Hops S n m
  | 0, _, p => p
  | fuel + 1, i, p =>
      if h : i < p.order.size then sweep out fuel (i + 1) (p.expand out p.order[i]) else p

/-- Search from `s` along the steps `out`, on tables left by any earlier search. No vertex is
visited twice, so `n` expansions suffice. -/
def breadthFirst (out : Fin n → List (Fin m × Fin n)) (s : Fin n) (p : Paths Hops S n m) :
    Paths Hops S n m :=
  sweep out n 0 ((p.restart s).visit s)

end Geodesic.Paths
