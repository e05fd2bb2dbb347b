import Geodesic.Table

/-!
# Tallies

A tally holds one sum per vertex and one per edge. Tallies of separate sources are joined by adding
them entry by entry.
-/

namespace Geodesic

structure Tally (S : Type) (n m : Nat) where
  vertices : Table S n
  edges : Table S m
deriving DecidableEq

/-- Add the entries of `ys` to the entries of `xs` that have a partner there. -/
def Table.addEntries {S : Type} [Add S] {n k : Nat} (xs : Table S n) (ys : Table S k) :
    Table S n :=
  Table.ofFn fun i => match ys.toArray[i.val]? with
    | some y => xs[i] + y
    | none => xs[i]

/-- Equal sizes leave no entry without a partner. -/
@[simp] theorem Table.getElem_addEntries {S : Type} [Add S] {n : Nat} (xs ys : Table S n)
    (i : Fin n) : (xs.addEntries ys)[i] = xs[i] + ys[i] := by
  simp only [Table.addEntries, Table.getElem_ofFn, Table.getElem?_toArray]

namespace Tally

variable {S : Type} {n m : Nat}

def zero [Zero S] (n m : Nat) : Tally S n m :=
  ⟨Table.replicate n 0, Table.replicate m 0⟩

/-- The sum entry by entry, on the entries of the first tally. -/
def merge [Add S] {n' m' : Nat} (a : Tally S n m) (b : Tally S n' m') : Tally S n m :=
  ⟨a.vertices.addEntries b.vertices, a.edges.addEntries b.edges⟩

/-- Half of every sum, for graphs whose pairs were counted from both ends. -/
def halve [Div S] [OfNat S 2] (t : Tally S n m) : Tally S n m :=
  ⟨t.vertices.map (· / 2), t.edges.map (· / 2)⟩

def addVertex [Add S] (t : Tally S n m) (v : Fin n) (c : S) : Tally S n m :=
  { t with vertices := t.vertices.set v (t.vertices[v] + c) }

def addEdge [Add S] (t : Tally S n m) (e : Fin m) (c : S) : Tally S n m :=
  { t with edges := t.edges.set e (t.edges[e] + c) }

@[simp] theorem vertices_merge [Add S] (a b : Tally S n m) (v : Fin n) :
    (a.merge b).vertices[v] = a.vertices[v] + b.vertices[v] :=
  Table.getElem_addEntries _ _ v

@[simp] theorem edges_merge [Add S] (a b : Tally S n m) (e : Fin m) :
    (a.merge b).edges[e] = a.edges[e] + b.edges[e] :=
  Table.getElem_addEntries _ _ e

@[simp] theorem vertices_halve [Div S] [OfNat S 2] (t : Tally S n m) (v : Fin n) :
    t.halve.vertices[v] = t.vertices[v] / 2 := by
  simp [halve]

@[simp] theorem edges_halve [Div S] [OfNat S 2] (t : Tally S n m) (e : Fin m) :
    t.halve.edges[e] = t.edges[e] / 2 := by
  simp [halve]

@[simp] theorem vertices_zero [Zero S] (v : Fin n) :
    (zero n m : Tally S n m).vertices[v] = 0 := by
  simp [zero]

@[simp] theorem edges_zero [Zero S] (e : Fin m) : (zero n m : Tally S n m).edges[e] = 0 := by
  simp [zero]

end Tally

end Geodesic
