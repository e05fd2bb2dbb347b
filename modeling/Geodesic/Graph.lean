import Geodesic.Table

/-!
# Multigraphs with numbered vertices and edges

Vertices are `0, …, n - 1` and an edge is known by its position in the edge table. Loops and
parallel edges are ordinary edges. Ends are typed by the vertex count, so a graph cannot name a
vertex that it does not have.
-/

namespace Geodesic

structure Edge (n : Nat) where
  source : Fin n
  target : Fin n
deriving DecidableEq, Repr

namespace Edge

variable {n k : Nat}

def map (f : Fin n → Fin k) (e : Edge n) : Edge k :=
  ⟨f e.source, f e.target⟩

@[simp] theorem source_map (f : Fin n → Fin k) (e : Edge n) : (e.map f).source = f e.source := rfl

@[simp] theorem target_map (f : Fin n → Fin k) (e : Edge n) : (e.map f).target = f e.target := rfl

end Edge

/-- A finite multigraph; an undirected one still stores each edge with a source and a target. -/
structure Graph where
  directed : Bool
  vertexCount : Nat
  edges : Array (Edge vertexCount)
deriving DecidableEq

namespace Graph

def edgeCount (g : Graph) : Nat :=
  g.edges.size

abbrev Vertex (g : Graph) : Type :=
  Fin g.vertexCount

abbrev EdgeId (g : Graph) : Type :=
  Fin g.edgeCount

/-- An edge number together with the vertex it leads to or comes from. -/
abbrev Step (g : Graph) : Type :=
  g.EdgeId × g.Vertex

def edge (g : Graph) (e : g.EdgeId) : Edge g.vertexCount :=
  have h : e.val < g.edges.size := e.isLt
  g.edges[e.val]

/-! ## Construction -/

def isolated (directed : Bool) (n : Nat) : Graph :=
  ⟨directed, n, #[]⟩

/-- One more vertex, numbered last, without edges. -/
def addVertex (g : Graph) : Graph where
  directed := g.directed
  vertexCount := g.vertexCount + 1
  edges := g.edges.map (Edge.map Fin.castSucc)

/-- One more edge, numbered last. -/
def addEdge (g : Graph) (e : Edge g.vertexCount) : Graph :=
  { g with edges := g.edges.push e }

@[simp] theorem vertexCount_addVertex (g : Graph) :
    g.addVertex.vertexCount = g.vertexCount + 1 := rfl

@[simp] theorem vertexCount_addEdge (g : Graph) (e : Edge g.vertexCount) :
    (g.addEdge e).vertexCount = g.vertexCount := rfl

/-! ## Edges at a vertex -/

def stepFrom? (g : Graph) (v : g.Vertex) (e : g.EdgeId) : Option g.Step :=
  if (g.edge e).source = v then some (e, (g.edge e).target) else none

/-- The step along `e` against its stored direction, when `v` is its target. A loop has only its
forward step. -/
def stepInto? (g : Graph) (v : g.Vertex) (e : g.EdgeId) : Option g.Step :=
  if (g.edge e).target = v ∧ (g.edge e).source ≠ v then some (e, (g.edge e).source) else none

/-- Edge numbers from the highest to the lowest. -/
def edgeIds (g : Graph) : List g.EdgeId :=
  (List.finRange g.edgeCount).reverse

/-- Steps that leave `v`: those from its stored source, then in an undirected graph those against
the stored direction; the latest edge comes first in either part. -/
def outEdges (g : Graph) (v : g.Vertex) : List g.Step :=
  g.edgeIds.filterMap (g.stepFrom? v) ++
    if g.directed then [] else g.edgeIds.filterMap (g.stepInto? v)

@[simp] theorem mem_edgeIds (g : Graph) (e : g.EdgeId) : e ∈ g.edgeIds := by
  simp [edgeIds]

@[simp] theorem stepFrom?_eq_some_iff (g : Graph) (v w : g.Vertex) (e e' : g.EdgeId) :
    g.stepFrom? v e = some (e', w) ↔ e = e' ∧ (g.edge e).source = v ∧ (g.edge e).target = w := by
  grind [stepFrom?]

@[simp] theorem stepInto?_eq_some_iff (g : Graph) (v w : g.Vertex) (e e' : g.EdgeId) :
    g.stepInto? v e = some (e', w) ↔
      e = e' ∧ (g.edge e).target = v ∧ (g.edge e).source = w ∧ w ≠ v := by
  grind [stepInto?]

theorem mem_outEdges (g : Graph) (v w : g.Vertex) (e : g.EdgeId) :
    (e, w) ∈ g.outEdges v ↔
      ((g.edge e).source = v ∧ (g.edge e).target = w) ∨
        (g.directed = false ∧ (g.edge e).target = v ∧ (g.edge e).source = w) := by
  cases hd : g.directed
  · simp [outEdges, hd]
    grind
  · simp [outEdges, hd]

def adjacency (g : Graph) : Table (List g.Step) g.vertexCount :=
  Table.ofFn g.outEdges

@[simp] theorem get_adjacency (g : Graph) : g.adjacency.get = g.outEdges := by
  funext v
  exact Table.getElem_ofFn _ v

end Graph

end Geodesic
