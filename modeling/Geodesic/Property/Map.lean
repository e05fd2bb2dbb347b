import Geodesic.Graph
import Geodesic.Property.Values

/-!
# Property maps

Values for the vertices or for the edges of a graph. The kind is part of the type, the length is not:
a map may have gone stale since its graph grew.
-/

namespace Geodesic

inductive Key where
  | vertex
  | edge
deriving DecidableEq, Repr

namespace Key

def slots : Key → Graph → Nat
  | vertex, g => g.vertexCount
  | edge, g => g.edgeCount

end Key

structure PropertyMap (k : Key) (F D : Type) where
  values : Values F D
deriving DecidableEq

abbrev VertexMap (F D : Type) : Type :=
  PropertyMap .vertex F D

abbrev EdgeMap (F D : Type) : Type :=
  PropertyMap .edge F D

namespace PropertyMap

variable {k : Key} {F D : Type}

def valueType (p : PropertyMap k F D) : ValueType :=
  p.values.valueType

def size (p : PropertyMap k F D) : Nat :=
  p.values.size

def zeros [Zero F] [Zero D] (t : ValueType) (n : Nat) : PropertyMap k F D :=
  ⟨Values.zeros t n⟩

def forGraph [Zero F] [Zero D] (g : Graph) (t : ValueType) : PropertyMap k F D :=
  zeros t (k.slots g)

def Fits (p : PropertyMap k F D) (g : Graph) : Prop :=
  p.size = k.slots g

instance (p : PropertyMap k F D) (g : Graph) : Decidable (p.Fits g) :=
  inferInstanceAs (Decidable (_ = _))

@[simp] theorem fits_forGraph [Zero F] [Zero D] (g : Graph) (t : ValueType) :
    (forGraph g t : PropertyMap k F D).Fits g := by
  simp [Fits, forGraph, zeros, size]

end PropertyMap

end Geodesic
