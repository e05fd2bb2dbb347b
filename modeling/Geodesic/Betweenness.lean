import Geodesic.Dominance
import Geodesic.Fault
import Geodesic.Normalization
import Geodesic.Property.Map
import Geodesic.Schedule

/-!
# Betweenness

The betweenness of a vertex or edge is the number of pairs of vertices whose shortest paths run
through it, each pair counted by the share of its shortest paths that do.

Scores are added into two maps of the caller, which are checked together with the weights before
anything is computed. Weights are numbers of the types `F` and `D`, scores of the types `R` and `S`;
path counts and sums are wide scores, and lengths add up in the precision of the edge scores.
-/

namespace Geodesic

/-- The floating-point values of a map that takes scores. -/
inductive Slots (R S : Type) where
  | single (values : Array R)
  | double (values : Array S)
deriving DecidableEq

/-- Add converted totals slot by slot, as far as both go. -/
def addInto {S T : Type} [Add T] (convert : S → T) (totals : Array S) (into : Array T) : Array T :=
  into.mapIdx fun i x => match totals[i]? with
    | some s => x + convert s
    | none => x

@[simp] theorem size_addInto {S T : Type} [Add T] (convert : S → T) (totals : Array S)
    (into : Array T) : (addInto convert totals into).size = into.size := by
  simp [addInto]

namespace Slots

variable {R S : Type}

def ofValues? : Values R S → Option (Slots R S)
  | .single xs => some (single xs)
  | .double xs => some (double xs)
  | _ => none

def toValues : Slots R S → Values R S
  | single xs => .single xs
  | double xs => .double xs

/-- Add totals, rounded to the type of the slots. -/
def add [Add R] [Add S] [Precision R S] (totals : Array S) : Slots R S → Slots R S
  | single xs => single (addInto Precision.narrow totals xs)
  | double xs => double (addInto id totals xs)

def scale [Mul R] [Mul S] [Precision R S] (factor : S) : Slots R S → Slots R S
  | single xs => single (Geodesic.scale (Precision.narrow factor) xs)
  | double xs => double (Geodesic.scale factor xs)

theorem ofValues?_eq_some_iff (v : Values R S) (s : Slots R S) :
    ofValues? v = some s ↔ v = s.toValues := by
  cases v <;> cases s <;> simp [ofValues?, toValues]

@[simp] theorem valueType_add [Add R] [Add S] [Precision R S] (totals : Array S) (s : Slots R S) :
    (s.add totals).toValues.valueType = s.toValues.valueType := by
  cases s <;> rfl

@[simp] theorem size_add [Add R] [Add S] [Precision R S] (totals : Array S) (s : Slots R S) :
    (s.add totals).toValues.size = s.toValues.size := by
  cases s <;> simp [add, toValues, Values.size]

@[simp] theorem valueType_scale [Mul R] [Mul S] [Precision R S] (factor : S) (s : Slots R S) :
    (s.scale factor).toValues.valueType = s.toValues.valueType := by
  cases s <;> rfl

@[simp] theorem size_scale [Mul R] [Mul S] [Precision R S] (factor : S) (s : Slots R S) :
    (s.scale factor).toValues.size = s.toValues.size := by
  cases s <;> simp [scale, toValues, Values.size]

end Slots

/-! ## Checks -/

section Checks

variable {F D R S : Type}

def PropertyMap.slots {k : Key} (role : MapRole) (p : PropertyMap k R S) :
    Except (Fault D) (Slots R S) :=
  match Slots.ofValues? p.values with
  | some s => .ok s
  | none => .error (.wrongType role .floatingPoint p.valueType)

def PropertyMap.checkSize {k : Key} (role : MapRole) (p : PropertyMap k R S) (g : Graph) :
    Except (Fault D) Unit :=
  if p.Fits g then .ok () else .error (.wrongSize role (k.slots g) p.size)

def firstInadmissible? [Distance D] {m : Nat} (weights : Table D m) : Option (Fin m) :=
  (List.finRange m).find? fun e => !Distance.admissible weights[e]

/-- The weights of a map, if it is scalar, has one for every edge, and all are accepted. -/
def admitWeights [Distance D] [Zero D] [One D] [IntCast D] [Precision F D] (g : Graph)
    (map : EdgeMap F D) : Except (Fault D) (Table D g.edgeCount) :=
  match map.values.numbers? with
  | none => .error (.wrongType .weights .scalar map.valueType)
  | some xs =>
      if h : xs.size = g.edgeCount then
        let weights := Table.ofArray xs h
        match firstInadmissible? weights with
        | some e => .error (.badWeight e weights[e])
        | none => .ok weights
      else .error (.wrongSize .weights g.edgeCount xs.size)

end Checks

/-! ## Computation -/

section Computation

variable {F D R S : Type} [Distance F] [Distance D] [Zero D] [One D] [IntCast D] [Precision F D]
  [Add R] [Mul R] [Precision R S] [Zero R]
  [Zero S] [One S] [Add S] [Sub S] [Mul S] [Div S] [LE S] [DecidableLE S] [NatCast S] [IntCast S]
  [OfNat S 2]

/-- The sums over all sources; a pair of an undirected graph is seen from both ends and counts
once. The weights are rounded to the type of the edge scores. -/
def totals (g : Graph) (plan : Schedule g.vertexCount) (weights : Option (Table D g.edgeCount))
    (edgeSlots : Slots R S) : Tally S g.vertexCount g.edgeCount :=
  let t := match weights, edgeSlots with
    | none, _ => g.hopTally plan
    | some ws, .single _ => g.weightTally (ws.map (Precision.narrow : D → F)) plan
    | some ws, .double _ => g.weightTally ws plan
  if g.directed then t else t.halve

/-- Add the betweenness of `g` into two maps, and scale them if asked to. Without a weight map every
edge is one hop long. -/
def computeBetweenness (g : Graph) (plan : Schedule g.vertexCount) (weight : Option (EdgeMap F D))
    (edgeOut : EdgeMap R S) (vertexOut : VertexMap R S) (normalize : Bool) :
    Except (Fault D) (EdgeMap R S × VertexMap R S) := do
  let edgeSlots ← edgeOut.slots .edgeScores
  let vertexSlots ← vertexOut.slots .vertexScores
  edgeOut.checkSize .edgeScores g
  vertexOut.checkSize .vertexScores g
  let weights ← weight.mapM (admitWeights g)
  let total := totals (F := F) g plan weights edgeSlots
  let edgeSlots := edgeSlots.add total.edges.toArray
  let vertexSlots := vertexSlots.add total.vertices.toArray
  if normalize then
    let factors : Factors S := normalizationFactors g.vertexCount g.directed
    return (⟨(edgeSlots.scale factors.edge).toValues⟩, ⟨(vertexSlots.scale factors.vertex).toValues⟩)
  else return (⟨edgeSlots.toValues⟩, ⟨vertexSlots.toValues⟩)

structure Betweenness (R S : Type) where
  vertex : VertexMap R S
  edge : EdgeMap R S
deriving DecidableEq

/-- The betweenness of `g` in fresh maps of wide scores. -/
def betweenness (g : Graph) (plan : Schedule g.vertexCount) (weight : Option (EdgeMap F D))
    (normalize : Bool) : Except (Fault D) (Betweenness R S) := do
  let (edge, vertex) ←
    computeBetweenness g plan weight (.forGraph g .double) (.forGraph g .double) normalize
  return ⟨vertex, edge⟩

def Betweenness.centralPointDominance (b : Betweenness R S) : S :=
  match b.vertex.values.numbers? with
  | some scores => dominance scores
  | none => 0

def centralPointDominance (g : Graph) (scores : VertexMap R S) : Except (Fault D) S :=
  match scores.values.numbers? with
  | none => .error (.wrongType .vertexScores .scalar scores.valueType)
  | some xs => do
      scores.checkSize .vertexScores g
      return dominance xs

end Computation

end Geodesic
