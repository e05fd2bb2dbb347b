import Geodesic.Betweenness

/-!
# Scores added in place

A caller owns its two maps of scores and has them changed. Any step may write to them, and what was
written stays when a later step fails, so all checks come before the first write.
-/

namespace Geodesic

/-- The maps of a caller that scores are added into. -/
structure ScoreMaps (R S : Type) where
  edge : EdgeMap R S
  vertex : VertexMap R S
deriving DecidableEq

/-- A computation that may write to the maps of a caller and may fail. -/
abbrev Scoring (D R S : Type) : Type → Type :=
  ExceptT (Fault D) (StateM (ScoreMaps R S))

/-- Change the floating-point values of a map; there are none in any other map. -/
def PropertyMap.change {k : Key} {R S : Type} (f : Slots R S → Slots R S)
    (p : PropertyMap k R S) : PropertyMap k R S :=
  match Slots.ofValues? p.values with
  | some s => ⟨(f s).toValues⟩
  | none => p

@[simp] theorem PropertyMap.change_toValues {k : Key} {R S : Type} (f : Slots R S → Slots R S)
    (s : Slots R S) : (⟨s.toValues⟩ : PropertyMap k R S).change f = ⟨(f s).toValues⟩ := by
  unfold PropertyMap.change
  rw [(Slots.ofValues?_eq_some_iff _ _).mpr rfl]

namespace Scoring

variable {F D R S α β : Type}

def outcome (x : Scoring D R S α) (maps : ScoreMaps R S) :
    Except (Fault D) α × ScoreMaps R S :=
  (ExceptT.run x).run maps

def check (x : Except (Fault D) α) : Scoring D R S α :=
  ExceptT.mk (pure x)

def changeEdges (f : Slots R S → Slots R S) : Scoring D R S Unit :=
  modify fun maps => { maps with edge := maps.edge.change f }

def changeVertices (f : Slots R S → Slots R S) : Scoring D R S Unit :=
  modify fun maps => { maps with vertex := maps.vertex.change f }

section AddBetweenness

variable [Distance F] [Distance D] [Zero D] [One D] [IntCast D] [Precision F D]
  [Add R] [Mul R] [Precision R S]
  [Zero S] [One S] [Add S] [Sub S] [Mul S] [Div S] [LE S] [DecidableLE S] [NatCast S] [IntCast S]
  [OfNat S 2]

/-- Add the betweenness of `g` into the maps of the caller, and scale them if asked to. -/
def addBetweenness (g : Graph) (plan : Schedule g.vertexCount) (weight : Option (EdgeMap F D))
    (normalize : Bool) : Scoring D R S Unit := do
  let maps ← get
  let edgeSlots ← check (maps.edge.slots .edgeScores)
  let _ ← check (maps.vertex.slots .vertexScores)
  check (maps.edge.checkSize .edgeScores g)
  check (maps.vertex.checkSize .vertexScores g)
  let weights ← check (weight.mapM (admitWeights g))
  let total := totals (F := F) g plan weights edgeSlots
  changeVertices (·.add total.vertices.toArray)
  changeEdges (·.add total.edges.toArray)
  if normalize then
    let factors : Factors S := normalizationFactors g.vertexCount g.directed
    changeVertices (·.scale factors.vertex)
    changeEdges (·.scale factors.edge)

end AddBetweenness

/-! ## Outcomes step by step -/

@[simp] theorem outcome_pure (a : α) (maps : ScoreMaps R S) :
    (pure a : Scoring D R S α).outcome maps = (.ok a, maps) := rfl

@[simp] theorem outcome_get_bind (f : ScoreMaps R S → Scoring D R S β) (maps : ScoreMaps R S) :
    (get >>= f).outcome maps = (f maps).outcome maps := rfl

theorem outcome_check_bind (x : Except (Fault D) α) (f : α → Scoring D R S β)
    (maps : ScoreMaps R S) : (check x >>= f).outcome maps = match x with
      | .ok a => (f a).outcome maps
      | .error fault => (.error fault, maps) := by
  cases x with
  | ok a => rfl
  | error fault => rfl

@[simp] theorem outcome_changeEdges_bind (f : Slots R S → Slots R S)
    (g : Unit → Scoring D R S β) (maps : ScoreMaps R S) :
    (changeEdges f >>= g).outcome maps =
      (g ()).outcome { maps with edge := maps.edge.change f } := rfl

@[simp] theorem outcome_changeEdges (f : Slots R S → Slots R S) (maps : ScoreMaps R S) :
    (changeEdges f : Scoring D R S Unit).outcome maps =
      (.ok (), { maps with edge := maps.edge.change f }) := rfl

@[simp] theorem outcome_changeVertices_bind (f : Slots R S → Slots R S)
    (g : Unit → Scoring D R S β) (maps : ScoreMaps R S) :
    (changeVertices f >>= g).outcome maps =
      (g ()).outcome { maps with vertex := maps.vertex.change f } := rfl

end Scoring

end Geodesic
