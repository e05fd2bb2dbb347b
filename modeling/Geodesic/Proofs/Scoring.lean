import Geodesic.Scoring
import Geodesic.Proofs.Betweenness
import Geodesic.Proofs.FirstFault
import Geodesic.Proofs.Machine.Double

/-!
# What is refused, and that refusing changes nothing

Seven checks precede the computation, and the first that finds a fault decides. The maps of the
caller are as before then; otherwise they keep their types and sizes.
-/

namespace Geodesic

open Distance (admissible)
open Float.Model (UnpackedFloat)

variable {F D R S : Type}

/-! ## Single checks -/

section Checks

variable {k : Key} {p : PropertyMap k R S} {role : MapRole} {fault : Fault D}

theorem slots_eq_ok_iff {s : Slots R S} :
    (p.slots role : Except (Fault D) (Slots R S)) = .ok s ↔ p.values = s.toValues := by
  rw [← Slots.ofValues?_eq_some_iff]
  unfold PropertyMap.slots
  split <;> simp_all

theorem slots_eq_error_iff :
    (p.slots role : Except (Fault D) (Slots R S)) = .error fault ↔
      (p.valueType ≠ .single ∧ p.valueType ≠ .double) ∧
        fault = .wrongType role .floatingPoint p.valueType := by
  obtain ⟨values⟩ := p
  cases values <;>
    simp [PropertyMap.slots, Slots.ofValues?, PropertyMap.valueType, Values.valueType, eq_comm]

theorem checkSize_eq_error_iff {g : Graph} :
    (p.checkSize role g : Except (Fault D) Unit) = .error fault ↔
      p.size ≠ k.slots g ∧ fault = .wrongSize role (k.slots g) p.size := by
  unfold PropertyMap.checkSize
  by_cases hfits : p.Fits g
  · have hsize : p.size = k.slots g := hfits
    simp [hfits, hsize]
  · have hsize : p.size ≠ k.slots g := hfits
    simp [hfits, hsize, eq_comm]

end Checks

theorem firstInadmissible?_eq_some_iff [Distance D] {m : Nat} {weights : Table D m} {e : Fin m} :
    firstInadmissible? weights = some e ↔
      admissible weights[e] = false ∧ ∀ i < e, admissible weights[i] = true := by
  unfold firstInadmissible?
  rw [List.find?_eq_some_iff_getElem]
  simp only [Bool.not_eq_true', List.getElem_finRange, Bool.not_not]
  refine and_congr_right fun _ => ?_
  constructor
  · rintro ⟨i, hi, rfl, hlowest⟩ j hj
    exact hlowest j hj
  · intro hlowest
    refine ⟨e, by simp, rfl, fun j hj => hlowest ⟨j, hj.trans e.isLt⟩ hj⟩

theorem get?_of_numbers? [Zero D] [One D] [IntCast D] [Precision F D] {m : Nat}
    {values : Values F D} {weights : Table D m} (hnumbers : values.numbers? = some weights.toArray)
    (e : Fin m) : values.get? e = some weights[e] := by
  rw [Values.get?, hnumbers]
  exact Table.getElem?_toArray weights e

/-! ## Numbers that are no weights -/

def Refused (x : Float) : Prop :=
  x.isNaN = true ∨ x < 0

theorem unpacked_compare_self (u : UnpackedFloat) :
    u.compare u = if u.isNaN then none else some .eq := by
  cases u with
  | infinity s => cases s <;> rfl
  | notANumber => rfl
  | zero s => rfl
  | finite s m e hm => cases s <;> simp [UnpackedFloat.compare, UnpackedFloat.isNaN]

/-- Only what is not a number differs from itself. -/
theorem beq_self_eq_false_iff {x : Float} : (x == x) = false ↔ x.isNaN = true := by
  show UnpackedFloat.beq x.toModel.unpack x.toModel.unpack = false ↔ x.toModel.unpack.isNaN = true
  rw [UnpackedFloat.beq, unpacked_compare_self]
  cases x.toModel.unpack.isNaN <;> decide

theorem admissible_eq_false_iff {x : Float} : admissible x = false ↔ Refused x := by
  have hzero : (0.0 : Float) = 0 := rfl
  have hshorter : Distance.shorter x Distance.zero = decide (x < 0.0) := rfl
  have hsame : Distance.same x x = (x == x) := rfl
  rw [admissible, Bool.and_eq_false_iff, hshorter, hsame, beq_self_eq_false_iff, hzero]
  simp [Refused]

theorem admissible_iff_not_refused {x : Float} : admissible x = true ↔ ¬ Refused x := by
  rw [← admissible_eq_false_iff, Bool.not_eq_false]

/-! ## The checks in their order -/

/-- What is checked before anything is computed. -/
inductive Check where
  | edgeType
  | vertexType
  | edgeSize
  | vertexSize
  | weightType
  | weightSize
  | weightValues
deriving DecidableEq, Repr

namespace Check

def all : List Check :=
  [edgeType, vertexType, edgeSize, vertexSize, weightType, weightSize, weightValues]

/-- The faults that each check finds in the maps of a caller. Weights are read as doubles, and the
lowest edge with a bad one counts. -/
def Finds [Precision F Float] (g : Graph) (weight : Option (EdgeMap F Float))
    (maps : ScoreMaps R S) : Check → Fault Float → Prop
  | edgeType, fault => (maps.edge.valueType ≠ .single ∧ maps.edge.valueType ≠ .double) ∧
      fault = .wrongType .edgeScores .floatingPoint maps.edge.valueType
  | vertexType, fault => (maps.vertex.valueType ≠ .single ∧ maps.vertex.valueType ≠ .double) ∧
      fault = .wrongType .vertexScores .floatingPoint maps.vertex.valueType
  | edgeSize, fault => maps.edge.size ≠ g.edgeCount ∧
      fault = .wrongSize .edgeScores g.edgeCount maps.edge.size
  | vertexSize, fault => maps.vertex.size ≠ g.vertexCount ∧
      fault = .wrongSize .vertexScores g.vertexCount maps.vertex.size
  | weightType, fault => ∃ w ∈ weight, w.valueType = .string ∧
      fault = .wrongType .weights .scalar .string
  | weightSize, fault => ∃ w ∈ weight, w.size ≠ g.edgeCount ∧
      fault = .wrongSize .weights g.edgeCount w.size
  | weightValues, fault => ∃ w ∈ weight, ∃ e x,
      (w.values.get? e = some x ∧ Refused x ∧
        ∀ i < e, ∀ y, w.values.get? i = some y → ¬ Refused y) ∧
      fault = .badWeight e x

end Check

section Reports

open Check

variable [Precision F Float] {g : Graph} {w : EdgeMap F Float} {maps : ScoreMaps R S}
  {fault : Fault Float}

theorem lowest_refused_iff {weights : Table Float g.edgeCount}
    (hnumbers : w.values.numbers? = some weights.toArray) {i : Nat} {x : Float} :
    (w.values.get? i = some x ∧ Refused x ∧
        ∀ j < i, ∀ y, w.values.get? j = some y → ¬ Refused y) ↔
      ∃ e : Fin g.edgeCount, firstInadmissible? weights = some e ∧ e.val = i ∧ weights[e] = x := by
  have hget := get?_of_numbers? hnumbers
  constructor
  · rintro ⟨hread, hrefused, hlowest⟩
    have hi : i < g.edgeCount := by
      rw [Values.get?, hnumbers, Option.bind_some] at hread
      simpa using (Array.getElem?_eq_some_iff.mp hread).1
    obtain rfl := Option.some.inj ((hget ⟨i, hi⟩).symm.trans hread)
    refine ⟨⟨i, hi⟩, firstInadmissible?_eq_some_iff.mpr ⟨?_, fun j hj => ?_⟩, rfl, rfl⟩
    · exact admissible_eq_false_iff.mpr hrefused
    · exact admissible_iff_not_refused.mpr (hlowest j hj _ (hget j))
  · rintro ⟨e, hfirst, rfl, rfl⟩
    obtain ⟨hrefused, hlowest⟩ := firstInadmissible?_eq_some_iff.mp hfirst
    refine ⟨hget e, admissible_eq_false_iff.mp hrefused, fun j hj y hy => ?_⟩
    rw [hget ⟨j, hj.trans e.isLt⟩] at hy
    obtain rfl := Option.some.inj hy
    exact admissible_iff_not_refused.mp (hlowest ⟨j, hj.trans e.isLt⟩ hj)

/-- The weights are checked for their type, then their number, then their values. -/
theorem reports_admitWeights : Reports (Finds g (some w) maps)
    [weightType, weightSize, weightValues] (admitWeights g w) := by
  intro fault
  simp only [firstFault_cons, not_firstFault_nil, and_false, or_false, Finds, Option.mem_some_iff,
    exists_eq_left']
  have hstring : w.values.numbers? = none ↔ w.valueType = .string := by
    rw [Values.numbers?_eq_none_iff, PropertyMap.valueType]
    cases w.values.valueType <;> decide
  unfold admitWeights
  split
  · rename_i hnone
    have htype := hstring.mp hnone
    simp [htype, eq_comm]
  · rename_i xs hnumbers
    have htype : w.valueType ≠ .string := fun h => by
      rw [hstring.mpr h] at hnumbers
      cases hnumbers
    have hsize : xs.size = w.size := Values.size_of_numbers? hnumbers
    split
    · rename_i hfits
      have hnumbers' : w.values.numbers? = some (Table.ofArray xs hfits).toArray := hnumbers
      simp only [lowest_refused_iff hnumbers']
      rw [hsize] at hfits
      split
      · rename_i e hfirst
        simp [htype, hfits, hfirst, eq_comm]
      · rename_i hfirst
        simp [htype, hfits, hfirst]
    · rename_i hfits
      rw [hsize] at hfits ⊢
      simp [htype, hfits, eq_comm]

theorem reports_weights (weight : Option (EdgeMap F Float)) : Reports (Finds g weight maps)
    [weightType, weightSize, weightValues] (weight.mapM (admitWeights g)) := by
  cases weight with
  | none => exact Reports.of_faultless (by simp [Faultless, Finds]) none
  | some w =>
      intro fault
      rw [← reports_admitWeights fault, Option.mapM_some]
      cases admitWeights g w with
      | ok lengths => simp
      | error e => simp

variable {weight : Option (EdgeMap F Float)}

theorem reports_edgeType : Reports (Finds g weight maps) [edgeType]
    (maps.edge.slots .edgeScores : Except (Fault Float) (Slots R S)) :=
  Reports.check fun _ => slots_eq_error_iff

theorem reports_vertexType : Reports (Finds g weight maps) [vertexType]
    (maps.vertex.slots .vertexScores : Except (Fault Float) (Slots R S)) :=
  Reports.check fun _ => slots_eq_error_iff

theorem reports_edgeSize : Reports (Finds g weight maps) [edgeSize]
    (maps.edge.checkSize .edgeScores g) :=
  Reports.check fun _ => checkSize_eq_error_iff

theorem reports_vertexSize : Reports (Finds g weight maps) [vertexSize]
    (maps.vertex.checkSize .vertexScores g) :=
  Reports.check fun _ => checkSize_eq_error_iff

end Reports

/-! ## Refusal and success -/

section HandedBack

variable {D α : Type} {maps : ScoreMaps R S}

/-- What a caller is left with when the new maps are handed back: after a fault the old ones. -/
def handedBack (maps : ScoreMaps R S) :
    Except (Fault D) (EdgeMap R S × VertexMap R S) → Except (Fault D) Unit × ScoreMaps R S
  | .ok (edge, vertex) => (.ok (), ⟨edge, vertex⟩)
  | .error fault => (.error fault, maps)

theorem outcome_check_bind_eq {x : Except (Fault D) α} {f : α → Scoring D R S Unit}
    {h : α → Except (Fault D) (EdgeMap R S × VertexMap R S)}
    (heq : ∀ a, x = .ok a → (f a).outcome maps = handedBack maps (h a)) :
    (Scoring.check x >>= f).outcome maps = handedBack maps (x >>= h) := by
  rw [Scoring.outcome_check_bind]
  cases x with
  | ok a => exact heq a rfl
  | error fault => rfl

end HandedBack

section InPlace

open Scoring

variable [Distance F] [Distance D] [Zero D] [One D] [IntCast D] [Precision F D]
  [Add R] [Mul R] [Precision R S]
  [Zero S] [One S] [Add S] [Sub S] [Mul S] [Div S] [LE S] [DecidableLE S] [NatCast S] [OfNat S 2]
  {g : Graph} {plan : Schedule g.vertexCount} {weight : Option (EdgeMap F D)}
  {maps : ScoreMaps R S} {normalize : Bool}

/-- Scores added in place are those that are handed back. -/
theorem outcome_addBetweenness : (addBetweenness g plan weight normalize).outcome maps =
    handedBack maps (computeBetweenness g plan weight maps.edge maps.vertex normalize) := by
  unfold addBetweenness computeBetweenness
  rw [outcome_get_bind]
  refine outcome_check_bind_eq fun edgeSlots hedge => outcome_check_bind_eq fun vertexSlots hvertex =>
    outcome_check_bind_eq fun _ _ => outcome_check_bind_eq fun _ _ =>
    outcome_check_bind_eq fun weights _ => ?_
  obtain ⟨⟨edge⟩, ⟨vertex⟩⟩ := maps
  obtain rfl : edge = edgeSlots.toValues := slots_eq_ok_iff.mp hedge
  obtain rfl : vertex = vertexSlots.toValues := slots_eq_ok_iff.mp hvertex
  cases normalize with
  | false =>
      simp only [outcome_changeVertices_bind, outcome_changeEdges_bind, outcome_pure,
        PropertyMap.change_toValues, Bool.false_eq_true, if_false]
      rfl
  | true =>
      simp only [outcome_changeVertices_bind, outcome_changeEdges_bind, outcome_changeEdges,
        PropertyMap.change_toValues, if_true]
      rfl

end InPlace

section Outcome

open Check Scoring

variable [Distance F] [Precision F Float] [Add R] [Mul R] [Precision R S]
  [Zero S] [One S] [Add S] [Sub S] [Mul S] [Div S] [LE S] [DecidableLE S] [NatCast S] [OfNat S 2]
  {g : Graph} {plan : Schedule g.vertexCount} {weight : Option (EdgeMap F Float)}
  {maps : ScoreMaps R S} {normalize : Bool}

/-- Nothing but the seven checks can fail. -/
theorem reports_computeBetweenness : Reports (Finds g weight maps) Check.all
    (computeBetweenness g plan weight maps.edge maps.vertex normalize) := by
  have hall : Check.all = [edgeType] ++ ([vertexType] ++ ([edgeSize] ++ ([vertexSize] ++
      ([weightType, weightSize, weightValues] ++ [])))) := rfl
  rw [hall]
  unfold computeBetweenness
  refine reports_edgeType.bind fun edgeSlots _ => reports_vertexType.bind fun vertexSlots _ =>
    reports_edgeSize.bind fun _ _ => reports_vertexSize.bind fun _ _ =>
    (reports_weights weight).bind fun weights _ => ?_
  dsimp only
  split <;> exact Reports.ok _

theorem kept_of_computeBetweenness {edge : EdgeMap R S} {vertex : VertexMap R S}
    (h : computeBetweenness g plan weight maps.edge maps.vertex normalize = .ok (edge, vertex)) :
    (edge.valueType = maps.edge.valueType ∧ edge.size = maps.edge.size) ∧
      vertex.valueType = maps.vertex.valueType ∧ vertex.size = maps.vertex.size := by
  unfold computeBetweenness at h
  obtain ⟨edgeSlots, hedge, h⟩ := bind_eq_ok_iff.mp h
  obtain ⟨vertexSlots, hvertex, h⟩ := bind_eq_ok_iff.mp h
  obtain ⟨-, -, h⟩ := bind_eq_ok_iff.mp h
  obtain ⟨-, -, h⟩ := bind_eq_ok_iff.mp h
  obtain ⟨weights, -, h⟩ := bind_eq_ok_iff.mp h
  rw [slots_eq_ok_iff] at hedge hvertex
  unfold PropertyMap.valueType PropertyMap.size
  rw [hedge, hvertex]
  cases normalize with
  | false =>
      obtain ⟨rfl, rfl⟩ := Prod.mk.inj (Except.ok.inj h)
      simp
  | true =>
      obtain ⟨rfl, rfl⟩ := Prod.mk.inj (Except.ok.inj h)
      simp

end Outcome

/-- Seven checks decide, in their order, whether scores are added: the first one that finds a fault
names it, and the maps of the caller are as before then. Otherwise the maps keep their types and
sizes. A negative zero and infinity are weights. -/
theorem addBetweenness_refuses_or_keeps (g : Graph) (plan : Schedule g.vertexCount)
    (weight : Option (EdgeMap Float32 Float)) (maps : ScoreMaps Float32 Float) (normalize : Bool) :
    (let (result, after) := (Scoring.addBetweenness g plan weight normalize).outcome maps
    (∀ fault, result = .error fault ↔ FirstFault (Check.Finds g weight maps) Check.all fault) ∧
      (result = .ok () ↔ Faultless (Check.Finds g weight maps) Check.all) ∧
      (∀ fault, result = .error fault → after = maps) ∧
      (result = .ok () →
        (after.edge.valueType = maps.edge.valueType ∧ after.edge.size = maps.edge.size) ∧
        after.vertex.valueType = maps.vertex.valueType ∧ after.vertex.size = maps.vertex.size) ∧
      computeBetweenness g plan weight maps.edge maps.vertex normalize =
        result.map fun _ => (after.edge, after.vertex)) ∧
    ¬ Refused (-0.0) ∧ ¬ Refused (1.0 / 0.0) := by
  refine ⟨?_, ?_, ?_⟩
  · have hreports : Reports (Check.Finds g weight maps) Check.all
        (computeBetweenness g plan weight maps.edge maps.vertex normalize) :=
      reports_computeBetweenness
    rw [outcome_addBetweenness]
    cases hresult : computeBetweenness g plan weight maps.edge maps.vertex normalize with
    | ok scores =>
        rw [hresult] at hreports
        have hfaultless := hreports.exists_ok_iff.mp ⟨scores, rfl⟩
        refine ⟨fun fault => ?_, ?_, ?_, fun _ => kept_of_computeBetweenness hresult, rfl⟩
        · rw [← hreports fault]
          simp
        · exact iff_of_true rfl hfaultless
        · simp
    | error fault' =>
        rw [hresult] at hreports
        have hfault := mt hreports.exists_ok_iff.mpr (by simp)
        refine ⟨fun fault => ?_, ?_, fun _ _ => rfl, ?_, rfl⟩
        · rw [← hreports fault]
          simp
        · exact iff_of_false (by simp) hfault
        · simp
  · exact admissible_iff_not_refused.mp (by decide +kernel)
  · exact admissible_iff_not_refused.mp (by decide +kernel)

end Geodesic
