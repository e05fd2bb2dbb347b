import Geodesic.Proofs.Beside
import Geodesic.Proofs.Normalization
import Geodesic.Proofs.Scoring

/-!
# Scores are added, then scaled

What a call adds to the maps of a caller is computed apart from what they hold. The edge map only
says in which precision lengths add up, and the vertex map says nothing. With exact numbers even that
does not show: calls add the fresh scores as often as they are made, and factors are applied to the
sums.
-/

namespace Geodesic

open Scoring (addBetweenness)

variable {F D R S : Type} {g : Graph}

/-! ## One call -/

/-- The precision of the values in a map that takes scores. -/
inductive Width where
  | single
  | double
deriving DecidableEq

namespace Slots

def width : Slots R S → Width
  | single _ => .single
  | double _ => .double

def size (s : Slots R S) : Nat :=
  s.toValues.size

def empty : Width → Slots R S
  | .single => single #[]
  | .double => double #[]

theorem slots_toValues (s : Slots R S) {k : Key} (role : MapRole) :
    (⟨s.toValues⟩ : PropertyMap k R S).slots role = (.ok s : Except (Fault D) (Slots R S)) :=
  slots_eq_ok_iff.mpr rfl

theorem checkSize_toValues {s : Slots R S} {k : Key} (role : MapRole) (h : s.size = k.slots g) :
    (⟨s.toValues⟩ : PropertyMap k R S).checkSize role g = (.ok () : Except (Fault D) Unit) :=
  if_pos h

end Slots

def ScoreMaps.ofSlots (edge vertex : Slots R S) : ScoreMaps R S :=
  ⟨⟨edge.toValues⟩, ⟨vertex.toValues⟩⟩

section Call

variable [Distance F] [Distance D] [Precision F D]
  [Zero S] [One S] [Add S] [Mul S] [Div S] [LE S] [DecidableLE S] [OfNat S 2]
  {plan : Schedule g.vertexCount} {weights : Option (Table D g.edgeCount)}

def totalsFor (F R : Type) [Distance F] [Precision F D] (g : Graph) (plan : Schedule g.vertexCount)
    (weights : Option (Table D g.edgeCount)) (width : Width) : Tally S g.vertexCount g.edgeCount :=
  totals (F := F) g plan weights (Slots.empty width : Slots R S)

/-- The sums do not depend on what the slots hold. -/
theorem totals_eq_totalsFor (slots : Slots R S) :
    totals (F := F) g plan weights slots = totalsFor F R g plan weights slots.width := by
  cases weights <;> cases slots <;> rfl

theorem totalsFor_none (plan : Schedule g.vertexCount) (width : Width) :
    (totalsFor F R g plan (none : Option (Table D g.edgeCount)) width : Tally S _ _) =
      totalsFor F R g plan (none : Option (Table D g.edgeCount)) .double := by
  cases width <;> rfl

variable [Zero D] [One D] [IntCast D] [Add R] [Mul R] [Precision R S] [Sub S] [NatCast S]
  {weight : Option (EdgeMap F D)}

/-- A call with accepted weights adds the sums to both maps, and scales them if asked to. -/
theorem outcome_adds (plan : Schedule g.vertexCount) {edge vertex : Slots R S}
    (hedge : edge.size = g.edgeCount) (hvertex : vertex.size = g.vertexCount)
    (hweights : weight.mapM (admitWeights g) = .ok weights) (normalize : Bool) :
    let total : Tally S g.vertexCount g.edgeCount := totalsFor F R g plan weights edge.width
    let factors : Factors S := normalizationFactors g.vertexCount g.directed
    (addBetweenness g plan weight normalize).outcome (.ofSlots edge vertex) =
      (.ok (), .ofSlots ((edge.add total.edges.toArray).finished normalize factors.edge)
        ((vertex.add total.vertices.toArray).finished normalize factors.vertex)) := by
  intro total factors
  have hedgeSize : (⟨edge.toValues⟩ : EdgeMap R S).checkSize .edgeScores g =
      (.ok () : Except (Fault D) Unit) := Slots.checkSize_toValues _ hedge
  have hvertexSize : (⟨vertex.toValues⟩ : VertexMap R S).checkSize .vertexScores g =
      (.ok () : Except (Fault D) Unit) := Slots.checkSize_toValues _ hvertex
  rw [outcome_addBetweenness]
  unfold computeBetweenness ScoreMaps.ofSlots
  simp only [Slots.slots_toValues, hedgeSize, hvertexSize, hweights, bind, Except.bind,
    totals_eq_totalsFor]
  cases normalize <;> rfl

end Call

/-! ## Exact numbers -/

theorem Scoring.outcome_bind {α β : Type} {x : Scoring D R S α} {f : α → Scoring D R S β}
    {maps maps' : ScoreMaps R S} {a : α} (h : x.outcome maps = (.ok a, maps')) :
    (x >>= f).outcome maps = (f a).outcome maps' := by
  unfold outcome at h ⊢
  rw [ExceptT.run_bind, StateT.run_bind, h]
  rfl

namespace Slots

variable {n : Nat}

def ofFn (width : Width) (x : Fin n → ℚ) : Slots ℚ ℚ :=
  match width with
  | .single => .single (Array.ofFn x)
  | .double => .double (Array.ofFn x)

theorem size_ofFn (width : Width) (x : Fin n → ℚ) : (ofFn width x).size = n := by
  cases width <;> exact Array.size_ofFn

theorem addInto_ofFn {convert : ℚ → ℚ} (hconvert : ∀ c, convert c = c) (t : Table ℚ n)
    (x : Fin n → ℚ) :
    addInto convert t.toArray (Array.ofFn x) = Array.ofFn fun i => x i + t[i] := by
  refine Array.ext (by simp) fun i hi hi' => ?_
  have hbound : i < n := by simpa using hi'
  simp [addInto, Table.getElem?_toArray t ⟨i, hbound⟩, hconvert]

theorem add_ofFn (width : Width) (t : Table ℚ n) (x : Fin n → ℚ) :
    (ofFn width x).add t.toArray = ofFn width fun i => x i + t[i] := by
  cases width with
  | single => exact congrArg Slots.single (addInto_ofFn (fun _ => rfl) t x)
  | double => exact congrArg Slots.double (addInto_ofFn (fun _ => rfl) t x)

theorem scale_ofFn (factor : ℚ) (x : Fin n → ℚ) :
    Geodesic.scale factor (Array.ofFn x) = Array.ofFn fun i => x i * factor :=
  Array.map_ofFn

theorem finished_ofFn (width : Width) (normalize : Bool) (factor : ℚ) (x : Fin n → ℚ) :
    (ofFn width x).finished normalize factor =
      ofFn width fun i => finishedScore normalize factor (x i) := by
  cases normalize with
  | false => rfl
  | true =>
      cases width with
      | single => exact congrArg Slots.single (scale_ofFn factor x)
      | double => exact congrArg Slots.double (scale_ofFn factor x)

end Slots

def exactMaps {n m : Nat} (edgeWidth vertexWidth : Width) (y : Fin m → ℚ) (x : Fin n → ℚ) :
    ScoreMaps ℚ ℚ :=
  .ofSlots (Slots.ofFn edgeWidth y) (Slots.ofFn vertexWidth x)

/-- Every source is taken once, in any order. -/
def Schedule.EachOnce {n : Nat} (plan : Schedule n) : Prop :=
  plan.sources.Perm (List.finRange n)

section Exact

variable {plan : Schedule g.vertexCount} {weight : Option (EdgeMap Length Length)}
  {weights : Option (Table Length g.edgeCount)} {edgeWidth vertexWidth : Width}

/-- With exact lengths neither the width nor the schedule matters. -/
theorem totalsFor_eq (hplan : plan.EachOnce)
    (weights : Option (Table Length g.edgeCount)) (width : Width) :
    (totalsFor Length ℚ g plan weights width : Tally ℚ _ _) =
      totalsFor Length ℚ g (.sequential _) weights .double := by
  cases weights with
  | none =>
      rw [totalsFor, totalsFor, totals_none, totals_none,
        Schedule.addsInTurn_of_perm hplan (steady_breadthFirst g)]
  | some lengths =>
      have hexact : lengths.map (Precision.narrow : Length → Length) = lengths :=
        Table.ext fun e => Table.getElem_map ..
      have hwidth : (totalsFor Length ℚ g plan (some lengths) width : Tally ℚ _ _) =
          totalsFor Length ℚ g plan (some lengths) .double := by
        cases width with
        | double => rfl
        | single =>
            unfold totalsFor Slots.empty totals
            dsimp only
            rw [hexact]
      rw [hwidth, totalsFor, totalsFor, Slots.empty, totals_some, totals_some,
        Schedule.addsInTurn_of_perm hplan (steady_weighted lengths)]

theorem outcome_exact (edgeWidth vertexWidth : Width) (hplan : plan.EachOnce)
    (hweights : weight.mapM (admitWeights g) = .ok weights) (normalize : Bool)
    (y : g.EdgeId → ℚ) (x : g.Vertex → ℚ) :
    let total : Tally ℚ g.vertexCount g.edgeCount :=
      totalsFor Length ℚ g (.sequential _) weights .double
    let factors : Factors ℚ := normalizationFactors g.vertexCount g.directed
    (addBetweenness g plan weight normalize).outcome (exactMaps edgeWidth vertexWidth y x) =
      (.ok (), exactMaps edgeWidth vertexWidth
        (fun e => finishedScore normalize factors.edge (y e + total.edges[e]))
        (fun v => finishedScore normalize factors.vertex (x v + total.vertices[v]))) := by
  intro total factors
  have hadds := outcome_adds plan (Slots.size_ofFn edgeWidth y)
    (Slots.size_ofFn vertexWidth x) hweights normalize
  dsimp only at hadds
  rw [totalsFor_eq hplan, Slots.add_ofFn, Slots.add_ofFn, Slots.finished_ofFn,
    Slots.finished_ofFn] at hadds
  exact hadds

/-- Call after call the same is added. -/
theorem outcome_calls {plans : List (Schedule g.vertexCount)}
    (hplans : ∀ plan ∈ plans, plan.EachOnce)
    (hweights : weight.mapM (admitWeights g) = .ok weights) (y : g.EdgeId → ℚ)
    (x : g.Vertex → ℚ) :
    let total : Tally ℚ g.vertexCount g.edgeCount :=
      totalsFor Length ℚ g (.sequential _) weights .double
    (forM plans fun plan => addBetweenness g plan weight false).outcome
        (exactMaps edgeWidth vertexWidth y x) =
      (.ok (), exactMaps edgeWidth vertexWidth (fun e => y e + plans.length * total.edges[e])
        (fun v => x v + plans.length * total.vertices[v])) := by
  intro total
  induction plans generalizing y x with
  | nil => simp [total]
  | cons plan plans ih =>
      rw [List.forall_mem_cons] at hplans
      rw [List.forM_cons, Scoring.outcome_bind (outcome_exact _ _ hplans.1 hweights false y x),
        ih hplans.2]
      simp only [finishedScore, Bool.false_eq_true, if_false, List.length_cons, total]
      congr <;> funext <;> push_cast <;> ring

theorem betweenness_exact (hplan : plan.EachOnce)
    (hweights : weight.mapM (admitWeights g) = .ok weights) (normalize : Bool) :
    let total : Tally ℚ g.vertexCount g.edgeCount :=
      totalsFor Length ℚ g (.sequential _) weights .double
    let factors : Factors ℚ := normalizationFactors g.vertexCount g.directed
    (betweenness g plan weight normalize : Except (Fault Length) (Betweenness ℚ ℚ)) =
      .ok ⟨⟨.double (Array.ofFn fun v : g.Vertex =>
          finishedScore normalize factors.vertex total.vertices[v])⟩,
        ⟨.double (Array.ofFn fun e : g.EdgeId =>
          finishedScore normalize factors.edge total.edges[e])⟩⟩ := by
  have hentries := betweenness_eq_entries (R := ℚ) plan hweights normalize
  dsimp only at hentries
  rw [totals_eq_totalsFor, totalsFor_eq hplan] at hentries
  exact hentries

end Exact

/-- The values of maps are only added to, and then multiplied by the factor of their kind. What is
added does not depend on them, and without weights not on the type of the other map either. With
exact lengths and scores that is the fresh score, whatever the types of the maps are and however the
sources are dealt out: `k` calls add it `k` times, and a call that normalizes multiplies the sum, so
that over zeros it leaves the fresh normalized scores. -/
theorem addBetweenness_adds_then_scales (g : Graph) :
    (∀ (plan : Schedule g.vertexCount) (weight : Option (EdgeMap Float32 Float))
        (weights : Option (Table Float g.edgeCount)),
      weight.mapM (admitWeights g) = .ok weights →
      ∃ t : Width → Tally Float g.vertexCount g.edgeCount,
        (weight = none → t .single = t .double) ∧
        ∀ (normalize : Bool) (edge vertex : Slots Float32 Float), edge.size = g.edgeCount →
          vertex.size = g.vertexCount →
          let total := t edge.width
          let factors : Factors Float := normalizationFactors g.vertexCount g.directed
          (addBetweenness g plan weight normalize).outcome (.ofSlots edge vertex) =
            (.ok (), .ofSlots ((edge.add total.edges.toArray).finished normalize factors.edge)
              ((vertex.add total.vertices.toArray).finished normalize factors.vertex))) ∧
    ∀ (weight : Option (EdgeMap Length Length)) (lengths : Table Length g.edgeCount),
      HasLengths g weight lengths → (∀ e : g.EdgeId, 0 ≤ lengths[e]) →
      let factors : Factors ℚ := normalizationFactors g.vertexCount g.directed
      ∃ (x : g.Vertex → ℚ) (y : g.EdgeId → ℚ),
        (∀ plan : Schedule g.vertexCount, plan.EachOnce →
          (betweenness g plan weight false : Except (Fault Length) (Betweenness ℚ ℚ)) =
            .ok ⟨⟨.double (Array.ofFn x)⟩, ⟨.double (Array.ofFn y)⟩⟩ ∧
          (betweenness g plan weight true : Except (Fault Length) (Betweenness ℚ ℚ)) =
            .ok ⟨⟨.double (Array.ofFn fun v => x v * factors.vertex)⟩,
              ⟨.double (Array.ofFn fun e => y e * factors.edge)⟩⟩) ∧
        ∀ (edgeWidth vertexWidth : Width) (p : g.EdgeId → ℚ) (q : g.Vertex → ℚ),
          (∀ plans : List (Schedule g.vertexCount), (∀ plan ∈ plans, plan.EachOnce) →
            (forM plans fun plan => addBetweenness g plan weight false).outcome
                (exactMaps edgeWidth vertexWidth p q) =
              (.ok (), exactMaps edgeWidth vertexWidth (fun e => p e + plans.length * y e)
                fun v => q v + plans.length * x v)) ∧
          ∀ plan : Schedule g.vertexCount, plan.EachOnce →
            (addBetweenness g plan weight true).outcome (exactMaps edgeWidth vertexWidth p q) =
              (.ok (), exactMaps edgeWidth vertexWidth (fun e => (p e + y e) * factors.edge)
                fun v => (q v + x v) * factors.vertex) ∧
            (addBetweenness g plan weight true).outcome
                (exactMaps edgeWidth vertexWidth (fun _ : g.EdgeId => 0) fun _ : g.Vertex => 0) =
              (.ok (), exactMaps edgeWidth vertexWidth (fun e => y e * factors.edge)
                fun v => x v * factors.vertex) := by
  refine ⟨fun plan weight weights hweights => ?_, fun weight lengths hlengths hnonneg => ?_⟩
  · refine ⟨totalsFor Float32 Float32 g plan weights, ?_, fun normalize edge vertex hedge hvertex =>
      outcome_adds plan hedge hvertex hweights normalize⟩
    rintro rfl
    obtain rfl : none = weights := Except.ok.inj hweights
    exact totalsFor_none plan .single
  · have hweights := admitted_of_hasLengths hlengths hnonneg
    let total : Tally ℚ g.vertexCount g.edgeCount :=
      totalsFor Length ℚ g (.sequential _) (weight.map fun _ => lengths) .double
    refine ⟨fun v => total.vertices[v], fun e => total.edges[e], fun plan hplan =>
      ⟨betweenness_exact hplan hweights false, betweenness_exact hplan hweights true⟩,
      fun edgeWidth vertexWidth p q => ⟨fun plans hplans => outcome_calls hplans hweights p q,
        fun plan hplan => ⟨outcome_exact _ _ hplan hweights true p q, ?_⟩⟩⟩
    have hzeros := outcome_exact edgeWidth vertexWidth hplan hweights true (fun _ => 0) fun _ => 0
    simpa only [zero_add, finishedScore, if_true] using hzeros

/-- One call with machine weights, and two calls with exact ones on maps of ones. -/
theorem addBetweenness_looseTriangle_twice :
    let plan : Schedule looseTriangle.vertexCount := .sequential 4
    let machineWeight : Option (EdgeMap Float32 Float) := some ⟨.double mixedLengths.toArray⟩
    let weight : Option (EdgeMap Length Length) := some ⟨.double looseLengths.toArray⟩
    let edge : Slots Float32 Float := .single (Array.replicate 5 0)
    let vertex : Slots Float32 Float := .double (Array.replicate 4 0)
    (machineWeight.mapM (admitWeights looseTriangle) = .ok (some mixedLengths) ∧
      edge.size = 5 ∧ vertex.size = 4 ∧
      ∃ t : Tally Float 4 5,
        (addBetweenness looseTriangle plan machineWeight false).outcome (.ofSlots edge vertex) =
          (.ok (), .ofSlots (edge.add t.edges.toArray) (vertex.add t.vertices.toArray))) ∧
    HasLengths looseTriangle weight looseLengths ∧ (∀ e : Fin 5, 0 ≤ looseLengths[e]) ∧
    plan.EachOnce ∧
    ∃ (x : Fin 4 → ℚ) (y : Fin 5 → ℚ),
      (forM [plan, plan] fun plan => addBetweenness looseTriangle plan weight false).outcome
          (exactMaps .single .double (fun _ : Fin 5 => 1) fun _ : Fin 4 => 1) =
        (.ok (), exactMaps .single .double (fun e => 1 + 2 * y e) fun v => 1 + 2 * x v) := by
  intro plan machineWeight weight edge vertex
  have hweights : machineWeight.mapM (admitWeights looseTriangle) = .ok (some mixedLengths) := by
    decide +kernel
  have hlengths : HasLengths looseTriangle weight looseLengths := rfl
  have hnonneg : ∀ e : Fin 5, 0 ≤ looseLengths[e] := by decide +kernel
  have hplan : plan.EachOnce := List.Perm.refl _
  obtain ⟨hbits, hexact⟩ := addBetweenness_adds_then_scales looseTriangle
  obtain ⟨t, -, hcall⟩ := hbits plan _ _ hweights
  obtain ⟨x, y, -, hcalls⟩ := hexact weight looseLengths hlengths hnonneg
  have htwice := (hcalls .single .double (fun _ => 1) fun _ => 1).1 [plan, plan]
    (by simpa using hplan)
  exact ⟨⟨hweights, rfl, rfl, t .single, hcall false edge vertex rfl rfl⟩, hlengths, hnonneg, hplan,
    x, y, htwice⟩

end Geodesic
