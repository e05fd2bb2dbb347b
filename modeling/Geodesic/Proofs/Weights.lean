import Geodesic.Proofs.Adding
import Geodesic.Proofs.Machine.Conversion

/-!
# Weights keep their order

Weights are read as doubles, checked, and for narrow edge scores rounded once more. Whole numbers and
single-precision numbers of a map are rounded on the way; large ones may become equal or infinite and
small ones zero. What was admitted is admissible in either precision, and weights that were in order
stay so.
-/

namespace Geodesic

open Distance (Admissible)
open Machine (Reads ReadsSingle)
open Scoring (addBetweenness)

/-- The value at `i` is at most the one at `j`, as values of their own type. -/
inductive Values.InOrder : Values Float32 Float → Nat → Nat → Prop
  | bool {bs : Array Bool} {b b' : Bool} {i j : Nat} (hi : bs[i]? = some b) (hj : bs[j]? = some b')
      (h : b ≤ b') : InOrder (.bool bs) i j
  | int32 {zs : Array Int32} {z z' : Int32} {i j : Nat} (hi : zs[i]? = some z)
      (hj : zs[j]? = some z') (h : z ≤ z') : InOrder (.int32 zs) i j
  | int64 {zs : Array Int64} {z z' : Int64} {i j : Nat} (hi : zs[i]? = some z)
      (hj : zs[j]? = some z') (h : z ≤ z') : InOrder (.int64 zs) i j
  | single {us : Array Float32} {u v : Float32} {i j : Nat} (hi : us[i]? = some u)
      (hj : us[j]? = some v) (h : u ≤ v) : InOrder (.single us) i j
  | double {xs : Array Float} {x y : Float} {i j : Nat} (hi : xs[i]? = some x)
      (hj : xs[j]? = some y) (h : x ≤ y) : InOrder (.double xs) i j

/-- Lengths that a search may use for the values of a map. -/
structure Suits {T : Type} [Distance T] [LE T] {m : Nat} (values : Values Float32 Float)
    (lengths : Table T m) : Prop where
  nonneg : ∀ e : Fin m, Distance.zero ≤ lengths[e]
  keeps : ∀ e e' : Fin m, values.InOrder e e' → lengths[e] ≤ lengths[e']

/-! ## Doubles -/

theorem admissible_iff_reads {x : Float} : Admissible x ↔ ∃ a, Reads x a :=
  Machine.computed_double.admissible_iff (by decide)

theorem ofBool_le {b b' : Bool} (h : b ≤ b') : (Values.ofBool b : Float) ≤ Values.ofBool b' := by
  cases b <;> cases b' <;> revert h <;> decide +kernel

theorem eq_of_getElem?_map {α β : Type} {xs : Array α} {f : α → β} {i : Nat} {x : α} {y : β}
    (hx : xs[i]? = some x) (hy : (xs.map f)[i]? = some y) : f x = y := by
  rw [Array.getElem?_map, hx] at hy
  exact Option.some.inj hy

theorem Values.InOrder.le {v : Values Float32 Float} {i j : Nat} (h : v.InOrder i j)
    {xs : Array Float} (hxs : v.numbers? = some xs) {x y : Float} (hx : xs[i]? = some x)
    (hy : xs[j]? = some y) {a b : ℕ∞} (ha : Reads x a) (hb : Reads y b) : x ≤ y := by
  cases h with
  | bool hi hj h =>
      obtain rfl := Option.some.inj hxs
      obtain rfl := eq_of_getElem?_map hi hx
      obtain rfl := eq_of_getElem?_map hj hy
      exact ofBool_le h
  | int32 hi hj h =>
      obtain rfl := Option.some.inj hxs
      obtain rfl := eq_of_getElem?_map hi hx
      obtain rfl := eq_of_getElem?_map hj hy
      exact Machine.intCast_le ha hb (Int32.le_iff_toInt_le.mp h)
  | int64 hi hj h =>
      obtain rfl := Option.some.inj hxs
      obtain rfl := eq_of_getElem?_map hi hx
      obtain rfl := eq_of_getElem?_map hj hy
      exact Machine.intCast_le ha hb (Int64.le_iff_toInt_le.mp h)
  | single hi hj h =>
      obtain rfl := Option.some.inj hxs
      obtain rfl := eq_of_getElem?_map hi hx
      obtain rfl := eq_of_getElem?_map hj hy
      exact Machine.widen_le ha hb h
  | double hi hj h =>
      obtain rfl := Option.some.inj hxs
      obtain rfl := Option.some.inj (hi.symm.trans hx)
      obtain rfl := Option.some.inj (hj.symm.trans hy)
      exact h

section Admitted

variable {g : Graph} {map : EdgeMap Float32 Float} {weights : Table Float g.edgeCount}

theorem exists_reads (h : admitWeights g map = .ok weights) (e : g.EdgeId) :
    ∃ a, Reads weights[e] a :=
  admissible_iff_reads.mp ((admitWeights_eq_ok_iff.mp h).2 e)

theorem suits_admitted (h : admitWeights g map = .ok weights) : Suits map.values weights := by
  have hnumbers := (admitWeights_eq_ok_iff.mp h).1
  constructor
  · intro e
    obtain ⟨a, ha⟩ := exists_reads h e
    exact ha.nonneg
  · intro e e' horder
    obtain ⟨a, ha⟩ := exists_reads h e
    obtain ⟨b, hb⟩ := exists_reads h e'
    exact horder.le hnumbers (Table.getElem?_toArray weights e) (Table.getElem?_toArray weights e')
      ha hb

theorem suits_narrowed (h : admitWeights g map = .ok weights) :
    Suits map.values (weights.map (Precision.narrow : Float → Float32)) := by
  have hzero : ReadsSingle Distance.zero 0 := .zero .positive
  constructor
  · intro e
    obtain ⟨a, ha⟩ := exists_reads h e
    rw [Table.getElem_map]
    exact (hzero.le_iff ha.narrow).mpr zero_le
  · intro e e' horder
    obtain ⟨a, ha⟩ := exists_reads h e
    obtain ⟨b, hb⟩ := exists_reads h e'
    rw [Table.getElem_map, Table.getElem_map]
    exact Machine.narrow_le ha hb ((suits_admitted h).keeps e e' horder)

end Admitted

/-! ## Searches -/

/-- With weights the sums come from searches along them, rounded for narrow edge scores. -/
theorem totalsFor_some (g : Graph) (plan : Schedule g.vertexCount)
    (weights : Table Float g.edgeCount) (width : Width) :
    (totalsFor Float32 Float32 g plan (some weights) width : Tally Float _ _) =
      countedOnce g (match width with
        | .single => plan.tally fun s p =>
            p.weighted g.outEdges (weights.map (Precision.narrow : Float → Float32)) s
        | .double => plan.tally fun s p => p.weighted g.outEdges weights s) := by
  cases width with
  | single =>
      dsimp only
      rw [← Graph.weightTally_eq]
      rfl
  | double => exact totals_some ..

/-- The weights of a map are admitted as doubles. For edge scores in double precision searches use
them as they are, for those in single precision they use them rounded, and the vertex scores do not
matter. In either case no length is negative or undefined, and lengths are in order where the values
of the map are, whatever their type is. -/
theorem admitted_weights_in_order {g : Graph} {map : EdgeMap Float32 Float}
    {weights : Table Float g.edgeCount} (h : admitWeights g map = .ok weights) :
    let narrowed := weights.map (Precision.narrow : Float → Float32)
    map.values.numbers? = some weights.toArray ∧
      Suits map.values weights ∧ Suits map.values narrowed ∧
      ∀ (plan : Schedule g.vertexCount) (normalize : Bool) (edge vertex : Slots Float32 Float),
        edge.size = g.edgeCount → vertex.size = g.vertexCount →
        let total : Tally Float g.vertexCount g.edgeCount := countedOnce g (match edge.width with
          | .single => plan.tally fun s p => p.weighted g.outEdges narrowed s
          | .double => plan.tally fun s p => p.weighted g.outEdges weights s)
        let factors : Factors Float := normalizationFactors g.vertexCount g.directed
        (addBetweenness g plan (some map) normalize).outcome (.ofSlots edge vertex) =
          (.ok (), .ofSlots ((edge.add total.edges.toArray).finished normalize factors.edge)
            ((vertex.add total.vertices.toArray).finished normalize factors.vertex)) := by
  intro narrowed
  refine ⟨(admitWeights_eq_ok_iff.mp h).1, suits_admitted h, suits_narrowed h, ?_⟩
  intro plan normalize edge vertex hedge hvertex
  have hweights : (some map).mapM (admitWeights g) = .ok (some weights) :=
    mapM_admitWeights_iff.mpr ⟨weights, rfl, h⟩
  have hadds := outcome_adds plan hedge hvertex hweights normalize
  rw [totalsFor_some] at hadds
  exact hadds

/-- Whole numbers that only differ in the digit that doubles lose. -/
theorem admitted_weights_in_order_beyondDigits :
    let g : Graph := ⟨true, 2, #[⟨0, 1⟩, ⟨0, 1⟩]⟩
    let map : EdgeMap Float32 Float := ⟨.int64 #[9007199254740992, 9007199254740993]⟩
    let weights : Table Float g.edgeCount := Table.replicate 2 9007199254740992.0
    admitWeights g map = .ok weights ∧ map.values.InOrder 0 1 ∧
      Suits map.values (weights.map (Precision.narrow : Float → Float32)) := by
  intro g map weights
  have h : admitWeights g map = .ok weights := by decide +kernel
  obtain ⟨-, -, hnarrowed, -⟩ := admitted_weights_in_order h
  exact ⟨h, .int64 rfl rfl (by decide), hnarrowed⟩

/-- Doubles outside the range of single precision become zero or infinite. -/
example : (#[1e-300, 1e300].map Precision.narrow : Array Float32) = #[0.0, 1.0 / 0.0] := by
  decide +kernel

end Geodesic
