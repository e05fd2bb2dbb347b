import Geodesic.Proofs.Bare.BreadthFirst
import Geodesic.Proofs.Bare.Dependency
import Geodesic.Proofs.Bare.Weighted
import Geodesic.Proofs.Normalization
import Geodesic.Proofs.Schedule
import Geodesic.Proofs.Scoring

/-!
# Betweenness in bare arrays

The whole computation, from the checks of the maps to the scaled scores, in arrays that any number
may index. It is what the typed computation is, for all maps and weights: once the checks have
passed, no access is out of range, no count of hops overflows, and no entry of a sum is left out.
-/

namespace Geodesic.Bare

/-! ## Sums over all sources -/

section Tally

variable {L S : Type} [Zero S] [One S] [Add S] [Mul S] [Div S] [LE S] [DecidableLE S]

/-- What one worker keeps from source to source, in bare arrays. -/
structure Desk (L S : Type) where
  cells : Cells L S
  debts : Debts S

def Desk.fresh (mark : L) (n m : Nat) : Desk L S :=
  ⟨Cells.fresh mark n, ⟨Array.replicate n 0, Sums.zero n m⟩⟩

def Desk.take (search : Nat → Cells L S → Option (Cells L S)) (w : Desk L S) (s : Nat) :
    Option (Desk L S) := do
  let cells ← search s w.cells
  let debts ← w.debts.accumulate cells
  some ⟨cells, debts⟩

def tally (mark : L) (m : Nat) (search : Nat → Cells L S → Option (Cells L S)) {n : Nat} :
    Schedule n → Option (Sums S)
  | .idle => some (Sums.zero n m)
  | .batch ss => do
      let w ← (ss.map Fin.val).foldlM (Desk.take search) (Desk.fresh mark n m)
      some w.debts.sums
  | .join l r => do
      let a ← tally mark m search l
      let b ← tally mark m search r
      a.merge b

/-- A search in bare arrays leaves what the typed one leaves, on all tables that searches leave. -/
structure Follows {D : Type} {n m : Nat} [Distance D] (code : D → L)
    (search : Fin n → Paths D S n m → Paths D S n m)
    (bare : Nat → Cells L S → Option (Cells L S)) : Prop where
  tidy : ∀ (s : Fin n) (p : Paths D S n m), p.Tidy → (search s p).Tidy
  cells : ∀ (s : Fin n) (p : Paths D S n m), p.Tidy →
    bare s.val (cells code p) = some (Bare.cells code (search s p))

variable {D : Type} {n m : Nat} [Distance D] {code : D → L}
  {search : Fin n → Paths D S n m → Paths D S n m} {bare : Nat → Cells L S → Option (Cells L S)}

def desk (code : D → L) (w : Worker D S n m) : Desk L S :=
  ⟨cells code w.paths, debts w.dependency⟩

theorem Follows.take (h : Follows code search bare) (w : Worker D S n m) (hw : w.paths.Tidy)
    (s : Fin n) : (desk code w).take bare s.val = some (desk code (w.take search s)) ∧
      (w.take search s).paths.Tidy := by
  refine ⟨?_, h.tidy s w.paths hw⟩
  simp only [Desk.take, desk, h.cells s w.paths hw, accumulate_debts, Option.bind_eq_bind,
    Option.bind_some]
  rfl

theorem Follows.tally (h : Follows code search bare) (plan : Schedule n) :
    tally (code Distance.unreached) m bare plan = some (sums (plan.tally search)) := by
  induction plan with
  | idle => rfl
  | batch ss =>
      have hfresh : desk code (Worker.fresh D S n m) =
          Desk.fresh (code Distance.unreached) n m := by
        unfold desk Worker.fresh
        rw [cells_fresh]
        rfl
      have htidy : (Worker.fresh D S n m).paths.Tidy := Paths.tidy_fresh
      have hloop := foldlM_observe (P := fun w : Worker D S n m => w.paths.Tidy)
        (fun w hw s (_ : s ∈ ss) => h.take w hw s) htidy
      rw [hfresh] at hloop
      unfold Bare.tally
      rw [hloop.1]
      rfl
  | join l r ihl ihr =>
      unfold Bare.tally
      rw [ihl, ihr]
      exact merge_sums _ _

end Tally

/-! ## Both kinds of search -/

section Totals

variable {S : Type} [Zero S] [One S] [Add S] [Mul S] [Div S] [LE S] [DecidableLE S]

def hopTally (limit : Nat) (g : Graph) (plan : Schedule g.vertexCount) : Option (Sums S) :=
  tally limit g.edgeCount
    (fun s c => c.breadthFirst limit g.vertexCount (steps g.outEdges) s) plan

def weightTally {D : Type} [Distance D] (g : Graph) (weights : Array D)
    (plan : Schedule g.vertexCount) : Option (Sums S) :=
  tally (Distance.unreached : D) g.edgeCount
    (fun s c => c.weighted g.vertexCount (steps g.outEdges) weights s) plan

theorem hopTally_sums {limit : Nat} {g : Graph} (hlimit : g.vertexCount < limit)
    (plan : Schedule g.vertexCount) :
    (hopTally limit g plan : Option (Sums S)) = some (sums (g.hopTally plan)) := by
  have hfollows : Follows (word limit)
      (fun s (p : Paths Hops S g.vertexCount g.edgeCount) => p.breadthFirst g.outEdges s)
      (fun s c => c.breadthFirst limit g.vertexCount (steps g.outEdges) s) :=
    ⟨fun s _ hp => Paths.tidy_breadthFirst hp g.nodup_outEdges s,
      fun s _ hp => breadthFirst_cells hlimit g.nodup_outEdges hp s⟩
  rw [Graph.hopTally_eq]
  exact hfollows.tally plan

theorem weightTally_sums {D : Type} [Distance D] (g : Graph) (weights : Table D g.edgeCount)
    (plan : Schedule g.vertexCount) :
    (weightTally g weights.toArray plan : Option (Sums S)) =
      some (sums (g.weightTally weights plan)) := by
  have hfollows : Follows id
      (fun s (p : Paths D S g.vertexCount g.edgeCount) => p.weighted g.outEdges weights s)
      (fun s c => c.weighted g.vertexCount (steps g.outEdges) weights.toArray s) :=
    ⟨fun s _ hp => Paths.tidy_weighted hp g.nodup_outEdges s,
      fun s p _ => weighted_cells weights g.outEdges p s⟩
  rw [Graph.weightTally_eq]
  exact hfollows.tally plan

end Totals

/-! ## The computation -/

section Computation

variable {F D R S : Type}

def addSlots [Add R] [Add S] [Precision R S] (totals : Array S) : Slots R S → Option (Slots R S)
  | .single xs => do
      let xs ← zip (fun x s => x + Precision.narrow s) xs totals
      some (.single xs)
  | .double xs => do
      let xs ← zip (· + ·) xs totals
      some (.double xs)

theorem addInto_eq_zipWith {T : Type} [Add T] (convert : S → T) {totals : Array S}
    {into : Array T} (hsize : into.size = totals.size) :
    addInto convert totals into = Array.zipWith (fun x s => x + convert s) into totals := by
  refine Array.ext (by simp [hsize]) fun i hi _ => ?_
  have htotals : i < totals.size := by
    rw [size_addInto, hsize] at hi
    exact hi
  simp [addInto, htotals]

theorem addSlots_eq [Add R] [Add S] [Precision R S] {totals : Array S} {slots : Slots R S}
    (hsize : slots.toValues.size = totals.size) :
    addSlots totals slots = some (slots.add totals) := by
  cases slots with
  | single xs =>
      have hxs : xs.size = totals.size := hsize
      simp [addSlots, zip, hxs, Slots.add, addInto_eq_zipWith _ hxs]
  | double xs =>
      have hxs : xs.size = totals.size := hsize
      simp [addSlots, zip, hxs, Slots.add, addInto_eq_zipWith _ hxs]

theorem size_of_checks {k : Key} {role : MapRole} {p : PropertyMap k R S} {g : Graph}
    {slots : Slots R S} (hslots : (p.slots role : Except (Fault D) (Slots R S)) = .ok slots)
    (hsize : (p.checkSize role g : Except (Fault D) Unit) = .ok ()) :
    slots.toValues.size = k.slots g := by
  rw [← slots_eq_ok_iff.mp hslots]
  unfold PropertyMap.checkSize at hsize
  split at hsize
  · rename_i hfits
    exact hfits
  · cases hsize

variable [Distance F] [Distance D] [Precision F D] [Zero S] [One S] [Add S] [Mul S] [Div S] [LE S]
  [DecidableLE S] [OfNat S 2]

def totals (limit : Nat) (g : Graph) (plan : Schedule g.vertexCount) (weights : Option (Array D))
    (edgeSlots : Slots R S) : Option (Sums S) := do
  let t ← match weights, edgeSlots with
    | none, _ => hopTally limit g plan
    | some ws, .single _ => weightTally g (ws.map (Precision.narrow : D → F)) plan
    | some ws, .double _ => weightTally g ws plan
  some (if g.directed then t else t.halve)

theorem totals_sums {limit : Nat} {g : Graph} (hlimit : g.vertexCount < limit)
    (plan : Schedule g.vertexCount) (weights : Option (Table D g.edgeCount))
    (edgeSlots : Slots R S) :
    totals (F := F) limit g plan (weights.map Table.toArray) edgeSlots =
      some (sums (Geodesic.totals (F := F) g plan weights edgeSlots)) := by
  have hhalve : ∀ t : Tally S g.vertexCount g.edgeCount,
      (if g.directed then sums t else (sums t).halve) =
        sums (if g.directed then t else t.halve) := by
    intro t
    split
    · rfl
    · exact halve_sums t
  unfold totals Geodesic.totals
  cases weights with
  | none =>
      simp only [Option.map_none, hopTally_sums hlimit plan, Option.bind_eq_bind, Option.bind_some,
        hhalve]
  | some ws =>
      cases edgeSlots with
      | single xs =>
          have hnarrow : ws.toArray.map (Precision.narrow : D → F) =
              (ws.map Precision.narrow).toArray := rfl
          simp only [Option.map_some, hnarrow, weightTally_sums, Option.bind_eq_bind,
            Option.bind_some, hhalve]
      | double xs =>
          simp only [Option.map_some, weightTally_sums, Option.bind_eq_bind, Option.bind_some,
            hhalve]

variable [Zero D] [One D] [IntCast D] [Add R] [Mul R] [Precision R S] [Sub S] [NatCast S]

/-- The computation; a failed access is `none`, a fault of the maps an error. -/
def computeBetweenness (limit : Nat) (g : Graph) (plan : Schedule g.vertexCount)
    (weight : Option (EdgeMap F D)) (edgeOut : EdgeMap R S) (vertexOut : VertexMap R S)
    (normalize : Bool) : ExceptT (Fault D) Option (EdgeMap R S × VertexMap R S) := do
  let edgeSlots ← MonadExcept.ofExcept (edgeOut.slots .edgeScores)
  let vertexSlots ← MonadExcept.ofExcept (vertexOut.slots .vertexScores)
  MonadExcept.ofExcept (edgeOut.checkSize .edgeScores g)
  MonadExcept.ofExcept (vertexOut.checkSize .vertexScores g)
  let weights ← MonadExcept.ofExcept (weight.mapM (admitWeights g))
  let total ← ExceptT.lift
    (totals (F := F) limit g plan (weights.map Table.toArray) edgeSlots)
  let vertexSlots ← ExceptT.lift (addSlots total.vertices vertexSlots)
  let edgeSlots ← ExceptT.lift (addSlots total.edges edgeSlots)
  if normalize then
    let factors : Factors S := normalizationFactors g.vertexCount g.directed
    return (⟨(edgeSlots.scale factors.edge).toValues⟩, ⟨(vertexSlots.scale factors.vertex).toValues⟩)
  else return (⟨edgeSlots.toValues⟩, ⟨vertexSlots.toValues⟩)

theorem run_ofExcept_bind {ε α β : Type} {x : Except ε α} {f : α → ExceptT ε Option β}
    {g : α → Except ε β} (h : ∀ a, x = .ok a → (f a).run = some (g a)) :
    (MonadExcept.ofExcept x >>= f).run = some (x >>= g) := by
  cases x with
  | error e => rfl
  | ok a => exact h a rfl

theorem run_lift_bind {ε α β : Type} {x : Option α} {a : α} (hx : x = some a)
    (f : α → ExceptT ε Option β) : (ExceptT.lift x >>= f).run = (f a).run := by
  subst hx
  rfl

/-- For all graphs, maps and weights the computation in bare arrays ends, and as the typed one does:
no access is out of range and no sum leaves an entry out. Hop counts are below the number of
vertices, so none overflows or is taken for the mark. There are fewer vertices than words, since
a table with a word for each of them has addresses. -/
theorem computeBetweenness_in_bounds (limit : Nat) (g : Graph) (hlimit : g.vertexCount < limit)
    (plan : Schedule g.vertexCount) (weight : Option (EdgeMap F D)) (edgeOut : EdgeMap R S)
    (vertexOut : VertexMap R S) (normalize : Bool) :
    (computeBetweenness limit g plan weight edgeOut vertexOut normalize).run =
        some (Geodesic.computeBetweenness g plan weight edgeOut vertexOut normalize) ∧
      ∀ (s v : g.Vertex) (p : Paths Hops S g.vertexCount g.edgeCount) (k : Nat), p.Tidy →
        (p.breadthFirst g.outEdges s).dist[v] = some k → k ≤ g.vertexCount - 1 := by
  constructor
  · unfold computeBetweenness Geodesic.computeBetweenness
    refine run_ofExcept_bind fun edgeSlots hedge => ?_
    refine run_ofExcept_bind fun vertexSlots hvertex => ?_
    refine run_ofExcept_bind fun _ hedgeSize => ?_
    refine run_ofExcept_bind fun _ hvertexSize => ?_
    refine run_ofExcept_bind fun weights _ => ?_
    rw [run_lift_bind (totals_sums hlimit plan weights edgeSlots)]
    generalize Geodesic.totals (F := F) g plan weights edgeSlots = total
    have hvertices : addSlots (sums total).vertices vertexSlots =
        some (vertexSlots.add total.vertices.toArray) :=
      addSlots_eq ((size_of_checks hvertex hvertexSize).trans (Table.size_toArray _).symm)
    have hedges : addSlots (sums total).edges edgeSlots =
        some (edgeSlots.add total.edges.toArray) :=
      addSlots_eq ((size_of_checks hedge hedgeSize).trans (Table.size_toArray _).symm)
    rw [run_lift_bind hvertices, run_lift_bind hedges]
    cases normalize with
    | false => rfl
    | true => rfl
  · intro s v p k hp hk
    exact Nat.le_sub_one_of_lt (hp.hops_lt g.nodup_outEdges s v hk)

/-- A weighted computation that passes all checks, with counts in words of 64 bits. -/
theorem computeBetweenness_in_bounds_looseTriangle :
    let limit := 2 ^ 64 - 1
    let plan : Schedule looseTriangle.vertexCount := .sequential 4
    let weight : Option (EdgeMap Float32 Float) := some ⟨.double mixedLengths.toArray⟩
    let edgeOut : EdgeMap Float32 Float := .forGraph looseTriangle .single
    let vertexOut : VertexMap Float32 Float := .forGraph looseTriangle .double
    looseTriangle.vertexCount < limit ∧
      (Geodesic.computeBetweenness looseTriangle plan weight edgeOut vertexOut true).toBool = true ∧
      (computeBetweenness limit looseTriangle plan weight edgeOut vertexOut true).run =
        some (Geodesic.computeBetweenness looseTriangle plan weight edgeOut vertexOut true) ∧
      ∀ (s v : Fin 4) (p : Paths Hops Float 4 5) (k : Nat), p.Tidy →
        (p.breadthFirst looseTriangle.outEdges s).dist[v] = some k → k ≤ 3 := by
  intro limit plan weight edgeOut vertexOut
  have hlimit : looseTriangle.vertexCount < limit := by decide
  obtain ⟨hrun, hhops⟩ := computeBetweenness_in_bounds limit looseTriangle hlimit plan weight
    edgeOut vertexOut true
  refine ⟨hlimit, ?_, hrun, hhops⟩
  decide +kernel

end Computation

end Geodesic.Bare
