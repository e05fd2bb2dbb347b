import Geodesic.Proofs.Bare.Tables
import Geodesic.Proofs.Paths.Weighted.Drain

/-!
# Search by total weight in bare arrays

Besides the tables of the search there are the weights, the marks of settled vertices and the heap,
whose entries carry vertex numbers that nothing bounds. They are the numbers of vertices all the
same: an entry is made for the source or for the end of a step, and leaves the heap as it was put in.
-/

namespace Geodesic.Bare

open Distance (same shorter)

variable {D S : Type} [Distance D]

/-! ## The search -/

def before (a b : D × Nat) : Bool :=
  shorter a.1 b.1 || (!shorter b.1 a.1 && decide (a.2 ≤ b.2))

/-- A search by total weight in bare arrays. -/
structure Fringe (D S : Type) where
  cells : Cells D S
  settled : Array Bool
  pending : Heap (D × Nat)

namespace Fringe

def improve (u : Nat) (d : D) (f : Fringe D S) (a : Nat × Nat) : Option (Fringe D S) := do
  let paths ← f.cells.sigma[u]?
  let dist ← write f.cells.dist a.2 d
  let sigma ← write f.cells.sigma a.2 paths
  let preds ← write f.cells.preds a.2 #[(a.1, u)]
  some { f with
    cells := { f.cells with dist, sigma, preds }
    pending := f.pending.insert before (d, a.2) }

def relax [Add S] (weights : Array D) (u : Nat) (reach : D) (f : Fringe D S) (a : Nat × Nat) :
    Option (Fringe D S) := do
  let settled ← f.settled[a.2]?
  if settled then some f
  else do
    let weight ← weights[a.1]?
    let sum := Distance.add reach weight
    if same sum Distance.unreached then some f
    else do
      let known ← f.cells.dist[a.2]?
      if shorter sum known then f.improve u sum a
      else if same sum known then do
        let cells ← f.cells.count u a
        some { f with cells }
      else some f

def settle [Add S] (out : Array (List (Nat × Nat))) (weights : Array D) (f : Fringe D S) (u : Nat) :
    Option (Fringe D S) := do
  let settled ← write f.settled u true
  let reach ← f.cells.dist[u]?
  let leaving ← out[u]?
  leaving.foldlM (relax weights u reach) { f with cells := f.cells.visit u, settled }

def look [Add S] (out : Array (List (Nat × Nat))) (weights : Array D) (f : Fringe D S)
    (entry : D × Nat) (rest : Heap (D × Nat)) : Option (Fringe D S) := do
  let settled ← f.settled[entry.2]?
  if settled then some { f with pending := rest }
  else settle out weights { f with pending := rest } entry.2

/-- Fuel that runs out while an entry waits is a failure as well. -/
def run [Add S] (out : Array (List (Nat × Nat))) (weights : Array D) :
    Nat → Fringe D S → Option (Fringe D S)
  | 0, f => if f.pending.toList.isEmpty then some f else none
  | fuel + 1, f =>
      match f.pending.pop? before with
      | none => some f
      | some (entry, rest) => do
          let f ← f.look out weights entry rest
          run out weights fuel f

end Fringe

def Cells.weighted [Zero S] [One S] [Add S] (n : Nat) (out : Array (List (Nat × Nat)))
    (weights : Array D) (s : Nat) (c : Cells D S) : Option (Cells D S) := do
  let c ← c.restart Distance.unreached Distance.zero s
  let start : Fringe D S :=
    ⟨c, Array.replicate n false, Heap.empty.insert before (Distance.zero, s)⟩
  let f ← start.run out weights (out.toList.flatten.length + 1)
  some f.cells

/-! ## It follows the typed search -/

section Follow

variable {n m : Nat}

def entry (c : Candidate D n) : D × Nat :=
  (c.distance, c.vertex.val)

theorem before_entry (a b : Candidate D n) : before (entry a) (entry b) = a.before b := rfl

def fringe (f : Frontier D S n m) : Fringe D S where
  cells := cells id f.paths
  settled := f.settled.toArray
  pending := f.pending.map entry

theorem improve_fringe (f : Frontier D S n m) (u : Fin n) (d : D) (a : Fin m × Fin n) :
    (fringe f).improve u.val d (step a) = some (fringe (f.improve u d a)) := by
  have hpending : (f.pending.insert Candidate.before ⟨d, a.2⟩).map entry =
      (f.pending.map entry).insert before (d, a.2.val) :=
    Heap.map_insert before_entry ⟨d, a.2⟩ f.pending
  simp [Fringe.improve, Frontier.improve, Frontier.enter, fringe, cells, step, Table.map_set,
    hpending]

variable [Add S] (weights : Table D m)

theorem relax_fringe (f : Frontier D S n m) (u : Fin n) (reach : D) (a : Fin m × Fin n) :
    (fringe f).relax weights.toArray u.val reach (step a) =
      some (fringe (f.relax weights u reach a)) := by
  have hsettled : (fringe f).settled[(step a).2]? = some f.settled[a.2] :=
    Table.getElem?_toArray f.settled a.2
  have hweight : weights.toArray[(step a).1]? = some weights[a.1] :=
    Table.getElem?_toArray weights a.1
  have hdist : (fringe f).cells.dist[(step a).2]? = some f.paths.dist[a.2] := by
    simp [fringe, cells, step]
  have htie : (fringe f).cells.count u.val (step a) = some (fringe (f.tie u a)).cells :=
    count_cells id f.paths u a
  unfold Fringe.relax Frontier.relax
  simp only [hsettled, hweight, hdist, htie, Option.bind_eq_bind, Option.bind_some]
  repeat' split
  · rfl
  · rfl
  · exact improve_fringe f u _ a
  · rfl
  · rfl

variable (out : Fin n → List (Fin m × Fin n))

theorem settle_fringe (f : Frontier D S n m) (u : Fin n) :
    (fringe f).settle (steps out) weights.toArray u.val =
      some (fringe (f.settle out weights u)) := by
  have hsettled : write (fringe f).settled u.val true = some (f.settled.set u true).toArray :=
    write_toArray f.settled u true
  have hdist : (fringe f).cells.dist[u.val]? = some f.paths.dist[u] := by
    simp [fringe, cells]
  have hvisit : (fringe f).cells.visit u.val = cells id (f.paths.visit u) :=
    visit_cells id f.paths u
  unfold Fringe.settle Frontier.settle
  simp only [hsettled, hdist, hvisit, getElem?_steps, Option.bind_eq_bind, Option.bind_some]
  exact foldlM_observe_of_forall (fun f a => relax_fringe weights f u _ a) (out u)
    { f with settled := f.settled.set u true, paths := f.paths.visit u }

theorem look_fringe (f : Frontier D S n m) (c : Candidate D n) (rest : Heap (Candidate D n)) :
    (fringe f).look (steps out) weights.toArray (entry c) (rest.map entry) =
      some (fringe (if f.settled[c.vertex] then { f with pending := rest }
        else Frontier.settle out weights { f with pending := rest } c.vertex)) := by
  have hsettled : (fringe f).settled[(entry c).2]? = some f.settled[c.vertex] :=
    Table.getElem?_toArray f.settled c.vertex
  unfold Fringe.look
  rw [hsettled, Option.bind_eq_bind, Option.bind_some]
  split
  · rfl
  · exact settle_fringe weights out { f with pending := rest } c.vertex

theorem run_fringe (fuel : Nat) (f : Frontier D S n m)
    (hdrained : (f.run out weights fuel).pending.toList = []) :
    (fringe f).run (steps out) weights.toArray fuel = some (fringe (f.run out weights fuel)) := by
  induction fuel generalizing f with
  | zero =>
      have hempty : (fringe f).pending.toList = [] := by
        rw [fringe, Heap.toList_map, show f.pending.toList = [] from hdrained]
        rfl
      unfold Fringe.run Frontier.run
      rw [hempty]
      rfl
  | succ fuel ih =>
      have hpop : (fringe f).pending.pop? before =
          (f.pending.pop? Candidate.before).map fun c => (entry c.1, c.2.map entry) :=
        Heap.pop?_map before_entry f.pending
      unfold Frontier.run Frontier.advance? at hdrained ⊢
      unfold Fringe.run
      rw [hpop]
      cases hfirst : f.pending.pop? Candidate.before with
      | none => rfl
      | some taken =>
          obtain ⟨c, rest⟩ := taken
          rw [hfirst] at hdrained
          simp only [Option.map_some, look_fringe, Option.bind_eq_bind, Option.bind_some]
          exact ih _ hdrained

omit [Distance D] [Add S] in
theorem length_flatten_steps :
    (steps out).toList.flatten.length = Paths.stepCount out := by
  have hlist : (steps out).toList = (List.finRange n).map fun v => (out v).map step := by
    simp [steps, Table.ofFn, Table.toArray, List.ofFn_eq_map]
  rw [hlist, Paths.stepCount, List.length_flatten, List.length_flatMap, List.map_map]
  exact congrArg List.sum (List.map_congr_left fun v _ => List.length_map step)

/-- No access of a search by total weight is out of range, whatever the weights. -/
theorem weighted_cells [Zero S] [One S] (p : Paths D S n m) (s : Fin n) :
    (cells id p).weighted n (steps out) weights.toArray s.val =
      some (cells id (p.weighted out weights s)) := by
  have hstart : fringe (Frontier.start s p) = ⟨cells id (p.restart s), Array.replicate n false,
      Heap.empty.insert before (Distance.zero, s.val)⟩ := rfl
  have hrun := run_fringe weights out (Paths.stepCount out + 1) (Frontier.start s p)
    (Frontier.drained_start s p)
  have hrestart : (cells id p).restart Distance.unreached Distance.zero s.val =
      some (cells id (p.restart s)) := restart_cells id p s
  unfold Cells.weighted
  simp only [hrestart, Option.bind_eq_bind, Option.bind_some, length_flatten_steps, ← hstart, hrun]
  rfl

end Follow

end Geodesic.Bare
