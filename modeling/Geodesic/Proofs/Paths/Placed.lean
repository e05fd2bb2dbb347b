import Geodesic.Paths.BreadthFirst
import Geodesic.Proofs.Heap
import Geodesic.Proofs.Paths.Weighted.Drain

/-!
# Searches under other numbers

A placement gives vertices and edges other numbers, out of more of them, and keeps the order of the
vertices. A search that meets placed vertices only does under the new numbers what it does under the
old ones: queues, ties and sums come in the same order. Nothing is asked of lengths and counts, and
what the tables hold at other numbers does not matter.
-/

namespace Geodesic

/-- Other numbers for `n` vertices and `m` edges. -/
structure Placement (n m n' m' : Nat) where
  vertex : Fin n → Fin n'
  edge : Fin m → Fin m'
  vertex_le_iff : ∀ u v : Fin n, vertex u ≤ vertex v ↔ u ≤ v

namespace Placement

variable {n m n' m' : Nat} (i : Placement n m n' m')

theorem injective_vertex : Function.Injective i.vertex := by
  intro u v heq
  have hle : u ≤ v := (i.vertex_le_iff u v).mp heq.le
  have hge : v ≤ u := (i.vertex_le_iff v u).mp heq.ge
  exact Fin.le_antisymm hle hge

def step (a : Fin m × Fin n) : Fin m' × Fin n' :=
  (i.edge a.1, i.vertex a.2)

def candidate {D : Type} (c : Candidate D n) : Candidate D n' :=
  ⟨c.distance, i.vertex c.vertex⟩

theorem before_candidate {D : Type} [Distance D] (a b : Candidate D n) :
    (i.candidate a).before (i.candidate b) = a.before b := by
  unfold Candidate.before candidate
  rw [decide_eq_decide.mpr (i.vertex_le_iff a.vertex b.vertex)]

end Placement

/-! ## Tables -/

namespace Table

variable {α β : Type} {n n' : Nat} {place : Fin n → Fin n'} {t : Table α n} {t' : Table α n'}

theorem map_set (f : α → β) (t : Table α n) (j : Fin n) (x : α) :
    (t.set j x).map f = (t.map f).set j (f x) := by
  ext v
  rw [Table.getElem_map, Table.getElem_set, Table.getElem_set, Table.getElem_map]
  split
  · rfl
  · rfl

def Placed (place : Fin n → Fin n') (t : Table α n) (t' : Table α n') : Prop :=
  ∀ j : Fin n, t'[place j] = t[j]

theorem placed_replicate (place : Fin n → Fin n') (x : α) :
    Placed place (replicate n x) (replicate n' x) := by
  intro j
  rw [getElem_replicate, getElem_replicate]

theorem Placed.map (h : Placed place t t') (f : α → β) :
    Placed place (t.map f) (t'.map f) := by
  intro j
  rw [getElem_map, getElem_map, h j]

theorem Placed.set (h : Placed place t t') (hplace : Function.Injective place) (j : Fin n) (x : α) :
    Placed place (t.set j x) (t'.set (place j) x) := by
  intro v
  rw [getElem_set, getElem_set, h v]
  exact if_congr hplace.eq_iff rfl rfl

end Table

/-! ## What a search leaves -/

variable {D S : Type} {n m n' m' : Nat} {i : Placement n m n' m'}

namespace Paths

variable {p : Paths D S n m} {p' : Paths D S n' m'}

structure Placed (i : Placement n m n' m') (p : Paths D S n m) (p' : Paths D S n' m') : Prop where
  source : p'.source = p.source.map i.vertex
  dist : Table.Placed i.vertex p.dist p'.dist
  sigma : Table.Placed i.vertex p.sigma p'.sigma
  preds : Table.Placed i.vertex (p.preds.map fun steps => steps.map i.step) p'.preds
  order : p'.order = p.order.map i.vertex

namespace Placed

theorem preds_eq (h : Placed i p p') (v : Fin n) :
    p'.preds[i.vertex v] = p.preds[v].map i.step := by
  rw [h.preds v, Table.getElem_map]

theorem visit (h : Placed i p p') (v : Fin n) : Placed i (p.visit v) (p'.visit (i.vertex v)) where
  source := h.source
  dist := h.dist
  sigma := h.sigma
  preds := h.preds
  order := by
    unfold Paths.visit
    rw [h.order, Array.map_push]

theorem setDist (h : Placed i p p') (v : Fin n) (d : D) :
    Placed i { p with dist := p.dist.set v d } { p' with dist := p'.dist.set (i.vertex v) d } where
  source := h.source
  dist := h.dist.set i.injective_vertex v d
  sigma := h.sigma
  preds := h.preds
  order := h.order

theorem setSteps (h : Placed i p p') (v : Fin n) {c c' : S} (hcount : c' = c)
    {steps : Array (Fin m × Fin n)} {steps' : Array (Fin m' × Fin n')}
    (hsteps : steps' = steps.map i.step) :
    Placed i { p with sigma := p.sigma.set v c, preds := p.preds.set v steps }
      { p' with
        sigma := p'.sigma.set (i.vertex v) c'
        preds := p'.preds.set (i.vertex v) steps' } where
  source := h.source
  dist := h.dist
  sigma := by
    rw [hcount]
    exact h.sigma.set i.injective_vertex v c
  preds := by
    rw [hsteps, Table.map_set]
    exact h.preds.set i.injective_vertex v _
  order := h.order

theorem addSteps [Add S] (h : Placed i p p') (u : Fin n) (a : Fin m × Fin n) :
    Placed i
      { p with
        sigma := p.sigma.set a.2 (p.sigma[a.2] + p.sigma[u])
        preds := p.preds.set a.2 (p.preds[a.2].push (a.1, u)) }
      { p' with
        sigma := p'.sigma.set (i.vertex a.2) (p'.sigma[i.vertex a.2] + p'.sigma[i.vertex u])
        preds := p'.preds.set (i.vertex a.2)
          (p'.preds[i.vertex a.2].push (i.edge a.1, i.vertex u)) } := by
  apply h.setSteps
  · rw [h.sigma, h.sigma]
  · rw [h.preds_eq, Array.map_push]
    rfl

end Placed

section Restart

variable [Distance D] [Zero S]

theorem placed_fresh (i : Placement n m n' m') : Placed i (fresh D S n m) (fresh D S n' m') where
  source := rfl
  dist := Table.placed_replicate _ _
  sigma := Table.placed_replicate _ _
  preds := by
    intro v
    unfold fresh
    rw [Table.getElem_map, Table.getElem_replicate, Table.getElem_replicate, Array.map_empty]
  order := Array.map_empty.symm

theorem Placed.forget (h : Placed i p p') (v : Fin n) :
    Placed i (p.forget v) (p'.forget (i.vertex v)) :=
  (h.setDist v Distance.unreached).setSteps v rfl Array.map_empty.symm

theorem Placed.restart [One S] (h : Placed i p p') (s : Fin n) :
    Placed i (p.restart s) (p'.restart (i.vertex s)) := by
  have hcleared : Placed i (p.order.foldl Paths.forget p) (p'.order.foldl Paths.forget p') := by
    rw [h.order, Array.foldl_map]
    exact Array.foldl_rel h fun v _ _ _ hq => hq.forget v
  constructor
  · rfl
  · exact hcleared.dist.set i.injective_vertex s Distance.zero
  · exact hcleared.sigma.set i.injective_vertex s 1
  · exact hcleared.preds
  · exact Array.map_empty.symm

end Restart

/-! ## Breadth-first search -/

section BreadthFirst

variable [Add S] {p : Paths Hops S n m} {p' : Paths Hops S n' m'}
  {out : Fin n → List (Fin m × Fin n)} {out' : Fin n' → List (Fin m' × Fin n')}

theorem Placed.followStep (h : Placed i p p') (u : Fin n) (d : Hops) (a : Fin m × Fin n) :
    Placed i (p.followStep u d a) (p'.followStep (i.vertex u) d (i.step a)) := by
  have hdiscover : Placed i (p.discover d a.2) (p'.discover d (i.vertex a.2)) := by
    unfold Paths.discover
    rw [h.dist]
    split
    · exact (h.visit a.2).setDist a.2 d
    · exact h
  unfold Paths.followStep Placement.step
  generalize p.discover d a.2 = q at hdiscover ⊢
  generalize p'.discover d (i.vertex a.2) = q' at hdiscover ⊢
  unfold Paths.countStep
  dsimp only
  rw [hdiscover.dist]
  split
  · exact hdiscover.addSteps u a
  · exact hdiscover

variable (hout : ∀ v : Fin n, out' (i.vertex v) = (out v).map i.step)

include hout

theorem Placed.expand (h : Placed i p p') (u : Fin n) :
    Placed i (p.expand out u) (p'.expand out' (i.vertex u)) := by
  unfold Paths.expand
  rw [hout, List.foldl_map, h.dist]
  exact List.foldl_rel h fun a _ _ _ hq => hq.followStep u _ a

theorem Placed.sweep (h : Placed i p p') (fuel k : Nat) :
    Placed i (Paths.sweep out fuel k p) (Paths.sweep out' fuel k p') := by
  induction fuel generalizing k p p' with
  | zero => exact h
  | succ fuel ih =>
      have hsize : p'.order.size = p.order.size := by rw [h.order, Array.size_map]
      unfold Paths.sweep
      by_cases hk : k < p.order.size
      · have hk' : k < p'.order.size := hsize ▸ hk
        have hvertex : p'.order[k] = i.vertex p.order[k] := by
          simp only [h.order, Array.getElem_map]
        rw [dif_pos hk, dif_pos hk', hvertex]
        exact ih (h.expand hout _) (k + 1)
      · have hk' : ¬ k < p'.order.size := hsize ▸ hk
        rw [dif_neg hk, dif_neg hk']
        exact h

omit hout in
/-- Fuel beyond the visited vertices is not used. -/
theorem sweep_add {fuel k : Nat} {p : Paths Hops S n m}
    (hsize : (sweep out fuel k p).order.size ≤ k + fuel) (extra : Nat) :
    sweep out (fuel + extra) k p = sweep out fuel k p := by
  induction fuel generalizing k p with
  | zero =>
      have hdone : ¬ k < p.order.size := Nat.not_lt.mpr hsize
      cases extra with
      | zero => rfl
      | succ extra => exact dif_neg hdone
  | succ fuel ih =>
      rw [Nat.succ_add]
      unfold sweep at hsize ⊢
      by_cases hk : k < p.order.size
      · rw [dif_pos hk] at hsize
        rw [dif_pos hk, dif_pos hk]
        exact ih (by omega)
      · rw [dif_neg hk, dif_neg hk]

/-- Each search has fuel for its own number of vertices, and stops earlier. -/
theorem Placed.breadthFirst [Zero S] [One S] (h : Placed i p p') (s : Fin n)
    (hsize : (p.breadthFirst out s).order.size ≤ n)
    (hsize' : (p'.breadthFirst out' (i.vertex s)).order.size ≤ n') :
    Placed i (p.breadthFirst out s) (p'.breadthFirst out' (i.vertex s)) := by
  have hplaced := ((h.restart s).visit s).sweep hout (n + n') 0
  unfold Paths.breadthFirst at hsize hsize' ⊢
  rw [sweep_add (by omega) n'] at hplaced
  rw [Nat.add_comm n, sweep_add (by omega) n] at hplaced
  exact hplaced

end BreadthFirst

end Paths

/-! ## Search by total weight -/

namespace Frontier

variable [Distance D] {f : Frontier D S n m} {f' : Frontier D S n' m'}

/-- The second frontier is the first under the new numbers. -/
structure Placed (i : Placement n m n' m') (f : Frontier D S n m) (f' : Frontier D S n' m') :
    Prop where
  paths : Paths.Placed i f.paths f'.paths
  settled : Table.Placed i.vertex f.settled f'.settled
  pending : f'.pending = f.pending.map i.candidate

theorem Placed.enter (h : Placed i f f') (d : D) (v : Fin n) :
    Placed i (f.enter d v) (f'.enter d (i.vertex v)) where
  paths := h.paths
  settled := h.settled
  pending := by
    unfold Frontier.enter
    rw [h.pending, Heap.map_insert i.before_candidate]
    rfl

theorem Placed.improve (h : Placed i f f') (u : Fin n) (d : D) (a : Fin m × Fin n) :
    Placed i (f.improve u d a) (f'.improve (i.vertex u) d (i.step a)) := by
  have hsteps : #[(i.edge a.1, i.vertex u)] = #[(a.1, u)].map i.step := by
    rw [List.map_toArray]
    rfl
  have hpaths := (h.paths.setDist a.2 d).setSteps a.2 (h.paths.sigma u) hsteps
  have hreplaced : Placed i { f with paths := _ } { f' with paths := _ } :=
    ⟨hpaths, h.settled, h.pending⟩
  exact hreplaced.enter d a.2

variable [Add S] {weights : Table D m} {weights' : Table D m'}
  {out : Fin n → List (Fin m × Fin n)} {out' : Fin n' → List (Fin m' × Fin n')}
  (hweights : Table.Placed i.edge weights weights')

omit [Distance D] in
theorem Placed.tie (h : Placed i f f') (u : Fin n) (a : Fin m × Fin n) :
    Placed i (f.tie u a) (f'.tie (i.vertex u) (i.step a)) :=
  ⟨h.paths.addSteps u a, h.settled, h.pending⟩

include hweights

theorem Placed.relax (h : Placed i f f') (u : Fin n) (reach : D) (a : Fin m × Fin n) :
    Placed i (f.relax weights u reach a) (f'.relax weights' (i.vertex u) reach (i.step a)) := by
  have hsettled : f'.settled[(i.step a).2] = f.settled[a.2] := h.settled a.2
  have hweight : weights'[(i.step a).1] = weights[a.1] := hweights a.1
  have hdist : f'.paths.dist[(i.step a).2] = f.paths.dist[a.2] := h.paths.dist a.2
  unfold Frontier.relax
  rw [hsettled, hweight, hdist]
  dsimp only
  repeat' split
  · exact h
  · exact h
  · exact h.improve u _ a
  · exact h.tie u a
  · exact h

variable (hout : ∀ v : Fin n, out' (i.vertex v) = (out v).map i.step)

include hout

theorem Placed.settle (h : Placed i f f') (u : Fin n) :
    Placed i (f.settle out weights u) (f'.settle out' weights' (i.vertex u)) := by
  have hmarked : Placed i
      { f with settled := f.settled.set u true, paths := f.paths.visit u }
      { f' with
        settled := f'.settled.set (i.vertex u) true
        paths := f'.paths.visit (i.vertex u) } :=
    ⟨h.paths.visit u, h.settled.set i.injective_vertex u true, h.pending⟩
  unfold Frontier.settle
  dsimp only
  rw [hout, List.foldl_map, hmarked.paths.dist u]
  exact List.foldl_rel hmarked fun a _ _ _ hq => hq.relax hweights u _ a

theorem Placed.advance (h : Placed i f f') :
    Option.Rel (Placed i) (f.advance? out weights) (f'.advance? out' weights') := by
  unfold Frontier.advance?
  rw [h.pending, Heap.pop?_map i.before_candidate]
  cases f.pending.pop? Candidate.before with
  | none => exact Option.Rel.none
  | some entry =>
      obtain ⟨c, rest⟩ := entry
      have htaken : Placed i { f with pending := rest }
          { f' with pending := rest.map i.candidate } := ⟨h.paths, h.settled, rfl⟩
      have hsettled : f'.settled[(i.candidate c).vertex] = f.settled[c.vertex] :=
        h.settled c.vertex
      apply Option.Rel.some
      dsimp only
      rw [hsettled]
      split
      · exact htaken
      · exact htaken.settle hweights hout c.vertex

theorem Placed.run (h : Placed i f f') (fuel : Nat) :
    Placed i (f.run out weights fuel) (f'.run out' weights' fuel) := by
  induction fuel generalizing f f' with
  | zero => exact h
  | succ fuel ih =>
      have hadvance := h.advance hweights hout
      unfold Frontier.run
      generalize f.advance? out weights = r at hadvance ⊢
      generalize f'.advance? out' weights' = r' at hadvance ⊢
      cases hadvance with
      | none => exact h
      | some hnext => exact ih hnext

omit hweights hout in
theorem run_add {fuel : Nat} {f : Frontier D S n m}
    (hdrained : (f.run out weights fuel).pending.toList = []) (extra : Nat) :
    f.run out weights (fuel + extra) = f.run out weights fuel := by
  induction fuel generalizing f with
  | zero =>
      have hnone : f.advance? out weights = none := advance?_eq_none_iff.mpr hdrained
      cases extra with
      | zero => rfl
      | succ extra =>
          rw [Nat.zero_add]
          unfold run
          rw [hnone]
  | succ fuel ih =>
      rw [Nat.succ_add]
      unfold run at hdrained ⊢
      cases hadvance : f.advance? out weights with
      | none => rfl
      | some next =>
          rw [hadvance] at hdrained
          exact ih hdrained

theorem placed_weighted [Zero S] [One S] {p : Paths D S n m} {p' : Paths D S n' m'}
    (h : Paths.Placed i p p') (s : Fin n) :
    Paths.Placed i (p.weighted out weights s) (p'.weighted out' weights' (i.vertex s)) := by
  have hstart : Placed i (start s p) (start (i.vertex s) p') := by
    have hempty : Placed i ⟨p.restart s, Table.replicate n false, Heap.empty⟩
        ⟨p'.restart (i.vertex s), Table.replicate n' false, Heap.empty⟩ :=
      ⟨h.restart s, Table.placed_replicate i.vertex false, rfl⟩
    exact hempty.enter Distance.zero s
  -- each side halts within its own fuel, so both are read at the sum of the two
  have hrun := hstart.run hweights hout ((Paths.stepCount out + 1) + (Paths.stepCount out' + 1))
  rw [run_add (drained_start s p)] at hrun
  rw [Nat.add_comm (Paths.stepCount out + 1), run_add (drained_start (i.vertex s) p')] at hrun
  exact hrun.paths

end Frontier

end Geodesic
