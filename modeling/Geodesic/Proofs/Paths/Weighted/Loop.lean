import Geodesic.Graph
import Geodesic.Number
import Geodesic.Proofs.Paths.Weighted.Drain

/-!
# A search ends on any weights

A search takes one entry a turn until the heap is empty. `Loop` is this loop without a bound on its
turns, together with the entries that it takes and the vertices whose steps it follows. Nothing is
asked of lengths: weights may be negative, infinite or undefined. What ends the loop is that a
settled vertex stays settled, so that its steps are followed once.
-/

namespace Geodesic

namespace Frontier

variable {D S : Type} {n m : Nat} [Distance D] [Add S]

/-- The loop from `f` ends at `f'`. It takes `entries` in their order and follows the steps of the
vertices `followed`. -/
inductive Loop (out : Fin n → List (Fin m × Fin n)) (weights : Table D m) :
    Frontier D S n m → List (Candidate D n) → List (Fin n) → Frontier D S n m → Prop
  | empty {f : Frontier D S n m} (hpop : f.pending.pop? Candidate.before = none) :
      Loop out weights f [] [] f
  | stale {f f' : Frontier D S n m} {c : Candidate D n} {rest : Heap (Candidate D n)}
      {entries : List (Candidate D n)} {followed : List (Fin n)}
      (hpop : f.pending.pop? Candidate.before = some (c, rest))
      (h : f.settled[c.vertex] = true)
      (hnext : Loop out weights { f with pending := rest } entries followed f') :
      Loop out weights f (c :: entries) followed f'
  | settled {f f' : Frontier D S n m} {c : Candidate D n} {rest : Heap (Candidate D n)}
      {entries : List (Candidate D n)} {followed : List (Fin n)}
      (hpop : f.pending.pop? Candidate.before = some (c, rest))
      (h : f.settled[c.vertex] = false)
      (hnext : Loop out weights ({ f with pending := rest }.settle out weights c.vertex) entries
        followed f') :
      Loop out weights f (c :: entries) (c.vertex :: followed) f'

variable {out : Fin n → List (Fin m × Fin n)} {weights : Table D m} {f f' : Frontier D S n m}
  {c : Candidate D n} {rest : Heap (Candidate D n)} {entries : List (Candidate D n)}
  {followed : List (Fin n)}

/-! ## One turn -/

section Settle

variable (f : Frontier D S n m) (u : Fin n)

theorem settled_settle (v : Fin n) :
    (f.settle out weights u).settled[v] = if u = v then true else f.settled[v] := by
  unfold settle
  rw [settled_scan]
  exact Table.getElem_set ..

theorem order_settle :
    (f.settle out weights u).paths.order.toList = f.paths.order.toList ++ [u] := by
  unfold settle
  rw [order_scan]
  exact Array.toList_push

/-- No step enters more than one entry. -/
theorem size_pending_settle_le :
    (f.settle out weights u).pending.size ≤ f.pending.size + (out u).length := by
  have hload : (f.settle out weights u).load out ≤
      (f.mark u f.pending).load out + (out u).length := load_scan_le ..
  have hopen : (f.settle out weights u).openSteps out = (f.mark u f.pending).openSteps out := by
    unfold openSteps settle
    rw [settled_scan]
    rfl
  rw [load, load, hopen, pending_mark] at hload
  omega

end Settle

theorem advance?_of_stale (hpop : f.pending.pop? Candidate.before = some (c, rest))
    (h : f.settled[c.vertex] = true) :
    f.advance? out weights = some { f with pending := rest } := by
  simp [advance?, hpop, h]

theorem advance?_of_open (hpop : f.pending.pop? Candidate.before = some (c, rest))
    (h : f.settled[c.vertex] = false) :
    f.advance? out weights = some ({ f with pending := rest }.settle out weights c.vertex) := by
  simp [advance?, hpop, h]

/-! ## The loop ends -/

/-- A bounded run with a turn for every entry is the whole loop. Every turn lowers the load, so no
frontier goes on for ever. -/
theorem exists_loop (fuel : Nat) (hload : f.load out ≤ fuel) :
    ∃ entries followed, Loop out weights f entries followed (f.run out weights fuel) := by
  induction fuel generalizing f with
  | zero =>
      have hdrained : (f.run out weights 0).pending.toList = [] := drained_run 0 hload
      exact ⟨[], [], .empty ((Heap.pop?_eq_none_iff ..).mpr hdrained)⟩
  | succ fuel ih =>
      unfold run
      cases hpop : f.pending.pop? Candidate.before with
      | none =>
          have hnone : f.advance? out weights = none := by simp [advance?, hpop]
          rw [hnone]
          exact ⟨[], [], .empty hpop⟩
      | some p =>
          obtain ⟨c, rest⟩ := p
          cases hc : f.settled[c.vertex] with
          | true =>
              have hturn : f.advance? out weights = _ := advance?_of_stale hpop hc
              have hless := load_advance_lt hturn
              obtain ⟨entries, followed, hnext⟩ :=
                ih (f := { f with pending := rest }) (by omega)
              rw [hturn]
              exact ⟨_, _, .stale hpop hc hnext⟩
          | false =>
              have hturn : f.advance? out weights = _ := advance?_of_open hpop hc
              have hless := load_advance_lt hturn
              obtain ⟨entries, followed, hnext⟩ :=
                ih (f := { f with pending := rest }.settle out weights c.vertex) (by omega)
              rw [hturn]
              exact ⟨_, _, .settled hpop hc hnext⟩

namespace Loop

/-- Every turn is determined by what is in the heap. -/
theorem unique (h : Loop out weights f entries followed f') {entries' : List (Candidate D n)}
    {followed' : List (Fin n)} {f'' : Frontier D S n m}
    (h' : Loop out weights f entries' followed' f'') :
    entries' = entries ∧ followed' = followed ∧ f'' = f' := by
  induction h generalizing entries' followed' with
  | empty hpop =>
      cases h' with
      | empty _ => exact ⟨rfl, rfl, rfl⟩
      | stale hpop' _ _ | settled hpop' _ _ => simp [hpop] at hpop'
  | stale hpop hc _ ih =>
      cases h' with
      | empty hpop' => simp [hpop] at hpop'
      | stale hpop' _ hnext' =>
          cases hpop.symm.trans hpop'
          obtain ⟨rfl, rfl, rfl⟩ := ih hnext'
          exact ⟨rfl, rfl, rfl⟩
      | settled hpop' hc' _ =>
          cases hpop.symm.trans hpop'
          simp [hc] at hc'
  | settled hpop hc _ ih =>
      cases h' with
      | empty hpop' => simp [hpop] at hpop'
      | stale hpop' hc' _ =>
          cases hpop.symm.trans hpop'
          simp [hc] at hc'
      | settled hpop' _ hnext' =>
          cases hpop.symm.trans hpop'
          obtain ⟨rfl, rfl, rfl⟩ := ih hnext'
          exact ⟨rfl, rfl, rfl⟩

theorem visits (h : Loop out weights f entries followed f') :
    f'.paths.order.toList = f.paths.order.toList ++ followed ∧ followed.Nodup ∧
      ∀ v ∈ followed, f.settled[v] = false := by
  induction h with
  | empty _ => simp
  | stale _ _ _ ih => exact ih
  | @settled f f' c rest entries followed hpop hc _ ih =>
      obtain ⟨horder, hnodup, hopen⟩ := ih
      have hnew : ∀ v ∈ followed, c.vertex ≠ v ∧ f.settled[v] = false := by
        intro v hv
        have hv := hopen v hv
        rw [settled_settle] at hv
        split at hv
        · cases hv
        · rename_i hne
          exact ⟨hne, hv⟩
      refine ⟨?_, List.nodup_cons.mpr ⟨fun hmem => (hnew _ hmem).1 rfl, hnodup⟩, ?_⟩
      · rw [horder, order_settle, List.append_assoc]
        rfl
      · exact List.forall_mem_cons.mpr ⟨hc, fun v hv => (hnew v hv).2⟩

theorem length_le (h : Loop out weights f entries followed f') :
    entries.length ≤ f.pending.size + (followed.map fun u => (out u).length).sum := by
  induction h with
  | empty _ => exact Nat.zero_le _
  | @stale f f' c rest entries followed hpop _ _ ih =>
      have hsize := Heap.size_pop _ hpop
      rw [List.length_cons]
      dsimp only at ih
      omega
  | @settled f f' c rest entries followed hpop _ _ ih =>
      have hsize := Heap.size_pop _ hpop
      have hgrown : ({ f with pending := rest }.settle out weights c.vertex).pending.size ≤
          rest.size + (out c.vertex).length := size_pending_settle_le { f with pending := rest } _
      rw [List.length_cons, List.map_cons, List.sum_cons]
      omega

end Loop

end Frontier

/-- On any weights whatever a search ends, after one run of its loop. It visits a vertex at most
once and follows the steps of the visited vertices, each vertex once. It takes at most one entry
more than these vertices have steps. -/
theorem Paths.weighted_loop {D S : Type} [Distance D] [Zero S] [One S] [Add S] (g : Graph)
    (weights : Table D g.edgeCount) (s : g.Vertex) (p : Paths D S g.vertexCount g.edgeCount) :
    ∃ entries f, f.paths = p.weighted g.outEdges weights s ∧
      (∀ entries' followed f',
        Frontier.Loop g.outEdges weights (.start s p) entries' followed f' ↔
          entries' = entries ∧ followed = f.paths.order.toList ∧ f' = f) ∧
      f.paths.order.toList.Nodup ∧
      entries.length ≤ 1 + (f.paths.order.toList.map fun v => (g.outEdges v).length).sum := by
  let f := Frontier.start s p
  have hload : f.load g.outEdges = stepCount g.outEdges + 1 := Frontier.load_start s p
  obtain ⟨entries, followed, hloop⟩ : ∃ entries followed, Frontier.Loop g.outEdges weights f entries
      followed (f.run g.outEdges weights (stepCount g.outEdges + 1)) :=
    Frontier.exists_loop _ hload.le
  obtain ⟨horder, hnodup, -⟩ := hloop.visits
  have hstart : f.paths.order.toList = [] := rfl
  rw [hstart, List.nil_append] at horder
  refine ⟨entries, _, rfl, fun entries' followed' f' => ⟨fun hloop' => ?_, ?_⟩, ?_, ?_⟩
  · rw [horder]
    exact hloop.unique hloop'
  · rintro ⟨rfl, rfl, rfl⟩
    rwa [horder]
  · rwa [horder]
  · rw [horder]
    exact hloop.length_le

/-- Two edges that shorten each other for ever, an undefined and an infinite one. -/
example :
    let g : Graph := ⟨true, 3, #[⟨0, 1⟩, ⟨1, 0⟩, ⟨1, 2⟩, ⟨0, 1⟩]⟩
    let weights : Table Float 4 := .ofArray #[-1.0, -1.0, 0.0 / 0.0, -1.0 / 0.0] rfl
    ((Paths.fresh Float Float 3 4).weighted g.outEdges weights (0 : Fin 3)).order = #[0, 1] := by
  decide +kernel

end Geodesic
