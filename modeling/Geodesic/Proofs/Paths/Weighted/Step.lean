import Geodesic.Paths.Weighted
import Geodesic.Proofs.Distance

/-!
# What one step of a search by total weight does

A search marks a vertex as settled and then tries its steps one by one. `Relaxed` lists the five
outcomes of such a try with their conditions, and the lemmas below say what each outcome leaves in
the tables; nothing after this module opens `relax`.
-/

namespace Geodesic.Frontier

open Distance (Reached shorter same)

variable {D S : Type} {n m : Nat} [Distance D]

/-! ## Improving and tying -/

section Improve

variable (f : Frontier D S n m) (u : Fin n) (d : D) (a : Fin m × Fin n)

@[simp] theorem settled_improve : (f.improve u d a).settled = f.settled := rfl

@[simp] theorem order_improve : (f.improve u d a).paths.order = f.paths.order := rfl

theorem dist_improve (v : Fin n) :
    (f.improve u d a).paths.dist[v] = if a.2 = v then d else f.paths.dist[v] :=
  Table.getElem_set ..

theorem sigma_improve (v : Fin n) :
    (f.improve u d a).paths.sigma[v] = if a.2 = v then f.paths.sigma[u] else f.paths.sigma[v] :=
  Table.getElem_set ..

theorem preds_improve (v : Fin n) :
    (f.improve u d a).paths.preds[v] = if a.2 = v then #[(a.1, u)] else f.paths.preds[v] :=
  Table.getElem_set ..

theorem mem_pending_improve (c : Candidate D n) :
    c ∈ (f.improve u d a).pending.toList ↔ c = ⟨d, a.2⟩ ∨ c ∈ f.pending.toList :=
  Heap.mem_insert ..

theorem size_pending_improve : (f.improve u d a).pending.size = f.pending.size + 1 := by
  rw [← Heap.length_toList, ← Heap.length_toList]
  exact (Heap.toList_insert Candidate.before ⟨d, a.2⟩ f.pending).length_eq

end Improve

section Tie

omit [Distance D]

variable [Add S] (f : Frontier D S n m) (u : Fin n) (a : Fin m × Fin n)

theorem sigma_tie (v : Fin n) : (f.tie u a).paths.sigma[v] =
    if a.2 = v then f.paths.sigma[v] + f.paths.sigma[u] else f.paths.sigma[v] := by
  by_cases h : a.2 = v
  · subst h
    simp [tie]
  · rw [if_neg h]
    exact Table.getElem_set_ne _ _ h

theorem preds_tie (v : Fin n) : (f.tie u a).paths.preds[v] =
    if a.2 = v then f.paths.preds[v].push (a.1, u) else f.paths.preds[v] := by
  by_cases h : a.2 = v
  · subst h
    simp [tie]
  · rw [if_neg h]
    exact Table.getElem_set_ne _ _ h

end Tie

/-! ## Revision of one vertex -/

/-- The second frontier differs from the first only in what is known of `w` and in further entries
of `w`. -/
structure Revised (w : Fin n) (f f' : Frontier D S n m) : Prop where
  source : f'.paths.source = f.paths.source
  order : f'.paths.order = f.paths.order
  settled : f'.settled = f.settled
  dist : ∀ v : Fin n, w ≠ v → f'.paths.dist[v] = f.paths.dist[v]
  sigma : ∀ v : Fin n, w ≠ v → f'.paths.sigma[v] = f.paths.sigma[v]
  preds : ∀ v : Fin n, w ≠ v → f'.paths.preds[v] = f.paths.preds[v]
  kept : ∀ c ∈ f.pending.toList, c ∈ f'.pending.toList
  added : ∀ c ∈ f'.pending.toList, c ∈ f.pending.toList ∨ c.vertex = w

omit [Distance D] in
theorem revised_refl (w : Fin n) (f : Frontier D S n m) : Revised w f f :=
  ⟨rfl, rfl, rfl, fun _ _ => rfl, fun _ _ => rfl, fun _ _ => rfl, fun _ hc => hc,
    fun _ hc => Or.inl hc⟩

theorem revised_improve (f : Frontier D S n m) (u : Fin n) (d : D) (a : Fin m × Fin n) :
    Revised a.2 f (f.improve u d a) where
  source := rfl
  order := rfl
  settled := rfl
  dist v hv := by rw [dist_improve, if_neg hv]
  sigma v hv := by rw [sigma_improve, if_neg hv]
  preds v hv := by rw [preds_improve, if_neg hv]
  kept c hc := (mem_pending_improve ..).mpr (Or.inr hc)
  added c hc := by
    rcases (mem_pending_improve ..).mp hc with rfl | hc
    · exact Or.inr rfl
    · exact Or.inl hc

omit [Distance D] in
theorem revised_tie [Add S] (f : Frontier D S n m) (u : Fin n) (a : Fin m × Fin n) :
    Revised a.2 f (f.tie u a) where
  source := rfl
  order := rfl
  settled := rfl
  dist _ _ := rfl
  sigma v hv := by rw [sigma_tie, if_neg hv]
  preds v hv := by rw [preds_tie, if_neg hv]
  kept _ hc := hc
  added _ hc := Or.inl hc

/-! ## One try -/

variable [Add S]

/-- The outcomes of trying the step `a` from `u`, with `sum` as the length of the way by `u`. -/
inductive Relaxed (f : Frontier D S n m) (u : Fin n) (sum : D) (a : Fin m × Fin n) :
    Frontier D S n m → Prop
  | settled (h : f.settled[a.2] = true) : Relaxed f u sum a f
  | unreached (h : f.settled[a.2] = false) (hsum : same sum Distance.unreached = true) :
      Relaxed f u sum a f
  | improved (h : f.settled[a.2] = false) (hsum : Reached sum)
      (hlt : shorter sum f.paths.dist[a.2] = true) : Relaxed f u sum a (f.improve u sum a)
  | tied (h : f.settled[a.2] = false) (hsum : Reached sum)
      (hge : shorter sum f.paths.dist[a.2] = false) (heq : same sum f.paths.dist[a.2] = true) :
      Relaxed f u sum a (f.tie u a)
  | longer (h : f.settled[a.2] = false) (hsum : Reached sum)
      (hge : shorter sum f.paths.dist[a.2] = false)
      (hne : same sum f.paths.dist[a.2] = false) : Relaxed f u sum a f

theorem relaxed_relax (weights : Table D m) (u : Fin n) (reach : D) (f : Frontier D S n m)
    (a : Fin m × Fin n) :
    Relaxed f u (Distance.add reach weights[a.1]) a (f.relax weights u reach a) := by
  unfold relax
  split
  · rename_i h
    exact .settled h
  · rename_i h
    have h : f.settled[a.2] = false := by simpa using h
    dsimp only
    split
    · rename_i hsum
      exact .unreached h hsum
    · rename_i hsum
      have hsum : Reached (Distance.add reach weights[a.1]) := by simpa [Reached] using hsum
      split
      · rename_i hlt
        exact .improved h hsum hlt
      · rename_i hge
        have hge := Bool.eq_false_iff.mpr hge
        split
        · rename_i heq
          exact .tied h hsum hge heq
        · rename_i hne
          exact .longer h hsum hge (Bool.eq_false_iff.mpr hne)

theorem revised_relax (weights : Table D m) (u : Fin n) (reach : D) (f : Frontier D S n m)
    (a : Fin m × Fin n) : Revised a.2 f (f.relax weights u reach a) := by
  have hr := relaxed_relax weights u reach f a
  generalize f.relax weights u reach a = f' at hr
  cases hr with
  | settled _ => exact revised_refl a.2 f
  | unreached _ _ => exact revised_refl a.2 f
  | longer _ _ _ _ => exact revised_refl a.2 f
  | improved _ _ _ => exact revised_improve ..
  | tied _ _ _ _ => exact revised_tie ..

theorem scan_keeps (weights : Table D m) (u : Fin n) (reach : D) (f : Frontier D S n m)
    (todo : List (Fin m × Fin n)) :
    (todo.foldl (relax weights u reach) f).paths.order = f.paths.order ∧
      (todo.foldl (relax weights u reach) f).settled = f.settled := by
  induction todo generalizing f with
  | nil => exact ⟨rfl, rfl⟩
  | cons a todo ih =>
      have hfirst := revised_relax weights u reach f a
      have hrest := ih (f.relax weights u reach a)
      rw [hfirst.order, hfirst.settled] at hrest
      exact hrest

theorem order_scan (weights : Table D m) (u : Fin n) (reach : D) (f : Frontier D S n m)
    (todo : List (Fin m × Fin n)) :
    (todo.foldl (relax weights u reach) f).paths.order = f.paths.order :=
  (scan_keeps weights u reach f todo).1

theorem settled_scan (weights : Table D m) (u : Fin n) (reach : D) (f : Frontier D S n m)
    (todo : List (Fin m × Fin n)) :
    (todo.foldl (relax weights u reach) f).settled = f.settled :=
  (scan_keeps weights u reach f todo).2

theorem relax_of_settled (weights : Table D m) (u : Fin n) (reach : D) {f : Frontier D S n m}
    {a : Fin m × Fin n} (h : f.settled[a.2] = true) :
    f.relax weights u reach a = f := by
  simp [relax, h]

/-- The only step that a try can record is the one that is tried. -/
theorem mem_preds_relax {weights : Table D m} {u : Fin n} {reach : D} {f : Frontier D S n m}
    {a : Fin m × Fin n} {v : Fin n} {b : Fin m × Fin n}
    (hb : b ∈ (f.relax weights u reach a).paths.preds[v].toList) :
    b ∈ f.paths.preds[v].toList ∨ (b = (a.1, u) ∧ v = a.2) := by
  by_cases hv : a.2 = v
  · subst hv
    have hr := relaxed_relax weights u reach f a
    generalize f.relax weights u reach a = f' at hr hb
    cases hr with
    | settled _ => exact Or.inl hb
    | unreached _ _ => exact Or.inl hb
    | longer _ _ _ _ => exact Or.inl hb
    | improved _ _ _ =>
        rw [preds_improve, if_pos rfl] at hb
        exact Or.inr ⟨List.mem_singleton.mp hb, rfl⟩
    | tied _ _ _ _ =>
        rw [preds_tie, if_pos rfl, Array.toList_push] at hb
        rcases List.mem_append.mp hb with hb | hb
        · exact Or.inl hb
        · exact Or.inr ⟨List.mem_singleton.mp hb, rfl⟩
  · rw [(revised_relax weights u reach f a).preds v hv] at hb
    exact Or.inl hb

/-! ## Taking an entry -/

def mark (f : Frontier D S n m) (u : Fin n) (rest : Heap (Candidate D n)) : Frontier D S n m :=
  { paths := f.paths.visit u, settled := f.settled.set u true, pending := rest }

section Mark

omit [Distance D] [Add S]

variable (f : Frontier D S n m) (u : Fin n) (rest : Heap (Candidate D n))

@[simp] theorem pending_mark : (f.mark u rest).pending = rest := rfl

@[simp] theorem order_mark :
    (f.mark u rest).paths.order.toList = f.paths.order.toList ++ [u] := by
  simp [mark, Paths.visit]

theorem settled_mark (v : Fin n) :
    (f.mark u rest).settled[v] = if u = v then true else f.settled[v] :=
  Table.getElem_set ..

end Mark

/-- A search takes an entry in one of two ways. -/
inductive Advanced (out : Fin n → List (Fin m × Fin n)) (weights : Table D m)
    (f : Frontier D S n m) : Frontier D S n m → Prop
  | stale (c : Candidate D n) (rest : Heap (Candidate D n))
      (hpop : f.pending.pop? Candidate.before = some (c, rest))
      (h : f.settled[c.vertex] = true) : Advanced out weights f { f with pending := rest }
  | settled (c : Candidate D n) (rest : Heap (Candidate D n))
      (hpop : f.pending.pop? Candidate.before = some (c, rest))
      (h : f.settled[c.vertex] = false) :
      Advanced out weights f ((out c.vertex).foldl
        (relax weights c.vertex f.paths.dist[c.vertex]) (f.mark c.vertex rest))

theorem advanced_of_advance {out : Fin n → List (Fin m × Fin n)} {weights : Table D m}
    {f f' : Frontier D S n m} (h : f.advance? out weights = some f') :
    Advanced out weights f f' := by
  unfold advance? at h
  split at h
  · cases h
  · rename_i c rest hpop
    dsimp only at h
    obtain rfl := Option.some.inj h
    split
    · rename_i hs
      exact .stale c rest hpop hs
    · rename_i hs
      exact .settled c rest hpop (Bool.eq_false_iff.mpr hs)

theorem advance?_eq_none_iff {out : Fin n → List (Fin m × Fin n)} {weights : Table D m}
    {f : Frontier D S n m} : f.advance? out weights = none ↔ f.pending.toList = [] := by
  rw [← Heap.pop?_eq_none_iff Candidate.before]
  unfold advance?
  cases f.pending.pop? Candidate.before with
  | none => simp
  | some p => simp

theorem advance?_start [Zero S] [One S] (out : Fin n → List (Fin m × Fin n)) (weights : Table D m)
    (s : Fin n) (p : Paths D S n m) :
    (start s p).advance? out weights = some ((out s).foldl
      (relax weights s Distance.zero) ((start s p).mark s Heap.empty)) := by
  have hs : (Table.replicate n false)[s] = false := Table.getElem_replicate false s
  have hd : (p.restart s).dist[s] = Distance.zero := by simp [Paths.restart]
  simp only [advance?, start, enter, Heap.insert, Heap.meld, Heap.meldInto, Heap.pop?, id_eq]
  simp [hs, settle, mark, Paths.visit, hd]

end Geodesic.Frontier
