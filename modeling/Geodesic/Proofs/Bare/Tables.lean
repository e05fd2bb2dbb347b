import Geodesic.Proofs.Paths.Placed

/-!
# Tables in bare arrays

The tables of a search are typed by their sizes, so no number can read them out of range. A bare
array can be asked for any number, and `none` stands for the access that fails. A computation on
bare arrays that follows the typed one therefore shows that none of its accesses fails.
-/

namespace Geodesic.Bare

/-! ## Accesses -/

/-- Replace an entry by its image; it must be there. -/
def update {α : Type} (xs : Array α) (i : Nat) (f : α → α) : Option (Array α) :=
  if h : i < xs.size then some (xs.set i (f xs[i]) h) else none

def write {α : Type} (xs : Array α) (i : Nat) (x : α) : Option (Array α) :=
  update xs i fun _ => x

section Access

variable {α β : Type} {n : Nat}

theorem toArray_set (t : Table α n) (i : Fin n) (x : α) :
    (t.set i x).toArray = t.toArray.set i.val x (by simp) := rfl

@[simp] theorem getElem_toArray (t : Table α n) (i : Fin n) (h : i.val < t.toArray.size) :
    t.toArray[i.val] = t[i] := rfl

@[simp] theorem update_toArray (t : Table α n) (i : Fin n) (f : α → α) :
    update t.toArray i.val f = some (t.set i (f t[i])).toArray := by
  have hi : i.val < t.toArray.size := by simp
  rw [update, dif_pos hi, toArray_set]
  rfl

@[simp] theorem write_toArray (t : Table α n) (i : Fin n) (x : α) :
    write t.toArray i.val x = some (t.set i x).toArray :=
  update_toArray t i fun _ => x

@[simp] theorem toArray_replicate (n : Nat) (x : α) :
    (Table.replicate n x).toArray = Array.replicate n x := rfl

@[simp] theorem map_replicate (f : α → β) (n : Nat) (x : α) :
    (Table.replicate n x).map f = Table.replicate n (f x) := by
  ext i
  simp

/-- A loop on bare data does at every pass what the typed loop does, as long as `P` holds. -/
theorem foldlM_observe {γ δ : Type} {observe : β → γ} {number : α → δ} {f : β → α → β}
    {f' : γ → δ → Option γ} {P : β → Prop} {l : List α}
    (hstep : ∀ b, P b → ∀ a ∈ l, f' (observe b) (number a) = some (observe (f b a)) ∧ P (f b a))
    {b : β} (hb : P b) :
    (l.map number).foldlM f' (observe b) = some (observe (l.foldl f b)) ∧ P (l.foldl f b) := by
  induction l generalizing b with
  | nil => exact ⟨rfl, hb⟩
  | cons a l ih =>
      obtain ⟨hfirst, hnext⟩ := hstep b hb a (by simp)
      rw [List.map_cons, List.foldlM_cons, hfirst]
      exact ih (fun b hb a ha => hstep b hb a (List.mem_cons_of_mem _ ha)) hnext

theorem foldlM_observe_of_forall {γ δ : Type} {observe : β → γ} {number : α → δ} {f : β → α → β}
    {f' : γ → δ → Option γ} (hstep : ∀ b a, f' (observe b) (number a) = some (observe (f b a)))
    (l : List α) (b : β) :
    (l.map number).foldlM f' (observe b) = some (observe (l.foldl f b)) :=
  (foldlM_observe (P := fun _ => True) (fun b _ a _ => ⟨hstep b a, trivial⟩) trivial).1

end Access

/-! ## The tables of a search -/

/-- The tables of a search in bare arrays, with lengths stored in `L`. -/
structure Cells (L S : Type) where
  source : Option Nat
  dist : Array L
  sigma : Array S
  preds : Array (Array (Nat × Nat))
  order : Array Nat

def step {n m : Nat} (a : Fin m × Fin n) : Nat × Nat :=
  (a.1.val, a.2.val)

def steps {n m : Nat} (out : Fin n → List (Fin m × Fin n)) : Array (List (Nat × Nat)) :=
  (Table.ofFn fun v => (out v).map step).toArray

/-- What typed tables hold; `code` stores a length. -/
def cells {D L S : Type} {n m : Nat} (code : D → L) (p : Paths D S n m) : Cells L S where
  source := p.source.map Fin.val
  dist := (p.dist.map code).toArray
  sigma := p.sigma.toArray
  preds := (p.preds.map fun entering => entering.map step).toArray
  order := p.order.map Fin.val

namespace Cells

variable {L S : Type}

def fresh [Zero S] (mark : L) (n : Nat) : Cells L S where
  source := none
  dist := Array.replicate n mark
  sigma := Array.replicate n 0
  preds := Array.replicate n #[]
  order := #[]

def forget [Zero S] (mark : L) (c : Cells L S) (v : Nat) : Option (Cells L S) := do
  let dist ← write c.dist v mark
  let sigma ← write c.sigma v 0
  let preds ← write c.preds v #[]
  some { c with dist, sigma, preds }

def restart [Zero S] [One S] (mark zero : L) (c : Cells L S) (s : Nat) : Option (Cells L S) := do
  let c ← c.order.toList.foldlM (forget mark) c
  let dist ← write c.dist s zero
  let sigma ← write c.sigma s 1
  some { c with source := some s, dist, sigma, order := #[] }

def visit (c : Cells L S) (v : Nat) : Cells L S :=
  { c with order := c.order.push v }

def count [Add S] (u : Nat) (c : Cells L S) (a : Nat × Nat) : Option (Cells L S) := do
  let paths ← c.sigma[u]?
  let sigma ← update c.sigma a.2 (· + paths)
  let preds ← update c.preds a.2 (·.push (a.1, u))
  some { c with sigma, preds }

end Cells

section Follow

variable {D L S : Type} {n m : Nat} (code : D → L)

@[simp] theorem getElem?_steps (out : Fin n → List (Fin m × Fin n)) (v : Fin n) :
    (steps out)[v.val]? = some ((out v).map step) := by
  simp [steps]

theorem visit_cells (p : Paths D S n m) (v : Fin n) :
    (cells code p).visit v.val = cells code (p.visit v) := by
  simp [cells, Cells.visit, Paths.visit]

theorem count_cells [Add S] (p : Paths D S n m) (u : Fin n) (a : Fin m × Fin n) :
    (cells code p).count u.val (step a) = some (cells code { p with
      sigma := p.sigma.set a.2 (p.sigma[a.2] + p.sigma[u])
      preds := p.preds.set a.2 (p.preds[a.2].push (a.1, u)) }) := by
  simp [cells, Cells.count, step, Table.map_set]

variable [Distance D] [Zero S]

theorem cells_fresh :
    cells code (Paths.fresh D S n m) = Cells.fresh (code Distance.unreached) n := by
  simp [cells, Paths.fresh, Cells.fresh]

theorem forget_cells (p : Paths D S n m) (v : Fin n) :
    (cells code p).forget (code Distance.unreached) v.val = some (cells code (p.forget v)) := by
  simp [cells, Cells.forget, Paths.forget, Table.map_set]

theorem restart_cells [One S] (p : Paths D S n m) (s : Fin n) :
    (cells code p).restart (code Distance.unreached) (code Distance.zero) s.val =
      some (cells code (p.restart s)) := by
  have hcleared := foldlM_observe_of_forall (forget_cells code) p.order.toList p
  rw [← Array.toList_map, Array.foldl_toList] at hcleared
  unfold Cells.restart
  rw [show (cells code p).order = p.order.map Fin.val from rfl, hcleared]
  simp [cells, Paths.restart, Table.map_set]

end Follow

end Geodesic.Bare
