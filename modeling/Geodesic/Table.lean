/-!
# Tables

A table holds one entry for each vertex or edge of a graph. It is read by numbers that are in range
by their type, so a look-up can neither fail nor depend on a proof.
-/

namespace Geodesic

/-- One entry for each number below `n`. -/
structure Table (α : Type) (n : Nat) where
  toVector : Vector α n
deriving DecidableEq, Repr

namespace Table

variable {α β : Type} {n : Nat}

def get (t : Table α n) (i : Fin n) : α :=
  t.toVector.get i

instance : GetElem (Table α n) (Fin n) α (fun _ _ => True) where
  getElem t i _ := t.get i

theorem getElem_eq_get (t : Table α n) (i : Fin n) : t[i] = t.get i := rfl

def replicate (n : Nat) (x : α) : Table α n :=
  ⟨Vector.replicate n x⟩

def ofFn (f : Fin n → α) : Table α n :=
  ⟨Vector.ofFn f⟩

def ofArray (xs : Array α) (h : xs.size = n) : Table α n :=
  ⟨⟨xs, h⟩⟩

def toArray (t : Table α n) : Array α :=
  t.toVector.toArray

def set (t : Table α n) (i : Fin n) (x : α) : Table α n :=
  ⟨t.toVector.set i.val x i.isLt⟩

def map (f : α → β) (t : Table α n) : Table β n :=
  ⟨t.toVector.map f⟩

@[ext] theorem ext {t u : Table α n} (h : ∀ i : Fin n, t[i] = u[i]) : t = u := by
  cases t with
  | mk t =>
    cases u with
    | mk u =>
      refine congrArg Table.mk (Vector.ext fun i hi => ?_)
      exact h ⟨i, hi⟩

@[simp] theorem getElem_replicate (x : α) (i : Fin n) : (replicate n x)[i] = x :=
  Vector.getElem_replicate i.isLt

@[simp] theorem getElem_ofFn (f : Fin n → α) (i : Fin n) : (ofFn f)[i] = f i :=
  Vector.getElem_ofFn i.isLt

@[simp] theorem getElem_map (f : α → β) (t : Table α n) (i : Fin n) : (t.map f)[i] = f t[i] :=
  Vector.getElem_map f i.isLt

theorem getElem_set (t : Table α n) (i j : Fin n) (x : α) :
    (t.set i x)[j] = if i = j then x else t[j] := by
  by_cases h : i = j
  · subst h
    rw [if_pos rfl]
    exact Vector.getElem_set_self i.isLt
  · rw [if_neg h]
    exact Vector.getElem_set_ne i.isLt j.isLt fun e => h (Fin.ext e)

@[simp] theorem getElem_set_self (t : Table α n) (i : Fin n) (x : α) : (t.set i x)[i] = x := by
  simp [getElem_set]

theorem getElem_set_ne (t : Table α n) {i j : Fin n} (x : α) (h : i ≠ j) :
    (t.set i x)[j] = t[j] := by
  simp [getElem_set, h]

@[simp] theorem size_toArray (t : Table α n) : t.toArray.size = n :=
  t.toVector.size_toArray

@[simp] theorem getElem?_toArray (t : Table α n) (i : Fin n) : t.toArray[i.val]? = some t[i] := by
  simp [toArray, getElem_eq_get, get, Vector.get]

@[simp] theorem toArray_ofArray (xs : Array α) (h : xs.size = n) : (ofArray xs h).toArray = xs := rfl

end Table

end Geodesic
