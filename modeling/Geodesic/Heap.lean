/-!
# Leftist heaps

A priority queue that may hold an element several times. The comparison is an argument of each
operation, not a field: `first x y` holds when `x` may leave the heap before `y`.

The heaps are melded along their right spines, which the ranks keep short. `toList` is the view:
every operation is described by what it does to the listed elements, up to their order.
-/

namespace Geodesic

/-- A binary tree whose nodes carry the length of their right spine. -/
inductive Heap (α : Type) where
  | empty
  | node (rank : Nat) (top : α) (left right : Heap α)
deriving Repr

namespace Heap

variable {α : Type} (first : α → α → Bool)

def rank : Heap α → Nat
  | empty => 0
  | node r _ _ _ => r

def toList : Heap α → List α
  | empty => []
  | node _ x l r => x :: (l.toList ++ r.toList)

def size : Heap α → Nat
  | empty => 0
  | node _ _ l r => l.size + r.size + 1

/-- A node that keeps the shorter spine on its right. -/
def join (x : α) (l r : Heap α) : Heap α :=
  if r.rank ≤ l.rank then node (r.rank + 1) x l r else node (l.rank + 1) x r l

/-- Descend the right spine of the second heap below a first heap with top `x` and left part `l`;
`meldRest` melds a heap into the right part of the first. -/
def meldInto (x : α) (l : Heap α) (meldRest : Heap α → Heap α) (whole : Heap α) :
    Heap α → Heap α
  | empty => whole
  | node k y l' r' =>
      if first x y then join x l (meldRest (node k y l' r'))
      else join y l' (meldInto x l meldRest whole r')

def meld : Heap α → Heap α → Heap α
  | empty => id
  | node k x l r => meldInto first x l (meld r) (node k x l r)

def insert (x : α) (h : Heap α) : Heap α :=
  meld first (node 1 x empty empty) h

def pop? : Heap α → Option (α × Heap α)
  | empty => none
  | node _ x l r => some (x, meld first l r)

/-! ## The listed elements -/

@[simp] theorem toList_empty : (empty : Heap α).toList = [] := rfl

@[simp] theorem toList_node (k : Nat) (x : α) (l r : Heap α) :
    (node k x l r).toList = x :: (l.toList ++ r.toList) := rfl

theorem length_toList (h : Heap α) : h.toList.length = h.size := by
  induction h with
  | empty => rfl
  | node k x l r ihl ihr => simp [size, ihl, ihr]

theorem toList_join (x : α) (l r : Heap α) :
    (join x l r).toList.Perm (x :: (l.toList ++ r.toList)) := by
  unfold join
  split
  · exact List.Perm.refl _
  · exact List.Perm.cons x List.perm_append_comm

theorem toList_meldInto (x : α) (l r whole : Heap α) (meldRest : Heap α → Heap α)
    (hrest : ∀ h, (meldRest h).toList.Perm (r.toList ++ h.toList))
    (hwhole : whole.toList = x :: (l.toList ++ r.toList)) (h : Heap α) :
    (meldInto first x l meldRest whole h).toList.Perm (whole.toList ++ h.toList) := by
  induction h with
  | empty => simp [meldInto]
  | node k y l' r' _ ih =>
      unfold meldInto
      split
      · refine (toList_join ..).trans ?_
        rw [hwhole, List.cons_append, List.append_assoc]
        exact List.Perm.cons x (List.Perm.append_left _ (hrest _))
      · refine (toList_join ..).trans ?_
        refine (List.Perm.cons y (List.Perm.append_left _ ih)).trans ?_
        rw [toList_node, ← List.append_assoc, ← List.cons_append]
        refine List.Perm.trans ?_ List.perm_middle.symm
        rw [← List.append_assoc, List.cons_append]
        exact List.Perm.cons y (List.Perm.append_right _ List.perm_append_comm)

theorem toList_meld (a b : Heap α) : (meld first a b).toList.Perm (a.toList ++ b.toList) := by
  induction a generalizing b with
  | empty => exact List.Perm.refl _
  | node k x l r _ ihr => exact toList_meldInto first x l r _ _ ihr rfl b

theorem toList_insert (x : α) (h : Heap α) : (insert first x h).toList.Perm (x :: h.toList) := by
  simpa [insert] using toList_meld first (node 1 x empty empty) h

theorem mem_insert (x y : α) (h : Heap α) :
    y ∈ (insert first x h).toList ↔ y = x ∨ y ∈ h.toList := by
  rw [(toList_insert first x h).mem_iff, List.mem_cons]

theorem pop?_eq_none_iff (h : Heap α) : h.pop? first = none ↔ h.toList = [] := by
  cases h <;> simp [pop?]

theorem toList_pop {h rest : Heap α} {x : α} (hp : h.pop? first = some (x, rest)) :
    h.toList.Perm (x :: rest.toList) := by
  cases h with
  | empty => simp [pop?] at hp
  | node k y l r =>
      simp only [pop?, Option.some.injEq, Prod.mk.injEq] at hp
      obtain ⟨rfl, rfl⟩ := hp
      exact List.Perm.cons y (toList_meld first l r).symm

theorem size_pop {h rest : Heap α} {x : α} (hp : h.pop? first = some (x, rest)) :
    h.size = rest.size + 1 := by
  simpa [length_toList] using (toList_pop first hp).length_eq

end Heap

end Geodesic
