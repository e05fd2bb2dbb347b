import Geodesic.Heap

/-!
# Heap order

A heap keeps its order when every top may leave before all that lies below it. The comparison has to
be a total preorder only on the elements that are really in the heap, so the facts are stated for
heaps within a set of comparable elements.
-/

namespace Geodesic.Heap

variable {α : Type} {first : α → α → Bool}

/-- Every top may leave before what lies below it. -/
def Ordered (first : α → α → Bool) : Heap α → Prop
  | empty => True
  | node _ x l r => (∀ y ∈ l.toList ++ r.toList, first x y) ∧ Ordered first l ∧ Ordered first r

/-- On the elements of `P`, `first` is a total preorder. -/
structure Comparable (first : α → α → Bool) (P : α → Prop) : Prop where
  total : ∀ {x y}, P x → P y → first x y = false → first y x = true
  trans : ∀ {x y z}, P x → P y → P z → first x y = true → first y z = true → first x z = true

def Within (P : α → Prop) (h : Heap α) : Prop :=
  ∀ x ∈ h.toList, P x

variable {P : α → Prop}

theorem ordered_join {x : α} {l r : Heap α} (hx : ∀ y ∈ l.toList ++ r.toList, first x y)
    (hl : Ordered first l) (hr : Ordered first r) : Ordered first (join x l r) := by
  unfold join
  split
  · exact ⟨hx, hl, hr⟩
  · refine ⟨fun y hy => hx y ?_, hr, hl⟩
    simpa [or_comm] using hy

theorem ordered_meldInto (hc : Comparable first P) {k : Nat} {x : α} {l r : Heap α}
    {meldRest : Heap α → Heap α} (hin : Within P (node k x l r))
    (hord : Ordered first (node k x l r))
    (hperm : ∀ h, (meldRest h).toList.Perm (r.toList ++ h.toList))
    (hrest : ∀ h, Within P h → Ordered first h → Ordered first (meldRest h))
    {h : Heap α} (hinh : Within P h) (hordh : Ordered first h) :
    Ordered first (meldInto first x l meldRest (node k x l r) h) := by
  have hPx : P x := hin x (by simp)
  obtain ⟨htop, hl, _⟩ := id hord
  induction h with
  | empty => exact hord
  | node j y l' r' _ ih =>
      obtain ⟨hy, hl', hr'⟩ := id hordh
      have hPy : P y := hinh y (by simp)
      unfold meldInto
      split
      · rename_i hxy
        refine ordered_join ?_ hl (hrest _ hinh hordh)
        intro z hz
        rw [List.mem_append, (hperm _).mem_iff, List.mem_append, toList_node, List.mem_cons] at hz
        rcases hz with hz | hz | rfl | hz
        · exact htop z (List.mem_append_left _ hz)
        · exact htop z (List.mem_append_right _ hz)
        · exact hxy
        · exact hc.trans hPx hPy (hinh z (List.mem_cons_of_mem _ hz)) hxy (hy z hz)
      · rename_i hxy
        have hyx : first y x = true := hc.total hPx hPy (by simpa using hxy)
        refine ordered_join ?_ hl' (ih (fun z hz => hinh z (by simp [hz])) hr')
        intro z hz
        rw [List.mem_append, (toList_meldInto first x l r _ meldRest hperm rfl r').mem_iff,
          List.mem_append, toList_node, List.mem_cons] at hz
        rcases hz with hz | (rfl | hz) | hz
        · exact hy z (List.mem_append_left _ hz)
        · exact hyx
        · exact hc.trans hPy hPx (hin z (List.mem_cons_of_mem _ hz)) hyx (htop z hz)
        · exact hy z (List.mem_append_right _ hz)

theorem ordered_meld (hc : Comparable first P) {a b : Heap α} (ha : Within P a)
    (hoa : Ordered first a) (hb : Within P b) (hob : Ordered first b) :
    Ordered first (meld first a b) := by
  induction a generalizing b with
  | empty => exact hob
  | node k x l r _ ihr =>
      have hr : Within P r := fun y hy => ha y (by simp [hy])
      exact ordered_meldInto hc ha hoa (toList_meld first r)
        (fun h hin hord => ihr hr hoa.2.2 hin hord) hb hob

theorem ordered_insert (hc : Comparable first P) {x : α} {h : Heap α} (hx : P x)
    (hh : Within P h) (hord : Ordered first h) : Ordered first (insert first x h) := by
  refine ordered_meld hc ?_ ⟨by simp, trivial, trivial⟩ hh hord
  intro y hy
  rw [show y = x by simpa using hy]
  exact hx

theorem first_of_pop {h rest : Heap α} {x : α} (hord : Ordered first h)
    (hp : h.pop? first = some (x, rest)) : ∀ y ∈ rest.toList, first x y := by
  cases h with
  | empty => simp [pop?] at hp
  | node k y l r =>
      simp only [pop?, Option.some.injEq, Prod.mk.injEq] at hp
      obtain ⟨rfl, rfl⟩ := hp
      intro z hz
      exact hord.1 z ((toList_meld first l r).mem_iff.mp hz)

theorem ordered_of_pop (hc : Comparable first P) {h rest : Heap α} {x : α} (hh : Within P h)
    (hord : Ordered first h) (hp : h.pop? first = some (x, rest)) : Ordered first rest := by
  cases h with
  | empty => simp [pop?] at hp
  | node k y l r =>
      simp only [pop?, Option.some.injEq, Prod.mk.injEq] at hp
      obtain ⟨rfl, rfl⟩ := hp
      exact ordered_meld hc (fun z hz => hh z (by simp [hz])) hord.2.1
        (fun z hz => hh z (by simp [hz])) hord.2.2

/-! ## Mapped elements -/

section Map

variable {β : Type} {first' : β → β → Bool} (f : α → β)

def map : Heap α → Heap β
  | empty => empty
  | node k x l r => node k (f x) l.map r.map

theorem toList_map (h : Heap α) : (h.map f).toList = h.toList.map f := by
  induction h with
  | empty => rfl
  | node k x l r ihl ihr => simp [map, ihl, ihr]

theorem rank_map (h : Heap α) : (h.map f).rank = h.rank := by
  cases h with
  | empty => rfl
  | node k x l r => rfl

theorem map_join (x : α) (l r : Heap α) : (join x l r).map f = join (f x) (l.map f) (r.map f) := by
  unfold join
  rw [rank_map, rank_map]
  split
  · rfl
  · rfl

variable {f} (hf : ∀ x y : α, first' (f x) (f y) = first x y)

include hf

theorem map_meldInto {meldRest : Heap α → Heap α} {meldRest' : Heap β → Heap β}
    (hrest : ∀ h, (meldRest h).map f = meldRest' (h.map f)) (x : α) (l whole h : Heap α) :
    (meldInto first x l meldRest whole h).map f =
      meldInto first' (f x) (l.map f) meldRest' (whole.map f) (h.map f) := by
  induction h with
  | empty => rfl
  | node k y l' r' _ ih =>
      simp only [meldInto, map, hf]
      split
      · rw [map_join, hrest]
        rfl
      · rw [map_join, ih]

theorem map_meld (a b : Heap α) : (meld first a b).map f = meld first' (a.map f) (b.map f) := by
  induction a generalizing b with
  | empty => rfl
  | node k x l r _ ih => exact map_meldInto hf ih x l _ b

theorem map_insert (x : α) (h : Heap α) :
    (insert first x h).map f = insert first' (f x) (h.map f) :=
  map_meld hf _ h

theorem pop?_map (h : Heap α) :
    (h.map f).pop? first' = (h.pop? first).map fun c => (f c.1, c.2.map f) := by
  cases h with
  | empty => rfl
  | node k x l r =>
      unfold pop?
      rw [Option.map_some, map_meld hf]
      rfl

end Map

end Geodesic.Heap
