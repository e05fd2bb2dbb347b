import Geodesic.Proofs.Paths.Placed

/-!
# Renumbered edges

Searches only store edge numbers. So a search along renumbered steps leaves the tables of the
original search, renumbered.
-/

namespace Geodesic

def renumber {n k m : Nat} (φ : Fin k → Fin m) (a : Fin k × Fin n) : Fin m × Fin n :=
  (φ a.1, a.2)

def Placement.ofEdges {n k m : Nat} (φ : Fin k → Fin m) : Placement n k n m where
  vertex := id
  edge := φ
  vertex_le_iff _ _ := Iff.rfl

variable {D S : Type} {n k m : Nat} (φ : Fin k → Fin m) {out : Fin n → List (Fin k × Fin n)}
  {out' : Fin n → List (Fin m × Fin n)}

namespace Paths

def relabel (p : Paths D S n k) : Paths D S n m where
  source := p.source
  dist := p.dist
  sigma := p.sigma
  preds := p.preds.map fun steps => steps.map (renumber φ)
  order := p.order

theorem preds_relabel (p : Paths D S n k) (v : Fin n) :
    (p.relabel φ).preds[v] = p.preds[v].map (renumber φ) :=
  Table.getElem_map _ _ v

theorem placed_relabel (p : Paths D S n k) : Placed (.ofEdges φ) p (p.relabel φ) where
  source := (congrFun Option.map_id p.source).symm
  dist _ := rfl
  sigma _ := rfl
  preds _ := rfl
  order := (Array.map_id p.order).symm

variable {φ}

theorem Placed.eq_relabel {p : Paths D S n k} {q : Paths D S n m}
    (h : Placed (.ofEdges φ) p q) : q = p.relabel φ := by
  have hsource : q.source = p.source := h.source.trans (congrFun Option.map_id p.source)
  have horder : q.order = p.order := h.order.trans (Array.map_id p.order)
  obtain ⟨source, dist, sigma, preds, order⟩ := q
  obtain rfl : source = p.source := hsource
  obtain rfl : dist = p.dist := Table.ext h.dist
  obtain rfl : sigma = p.sigma := Table.ext h.sigma
  obtain rfl : preds = (p.relabel φ).preds := Table.ext h.preds
  obtain rfl : order = p.order := horder
  rfl

variable [Zero S] (φ)

theorem relabel_fresh [Distance D] : (fresh D S n k).relabel φ = fresh D S n m :=
  (placed_fresh (.ofEdges φ)).eq_relabel.symm

variable [One S] [Add S] (hout : ∀ v, out' v = (out v).map (renumber φ))

include hout

theorem relabel_breadthFirst (s : Fin n) (p : Paths Hops S n k) :
    (p.breadthFirst out s).relabel φ = (p.relabel φ).breadthFirst out' s := by
  have hstart := ((placed_relabel φ p).restart s).visit s
  exact (hstart.sweep hout n 0).eq_relabel.symm

end Paths

theorem Frontier.relabel_weighted [Distance D] [Zero S] [One S] [Add S] {weights : Table D k}
    {weights' : Table D m} (hweights : ∀ e : Fin k, weights'[φ e] = weights[e])
    (hout : ∀ v, out' v = (out v).map (renumber φ)) (s : Fin n) (p : Paths D S n k) :
    (p.weighted out weights s).relabel φ = (p.relabel φ).weighted out' weights' s := by
  have hplaced := Frontier.placed_weighted (i := .ofEdges φ) hweights hout
    (Paths.placed_relabel φ p) s
  exact hplaced.eq_relabel.symm

end Geodesic
