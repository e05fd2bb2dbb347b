import Geodesic.Proofs.Graph
import Geodesic.Proofs.Paths.BreadthFirst.Final
import Geodesic.Proofs.Paths.Relabel
import Geodesic.Proofs.Paths.Weighted.Final

/-!
# Reused tables

One set of tables serves any number of searches, even on different graphs with the same vertices.
What a search leaves does not depend on the searches before it. Tables have room for `m` edges, of
which each graph may use fewer.
-/

namespace Geodesic

structure HopRun (n m : Nat) where
  directed : Bool
  edges : Array (Edge n)
  fits : edges.size ≤ m
  source : Fin n

/-- A run by total weight. The weights may be any values whatever. -/
structure WeightRun (D : Type) (n m : Nat) extends HopRun n m where
  weights : Table D edges.size

namespace HopRun

variable {S : Type} {n m : Nat} [Zero S] [One S] [Add S]

def graph (r : HopRun n m) : Graph :=
  ⟨r.directed, n, r.edges⟩

def edgeOf (r : HopRun n m) (e : Fin r.edges.size) : Fin m :=
  Fin.castLE r.fits e

def out (r : HopRun n m) (v : Fin n) : List (Fin m × Fin n) :=
  (r.graph.outEdges v).map (renumber r.edgeOf)

def perform (p : Paths Hops S n m) (r : HopRun n m) : Paths Hops S n m :=
  p.breadthFirst r.out r.source

theorem nodup_out (r : HopRun n m) (v : Fin n) : (r.out v).Nodup := by
  apply (r.graph.nodup_outEdges v).map
  rintro ⟨e, w⟩ ⟨e', w'⟩ heq
  obtain ⟨hedge, hend⟩ := Prod.mk.inj heq
  have hedge : e = e' := Fin.castLE_injective r.fits hedge
  have hend : w = w' := hend
  rw [hedge, hend]

theorem tidy_runs (runs : List (HopRun n m)) {p : Paths Hops S n m} (hp : p.Tidy) :
    (runs.foldl perform p).Tidy := by
  induction runs generalizing p with
  | nil => exact hp
  | cons r runs ih => exact ih (Paths.tidy_breadthFirst hp r.nodup_out r.source)

end HopRun

namespace WeightRun

variable {D S : Type} {n m : Nat} [Distance D] [Zero S] [One S] [Add S]

/-- Edges that the graph does not have are never asked for. -/
def table (r : WeightRun D n m) : Table D m :=
  Table.ofFn fun e =>
    if h : e.val < r.edges.size then r.weights[(⟨e.val, h⟩ : Fin r.edges.size)]
    else Distance.unreached

def perform (p : Paths D S n m) (r : WeightRun D n m) : Paths D S n m :=
  p.weighted r.out r.table r.source

theorem table_edgeOf (r : WeightRun D n m) (e : Fin r.edges.size) :
    r.table[r.edgeOf e] = r.weights[e] := by
  have hlt : (r.edgeOf e).val < r.edges.size := e.isLt
  rw [table, Table.getElem_ofFn, dif_pos hlt]
  rfl

theorem tidy_runs (runs : List (WeightRun D n m)) {p : Paths D S n m} (hp : p.Tidy) :
    (runs.foldl perform p).Tidy := by
  induction runs generalizing p with
  | nil => exact hp
  | cons r runs ih => exact ih (Paths.tidy_weighted hp r.nodup_out r.source)

end WeightRun

namespace Paths

variable {D S : Type} {n m : Nat} [Distance D] [Zero S] [One S] [Add S]

/-- Two searches on tidy tables leave the same. -/
theorem Tidy.breadthFirst_eq {p : Paths Hops S n m} (hp : p.Tidy)
    (out : Fin n → List (Fin m × Fin n)) (s : Fin n) :
    p.breadthFirst out s = (fresh Hops S n m).breadthFirst out s := by
  unfold breadthFirst
  rw [hp.restart_eq]

theorem Tidy.weighted_eq {p : Paths D S n m} (hp : p.Tidy) (out : Fin n → List (Fin m × Fin n))
    (weights : Table D m) (s : Fin n) :
    p.weighted out weights s = (fresh D S n m).weighted out weights s := by
  unfold weighted Frontier.start
  rw [hp.restart_eq]

/-- After any runs on shared tables, the last run leaves what its graph leaves on fresh tables of
its own, with both kinds of search. -/
theorem reuse_eq_fresh :
    (∀ (runs : List (HopRun n m)) (r : HopRun n m),
      (runs ++ [r]).foldl HopRun.perform (fresh Hops S n m) =
        ((fresh Hops S n r.edges.size).breadthFirst r.graph.outEdges r.source).relabel r.edgeOf) ∧
    (∀ (runs : List (WeightRun D n m)) (r : WeightRun D n m),
      (runs ++ [r]).foldl WeightRun.perform (fresh D S n m) =
        ((fresh D S n r.edges.size).weighted r.graph.outEdges r.weights r.source).relabel
          r.edgeOf) := by
  constructor
  · intro runs r
    have htidy : (runs.foldl HopRun.perform (fresh Hops S n m)).Tidy :=
      HopRun.tidy_runs runs tidy_fresh
    have hout : ∀ v : Fin n, r.out v = (r.graph.outEdges v).map (renumber r.edgeOf) :=
      fun _ => rfl
    have hown := relabel_breadthFirst r.edgeOf hout r.source (fresh Hops S n r.edges.size)
    rw [relabel_fresh] at hown
    rw [List.foldl_append, List.foldl_cons, List.foldl_nil, HopRun.perform, htidy.breadthFirst_eq]
    exact hown.symm
  · intro runs r
    have htidy : (runs.foldl WeightRun.perform (fresh D S n m)).Tidy :=
      WeightRun.tidy_runs runs tidy_fresh
    have hout : ∀ v : Fin n, r.out v = (r.graph.outEdges v).map (renumber r.edgeOf) :=
      fun _ => rfl
    have hown := Frontier.relabel_weighted r.edgeOf r.table_edgeOf hout r.source
      (fresh D S n r.edges.size)
    rw [relabel_fresh] at hown
    rw [List.foldl_append, List.foldl_cons, List.foldl_nil, WeightRun.perform, htidy.weighted_eq]
    exact hown.symm

end Paths

end Geodesic
