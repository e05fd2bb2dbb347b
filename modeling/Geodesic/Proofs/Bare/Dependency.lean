import Geodesic.Dependency
import Geodesic.Proofs.Bare.Tables

/-!
# Dependencies and sums in bare arrays

The steps that dependencies are handed back along were recorded by a search, and the arrays that
they are added to have sizes of their own. Arrays are added only where their sizes agree: no entry is
left without a partner.
-/

namespace Geodesic

theorem Table.toArray_addEntries {S : Type} [Add S] {n : Nat} (xs ys : Table S n) :
    (xs.addEntries ys).toArray = Array.zipWith (· + ·) xs.toArray ys.toArray := by
  refine Array.ext (by simp) fun i hi _ => ?_
  have hn : i < n := by simpa using hi
  rw [Array.getElem_zipWith]
  exact Table.getElem_addEntries xs ys (⟨i, hn⟩ : Fin n)

namespace Bare

def zip {S T : Type} (f : T → S → T) (xs : Array T) (ys : Array S) : Option (Array T) :=
  if xs.size = ys.size then some (Array.zipWith f xs ys) else none

/-- A tally in bare arrays. -/
structure Sums (S : Type) where
  vertices : Array S
  edges : Array S

structure Debts (S : Type) where
  delta : Array S
  sums : Sums S

namespace Sums

variable {S : Type}

def zero [Zero S] (n m : Nat) : Sums S :=
  ⟨Array.replicate n 0, Array.replicate m 0⟩

def merge [Add S] (a b : Sums S) : Option (Sums S) := do
  let vertices ← zip (· + ·) a.vertices b.vertices
  let edges ← zip (· + ·) a.edges b.edges
  some ⟨vertices, edges⟩

def halve [Div S] [OfNat S 2] (a : Sums S) : Sums S :=
  ⟨a.vertices.map (· / 2), a.edges.map (· / 2)⟩

end Sums

namespace Debts

variable {L S : Type}

def creditStep [Add S] [Mul S] (c : Cells L S) (coeff : S) (d : Debts S) (a : Nat × Nat) :
    Option (Debts S) := do
  let paths ← c.sigma[a.2]?
  let delta ← update d.delta a.2 (· + paths * coeff)
  let edges ← update d.sums.edges a.1 (· + paths * coeff)
  some ⟨delta, { d.sums with edges }⟩

def creditVertex [Add S] (c : Cells L S) (d : Debts S) (w : Nat) : Option (Debts S) :=
  if c.source = some w then some d
  else do
    let owed ← d.delta[w]?
    let vertices ← update d.sums.vertices w (· + owed)
    some { d with sums := { d.sums with vertices } }

variable [Zero S]

def passBack [One S] [Add S] [Mul S] [Div S] [LE S] [DecidableLE S] (c : Cells L S) (d : Debts S)
    (w : Nat) : Option (Debts S) := do
  let paths ← c.sigma[w]?
  if paths ≤ 0 then some d
  else do
    let owed ← d.delta[w]?
    let entering ← c.preds[w]?
    let d ← entering.toList.foldlM (creditStep c ((1 + owed) / paths)) d
    d.creditVertex c w

def clear (d : Debts S) (v : Nat) : Option (Debts S) := do
  let delta ← write d.delta v 0
  some { d with delta }

def accumulate [One S] [Add S] [Mul S] [Div S] [LE S] [DecidableLE S] (c : Cells L S)
    (d : Debts S) : Option (Debts S) := do
  let d ← c.order.toList.reverse.foldlM (passBack c) d
  c.order.toList.foldlM clear d

end Debts

/-! ## They follow the typed ones -/

section Follow

variable {D L S : Type} {n m : Nat}

def sums (t : Tally S n m) : Sums S :=
  ⟨t.vertices.toArray, t.edges.toArray⟩

def debts (d : Dependency S n m) : Debts S :=
  ⟨d.delta.toArray, sums d.tally⟩

theorem merge_sums [Add S] (a b : Tally S n m) :
    (sums a).merge (sums b) = some (sums (a.merge b)) := by
  simp [Sums.merge, sums, Tally.merge, zip, Table.toArray_addEntries]

theorem halve_sums [Div S] [OfNat S 2] (t : Tally S n m) : (sums t).halve = sums t.halve := rfl

variable (code : D → L) (p : Paths D S n m)

theorem creditStep_debts [Add S] [Mul S] (coeff : S) (d : Dependency S n m) (a : Fin m × Fin n) :
    (debts d).creditStep (cells code p) coeff (step a) =
      some (debts (d.creditStep p coeff a)) := by
  simp [Debts.creditStep, Dependency.creditStep, Tally.addEdge, debts, sums, cells, step]

theorem creditVertex_debts [Add S] (d : Dependency S n m) (w : Fin n) :
    (debts d).creditVertex (cells code p) w.val = some (debts (d.creditVertex p w)) := by
  have hsource : (cells code p).source = some w.val ↔ p.source = some w := by
    simp [cells, Fin.val_inj]
  unfold Debts.creditVertex Dependency.creditVertex
  by_cases hw : p.source = some w
  · rw [if_pos (hsource.mpr hw), if_pos hw]
  · rw [if_neg (mt hsource.mp hw), if_neg hw]
    simp [debts, sums, Tally.addVertex]

variable [Zero S]

theorem clear_debts (d : Dependency S n m) (v : Fin n) :
    (debts d).clear v.val = some (debts (d.clear v)) := by
  simp [Debts.clear, Dependency.clear, debts]

variable [One S] [Add S] [Mul S] [Div S] [LE S] [DecidableLE S]

theorem passBack_debts (d : Dependency S n m) (w : Fin n) :
    (debts d).passBack (cells code p) w.val = some (debts (d.passBack p w)) := by
  have hpaths : (cells code p).sigma[w.val]? = some p.sigma[w] :=
    Table.getElem?_toArray p.sigma w
  have howed : (debts d).delta[w.val]? = some d.delta[w] :=
    Table.getElem?_toArray d.delta w
  have hentering : (cells code p).preds[w.val]? = some (p.preds[w].map step) := by
    simp [cells]
  unfold Debts.passBack Dependency.passBack
  simp only [hpaths, howed, hentering, Option.bind_eq_bind, Option.bind_some]
  split
  · rfl
  · rw [Array.toList_map, foldlM_observe_of_forall (creditStep_debts code p _), Array.foldl_toList,
      Option.bind_some, creditVertex_debts]

theorem accumulate_debts (d : Dependency S n m) :
    (debts d).accumulate (cells code p) = some (debts (d.accumulate p)) := by
  have horder : (cells code p).order.toList = p.order.toList.map Fin.val :=
    Array.toList_map
  unfold Debts.accumulate Dependency.accumulate
  rw [horder, ← List.map_reverse, foldlM_observe_of_forall (passBack_debts code p),
    Option.bind_eq_bind, Option.bind_some, foldlM_observe_of_forall clear_debts,
    ← Array.toList_reverse, Array.foldl_toList, Array.foldl_toList]

end Follow

end Bare

end Geodesic
