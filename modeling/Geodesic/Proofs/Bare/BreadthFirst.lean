import Geodesic.Proofs.Bare.Tables
import Geodesic.Proofs.Paths.BreadthFirst.Final

/-!
# Breadth-first search in bare arrays

Hop counts are stored in words of which the largest, `limit`, marks what is not reached. The search
fails where a count grows beyond the words below the mark. It never does: on every level up to that
of a vertex lies another vertex, so on `n` vertices all counts are below `n`.
-/

namespace Geodesic

/-! ## Levels are below the number of vertices -/

namespace Paths.Sweeping

variable {S : Type} {n m : Nat} [Zero S] [One S] [Add S] {out : Fin n → List (Fin m × Fin n)}
  {s u v : Fin n} {done : List (Fin n)} {todo : List (Fin m × Fin n)} {p : Paths Hops S n m}

theorem exists_level (h : Sweeping out s done u todo p) (hv : v ∈ p.order.toList) {k : Nat}
    (hk : k ≤ p.level v) : ∃ w ∈ p.order.toList, p.level w = k := by
  generalize hj : p.level v = j at hk
  induction j generalizing v with
  | zero => exact ⟨v, hv, by omega⟩
  | succ j ih =>
      by_cases heq : k = j + 1
      · exact ⟨v, hv, by omega⟩
      · have hvs : v ≠ s := by
          rintro rfl
          rw [level_of_dist h.dist_source] at hj
          omega
        obtain ⟨a, ha⟩ := List.exists_mem_of_ne_nil _ ((h.known v hv).resolve_left hvs)
        obtain ⟨_, hdone, hlevel⟩ := h.step v a ha
        exact ih (h.visited_of_done hdone) (by omega) (by omega)

theorem level_lt (h : Sweeping out s done u todo p) (hv : v ∈ p.order.toList) : p.level v < n := by
  have hlevels : List.range (p.level v + 1) ⊆ p.order.toList.map p.level := by
    intro k hk
    obtain ⟨w, hw, rfl⟩ := h.exists_level hv (Nat.lt_succ_iff.mp (List.mem_range.mp hk))
    exact List.mem_map_of_mem hw
  have hcount := (List.nodup_range.subperm hlevels).length_le
  rw [List.length_range, List.length_map] at hcount
  exact hcount.trans h.length_order_le

theorem hops_lt (h : Sweeping out s done u todo p) (v : Fin n) {k : Nat}
    (hk : p.dist[v] = some k) : k < n := by
  rw [← level_of_dist hk]
  exact h.level_lt ((h.visited_iff v).mpr (by simp [hk]))

end Paths.Sweeping

theorem Paths.Tidy.hops_lt {S : Type} {n m : Nat} [Zero S] [One S] [Add S]
    {out : Fin n → List (Fin m × Fin n)} {p : Paths Hops S n m} (hp : p.Tidy)
    (hout : ∀ v, (out v).Nodup) (s v : Fin n) {k : Nat}
    (hk : (p.breadthFirst out s).dist[v] = some k) : k < n := by
  obtain ⟨u, h⟩ := exists_swept hp hout s
  exact h.hops_lt v hk

namespace Bare

/-! ## Words -/

def word (limit : Nat) (d : Hops) : Nat :=
  d.getD limit

/-- One hop more, unless that wraps around or makes the mark. -/
def succ? (limit d : Nat) : Option Nat :=
  if d + 1 < limit then some (d + 1) else none

/-! ## The search -/

namespace Cells

variable {S : Type}

def discover (limit d : Nat) (c : Cells Nat S) (v : Nat) : Option (Cells Nat S) := do
  let known ← c.dist[v]?
  if known = limit then
    let dist ← write c.dist v d
    some { c.visit v with dist }
  else some c

def countStep [Add S] (u d : Nat) (c : Cells Nat S) (a : Nat × Nat) : Option (Cells Nat S) := do
  let known ← c.dist[a.2]?
  if known = d then c.count u a else some c

def followStep [Add S] (limit u d : Nat) (c : Cells Nat S) (a : Nat × Nat) :
    Option (Cells Nat S) := do
  let c ← c.discover limit d a.2
  c.countStep u d a

def expand [Add S] (limit : Nat) (out : Array (List (Nat × Nat))) (c : Cells Nat S) (u : Nat) :
    Option (Cells Nat S) := do
  let d ← c.dist[u]?
  let next ← succ? limit d
  let leaving ← out[u]?
  leaving.foldlM (followStep limit u next) c

/-- Fuel that runs out while a vertex waits is a failure as well. -/
def sweep [Add S] (limit : Nat) (out : Array (List (Nat × Nat))) :
    Nat → Nat → Cells Nat S → Option (Cells Nat S)
  | 0, i, c => if i < c.order.size then none else some c
  | fuel + 1, i, c =>
      match c.order[i]? with
      | none => some c
      | some u => do
          let c ← c.expand limit out u
          sweep limit out fuel (i + 1) c

def breadthFirst [Zero S] [One S] [Add S] (limit n : Nat) (out : Array (List (Nat × Nat)))
    (s : Nat) (c : Cells Nat S) : Option (Cells Nat S) := do
  let c ← c.restart limit 0 s
  sweep limit out n 0 (c.visit s)

end Cells

/-! ## It follows the typed search -/

section Follow

variable {S : Type} {n m limit : Nat}

def Below (limit : Nat) (p : Paths Hops S n m) : Prop :=
  ∀ (v : Fin n) (k : Nat), p.dist[v] = some k → k < limit

section Word

variable {p : Paths Hops S n m} (hp : Below limit p) (v : Fin n)

include hp

theorem word_eq_mark_iff : word limit p.dist[v] = limit ↔ p.dist[v] = none := by
  cases hd : p.dist[v] with
  | none => simp [word]
  | some k => simpa [word] using (hp v k hd).ne

omit hp in
theorem word_eq_iff {d : Nat} (hd : d < limit) : word limit p.dist[v] = d ↔ p.dist[v] = some d := by
  cases hk : p.dist[v] with
  | none => simpa [word] using hd.ne'
  | some k => simp [word]

theorem discover_cells {d : Nat} (hd : d < limit) :
    (cells (word limit) p).discover limit d v.val =
      some (cells (word limit) (p.discover (some d) v)) ∧ Below limit (p.discover (some d) v) := by
  have hknown : (cells (word limit) p).dist[v.val]? = some (word limit p.dist[v]) := by
    simp [cells]
  unfold Cells.discover Paths.discover
  rw [hknown, Option.bind_eq_bind, Option.bind_some]
  by_cases hnone : p.dist[v] = none
  · rw [if_pos ((word_eq_mark_iff hp v).mpr hnone), if_pos hnone]
    constructor
    · simp [cells, Cells.visit, Paths.visit, Table.map_set, word]
    · intro w k hk
      rw [Table.getElem_set] at hk
      split at hk
      · exact Option.some.inj hk ▸ hd
      · exact hp w k hk
  · rw [if_neg (mt (word_eq_mark_iff hp v).mp hnone), if_neg hnone]
    exact ⟨rfl, hp⟩

variable [Add S]

theorem countStep_cells (u : Fin n) {d : Nat} (hd : d < limit) (a : Fin m × Fin n) :
    (cells (word limit) p).countStep u.val d (step a) =
      some (cells (word limit) (p.countStep u (some d) a)) ∧
        Below limit (p.countStep u (some d) a) := by
  have hknown : (cells (word limit) p).dist[(step a).2]? = some (word limit p.dist[a.2]) := by
    simp [cells, step]
  unfold Cells.countStep Paths.countStep
  rw [hknown, Option.bind_eq_bind, Option.bind_some]
  by_cases hsame : p.dist[a.2] = some d
  · rw [if_pos ((word_eq_iff a.2 hd).mpr hsame), if_pos hsame]
    exact ⟨count_cells (word limit) p u a, hp⟩
  · rw [if_neg (mt (word_eq_iff a.2 hd).mp hsame), if_neg hsame]
    exact ⟨rfl, hp⟩

theorem followStep_cells (u : Fin n) {d : Nat} (hd : d < limit) (a : Fin m × Fin n) :
    (cells (word limit) p).followStep limit u.val d (step a) =
      some (cells (word limit) (p.followStep u (some d) a)) ∧
        Below limit (p.followStep u (some d) a) := by
  obtain ⟨hdiscover, hbelow⟩ := discover_cells hp a.2 hd
  unfold Cells.followStep
  rw [show (step a).2 = a.2.val from rfl, hdiscover]
  exact countStep_cells hbelow u hd a

theorem expand_cells (out : Fin n → List (Fin m × Fin n)) {u : Fin n} {k : Nat}
    (hu : p.dist[u] = some k) (hk : k + 1 < limit) :
    (cells (word limit) p).expand limit (steps out) u.val =
      some (cells (word limit) (p.expand out u)) := by
  have hknown : (cells (word limit) p).dist[u.val]? = some k := by
    simp [cells, hu, word]
  have hnext : succ? limit k = some (k + 1) := if_pos hk
  unfold Cells.expand Paths.expand
  rw [hknown, hu, getElem?_steps]
  simp only [Option.bind_eq_bind, Option.bind_some, hnext, Option.map_some]
  exact (foldlM_observe (P := Below limit) (fun _ hq a _ => followStep_cells hq u hk a) hp).1

end Word

variable [Zero S] [One S] [Add S] {out : Fin n → List (Fin m × Fin n)} {s u : Fin n}
  {done : List (Fin n)} {p : Paths Hops S n m}

theorem below_of_sweeping (hlimit : n < limit) {todo : List (Fin m × Fin n)}
    (h : Paths.Sweeping out s done u todo p) : Below limit p :=
  fun v _ hk => (h.hops_lt v hk).trans hlimit

theorem sweep_cells (hlimit : n < limit) (hout : ∀ v, (out v).Nodup) (fuel : Nat)
    (h : Paths.Sweeping out s done u [] p) (hfuel : n ≤ fuel + done.length) :
    (cells (word limit) p).sweep limit (steps out) fuel done.length =
      some (cells (word limit) (Paths.sweep out fuel done.length p)) := by
  induction fuel generalizing done u p with
  | zero =>
      have hsize := h.length_order_le
      rw [Array.length_toList] at hsize
      have hdone : ¬ done.length < (cells (word limit) p).order.size := by
        simp only [cells, Array.size_map]
        omega
      unfold Cells.sweep Paths.sweep
      rw [if_neg hdone]
  | succ fuel ih =>
      unfold Cells.sweep Paths.sweep
      split
      · rename_i hnone
        have hdone : ¬ done.length < p.order.size := by simpa [cells] using hnone
        rw [dif_neg hdone]
      · rename_i w hsome
        have hi : done.length < p.order.size := by
          by_contra hdone
          simp [cells, hdone] at hsome
        have hw : p.order[done.length].val = w := by
          simpa [cells, hi] using hsome
        have hvisited : p.order[done.length] ∈ p.order.toList := by simp
        have hdist := Paths.dist_eq_level ((h.visited_iff _).mp hvisited)
        have hlevel := h.level_lt hvisited
        have hexpand := expand_cells (below_of_sweeping hlimit h) out hdist (by omega)
        rw [dif_pos hi, ← hw, hexpand, Option.bind_eq_bind, Option.bind_some]
        have hlength : (done ++ [p.order[done.length]]).length = done.length + 1 := by simp
        rw [← hlength]
        exact ih (h.expand hout hi) (by omega)

/-- No access of a breadth-first search is out of range, and no count wraps around or is taken for
the mark. -/
theorem breadthFirst_cells (hlimit : n < limit) (hout : ∀ v, (out v).Nodup) (hp : p.Tidy)
    (s : Fin n) : (cells (word limit) p).breadthFirst limit n (steps out) s.val =
      some (cells (word limit) (p.breadthFirst out s)) := by
  unfold Cells.breadthFirst
  rw [show (cells (word limit) p).restart limit 0 s.val = some (cells (word limit) (p.restart s))
    from restart_cells (word limit) p s, Option.bind_eq_bind, Option.bind_some, visit_cells]
  exact sweep_cells hlimit hout n (Paths.Sweeping.start hp s) (by simp)

end Follow

end Bare

end Geodesic
