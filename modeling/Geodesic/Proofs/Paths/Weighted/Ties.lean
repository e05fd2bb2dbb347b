import Geodesic.Proofs.Paths.Weighted.Shortest

/-!
# Ties in a search by total weight

Of the entered vertices at one distance the one with the lowest number is settled first. With the
distances this determines the order of a search, so neither the way in which the steps of a vertex
are listed nor its loops show in what the search leaves.
-/

namespace Geodesic

open Distance (Admissible AtMost Lawful Reached shorter same total)

variable {D S : Type} {n m : Nat} [Distance D]

/-- When `w` is settled and `v` is entered but still open, `v` is farther or not of a lower number. -/
def Paths.TiesByNumber (p : Paths D S n m) : Prop :=
  ∀ (v w : Fin n) (a : Fin m × Fin n), a ∈ p.preds[v].toList → Before p.order.toList a.2 w →
    ¬ Before p.order.toList v w → AtMost p.dist[v] p.dist[w] → w ≤ v

namespace Frontier

open Paths (TiesByNumber)

variable [Zero S] [One S] [Add S] {out : Fin n → List (Fin m × Fin n)} {weights : Table D m}
  {s u : Fin n} {f : Frontier D S n m} {a : Fin m × Fin n} {todo : List (Fin m × Fin n)}

/-! ## One entry -/

/-- A step from the vertex settled last enters its end after all that is settled. -/
theorem tiesByNumber_relax (h : f.paths.TiesByNumber) (hrec : Record out weights s f)
    {l : List (Fin n)} (hlast : f.paths.order.toList = l ++ [u]) (reach : D) :
    (f.relax weights u reach a).paths.TiesByNumber := by
  have hnodup := hrec.nodup
  rw [hlast] at hnodup
  have hu : u ∉ l := notMem_of_nodup hnodup
  have hbehind : ∀ w, ¬ Before f.paths.order.toList u w := by
    intro w
    rw [hlast]
    exact Before.not_last hu
  have hr := relaxed_relax weights u reach f a
  generalize f.relax weights u reach a = f' at hr
  cases hr with
  | settled _ => exact h
  | unreached _ _ => exact h
  | longer _ _ _ _ => exact h
  | improved hopen _ _ =>
      intro v w b hb hbw hvw hle
      rw [order_improve] at hbw hvw
      rw [preds_improve] at hb
      split at hb
      · rw [List.mem_singleton.mp hb] at hbw
        exact absurd hbw (hbehind w)
      · rename_i hav
        have haw : a.2 ≠ w := by
          intro heq
          apply hrec.not_visited hopen
          rw [heq]
          exact hbw.right_mem
        rw [dist_improve, dist_improve, if_neg hav, if_neg haw] at hle
        exact h v w b hb hbw hvw hle
  | tied _ _ _ _ =>
      intro v w b hb hbw hvw hle
      rw [preds_tie] at hb
      split at hb
      · rw [Array.toList_push, List.mem_append, List.mem_singleton] at hb
        rcases hb with hb | hb
        · exact h v w b hb hbw hvw hle
        · rw [hb] at hbw
          exact absurd hbw (hbehind w)
      · exact h v w b hb hbw hvw hle

theorem tiesByNumber_scan (h : f.paths.TiesByNumber) (hrec : Record out weights s f)
    (hscan : Scanning out u todo f) {l : List (Fin n)} (hlast : f.paths.order.toList = l ++ [u])
    {reach : D} (hreach : f.paths.dist[u] = reach) :
    (todo.foldl (Frontier.relax weights u reach) f).paths.TiesByNumber := by
  induction todo generalizing f with
  | nil => exact h
  | cons a todo ih =>
      have hnext := hrec.relax hscan.visited (hscan.steps a (by simp)) (hscan.untried a (by simp))
      rw [hreach] at hnext
      apply ih (tiesByNumber_relax h hrec hlast reach) hnext (hscan.relax reach)
      · rw [(revised_relax weights u reach f a).order]
        exact hlast
      · rw [hrec.dist_relax reach hscan.visited, hreach]

variable [Lawful D]

omit [Zero S] [One S] [Add S] in
/-- The entry that leaves the heap has the lowest number of its distance. -/
theorem Optimal.lowest (h : Optimal out weights u [] f) {c : Candidate D n}
    {rest : Heap (Candidate D n)} (hpop : f.pending.pop? Candidate.before = some (c, rest))
    {v : Fin n} (hv : v ∉ f.paths.order.toList) (hne : f.paths.preds[v].toList ≠ [])
    (hle : AtMost f.paths.dist[v] f.paths.dist[c.vertex]) : c.vertex ≤ v := by
  have hperm := Heap.toList_pop _ hpop
  have hmem : c ∈ f.pending.toList := hperm.mem_iff.mpr (by simp)
  have hentry := h.current v hv hne
  have hclose : AtMost f.paths.dist[v] c.distance :=
    Lawful.trans (h.admissible v) (h.admissible c.vertex) (h.entries c hmem) hle (h.stale c hmem)
  rcases List.mem_cons.mp (hperm.mem_iff.mp hentry) with heq | hrest
  · rw [← heq]
  · have hfirst := Heap.first_of_pop h.ordered hpop _ hrest
    rcases (Candidate.before_iff _ _).mp hfirst with hlt | hle
    · rw [AtMost, hlt] at hclose
      cases hclose
    · exact hle.2

omit [Zero S] [One S] [Add S] in
theorem tiesByNumber_mark (h : f.paths.TiesByNumber) (hopt : Optimal out weights u [] f)
    {c : Candidate D n} {rest : Heap (Candidate D n)}
    (hpop : f.pending.pop? Candidate.before = some (c, rest)) :
    (f.mark c.vertex rest).paths.TiesByNumber := by
  intro v w b hb hbw hvw hle
  rw [order_mark] at hbw hvw
  rcases hbw.of_concat with hold | hnew
  · exact h v w b hb hold (fun hvw' => hvw (hvw'.concat _)) hle
  · obtain ⟨_, rfl⟩ := hnew
    have hv : v ∉ f.paths.order.toList := fun hmem => hvw (Before.last hmem _)
    exact hopt.lowest hpop hv (List.ne_nil_of_mem hb) hle

theorem tiesByNumber_advance (hrec : Record out weights s f)
    (hweights : ∀ e : Fin m, Admissible weights[e]) (hout : ∀ u, (out u).Nodup)
    (h : (∃ u, Optimal out weights u [] f) ∧ f.paths.TiesByNumber) {f' : Frontier D S n m}
    (hadv : f.advance? out weights = some f') :
    (∃ u, Optimal out weights u [] f') ∧ f'.paths.TiesByNumber := by
  obtain ⟨⟨u, hopt⟩, hties⟩ := h
  refine ⟨Optimal.advance hrec hweights hout ⟨u, hopt⟩ hadv, ?_⟩
  cases advanced_of_advance hadv with
  | stale c rest hpop hc => exact hties
  | settled c rest hpop hc =>
      exact tiesByNumber_scan (tiesByNumber_mark hties hopt hpop)
        (hrec.mark (Heap.toList_pop _ hpop) hc) (hrec.scanning_mark (hout _) hc rest)
        (order_mark ..) rfl

end Frontier

/-! ## The order of a search -/

namespace Paths

section Search

variable [Zero S] [One S] [Add S] [Lawful D] {out : Fin n → List (Fin m × Fin n)}
  {weights : Table D m} (hweights : ∀ e : Fin m, Admissible weights[e]) {p : Paths D S n m}
  (hp : p.Tidy) (hout : ∀ u, (out u).Nodup)

include hweights hp hout

omit [Lawful D] hweights in
theorem tiesByNumber_settleSource (s : Fin n) :
    (settleSource out weights s p).paths.TiesByNumber := by
  apply Frontier.tiesByNumber_scan (l := []) ?_ (Frontier.Record.start hp s)
    (scanning_start hp hout s) (Frontier.order_mark ..) (dist_restart_self p s)
  intro v w b hb
  have hnil : ((Frontier.start s p).mark s Heap.empty).paths.preds[v].toList = [] :=
    congrArg Array.toList (hp.preds_restart s v)
  rw [hnil] at hb
  cases hb

theorem tiesByNumber_weighted (s : Fin n) : (p.weighted out weights s).TiesByNumber := by
  obtain ⟨f, hf, _, _, _, hties⟩ := exists_final hp hout s
    ⟨⟨s, optimal_settleSource hweights hp hout s⟩, tiesByNumber_settleSource hp hout s⟩
    fun f f' hrec h hadv => Frontier.tiesByNumber_advance hrec hweights hout h hadv
  rw [← hf]
  exact hties

end Search

end Paths

end Geodesic
