import Geodesic.Proofs.Paths.Weighted.Ties

/-!
# The search without a heap

The textbook search looks at all vertices for the one to settle next: among those that some way is
known to and that are not settled, the nearest, and of several at one distance the one with the
lowest number. A heap with stale entries finds the same vertex. The entry of its present distance is
in the heap, every other entry of an open vertex leaves after it, and entries of settled vertices are
dropped.
-/

namespace Geodesic

open Distance (Admissible AtMost Lawful Reached same shorter)

variable {D S : Type} {n m : Nat} [Distance D]

/-- Tables of a search, and the vertices whose steps have been followed. -/
structure Survey (D S : Type) (n m : Nat) where
  paths : Paths D S n m
  settled : Table Bool n

namespace Survey

/-- A way to `v` is known, and its steps are still to be followed. -/
def isOpen (q : Survey D S n m) (v : Fin n) : Bool :=
  !q.settled[v] && !same q.paths.dist[v] Distance.unreached

/-- Of two vertices keep the nearer one, and the first when neither is nearer. -/
def nearer (q : Survey D S n m) (best : Option (Fin n)) (v : Fin n) : Option (Fin n) :=
  if q.isOpen v then
    match best with
    | none => some v
    | some u => if shorter q.paths.dist[v] q.paths.dist[u] then some v else some u
  else best

/-- The open vertex to settle next, found by looking at all vertices in turn. -/
def nearest? (q : Survey D S n m) : Option (Fin n) :=
  (List.finRange n).foldl q.nearer none

def relax [Add S] (weights : Table D m) (u : Fin n) (reach : D) (q : Survey D S n m)
    (a : Fin m × Fin n) : Survey D S n m :=
  if q.settled[a.2] then q
  else
    let sum := Distance.add reach weights[a.1]
    if same sum Distance.unreached then q
    else if shorter sum q.paths.dist[a.2] then
      { q with
        paths := { q.paths with
          dist := q.paths.dist.set a.2 sum
          sigma := q.paths.sigma.set a.2 q.paths.sigma[u]
          preds := q.paths.preds.set a.2 #[(a.1, u)] } }
    else if same sum q.paths.dist[a.2] then
      { q with
        paths := { q.paths with
          sigma := q.paths.sigma.set a.2 (q.paths.sigma[a.2] + q.paths.sigma[u])
          preds := q.paths.preds.set a.2 (q.paths.preds[a.2].push (a.1, u)) } }
    else q

def settle [Add S] (out : Fin n → List (Fin m × Fin n)) (weights : Table D m)
    (q : Survey D S n m) (u : Fin n) : Survey D S n m :=
  (out u).foldl (relax weights u q.paths.dist[u]) ⟨q.paths.visit u, q.settled.set u true⟩

def run [Add S] (out : Fin n → List (Fin m × Fin n)) (weights : Table D m) :
    Nat → Survey D S n m → Survey D S n m
  | 0, q => q
  | fuel + 1, q =>
      match q.nearest? with
      | none => q
      | some u => run out weights fuel (q.settle out weights u)

end Survey

/-- The textbook search from `s` along the steps `out`, settling as many vertices as there are. -/
def Paths.surveyed [Zero S] [One S] [Add S] (out : Fin n → List (Fin m × Fin n))
    (weights : Table D m) (s : Fin n) (p : Paths D S n m) : Survey D S n m :=
  Survey.run out weights n ⟨p.restart s, Table.replicate n false⟩

def Paths.textbook [Zero S] [One S] [Add S] (out : Fin n → List (Fin m × Fin n))
    (weights : Table D m) (s : Fin n) (p : Paths D S n m) : Paths D S n m :=
  (p.surveyed out weights s).paths

namespace Survey

/-! ## The vertex to settle next -/

section Nearest

variable {q : Survey D S n m} {u v w : Fin n} {l : List (Fin n)} {best : Option (Fin n)}

def Precedes (q : Survey D S n m) (u v : Fin n) : Prop :=
  (⟨q.paths.dist[u], u⟩ : Candidate D n).before ⟨q.paths.dist[v], v⟩ = true

theorem precedes_iff : q.Precedes u v ↔ shorter q.paths.dist[u] q.paths.dist[v] = true ∨
    (AtMost q.paths.dist[u] q.paths.dist[v] ∧ u ≤ v) :=
  Candidate.before_iff _ _

/-- What looking at the vertices `l` has found. -/
inductive Found (q : Survey D S n m) (l : List (Fin n)) : Option (Fin n) → Prop
  | nothing (h : ∀ v ∈ l, q.isOpen v = false) : Found q l none
  | vertex {u : Fin n} (hmem : u ∈ l) (hopen : q.isOpen u = true)
      (hfirst : ∀ v ∈ l, q.isOpen v = true → q.Precedes u v) : Found q l (some u)

theorem Found.pass (h : Found q l best) (hw : q.isOpen w = false) : Found q (l ++ [w]) best := by
  cases h with
  | nothing h => exact .nothing (by simpa [or_imp, forall_and, hw] using h)
  | vertex hmem hopen hfirst =>
      exact .vertex (List.mem_append_left _ hmem) hopen
        (by simpa [or_imp, forall_and, hw] using hfirst)

variable [Lawful D] (hadm : ∀ v : Fin n, Admissible q.paths.dist[v])

include hadm

theorem precedes_refl (v : Fin n) : q.Precedes v v :=
  precedes_iff.mpr (Or.inr ⟨Distance.AtMost.refl (hadm v), le_rfl⟩)

theorem Precedes.trans (h : q.Precedes u v) (h' : q.Precedes v w) : q.Precedes u w :=
  Candidate.comparable_before.trans (hadm u) (hadm v) (hadm w) h h'

theorem Precedes.antisymm (h : q.Precedes u v) (h' : q.Precedes v u) : u = v := by
  have huv : AtMost q.paths.dist[u] q.paths.dist[v] :=
    Candidate.atMost_of_before (hadm u) (hadm v) h
  have hvu : AtMost q.paths.dist[v] q.paths.dist[u] :=
    Candidate.atMost_of_before (hadm v) (hadm u) h'
  rw [precedes_iff] at h h'
  simp only [show shorter q.paths.dist[u] q.paths.dist[v] = false from hvu,
    show shorter q.paths.dist[v] q.paths.dist[u] = false from huv, Bool.false_eq_true,
    false_or] at h h'
  exact Fin.le_antisymm h.2 h'.2

/-- A vertex of a higher number takes the place of the one found so far only if it is nearer. -/
theorem Found.look (h : Found q l best) (hl : ∀ v ∈ l, v < w) (hw : q.isOpen w = true) :
    Found q (l ++ [w]) (q.nearer best w) := by
  have hself := precedes_refl hadm w
  cases h with
  | nothing h =>
      simp only [nearer, hw, if_true]
      refine .vertex (by simp) hw fun v hv hopen => ?_
      rcases List.mem_append.mp hv with hv | hv
      · rw [h v hv] at hopen
        cases hopen
      · rw [List.mem_singleton.mp hv]
        exact hself
  | @vertex u hmem hopen hfirst =>
      cases hlt : shorter q.paths.dist[w] q.paths.dist[u] with
      | true =>
          have hwu : q.Precedes w u := precedes_iff.mpr (Or.inl hlt)
          simp only [nearer, hw, hlt, if_true]
          refine .vertex (by simp) hw fun v hv hvopen => ?_
          rcases List.mem_append.mp hv with hv | hv
          · exact hwu.trans hadm (hfirst v hv hvopen)
          · rw [List.mem_singleton.mp hv]
            exact hself
      | false =>
          have huw : q.Precedes u w := precedes_iff.mpr (Or.inr ⟨hlt, (hl u hmem).le⟩)
          simp only [nearer, hw, hlt, if_true, Bool.false_eq_true, if_false]
          refine .vertex (List.mem_append_left _ hmem) hopen fun v hv hvopen => ?_
          rcases List.mem_append.mp hv with hv | hv
          · exact hfirst v hv hvopen
          · rw [List.mem_singleton.mp hv]
            exact huw

theorem found_foldl (hl : l.Pairwise (· < ·)) : Found q l (l.foldl q.nearer none) := by
  induction l using List.reverseRecOn with
  | nil => exact .nothing (by simp)
  | append_singleton l w ih =>
      obtain ⟨hl, -, hlast⟩ := List.pairwise_append.mp hl
      rw [List.foldl_append, List.foldl_cons, List.foldl_nil]
      cases hw : q.isOpen w with
      | true => exact (ih hl).look hadm (fun v hv => hlast v hv w (by simp)) hw
      | false =>
          have hpass : q.nearer (l.foldl q.nearer none) w = l.foldl q.nearer none := by
            simp [nearer, hw]
          rw [hpass]
          exact (ih hl).pass hw

theorem found_nearest? : Found q (List.finRange n) q.nearest? :=
  found_foldl hadm (List.pairwise_lt_finRange n)

theorem nearest?_eq_some (hu : q.isOpen u = true)
    (hfirst : ∀ v, q.isOpen v = true → q.Precedes u v) : q.nearest? = some u := by
  have hfound := found_nearest? hadm
  generalize q.nearest? = best at hfound
  cases hfound with
  | nothing h =>
      rw [h u (List.mem_finRange u)] at hu
      cases hu
  | @vertex w _ hopen hbefore =>
      rw [(hbefore u (List.mem_finRange u) hu).antisymm hadm (hfirst w hopen)]

theorem nearest?_eq_none (h : ∀ v, q.isOpen v = false) : q.nearest? = none := by
  have hfound := found_nearest? hadm
  generalize q.nearest? = best at hfound
  cases hfound with
  | nothing _ => rfl
  | vertex _ hopen _ =>
      rw [h] at hopen
      cases hopen

end Nearest

section Run

variable [Add S] {out : Fin n → List (Fin m × Fin n)} {weights : Table D m} {q : Survey D S n m}

theorem run_of_some {u : Fin n} (h : q.nearest? = some u) {fuel : Nat} (hfuel : 0 < fuel) :
    q.run out weights fuel = (q.settle out weights u).run out weights (fuel - 1) := by
  obtain ⟨fuel, rfl⟩ := Nat.exists_eq_add_one.mpr hfuel
  simp [run, h]

theorem run_of_none (h : q.nearest? = none) (fuel : Nat) : q.run out weights fuel = q := by
  cases fuel with
  | zero => rfl
  | succ fuel => simp [run, h]

end Run

end Survey

namespace Frontier

open Survey (Precedes precedes_iff)

/-! ## The heap finds it -/

def survey (f : Frontier D S n m) : Survey D S n m :=
  ⟨f.paths, f.settled⟩

section Relax

variable [Add S] (weights : Table D m) (u : Fin n) (reach : D)

theorem survey_relax (f : Frontier D S n m) (a : Fin m × Fin n) :
    (f.relax weights u reach a).survey = f.survey.relax weights u reach a := by
  unfold relax Survey.relax survey
  dsimp only
  repeat' split
  all_goals rfl

theorem survey_scan (f : Frontier D S n m) (todo : List (Fin m × Fin n)) :
    (todo.foldl (relax weights u reach) f).survey =
      todo.foldl (Survey.relax weights u reach) f.survey :=
  (List.foldl_hom survey fun f a => (survey_relax weights u reach f a).symm).symm

end Relax

variable [Zero S] [One S] [Add S] [Lawful D] {out : Fin n → List (Fin m × Fin n)}
  {weights : Table D m} {s u v : Fin n} {f : Frontier D S n m}

/-- The open vertices are those that were entered and not settled yet. -/
theorem isOpen_iff (hrec : Record out weights s f) (v : Fin n) :
    f.survey.isOpen v = true ↔ v ∉ f.paths.order.toList ∧ f.paths.preds[v].toList ≠ [] := by
  have hopen : f.survey.isOpen v = true ↔
      f.settled[v] = false ∧ Reached f.paths.dist[v] := by
    simp [Survey.isOpen, survey, Reached]
  rw [hopen, ← hrec.settled_iff, Bool.not_eq_true]
  apply and_congr_right
  intro hv
  have hvs : v ≠ s := by
    rintro rfl
    exact hrec.not_visited hv hrec.source_visited
  constructor
  · intro hreached hnil
    rw [hrec.unknown v hvs hnil] at hreached
    exact Distance.not_reached_unreached hreached
  · exact hrec.reached v hvs

theorem nearest?_of_pop (hrec : Record out weights s f) (hopt : Optimal out weights u [] f)
    {c : Candidate D n} {rest : Heap (Candidate D n)}
    (hpop : f.pending.pop? Candidate.before = some (c, rest)) (hc : f.settled[c.vertex] = false) :
    f.survey.nearest? = some c.vertex := by
  have hperm := Heap.toList_pop _ hpop
  have hmem : c ∈ f.pending.toList := hperm.mem_iff.mpr (by simp)
  have hnew := hrec.not_visited hc
  have hknown := (hrec.known_of_pending c hmem).resolve_left
    fun heq => hnew (heq ▸ hrec.source_visited)
  apply Survey.nearest?_eq_some hopt.admissible ((isOpen_iff hrec _).mpr ⟨hnew, hknown⟩)
  intro v hv
  obtain ⟨hopen, hne⟩ := (isOpen_iff hrec v).mp hv
  apply precedes_iff.mpr
  by_cases hle : AtMost f.paths.dist[v] f.paths.dist[c.vertex]
  · have hlowest := hopt.lowest hpop hopen hne hle
    rcases List.mem_cons.mp (hperm.mem_iff.mp (hopt.current v hopen hne)) with heq | hrest
    · have hvertex : v = c.vertex := congrArg Candidate.vertex heq
      rw [hvertex]
      exact Or.inr ⟨Distance.AtMost.refl (hopt.admissible _), le_rfl⟩
    · exact Or.inr ⟨hopt.nearest hpop hrest, hlowest⟩
  · exact Or.inl (Bool.not_eq_false _ ▸ hle)

theorem nearest?_of_empty (hrec : Record out weights s f) (hopt : Optimal out weights u [] f)
    (hempty : f.pending.toList = []) : f.survey.nearest? = none := by
  apply Survey.nearest?_eq_none hopt.admissible
  intro v
  rw [← Bool.not_eq_true, isOpen_iff hrec]
  rintro ⟨hopen, hne⟩
  have hentry := hopt.current v hopen hne
  rw [hempty] at hentry
  cases hentry

/-- Entries of settled vertices are taken in between; otherwise both searches settle the same
vertices. Without a heap the number of vertices is fuel enough: none is open at the end. -/
theorem survey_run (hweights : ∀ e : Fin m, Admissible weights[e]) (hout : ∀ u, (out u).Nodup)
    (hrec : Record out weights s f) (hopt : ∃ u, Optimal out weights u [] f) (fuel fuel' : Nat)
    (hdrained : (f.run out weights fuel).pending.toList = [])
    (hfuel : n ≤ fuel' + f.paths.order.size) :
    f.survey.run out weights fuel' = (f.run out weights fuel).survey ∧
      (f.run out weights fuel).survey.nearest? = none := by
  induction fuel generalizing f fuel' with
  | zero =>
      obtain ⟨u, hopt⟩ := hopt
      have hnone := nearest?_of_empty hrec hopt hdrained
      exact ⟨Survey.run_of_none hnone fuel', hnone⟩
  | succ fuel ih =>
      unfold run at hdrained ⊢
      cases hadv : f.advance? out weights with
      | none =>
          obtain ⟨u, hopt⟩ := hopt
          have hnone := nearest?_of_empty hrec hopt (advance?_eq_none_iff.mp hadv)
          exact ⟨Survey.run_of_none hnone fuel', hnone⟩
      | some f' =>
          rw [hadv] at hdrained
          have hrec' := hrec.advance hout hadv
          have hopt' := Optimal.advance hrec hweights hout hopt hadv
          dsimp only at hdrained ⊢
          cases advanced_of_advance hadv with
          | stale c rest hpop hc => exact ih hrec' hopt' fuel' hdrained hfuel
          | settled c rest hpop hc =>
              obtain ⟨u, hopt⟩ := hopt
              have hlength := (hrec.mark (Heap.toList_pop _ hpop) hc).nodup.length_le_card
              have hgrown : (f.mark c.vertex rest).paths.order.size = f.paths.order.size + 1 := by
                rw [← Array.length_toList, order_mark]
                simp
              rw [Fintype.card_fin, Array.length_toList, hgrown] at hlength
              have hsettle : Survey.settle out weights f.survey c.vertex =
                  ((out c.vertex).foldl (relax weights c.vertex f.paths.dist[c.vertex])
                    (f.mark c.vertex rest)).survey := by
                rw [survey_scan]
                rfl
              rw [Survey.run_of_some (nearest?_of_pop hrec hopt hpop hc) (by omega), hsettle]
              apply ih hrec' hopt' (fuel' - 1) hdrained
              rw [order_scan, hgrown]
              omega

end Frontier

namespace Paths

open Frontier (Record Optimal)

section Search

variable [Zero S] [One S] [Add S] [Lawful D] {out : Fin n → List (Fin m × Fin n)}
  {weights : Table D m} (hweights : ∀ e : Fin m, Admissible weights[e]) {p : Paths D S n m}
  (hp : p.Tidy) (hout : ∀ u, (out u).Nodup)

include hp

omit [Add S] in
theorem nearest?_restart (s : Fin n) :
    (⟨p.restart s, Table.replicate n false⟩ : Survey D S n m).nearest? = some s := by
  have hsource : (p.restart s).dist[s] = Distance.zero := dist_restart_self p s
  have hother : ∀ v : Fin n, s ≠ v → (p.restart s).dist[v] = Distance.unreached :=
    fun v hv => (hp.blank_restart hv).dist
  have hadm : ∀ v : Fin n, Admissible (p.restart s).dist[v] := by
    intro v
    by_cases hv : s = v
    · rw [← hv, hsource]
      exact Lawful.zero_admissible
    · rw [hother v hv]
      exact Lawful.unreached_admissible
  apply Survey.nearest?_eq_some hadm
  · simp [Survey.isOpen, hsource, show same (Distance.zero : D) Distance.unreached = false from
      Lawful.zero_reached]
  · intro v hv
    by_cases hsv : s = v
    · rw [← hsv]
      exact Survey.precedes_refl hadm s
    · simp [Survey.isOpen, hother v hsv, Distance.same_self Lawful.unreached_admissible] at hv

include hweights hout

theorem survey_eq_surveyed (s : Fin n) :
    ∃ f : Frontier D S n m, f.paths = p.weighted out weights s ∧
      p.surveyed out weights s = f.survey ∧ f.survey.nearest? = none := by
  have hsurvey : (settleSource out weights s p).survey =
      Survey.settle out weights ⟨p.restart s, Table.replicate n false⟩ s := by
    unfold settleSource Survey.settle
    rw [Frontier.survey_scan, dist_restart_self]
    rfl
  have horder : (settleSource out weights s p).paths.order.size = 1 := by
    unfold settleSource
    rw [Frontier.order_scan, ← Array.length_toList, Frontier.order_mark]
    rfl
  obtain ⟨hrun, hnone⟩ := Frontier.survey_run hweights hout (record_settleSource hp hout s)
    ⟨s, optimal_settleSource hweights hp hout s⟩ (stepCount out) (n - 1) (drained_settleSource s)
    (by omega)
  refine ⟨_, (weighted_eq s).symm, ?_, hnone⟩
  rw [surveyed, Survey.run_of_some (nearest?_restart hp s) s.pos, ← hsurvey, hrun]

end Search

/-! ## The order where every step takes some length -/

/-- Each step to a vertex settled later leads strictly farther. -/
def Growing (out : Fin n → List (Fin m × Fin n)) (weights : Table D m) (p : Paths D S n m) : Prop :=
  ∀ (u : Fin n) (a : Fin m × Fin n), a ∈ out u → Before p.order.toList u a.2 →
    shorter p.dist[u] (Distance.add p.dist[u] weights[a.1]) = true

/-- The order lists what is in reach by distance, and by number at one distance. -/
structure Ranked (p : Paths D S n m) : Prop where
  nodup : p.order.toList.Nodup
  mem_iff : ∀ v : Fin n, v ∈ p.order.toList ↔ Reached p.dist[v]
  sorted : p.order.toList.Pairwise fun v w =>
    shorter p.dist[v] p.dist[w] = true ∨ (same p.dist[v] p.dist[w] = true ∧ v < w)

section Growing

variable [Zero S] [One S] [Add S] [Lawful D] {out : Fin n → List (Fin m × Fin n)}
  {weights : Table D m} {s u v w : Fin n} {f : Frontier D S n m}

/-- Of two vertices at one distance both were entered before either was settled: the steps into them
come from nearer vertices. So their numbers decide. -/
theorem lt_of_close (hrec : Record out weights s f) (hopt : Optimal out weights u [] f)
    (hties : f.paths.TiesByNumber) (hweights : ∀ e : Fin m, Admissible weights[e])
    (hgrow : f.paths.Growing out weights) (hvw : Before f.paths.order.toList v w)
    (hle : AtMost f.paths.dist[w] f.paths.dist[v]) : v < w := by
  have hne : v ≠ w := by
    rintro rfl
    exact Before.irrefl hrec.nodup hvw
  have hws : w ≠ s := by
    rintro rfl
    obtain ⟨rest, horder⟩ := List.head?_eq_some_iff.mp hrec.head
    have hnodup := hrec.nodup
    rw [horder] at hvw hnodup
    exact List.not_mem_nil (Before.mem_of_append (l := []) hnodup hvw)
  obtain ⟨a, ha⟩ := List.exists_mem_of_ne_nil _
    ((hrec.known_of_visited w hvw.right_mem).resolve_left hws)
  have hstep := hrec.step w a ha
  have hbefore := hrec.before w hvw.right_mem a ha
  have hfar := hgrow a.2 (a.1, w) hstep.1 hbefore
  have hsum := Lawful.add_admissible (hopt.admissible a.2) (hweights a.1)
  have hclose : AtMost (Distance.add f.paths.dist[a.2] weights[a.1]) f.paths.dist[v] :=
    Lawful.trans hsum (hopt.admissible w) (hopt.admissible v)
      ((Lawful.same_iff hsum (hopt.admissible w)).mp (hopt.exact w a ha)).1 hle
  have hnear : ¬ AtMost f.paths.dist[v] f.paths.dist[a.2] := by
    intro hback
    have hcontra := Lawful.trans hsum (hopt.admissible v) (hopt.admissible a.2) hclose hback
    rw [AtMost, hfar] at hcontra
    cases hcontra
  have hfirst : Before f.paths.order.toList a.2 v := by
    have hav : a.2 ≠ v := by
      rintro rfl
      exact hnear (Distance.AtMost.refl (hopt.admissible a.2))
    apply (Before.total hstep.2 hvw.left_mem hav).resolve_right
    intro hva
    exact hnear (List.pairwise_iff_forall_sublist.mp hopt.sorted hva)
  exact lt_of_le_of_ne (hties w v a ha hfirst (Before.asymm hrec.nodup hvw) hle) hne

variable (hweights : ∀ e : Fin m, Admissible weights[e]) {p : Paths D S n m} (hp : p.Tidy)
  (hout : ∀ u, (out u).Nodup)

include hweights hp hout

theorem ranked_of_growing (s : Fin n) (hgrow : (p.weighted out weights s).Growing out weights) :
    (p.weighted out weights s).Ranked := by
  obtain ⟨f, hf, hempty, hrec, ⟨u, hopt⟩, hties⟩ := exists_final hp hout s
    ⟨⟨s, optimal_settleSource hweights hp hout s⟩, tiesByNumber_settleSource hp hout s⟩
    fun f f' hrec h hadv => Frontier.tiesByNumber_advance hrec hweights hout h hadv
  rw [← hf] at hgrow ⊢
  refine ⟨hrec.nodup, visited_iff_reached hrec hempty, ?_⟩
  refine List.pairwise_iff_forall_sublist.mpr fun {v w} hvw => ?_
  have hle : AtMost f.paths.dist[v] f.paths.dist[w] :=
    List.pairwise_iff_forall_sublist.mp hopt.sorted hvw
  by_cases hback : AtMost f.paths.dist[w] f.paths.dist[v]
  · exact Or.inr ⟨(Lawful.same_iff (hopt.admissible v) (hopt.admissible w)).mpr ⟨hle, hback⟩,
      lt_of_close hrec hopt hties hweights hgrow hvw hback⟩
  · exact Or.inl (Bool.not_eq_false _ ▸ hback)

end Growing

/-- The heap only finds what looking at all vertices finds: both searches leave the same tables, and
no vertex open. If besides every step leads strictly farther, the order is by distance and
number. -/
theorem weighted_eq_textbook [Zero S] [One S] [Add S] [Lawful D] (g : Graph)
    (weights : Table D g.edgeCount) (hweights : ∀ e : g.EdgeId, Admissible weights[e])
    (p : Paths D S g.vertexCount g.edgeCount) (hp : p.Tidy) (s : g.Vertex) :
    p.weighted g.outEdges weights s = p.textbook g.outEdges weights s ∧
      (p.surveyed g.outEdges weights s).nearest? = none ∧
      ((p.textbook g.outEdges weights s).Growing g.outEdges weights →
        (p.textbook g.outEdges weights s).Ranked) := by
  obtain ⟨f, hpaths, hsurvey, hnone⟩ := survey_eq_surveyed hweights hp g.nodup_outEdges s
  have heq : p.weighted g.outEdges weights s = p.textbook g.outEdges weights s := by
    rw [textbook, hsurvey, ← hpaths]
    rfl
  refine ⟨heq, hsurvey ▸ hnone, ?_⟩
  rw [← heq]
  exact ranked_of_growing hweights hp g.nodup_outEdges s

attribute [local instance] neZero_four

/-- The edge from `0` to `2` is longer than the way over `1`, and `2` is as far away as `3`. -/
def bypass : Graph where
  directed := true
  vertexCount := 4
  edges := #[⟨0, 2⟩, ⟨0, 1⟩, ⟨1, 3⟩, ⟨1, 2⟩]

def bypassWeights : Table Float bypass.edgeCount :=
  Table.ofArray #[5.0, 1.0, 1.0, 1.0] rfl

theorem weighted_eq_textbook_bypass :
    (∀ e : bypass.EdgeId, Admissible bypassWeights[e]) ∧
      (fresh Float Float bypass.vertexCount bypass.edgeCount).Tidy ∧
      ((fresh Float Float _ _).textbook bypass.outEdges bypassWeights (0 : Fin 4)).Growing
        bypass.outEdges bypassWeights ∧
      (fresh Float Float _ _).weighted bypass.outEdges bypassWeights (0 : Fin 4) =
        (fresh Float Float _ _).textbook bypass.outEdges bypassWeights (0 : Fin 4) ∧
      ((fresh Float Float _ _).surveyed bypass.outEdges bypassWeights (0 : Fin 4)).nearest? = none ∧
      ((fresh Float Float _ _).textbook bypass.outEdges bypassWeights (0 : Fin 4)).Ranked := by
  have hweights : ∀ e : bypass.EdgeId, Admissible bypassWeights[e] := by
    unfold Admissible
    decide +kernel
  have hgrow : ((fresh Float Float bypass.vertexCount bypass.edgeCount).textbook bypass.outEdges
      bypassWeights (0 : Fin 4)).Growing bypass.outEdges bypassWeights := by
    have hsteps : ∀ u : bypass.Vertex, ∀ a ∈ bypass.outEdges u,
        shorter
          ((fresh Float Float _ _).textbook bypass.outEdges bypassWeights (0 : Fin 4)).dist[u]
          (Distance.add
            ((fresh Float Float _ _).textbook bypass.outEdges bypassWeights (0 : Fin 4)).dist[u]
            bypassWeights[a.1]) = true := by
      decide +kernel
    exact fun u a ha _ => hsteps u a ha
  obtain ⟨heq, hnone, hranked⟩ := weighted_eq_textbook (D := Float) (S := Float) bypass
    bypassWeights hweights _ tidy_fresh (0 : Fin 4)
  exact ⟨hweights, tidy_fresh, hgrow, heq, hnone, hranked hgrow⟩

end Paths

end Geodesic
