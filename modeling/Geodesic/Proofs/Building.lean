import Mathlib.Algebra.BigOperators.Fin
import Geodesic.Proofs.Graph

/-!
# Graphs built step by step

A graph grows by vertices and by edges between vertices that are there already. Whatever the history,
edges keep the numbers of their order, and every vertex sees each of its edges once, with the vertex
at the other end. A storage that lists the edges at a vertex may show an edge of an undirected graph
either way round, so the far end is the one that the vertex itself does not take.
-/

namespace Geodesic

/-! ## Histories -/

inductive Addition where
  | vertex
  | edge (source target : Nat)
deriving DecidableEq, Repr

namespace Addition

def ends? : Addition → Option (Nat × Nat)
  | vertex => none
  | edge s t => some (s, t)

def Allowed (n : Nat) : Addition → Prop
  | vertex => True
  | edge s t => s < n ∧ t < n

instance (n : Nat) (a : Addition) : Decidable (a.Allowed n) :=
  match a with
  | vertex => inferInstanceAs (Decidable True)
  | edge s t => inferInstanceAs (Decidable (s < n ∧ t < n))

end Addition

/-- Every edge of a history joins vertices that were added before it. -/
def Grounded (history : List Addition) : Prop :=
  ∀ i : Fin history.length, history[i].Allowed ((history.take i).count .vertex)

theorem Grounded.init {history : List Addition} {a : Addition} (h : Grounded (history ++ [a])) :
    Grounded history ∧ a.Allowed (history.count .vertex) := by
  constructor
  · intro i
    have hi := h ⟨i, i.isLt.trans_le (by simp)⟩
    simpa [List.getElem_append_left i.isLt, List.take_append_of_le_length i.isLt.le] using hi
  · simpa using h ⟨history.length, by simp⟩

namespace Graph

/-- An edge can only be added between vertices of the graph. -/
def add? (g : Graph) : Addition → Option Graph
  | .vertex => some g.addVertex
  | .edge s t =>
      if h : s < g.vertexCount ∧ t < g.vertexCount then
        some (g.addEdge ⟨⟨s, h.1⟩, ⟨t, h.2⟩⟩)
      else none

def build? (directed : Bool) (history : List Addition) : Option Graph :=
  history.foldlM add? (isolated directed 0)

def listing (g : Graph) : List (Nat × Nat × Nat) :=
  (List.finRange g.edgeCount).map fun e => (e.val, (g.edge e).source.val, (g.edge e).target.val)

def endNumbers (g : Graph) : List (Nat × Nat) :=
  g.edges.toList.map fun e => (e.source.val, e.target.val)

theorem endNumbers_addVertex (g : Graph) : g.addVertex.endNumbers = g.endNumbers := by
  simp [endNumbers, addVertex]

theorem endNumbers_addEdge (g : Graph) (e : Edge g.vertexCount) :
    (g.addEdge e).endNumbers = g.endNumbers ++ [(e.source.val, e.target.val)] := by
  simp [endNumbers, addEdge]

theorem listing_eq (g : Graph) : g.listing = g.endNumbers.zipIdx.map Prod.swap := by
  apply List.ext_getElem
  · rw [listing, List.length_map, List.length_finRange]
    simp [endNumbers, edgeCount]
  · intro i h h'
    simp [listing, endNumbers, edge]

/-- What a history leaves: its vertices are counted and its edges stored in their order. -/
structure BuiltBy (directed : Bool) (history : List Addition) (g : Graph) : Prop where
  directed_eq : g.directed = directed
  vertexCount_eq : g.vertexCount = history.count .vertex
  endNumbers_eq : g.endNumbers = history.filterMap Addition.ends?

theorem BuiltBy.add {directed : Bool} {history : List Addition} {g : Graph}
    (h : BuiltBy directed history g) {a : Addition} (ha : a.Allowed (history.count .vertex)) :
    ∃ g', g.add? a = some g' ∧ BuiltBy directed (history ++ [a]) g' := by
  cases a with
  | vertex =>
      refine ⟨g.addVertex, rfl, h.directed_eq, ?_, ?_⟩
      · simp [h.vertexCount_eq]
      · simp [endNumbers_addVertex, h.endNumbers_eq, Addition.ends?]
  | edge s t =>
      have hends : s < g.vertexCount ∧ t < g.vertexCount := by
        rw [h.vertexCount_eq]
        exact ha
      refine ⟨_, dif_pos hends, h.directed_eq, ?_, ?_⟩
      · simp [h.vertexCount_eq]
      · simp [endNumbers_addEdge, h.endNumbers_eq, Addition.ends?]

theorem exists_build (directed : Bool) {history : List Addition} (h : Grounded history) :
    ∃ g, build? directed history = some g ∧ BuiltBy directed history g := by
  induction history using List.reverseRecOn with
  | nil => exact ⟨isolated directed 0, rfl, rfl, rfl, rfl⟩
  | append_singleton history a ih =>
      obtain ⟨hearlier, ha⟩ := h.init
      obtain ⟨g, hbuild, hbuilt⟩ := ih hearlier
      obtain ⟨g', hadd, hbuilt'⟩ := hbuilt.add ha
      refine ⟨g', ?_, hbuilt'⟩
      rw [build?] at hbuild ⊢
      simp [List.foldlM_append, hbuild, hadd]

/-! ## Reported edges -/

section Reports

/-- An edge as a storage reports it. -/
structure Report (g : Graph) where
  edge : g.EdgeId
  ends : Edge g.vertexCount

/-- The end that `v` does not take. -/
def Report.other {g : Graph} (v : g.Vertex) (r : g.Report) : g.Vertex :=
  if r.ends.source = v then r.ends.target else r.ends.source

def stepsOf {g : Graph} (v : g.Vertex) (reports : List g.Report) : List g.Step :=
  reports.map fun r => (r.edge, r.other v)

variable (g : Graph) (v : g.Vertex)

/-- The edges with source `v`, latest first. -/
def edgesFrom : List g.EdgeId :=
  g.edgeIds.filter fun e => (g.edge e).source = v

/-- The edges that end at `v` and come from elsewhere, latest first. -/
def edgesInto : List g.EdgeId :=
  g.edgeIds.filter fun e => (g.edge e).target = v ∧ (g.edge e).source ≠ v

/-- The edges at `v` in the order of a storage: those that leave `v`, then in an undirected graph
those that end there. The latter graph's edges may be reported either way round. -/
structure Reported (reports : List g.Report) : Prop where
  edges : reports.map (·.edge) = g.edgesFrom v ++ if g.directed then [] else g.edgesInto v
  ends : ∀ r ∈ reports, r.ends = g.edge r.edge ∨
    (g.directed = false ∧ r.ends = ⟨(g.edge r.edge).target, (g.edge r.edge).source⟩)

def stepAlong (e : g.EdgeId) : g.Step :=
  (e, if (g.edge e).source = v then (g.edge e).target else (g.edge e).source)

theorem outEdges_eq_map : g.outEdges v =
    (g.edgesFrom v ++ if g.directed then [] else g.edgesInto v).map (g.stepAlong v) := by
  have hfrom : (g.edgesFrom v).map (g.stepAlong v) = g.edgeIds.filterMap (g.stepFrom? v) := by
    rw [edgesFrom, ← List.filterMap_eq_map', List.filterMap_filter]
    apply List.filterMap_congr
    intro e _
    by_cases h : (g.edge e).source = v <;> simp [stepFrom?, stepAlong, h]
  have hinto : (g.edgesInto v).map (g.stepAlong v) = g.edgeIds.filterMap (g.stepInto? v) := by
    rw [edgesInto, ← List.filterMap_eq_map', List.filterMap_filter]
    apply List.filterMap_congr
    intro e _
    by_cases h : (g.edge e).source = v <;> simp [stepInto?, stepAlong, h]
  unfold outEdges
  rw [List.map_append, hfrom]
  cases g.directed <;> simp [hinto]

variable {g v}

theorem mem_edgesAt {e : g.EdgeId}
    (h : e ∈ g.edgesFrom v ++ if g.directed then [] else g.edgesInto v) :
    (g.edge e).source = v ∨ (g.edge e).target = v := by
  cases hd : g.directed <;> simp [hd, edgesFrom, edgesInto] at h <;> tauto

/-- Whichever way round an edge is reported, the far end is found. -/
theorem Reported.stepsOf_eq {reports : List g.Report} (h : g.Reported v reports) :
    stepsOf v reports = g.outEdges v := by
  have hstep : ∀ r ∈ reports, (r.edge, r.other v) = g.stepAlong v r.edge := by
    intro r hr
    have hat : (g.edge r.edge).source = v ∨ (g.edge r.edge).target = v := by
      apply mem_edgesAt
      rw [← h.edges]
      exact List.mem_map_of_mem hr
    refine Prod.ext rfl ?_
    rcases h.ends r hr with hends | ⟨-, hends⟩
    · simp [Report.other, stepAlong, hends]
    · simp only [Report.other, stepAlong, hends]
      grind
  rw [outEdges_eq_map, ← h.edges, List.map_map]
  exact List.map_congr_left hstep

variable (g) in
def reportsAt (v : g.Vertex) : List g.Report :=
  (g.edgesFrom v ++ if g.directed then [] else g.edgesInto v).map fun e =>
    ⟨e, if (g.edge e).source = v then g.edge e else ⟨(g.edge e).target, (g.edge e).source⟩⟩

theorem reported_reportsAt (v : g.Vertex) : g.Reported v (g.reportsAt v) where
  edges := by simp [reportsAt, Function.comp_def]
  ends r hr := by
    obtain ⟨e, he, rfl⟩ := List.mem_map.mp hr
    dsimp only
    split
    · exact Or.inl rfl
    · rename_i hsource
      refine Or.inr ⟨?_, rfl⟩
      cases hd : g.directed with
      | false => rfl
      | true => simp [hd, edgesFrom, hsource] at he

end Reports

/-! ## The steps of a vertex -/

/-- The order in which a vertex sees its edges: those that it is the source of before the others,
and of either kind the latest first. -/
def SeenBefore (g : Graph) (v : g.Vertex) (a b : g.Step) : Prop :=
  ((g.edge a.1).source = v ∧ (g.edge b.1).source ≠ v) ∨
    (((g.edge a.1).source = v ↔ (g.edge b.1).source = v) ∧ b.1 < a.1)

def loopCount (g : Graph) : Nat :=
  g.edgeIds.countP fun e => (g.edge e).source = (g.edge e).target

variable {g : Graph}

theorem pairwise_edgeIds (g : Graph) : g.edgeIds.Pairwise fun d e => e < d :=
  List.pairwise_reverse.mpr (List.pairwise_lt_finRange _)

theorem nodup_edges_outEdges (v : g.Vertex) : ((g.outEdges v).map Prod.fst).Nodup := by
  have hfst : (g.outEdges v).map Prod.fst =
      g.edgesFrom v ++ if g.directed then [] else g.edgesInto v := by
    rw [outEdges_eq_map, List.map_map]
    exact List.map_id _
  have hfrom : (g.edgesFrom v).Nodup := g.nodup_edgeIds.filter _
  have hinto : (g.edgesInto v).Nodup := g.nodup_edgeIds.filter _
  rw [hfst]
  cases g.directed with
  | true => simpa using hfrom
  | false =>
      refine List.nodup_append.mpr ⟨hfrom, hinto, ?_⟩
      rintro e he d hd rfl
      simp [edgesFrom, edgesInto] at he hd
      exact hd.2 he

theorem pairwise_outEdges (v : g.Vertex) : (g.outEdges v).Pairwise (g.SeenBefore v) := by
  have hsame : ∀ (p : g.EdgeId → Bool), (∀ d e, p d → p e →
      ((g.edge d).source = v ↔ (g.edge e).source = v)) →
      ((g.edgeIds.filter p).map (g.stepAlong v)).Pairwise (g.SeenBefore v) := by
    intro p hp
    rw [List.pairwise_map]
    refine (g.pairwise_edgeIds.filter p).imp_of_mem fun hd he hlt => Or.inr ⟨?_, hlt⟩
    exact hp _ _ (List.mem_filter.mp hd).2 (List.mem_filter.mp he).2
  rw [outEdges_eq_map, List.map_append]
  refine List.pairwise_append.mpr ⟨?_, ?_, ?_⟩
  · apply hsame
    simp +contextual
  · cases g.directed with
    | true => simp
    | false =>
        apply hsame
        simp +contextual
  · intro a ha b hb
    obtain ⟨d, hd, rfl⟩ := List.mem_map.mp ha
    obtain ⟨e, he, rfl⟩ := List.mem_map.mp hb
    cases hdir : g.directed with
    | true => simp [hdir] at he
    | false =>
        simp [hdir, edgesFrom, edgesInto] at hd he
        exact Or.inl ⟨hd, he.2⟩

/-! ### Their number -/

theorem sum_countP_value {n : Nat} {α : Type} (f : α → Fin n) (p : α → Bool) (l : List α) :
    ∑ v, l.countP (fun x => f x = v ∧ p x) = l.countP p := by
  induction l with
  | nil => simp
  | cons x l ih =>
      simp only [List.countP_cons, Finset.sum_add_distrib, ih]
      cases p x <;> simp

theorem length_edgesFrom (g : Graph) : ∑ v, (g.edgesFrom v).length = g.edgeCount := by
  have h := sum_countP_value (fun e => (g.edge e).source) (fun _ => true) g.edgeIds
  simpa [edgesFrom, ← List.countP_eq_length_filter, edgeIds] using h

theorem length_edgesInto (g : Graph) :
    ∑ v, (g.edgesInto v).length + g.loopCount = g.edgeCount := by
  have hinto : ∀ v, (g.edgesInto v).length = g.edgeIds.countP
      fun e => (g.edge e).target = v ∧ decide ((g.edge e).source ≠ (g.edge e).target) := by
    intro v
    rw [edgesInto, ← List.countP_eq_length_filter]
    apply List.countP_congr
    intro e _
    simp only [decide_eq_true_eq]
    exact and_congr_right fun h => by rw [h]
  have hlength : g.edgeIds.length = g.edgeCount := by simp [edgeIds]
  have hsplit := List.length_eq_countP_add_countP
    (fun e => decide ((g.edge e).source = (g.edge e).target)) (l := g.edgeIds)
  have hsum := sum_countP_value (fun e => (g.edge e).target)
    (fun e => decide ((g.edge e).source ≠ (g.edge e).target)) g.edgeIds
  simp only [decide_eq_true_eq] at hsplit
  simp only [hinto, hsum, loopCount, ne_eq]
  omega

theorem length_outEdges (v : g.Vertex) : (g.outEdges v).length =
    (g.edgesFrom v).length + if g.directed then 0 else (g.edgesInto v).length := by
  rw [outEdges_eq_map, List.length_map, List.length_append]
  cases g.directed <;> simp

/-! ## What the reports come to -/

structure Faithful (g : Graph) (steps : g.Vertex → List g.Step) : Prop where
  mem_iff : ∀ v w e, (e, w) ∈ steps v ↔
    g.edge e = ⟨v, w⟩ ∨ (g.directed = false ∧ g.edge e = ⟨w, v⟩)
  once : ∀ v, ((steps v).map Prod.fst).Nodup
  sorted : ∀ v, (steps v).Pairwise (g.SeenBefore v)
  symm : g.directed = false → ∀ v w e, (e, w) ∈ steps v ↔ (e, v) ∈ steps w
  total_directed : g.directed = true → ∑ v, (steps v).length = g.edgeCount
  /-- A loop is seen from one end only. -/
  total_undirected : g.directed = false →
    ∑ v, (steps v).length + g.loopCount = 2 * g.edgeCount

theorem faithful_outEdges (g : Graph) : Faithful g g.outEdges where
  mem_iff v w e := by
    rw [mem_outEdges]
    generalize g.edge e = ends
    obtain ⟨s, t⟩ := ends
    simp only [Edge.mk.injEq]
    tauto
  once := nodup_edges_outEdges
  sorted := pairwise_outEdges
  symm hd v w e := ⟨mem_outEdges_symm hd, mem_outEdges_symm hd⟩
  total_directed hd := by simp [length_outEdges, hd, length_edgesFrom]
  total_undirected hd := by
    have hfrom := g.length_edgesFrom
    have hinto := g.length_edgesInto
    simp only [length_outEdges, hd, Finset.sum_add_distrib, Bool.false_eq_true, if_false]
    omega

/-- Every history whose edges join vertices that are there can be performed. Its edges are listed in
their order with their ends, and from any reports in the order of the storage the vertices see the
edges as they are, in the steps that searches follow. -/
theorem build_faithful (directed : Bool) (history : List Addition) (h : Grounded history) :
    ∃ g, build? directed history = some g ∧ g.directed = directed ∧
      g.vertexCount = history.count .vertex ∧
      g.listing = (history.filterMap Addition.ends?).zipIdx.map Prod.swap ∧
      ∀ reports : g.Vertex → List g.Report, (∀ v, g.Reported v (reports v)) →
        (∀ v, stepsOf v (reports v) = g.outEdges v) ∧
        Faithful g fun v => stepsOf v (reports v) := by
  obtain ⟨g, hbuild, hbuilt⟩ := exists_build directed h
  refine ⟨g, hbuild, hbuilt.directed_eq, hbuilt.vertexCount_eq, ?_, fun reports hreports => ?_⟩
  · rw [listing_eq, hbuilt.endNumbers_eq]
  · have hsteps : ∀ v, stepsOf v (reports v) = g.outEdges v := fun v => (hreports v).stepsOf_eq
    refine ⟨hsteps, ?_⟩
    rw [funext hsteps]
    exact faithful_outEdges g

/-- A loop and edges both ways between two vertices, with a vertex added in between. -/
def knot : List Addition :=
  [.vertex, .vertex, .edge 0 1, .edge 1 1, .vertex, .edge 2 1, .edge 1 0]

theorem build_faithful_knot : Grounded knot ∧
    ∃ g, build? false knot = some g ∧ (∀ v, g.Reported v (g.reportsAt v)) ∧
      Faithful g fun v => stepsOf v (g.reportsAt v) := by
  have hgrounded : Grounded knot := by
    unfold Grounded
    decide
  obtain ⟨g, hbuild, -, -, -, hreports⟩ := build_faithful false knot hgrounded
  exact ⟨hgrounded, g, hbuild, reported_reportsAt, (hreports _ reported_reportsAt).2⟩

end Graph

end Geodesic
