import Geodesic.Run
import Geodesic.Proofs.Respelling
import Geodesic.Proofs.Scoring

/-!
# Whose score a row shows

A report has a row for every label and, if asked for, a row for every line with an edge. Each shows
the score under its own number. Labels are names and nothing else: with another spelling of them the
report shows the same numbers.
-/

namespace Geodesic

variable {plan : (n : Nat) → Schedule n} {files files' : Files} {source : GraphSource}
  {text : String} {ρ : String → String}

/-! ## Loading -/

theorem mapError_eq_ok_iff {ε ε' α : Type} {x : Except ε α} {f : ε → ε'} {a : α} :
    x.mapError f = .ok a ↔ x = .ok a := by
  cases x <;> simp [Except.mapError]

/-- The multigraph that lines describe: vertices are labels, edges are lines with an edge. -/
structure Depicts (lines : List (List Char)) (g : Graph) : Prop where
  vertexCount : g.vertexCount = (labelsIn lines).length
  edgeCount : g.edgeCount = (rowsIn lines).length
  ends : ∀ e : g.EdgeId, ∃ row, (rowsIn lines)[e.val]? = some row ∧
    (labelsIn lines)[(g.edge e).source.val]? = some row.source ∧
    (labelsIn lines)[(g.edge e).target.val]? = some row.target

theorem depicts_graph {l : EdgeList} (h : EdgeList.parse text = .ok l) (directed : Bool) :
    Depicts (Text.lines text.toList) (l.graph directed) := by
  obtain ⟨hlabels, -, hrows⟩ := EdgeList.reads_of_parse h
  have hcount : (l.graph directed).edgeCount = l.links.length := EdgeList.edgeCount_graph l directed
  constructor
  · rw [← hlabels, Array.length_toList]
    rfl
  · rw [← hrows, List.length_map, hcount]
  · intro e
    have he : e.val < l.links.length := Nat.lt_of_lt_of_eq e.isLt hcount
    have hedge : (l.graph directed).edge e = l.links[e.val].ends := by
      simp [Graph.edge, EdgeList.graph]
    have hlabel : ∀ v : Fin l.labels.size,
        (labelsIn (Text.lines text.toList))[v.val]? = some l.labels[v] := fun v => by
      rw [← hlabels, Array.getElem?_toList]
      exact Array.getElem?_eq_getElem v.isLt
    refine ⟨l.row l.links[e.val], ?_, ?_, ?_⟩
    · rw [← hrows, List.getElem?_map, List.getElem?_eq_getElem he]
      rfl
    · rw [hedge]
      exact hlabel _
    · rw [hedge]
      exact hlabel _

/-- The weights that are used: those of all edges, or none. -/
def Weighs (lines : List (List Char)) (weighted : Bool)
    (weights : Option (EdgeMap Float32 Float)) : Prop :=
  if weighted then
    ∃ ws : List Float, (rowsIn lines).map (·.weight) = ws.map some ∧
      weights = some ⟨.double ws.toArray⟩
  else weights = none

theorem load_eq_ok {l : LabelledGraph} (htext : files.read source.file = .ok text)
    (h : LabelledGraph.load source files = .ok l) :
    EdgeList.parse text = .ok l.list ∧ l.directed = !source.undirected ∧
      Weighs (Text.lines text.toList) source.weighted l.weights := by
  unfold LabelledGraph.load at h
  obtain ⟨text', htext', h⟩ := bind_eq_ok_iff.mp h
  rw [mapError_eq_ok_iff, htext] at htext'
  obtain rfl := Except.ok.inj htext'
  obtain ⟨list, hlist, h⟩ := bind_eq_ok_iff.mp h
  rw [mapError_eq_ok_iff] at hlist
  have hrows := (EdgeList.reads_of_parse hlist).2.2
  unfold Weighs
  dsimp only at h
  split at h
  · rename_i hweighted
    obtain ⟨weights, hweights, h⟩ := bind_eq_ok_iff.mp h
    obtain rfl := Except.ok.inj h
    obtain ⟨m, hm, rfl⟩ := map_eq_ok_iff.mp hweights
    rw [mapError_eq_ok_iff, EdgeList.weightMap_eq_ok_iff] at hm
    obtain ⟨ws, hws, rfl⟩ := hm
    rw [if_pos hweighted, ← hrows, List.map_map]
    exact ⟨hlist, rfl, ws, hws, rfl⟩
  · rename_i hweighted
    obtain rfl := Except.ok.inj h
    rw [if_neg hweighted]
    exact ⟨hlist, rfl, rfl⟩

/-! ## Rows -/

namespace LabelledGraph

variable {l : LabelledGraph}

theorem edgeScores_eq (scores : EdgeMap Float32 Float) : l.edgeScores scores =
    ((l.list.links.map l.list.row).zip (scores.values.numbers?.getD #[]).toList).map
      fun (row, x) => ⟨row.source, row.target, x⟩ := by
  have hends : l.edgeScores scores =
      ((l.list.links.map (·.ends)).zip (scores.values.numbers?.getD #[]).toList).map
        fun (e, x) => ⟨l.list.labels[e.source], l.list.labels[e.target], x⟩ := rfl
  rw [hends, List.zip_map_left, List.zip_map_left, List.map_map, List.map_map]
  rfl

/-- The columns of vertex rows are the labels and the scores, with nothing dropped. -/
theorem vertexScores_columns {scores : VertexMap Float32 Float} {xs : Array Float}
    (hxs : scores.values.numbers? = some xs) (hsize : xs.size = l.list.labels.size) :
    (l.vertexScores scores).map (·.label) = l.list.labels.toList ∧
      (l.vertexScores scores).map (·.betweenness) = xs.toList := by
  have hlength : l.list.labels.toList.length = xs.toList.length := by simp [hsize]
  rw [vertexScores, hxs, Option.getD_some, List.map_map, List.map_map]
  exact ⟨List.map_fst_zip hlength.le, List.map_snd_zip hlength.ge⟩

theorem edgeScores_columns {scores : EdgeMap Float32 Float} {xs : Array Float}
    (hxs : scores.values.numbers? = some xs) (hsize : xs.size = l.list.links.length) :
    (l.edgeScores scores).map (fun e => (e.source, e.target)) =
        (l.list.links.map l.list.row).map (fun row => (row.source, row.target)) ∧
      (l.edgeScores scores).map (·.betweenness) = xs.toList := by
  have hlength : (l.list.links.map l.list.row).length = xs.toList.length := by simp [hsize]
  rw [edgeScores_eq, hxs, Option.getD_some]
  generalize l.list.links.map l.list.row = rows at *
  have hrows := List.map_fst_zip hlength.le
  have hscores := List.map_snd_zip hlength.ge
  rw [List.map_map, List.map_map]
  constructor
  · conv_rhs => rw [← hrows, List.map_map]
    rfl
  · exact hscores

end LabelledGraph

theorem numbers?_of_double {k : Key} {p : PropertyMap k Float32 Float}
    (h : p.valueType = .double) : ∃ xs : Array Float, p.values.numbers? = some xs ∧
      xs.size = p.size := by
  obtain ⟨values⟩ := p
  cases values with
  | double xs => exact ⟨xs, rfl, rfl⟩
  | _ => cases h

/-- Fresh maps come back with as many doubles as the graph has vertices and edges. -/
theorem numbers?_of_betweenness {g : Graph} {plan : Schedule g.vertexCount}
    {weights : Option (EdgeMap Float32 Float)} {normalize : Bool} {b : Betweenness Float32 Float}
    (h : betweenness g plan weights normalize = .ok b) :
    ∃ xs ys : Array Float, b.vertex.values.numbers? = some xs ∧ xs.size = g.vertexCount ∧
      b.edge.values.numbers? = some ys ∧ ys.size = g.edgeCount := by
  obtain ⟨⟨edge, vertex⟩, hcompute, hb⟩ := bind_eq_ok_iff.mp h
  obtain rfl := Except.ok.inj hb
  let fresh : ScoreMaps Float32 Float := ⟨.forGraph g .double, .forGraph g .double⟩
  have hcompute : computeBetweenness g plan weights fresh.edge fresh.vertex normalize =
    .ok (edge, vertex) := hcompute
  obtain ⟨⟨hedgeType, hedgeSize⟩, hvertexType, hvertexSize⟩ := kept_of_computeBetweenness hcompute
  obtain ⟨xs, hxs, hxsSize⟩ := numbers?_of_double hvertexType
  obtain ⟨ys, hys, hysSize⟩ := numbers?_of_double hedgeType
  refine ⟨xs, ys, hxs, ?_, hys, ?_⟩
  · rw [hxsSize, hvertexSize]
    exact PropertyMap.fits_forGraph g .double
  · rw [hysSize, hedgeSize]
    exact PropertyMap.fits_forGraph g .double

/-- Fresh maps hold numbers, one for each vertex, so that nothing has to stand in for them. -/
theorem dominance_of_betweenness {g : Graph} {plan : Schedule g.vertexCount}
    {weight : Option (EdgeMap Float32 Float)} {normalize : Bool} {b : Betweenness Float32 Float}
    (hb : betweenness g plan weight normalize = .ok b) :
    ∃ xs, b.vertex.values.numbers? = some xs ∧ xs.size = g.vertexCount ∧
      b.centralPointDominance = dominance xs ∧
      centralPointDominance g b.vertex = (.ok (dominance xs) : Except (Fault Float) Float) := by
  obtain ⟨xs, _, hxs, hsize, -⟩ := numbers?_of_betweenness hb
  have hfits : b.vertex.Fits g := (Values.size_of_numbers? hxs).symm.trans hsize
  refine ⟨xs, hxs, hsize, ?_, ?_⟩
  · unfold Betweenness.centralPointDominance
    rw [hxs]
  · unfold centralPointDominance PropertyMap.checkSize
    rw [hxs, if_pos hfits]
    rfl

theorem report_eq_ok {normalize edges dominance : Bool} {r : BetweennessReport}
    (h : betweennessReport plan files source normalize edges dominance = .ok r) :
    ∃ l b, LabelledGraph.load source files = .ok l ∧
      betweenness l.graph (plan l.graph.vertexCount) l.weights normalize = .ok b ∧
      r.vertices = l.vertexScores b.vertex ∧
      r.edges = if edges then some (l.edgeScores b.edge) else none := by
  unfold betweennessReport at h
  obtain ⟨l, hload, h⟩ := bind_eq_ok_iff.mp h
  obtain ⟨b, hb, h⟩ := bind_eq_ok_iff.mp h
  have hb := mapError_eq_ok_iff.mp hb
  refine ⟨l, b, hload, hb, ?_⟩
  dsimp only at h
  split at h
  · obtain ⟨d, -, h⟩ := bind_eq_ok_iff.mp h
    obtain rfl := Except.ok.inj h
    exact ⟨rfl, rfl⟩
  · obtain rfl := Except.ok.inj h
    exact ⟨rfl, rfl⟩

/-! ## Another spelling -/

def VertexScore.respell (ρ : String → String) (v : VertexScore) : VertexScore :=
  { v with label := ρ v.label }

def EdgeScore.respell (ρ : String → String) (e : EdgeScore) : EdgeScore :=
  { e with source := ρ e.source, target := ρ e.target }

def BetweennessReport.respell (ρ : String → String) (r : BetweennessReport) : BetweennessReport :=
  { r with
    vertices := r.vertices.map (·.respell ρ)
    edges := r.edges.map (List.map (·.respell ρ)) }

namespace EdgeList

variable {l : EdgeList}

theorem ends_cast {n m : Nat} (h : n = m) (directed : Bool) (links : List (Link n)) :
    (⟨directed, m, ((links.map (Link.cast h)).map (·.ends)).toArray⟩ : Graph) =
      ⟨directed, n, (links.map (·.ends)).toArray⟩ := by
  subst h
  rw [List.map_map]
  rfl

theorem mapM_weightOf_cast {n m : Nat} (h : n = m) (links : List (Link n)) :
    (links.map (Link.cast h)).mapM weightOf = links.mapM weightOf := by
  subst h
  exact congrArg (List.mapM weightOf) (List.map_id links)

theorem graph_respell (directed : Bool) : (l.respell ρ).graph directed = l.graph directed :=
  ends_cast Array.size_map.symm directed l.links

theorem weightMap_respell : (l.respell ρ).weightMap = l.weightMap :=
  congrArg (Except.map _) (mapM_weightOf_cast Array.size_map.symm l.links)

end EdgeList

namespace LabelledGraph

variable {l : LabelledGraph}

def respell (ρ : String → String) (l : LabelledGraph) : LabelledGraph :=
  { l with list := l.list.respell ρ }

theorem graph_respell : (l.respell ρ).graph = l.graph :=
  EdgeList.graph_respell l.directed

theorem betweenness_respell (normalize : Bool) :
    (l.respell ρ).betweenness plan normalize = l.betweenness plan normalize := by
  unfold betweenness
  rw [graph_respell]
  rfl

theorem dominance_respell (scores : VertexMap Float32 Float) :
    (l.respell ρ).dominance scores = l.dominance scores := by
  unfold dominance
  rw [graph_respell]

theorem vertexScores_respell (scores : VertexMap Float32 Float) :
    (l.respell ρ).vertexScores scores = (l.vertexScores scores).map (·.respell ρ) := by
  have hlabels : (l.respell ρ).list.labels.toList = l.list.labels.toList.map ρ :=
    Array.toList_map
  rw [vertexScores, vertexScores, hlabels, List.zip_map_left, List.map_map, List.map_map]
  rfl

theorem edgeScores_respell (scores : EdgeMap Float32 Float) :
    (l.respell ρ).edgeScores scores = (l.edgeScores scores).map (·.respell ρ) := by
  have hrows : (l.respell ρ).list.links.map (l.respell ρ).list.row =
      (l.list.links.map l.list.row).map (Row.respell ρ) := EdgeList.rows_respell
  rw [edgeScores_eq, edgeScores_eq, hrows, List.zip_map_left, List.map_map, List.map_map]
  rfl

theorem load_respell (htext : files.read source.file = .ok text)
    (htext' : files'.read source.file = .ok (Geodesic.respell ρ text))
    (hρ : Respells ρ (labelsIn (Text.lines text.toList))) :
    load source files' = (load source files).map (respell ρ) := by
  unfold load
  rw [htext, htext', Except.mapError, Except.mapError]
  simp only [bind, Except.bind]
  rw [EdgeList.parse_respell hρ]
  cases EdgeList.parse text with
  | error e => rfl
  | ok list =>
      simp only [Except.map, Except.mapError, EdgeList.weightMap_respell]
      split
      · cases list.weightMap <;> rfl
      · rfl

end LabelledGraph

theorem betweennessReport_respell {normalize edges dominance : Bool}
    (htext : files.read source.file = .ok text)
    (htext' : files'.read source.file = .ok (respell ρ text))
    (hρ : Respells ρ (labelsIn (Text.lines text.toList))) :
    betweennessReport plan files' source normalize edges dominance =
      (betweennessReport plan files source normalize edges dominance).map (·.respell ρ) := by
  unfold betweennessReport
  rw [LabelledGraph.load_respell htext htext' hρ]
  cases LabelledGraph.load source files with
  | error e => rfl
  | ok l =>
      simp only [Except.map, bind, Except.bind, LabelledGraph.betweenness_respell]
      cases l.betweenness plan normalize with
      | error e => rfl
      | ok b =>
          simp only [LabelledGraph.dominance_respell, LabelledGraph.vertexScores_respell,
            LabelledGraph.edgeScores_respell]
          cases dominance with
          | false => cases edges <;> rfl
          | true =>
              cases l.dominance b.vertex with
              | error e => rfl
              | ok d => cases edges <;> rfl

/-- The rows of a report are those of the labels and of the lines, in their order, and show the
scores of the graph that the text describes under the same numbers. With another spelling of its
labels a text has the report that it had, with the labels spelled differently. -/
theorem betweennessReport_follows_labels (plan : (n : Nat) → Schedule n) (files : Files)
    (source : GraphSource) (normalize edges dominance : Bool) {text : String} {r : BetweennessReport}
    (htext : files.read source.file = .ok text)
    (hreport : betweennessReport plan files source normalize edges dominance = .ok r) :
    let lines := Text.lines text.toList
    (∃ (g : Graph) (weights : Option (EdgeMap Float32 Float)) (b : Betweenness Float32 Float),
      (Depicts lines g ∧ g.directed = !source.undirected) ∧
      Weighs lines source.weighted weights ∧
      betweenness g (plan g.vertexCount) weights normalize = .ok b ∧
      (r.vertices.map (·.label) = labelsIn lines ∧
        b.vertex.values.numbers? = some (r.vertices.map (·.betweenness)).toArray) ∧
      (edges = false → r.edges = none) ∧
      (edges = true → ∃ rows, r.edges = some rows ∧
        rows.map (fun e => (e.source, e.target)) =
          (rowsIn lines).map (fun row => (row.source, row.target)) ∧
        b.edge.values.numbers? = some (rows.map (·.betweenness)).toArray)) ∧
    ∀ (ρ : String → String) (files' : Files), Respells ρ (labelsIn lines) →
      files'.read source.file = .ok (respell ρ text) →
      betweennessReport plan files' source normalize edges dominance = .ok (r.respell ρ) := by
  obtain ⟨l, b, hload, hb, hvertices, hedges⟩ := report_eq_ok hreport
  obtain ⟨hparse, hdirected, hweights⟩ := load_eq_ok htext hload
  obtain ⟨hlabels, -, hrows⟩ := EdgeList.reads_of_parse hparse
  obtain ⟨xs, ys, hxs, hxsSize, hys, hysSize⟩ := numbers?_of_betweenness hb
  obtain ⟨hlabelColumn, hscoreColumn⟩ := LabelledGraph.vertexScores_columns hxs hxsSize
  obtain ⟨hendColumns, hedgeColumn⟩ := LabelledGraph.edgeScores_columns hys
    (hysSize.trans (EdgeList.edgeCount_graph _ _))
  refine ⟨⟨l.graph, l.weights, b, ⟨depicts_graph hparse l.directed, hdirected⟩, hweights, hb,
    ⟨?_, ?_⟩, ?_, ?_⟩, ?_⟩
  · rw [hvertices, hlabelColumn, hlabels]
  · rw [hvertices, hscoreColumn]
    exact hxs
  · rintro rfl
    exact hedges
  · rintro rfl
    refine ⟨l.edgeScores b.edge, hedges, ?_, ?_⟩
    · rw [hendColumns, hrows]
    · rw [hedgeColumn]
      exact hys
  · intro ρ files' hρ htext'
    rw [betweennessReport_respell htext htext' hρ, hreport]
    rfl

def filesOf (text : String) : Files where
  bytes _ := .ok text.toUTF8

theorem betweennessReport_road :
    let source : GraphSource := ⟨"roads", false, true⟩
    (filesOf "a b 2\nb c 2 # d\n").read source.file = .ok "a b 2\nb c 2 # d\n" ∧
    ∃ r, betweennessReport Schedule.sequential (filesOf "a b 2\nb c 2 # d\n") source false true true =
        .ok r ∧
      r.vertices.map (·.label) = ["a", "b", "c"] ∧
      betweennessReport Schedule.sequential (filesOf "xa xb 2\nxb xc 2 # d\n") source false true true =
        .ok (r.respell ("x" ++ ·)) := by
  intro source
  have htext : (filesOf "a b 2\nb c 2 # d\n").read source.file = .ok "a b 2\nb c 2 # d\n" := rfl
  have htext' : (filesOf "xa xb 2\nxb xc 2 # d\n").read source.file =
      .ok (respell ("x" ++ ·) "a b 2\nb c 2 # d\n") := by
    have hrespell : respell ("x" ++ ·) "a b 2\nb c 2 # d\n" = "xa xb 2\nxb xc 2 # d\n" := by
      decide +kernel
    rw [hrespell]
    rfl
  have hlabelled : labelsIn (Text.lines "a b 2\nb c 2 # d\n".toList) = ["a", "b", "c"] := by
    decide +kernel
  have hρ : Respells ("x" ++ ·) ["a", "b", "c"] :=
    ⟨by decide +kernel, by decide +kernel⟩
  have hok : (betweennessReport Schedule.sequential (filesOf "a b 2\nb c 2 # d\n") source false true
      true).isOk = true := by decide +kernel
  cases hreport : betweennessReport Schedule.sequential (filesOf "a b 2\nb c 2 # d\n") source false
      true true with
  | error e =>
      rw [hreport] at hok
      cases hok
  | ok r =>
      obtain ⟨⟨-, -, -, -, -, -, ⟨hlabels, -⟩, -⟩, hrespelled⟩ :=
        betweennessReport_follows_labels _ _ source false true true htext hreport
      refine ⟨htext, r, rfl, hlabels.trans hlabelled, hrespelled _ _ ?_ htext'⟩
      rwa [hlabelled]

end Geodesic
