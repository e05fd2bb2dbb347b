import Geodesic.Proofs.Stages

/-!
# Rows can be read back

Rows are written with tabs between their cells and a line feed behind each, and nothing is escaped.
They can be read back all the same: labels come from between blanks, and numbers consist of digits,
a point, a sign or letters.
-/

namespace Geodesic

open Text (isBlank)

/-- What may stand in a row without being taken for its end or for the end of a cell. -/
structure IsCell (s : String) : Prop where
  noTab : '\t' ∉ s.toList
  noNewline : '\n' ∉ s.toList

theorem isCell_append {s t : String} (hs : IsCell s) (ht : IsCell t) : IsCell (s ++ t) := by
  constructor
  · simp [hs.noTab, ht.noTab]
  · simp [hs.noNewline, ht.noNewline]

/-! ## Numbers -/

namespace Decimal

theorem isDigit_of_mem_leftpad {k n : Nat} {c : Char}
    (h : c ∈ (Nat.toDigits 10 n).leftpad k '0') : c.isDigit = true := by
  rw [List.leftpad, List.mem_append] at h
  rcases h with h | h
  · rw [List.eq_of_mem_replicate h]
    decide
  · exact Nat.isDigit_of_mem_toDigits (by decide) (by decide) h

theorem mem_pointed {places units : Nat} {c : Char} (h : c ∈ (pointed places units).toList) :
    c.isDigit = true ∨ c = '.' := by
  unfold pointed at h
  dsimp only at h
  split at h
  · rw [String.toList_ofList] at h
    exact Or.inl (isDigit_of_mem_leftpad (List.mem_of_mem_take h))
  · rw [String.toList_ofList, List.mem_append, List.mem_cons] at h
    rcases h with h | h | h
    · exact Or.inl (isDigit_of_mem_leftpad (List.mem_of_mem_take h))
    · exact Or.inr h
    · exact Or.inl (isDigit_of_mem_leftpad (List.mem_of_mem_drop h))

theorem isCell_pointed (places units : Nat) : IsCell (pointed places units) where
  noTab h := absurd (mem_pointed h) (by decide)
  noNewline h := absurd (mem_pointed h) (by decide)

theorem isCell_signText (s : Float.Model.UnpackedFloat.Sign) : IsCell (signText s) := by
  cases s <;> exact ⟨by decide, by decide⟩

theorem isCell_fixed (places : Nat) (x : Float) : IsCell (fixed places x) := by
  unfold fixed
  split
  · exact ⟨by decide, by decide⟩
  · exact isCell_append (isCell_signText _) ⟨by decide, by decide⟩
  · exact isCell_append (isCell_signText _) (isCell_pointed _ _)
  · exact isCell_append (isCell_signText _) (isCell_pointed _ _)

end Decimal

/-! ## Labels -/

theorem isLabel_of_mem {lines : List (List Char)} {l : String} (h : l ∈ labelsIn lines) :
    IsLabel l := by
  rw [labelsIn, List.mem_eraseDups] at h
  obtain ⟨line, -, hl⟩ := List.mem_flatMap.mp h
  obtain ⟨f, hf, rfl⟩ := List.mem_map.mp (List.mem_of_mem_take hl)
  obtain ⟨hne, hchars⟩ := Text.forall_mem_fields hf
  constructor
  · rwa [String.toList_ofList]
  · rw [String.toList_ofList]
    exact fun c hc => (hchars c hc).1
  · rw [String.toList_ofList]
    exact fun hc => noComment_content (hchars '#' hc).2

theorem IsLabel.isCell {l : String} (h : IsLabel l) : IsCell l where
  noTab ht := absurd (h.notBlank '\t' ht) (by decide)
  noNewline hn := absurd (h.notBlank '\n' hn) (by decide)

/-! ## Rows -/

/-- The cells of a text, line by line; a text that ends with a line feed has an empty last line. -/
def cellsOf (text : String) : List (List String) :=
  (text.toList.splitOn '\n').map fun line => (line.splitOn '\t').map String.ofList

section Rows

variable {fields : List String} {rows : List (List String)}

theorem toList_row (fields : List String) :
    (row fields).toList = ['\t'].intercalate (fields.map String.toList) :=
  String.toList_intercalate

theorem noNewline_row (h : ∀ s ∈ fields, IsCell s) : '\n' ∉ (row fields).toList := by
  induction fields with
  | nil => simp [row]
  | cons s fields ih =>
      rw [List.forall_mem_cons] at h
      cases fields with
      | nil => simpa [row] using h.1.noNewline
      | cons t fields =>
          have hrow : row (s :: t :: fields) = s ++ "\t" ++ row (t :: fields) :=
            String.intercalate_cons_cons
          rw [hrow, String.toList_append, String.toList_append, List.mem_append, List.mem_append]
          rintro ((hs | htab) | hrest)
          · exact h.1.noNewline hs
          · exact absurd htab (by decide)
          · exact ih h.2 hrest

/-- The cells of a row are its fields. -/
theorem splitOn_row (hne : fields ≠ []) (h : ∀ s ∈ fields, IsCell s) :
    ((row fields).toList.splitOn '\t').map String.ofList = fields := by
  have hcells : ∀ cs ∈ fields.map String.toList, '\t' ∉ cs := by
    rw [List.forall_mem_map]
    exact fun s hs => (h s hs).noTab
  rw [toList_row, List.splitOn_intercalate '\t' hcells (by simpa using hne), List.map_map]
  exact List.map_id'' (fun s => String.ofList_toList) fields

theorem unlines_cons (line : String) (lines : List String) :
    Text.unlines (line :: lines) = line ++ "\n" ++ Text.unlines lines := by
  simp [Text.unlines]

theorem cellsOf_unlines (h : ∀ fields ∈ rows, fields ≠ [] ∧ ∀ s ∈ fields, IsCell s) :
    cellsOf (Text.unlines (rows.map row)) = rows ++ [[""]] := by
  induction rows with
  | nil => rfl
  | cons fields rows ih =>
      rw [List.forall_mem_cons] at h
      obtain ⟨⟨hne, hcells⟩, hrows⟩ := h
      have htext : (Text.unlines ((fields :: rows).map row)).toList =
          (row fields).toList ++ '\n' :: (Text.unlines (rows.map row)).toList := by
        rw [List.map_cons, unlines_cons]
        simp
      rw [cellsOf, htext, List.splitOn_append_cons_self_of_not_mem (noNewline_row hcells),
        List.map_cons, splitOn_row hne hcells, List.cons_append, ← ih hrows]
      rfl

theorem unlines_closed (lines : List String) :
    Text.unlines lines = "" ∨ ∃ text, Text.unlines lines = text ++ "\n" := by
  induction lines with
  | nil => exact Or.inl rfl
  | cons line lines ih =>
      rw [unlines_cons]
      rcases ih with hnil | ⟨text, htext⟩
      · exact Or.inr ⟨line, by rw [hnil, String.append_empty]⟩
      · exact Or.inr ⟨line ++ "\n" ++ text, by rw [htext, ← String.append_assoc]⟩

end Rows

/-! ## What a report shows -/

/-- What the rows of a report show: scores with their vertices and edges, and the dominance. -/
structure Shown where
  vertices : List (String × String)
  edges : List (String × String × String)
  dominance : Option String
deriving DecidableEq

namespace Shown

def rows (shown : Shown) : List (List String) :=
  shown.vertices.map (fun (label, score) => [label, score]) ++
    shown.edges.map (fun (source, target, score) => [source, target, score]) ++
    shown.dominance.toList.map (fun score => ["central_point_dominance", score])

def vertex? : List String → Option (String × String)
  | [label, score] => some (label, score)
  | _ => none

def edge? : List String → Option (String × String × String)
  | [source, target, score] => some (source, target, score)
  | _ => none

/-- Read rows, of which the last one is about the dominance if that was asked for. -/
def ofRows (dominance : Bool) (rows : List (List String)) : Shown :=
  let scores := if dominance then rows.dropLast else rows
  { vertices := scores.filterMap vertex?
    edges := scores.filterMap edge?
    dominance := if dominance then (rows.getLast?.bind vertex?).map (·.2) else none }

/-- Read what is written in rows; behind the last line feed there is nothing. -/
def read (dominance : Bool) (text : String) : Shown :=
  ofRows dominance (cellsOf text).dropLast

theorem ofRows_scores (vertices : List (String × String))
    (edges : List (String × String × String)) :
    ofRows false (vertices.map (fun (label, score) => [label, score]) ++
      edges.map (fun (source, target, score) => [source, target, score])) =
      ⟨vertices, edges, none⟩ := by
  simp [ofRows, List.filterMap_append, List.filterMap_map, Function.comp_def, vertex?, edge?]

/-- The rows of a report can be told apart, whatever the labels are. -/
theorem ofRows_rows (shown : Shown) : ofRows shown.dominance.isSome shown.rows = shown := by
  obtain ⟨vertices, edges, dominance⟩ := shown
  have hscores := ofRows_scores vertices edges
  cases dominance with
  | none => simpa [rows] using hscores
  | some score =>
      simp only [ofRows, Bool.false_eq_true, if_false, mk.injEq] at hscores
      simp [ofRows, rows, hscores.1, hscores.2.1, vertex?]

end Shown

namespace BetweennessReport

def shown (r : BetweennessReport) (places : Nat) : Shown where
  vertices := r.vertices.map fun v => (v.label, Decimal.fixed places v.betweenness)
  edges := (r.edges.getD []).map fun e => (e.source, e.target, Decimal.fixed places e.betweenness)
  dominance := r.dominance.map (Decimal.fixed places)

theorem textRows_eq (r : BetweennessReport) (places : Nat) :
    r.textRows places = (r.shown places).rows.map row := by
  simp [textRows, shown, Shown.rows, Function.comp_def, Option.toList_map]

/-- All labels of the report can be told from what stands around them. -/
structure Plain (r : BetweennessReport) : Prop where
  vertices : ∀ v ∈ r.vertices, IsLabel v.label
  edges : ∀ e ∈ r.edges.getD [], IsLabel e.source ∧ IsLabel e.target

theorem Plain.isCell {r : BetweennessReport} (h : r.Plain) (places : Nat) :
    ∀ fields ∈ (r.shown places).rows, fields ≠ [] ∧ ∀ s ∈ fields, IsCell s := by
  intro fields hfields
  simp only [Shown.rows, shown, List.map_map, Option.toList_map, List.mem_append, List.mem_map]
    at hfields
  rcases hfields with (⟨v, hv, rfl⟩ | ⟨e, he, rfl⟩) | ⟨d, -, rfl⟩
  · simpa using ⟨(h.vertices v hv).isCell, Decimal.isCell_fixed _ _⟩
  · simpa using ⟨(h.edges e he).1.isCell, (h.edges e he).2.isCell, Decimal.isCell_fixed _ _⟩
  · have hname : IsCell "central_point_dominance" := ⟨by decide, by decide⟩
    simpa using ⟨hname, Decimal.isCell_fixed _ _⟩

theorem Plain.cellsOf_render {r : BetweennessReport} (h : r.Plain) (places : Nat) :
    cellsOf (r.render places .text) = (r.shown places).rows ++ [[""]] := by
  have hrender : r.render places .text = Text.unlines (r.textRows places) := rfl
  rw [hrender, textRows_eq]
  exact cellsOf_unlines (h.isCell places)

theorem Plain.read_render {r : BetweennessReport} (h : r.Plain) (places : Nat) :
    Shown.read r.dominance.isSome (r.render places .text) = r.shown places := by
  have hdominance : r.dominance.isSome = (r.shown places).dominance.isSome := by
    simp [shown]
  rw [Shown.read, h.cellsOf_render, List.dropLast_concat, hdominance, Shown.ofRows_rows]

end BetweennessReport

/-! ## Runs -/

section Runs

variable {plan : (n : Nat) → Schedule n} {files : Files} {source : GraphSource}
  {normalize edges dominance : Bool} {r : BetweennessReport} {text : String} {l : EdgeList}

theorem asked_of_report
    (h : betweennessReport plan files source normalize edges dominance = .ok r) :
    r.edges.isSome = edges ∧ r.dominance.isSome = dominance := by
  unfold betweennessReport at h
  obtain ⟨l, -, h⟩ := bind_eq_ok_iff.mp h
  obtain ⟨b, -, h⟩ := bind_eq_ok_iff.mp h
  cases dominance with
  | false =>
      obtain rfl := Except.ok.inj h
      cases edges <;> simp
  | true =>
      obtain ⟨d, hd, h⟩ := bind_eq_ok_iff.mp h
      obtain ⟨x, -, rfl⟩ := map_eq_ok_iff.mp hd
      obtain rfl := Except.ok.inj h
      cases edges <;> simp

structure Rowed (l : EdgeList) (edges : Bool) (r : BetweennessReport) : Prop where
  vertices : r.vertices.map (·.label) = l.labels.toList
  edges : (r.edges.getD []).map (fun e => (e.source, e.target)) =
    if edges then (l.links.map l.row).map fun row => (row.source, row.target) else []

theorem rowed_of_report
    (h : betweennessReport plan files source normalize edges dominance = .ok r) :
    ∃ text l, files.read source.file = .ok text ∧ EdgeList.parse text = .ok l ∧
      Rowed l edges r := by
  obtain ⟨l, b, hload, hb, hvertices, hedges⟩ := report_eq_ok h
  obtain ⟨text, htext⟩ := LabelledGraph.exists_text_of_load hload
  obtain ⟨hparse, -, -⟩ := load_eq_ok htext hload
  obtain ⟨xs, ys, hxs, hxsSize, hys, hysSize⟩ := numbers?_of_betweenness hb
  refine ⟨text, l.list, htext, hparse, ⟨?_, ?_⟩⟩
  · rw [hvertices]
    exact (LabelledGraph.vertexScores_columns hxs hxsSize).1
  · rw [hedges]
    cases edges with
    | false => rfl
    | true =>
        exact (LabelledGraph.edgeScores_columns hys
          (hysSize.trans (EdgeList.edgeCount_graph _ _))).1

theorem Rowed.plain (h : Rowed l edges r) (hparse : EdgeList.parse text = .ok l) : r.Plain := by
  have hlabel : ∀ s ∈ l.labels.toList, IsLabel s := fun s hs => by
    rw [(EdgeList.reads_of_parse hparse).1] at hs
    exact isLabel_of_mem hs
  constructor
  · intro v hv
    refine hlabel _ ?_
    rw [← h.vertices]
    exact List.mem_map_of_mem hv
  · intro e he
    have hrow : (e.source, e.target) ∈ (r.edges.getD []).map fun e => (e.source, e.target) :=
      List.mem_map_of_mem he
    rw [h.edges] at hrow
    split at hrow
    · obtain ⟨row, hrow, hends⟩ := List.mem_map.mp hrow
      obtain ⟨link, -, rfl⟩ := List.mem_map.mp hrow
      obtain ⟨hsource, htarget⟩ := Prod.mk.inj hends
      rw [← hsource, ← htarget]
      exact ⟨hlabel _ (Array.getElem_mem_toList _), hlabel _ (Array.getElem_mem_toList _)⟩
    · cases hrow

/-- Without weights every edge list has a report. -/
theorem exists_report (hweighted : source.weighted = false)
    (htext : files.read source.file = .ok text) (hparse : EdgeList.parse text = .ok l) :
    ∃ r, betweennessReport plan files source normalize edges dominance = .ok r := by
  let s : Surroundings := ⟨"", none, none, false, files⟩
  have hreports : Reports (Stage.FailsWith s none source) Stage.ofGraph
      ((betweennessReport plan files source normalize edges dominance).mapError RunError.code) :=
    reports_betweennessReport normalize edges dominance
  have hread : s.files.read source.file = .ok text := htext
  have hgood := parse_ok_iff.mp ⟨l, hparse⟩
  have hfaultless : Faultless (Stage.FailsWith s none source) Stage.ofGraph := by
    rintro stage hstage code ⟨hfails, -⟩
    cases stage with
    | settingsFile | settingsText => simp [Stage.ofGraph] at hstage
    | graphFile => simp [Stage.Fails, hread] at hfails
    | graphText =>
        obtain ⟨text', htext', line, hline, hbad⟩ := hfails
        obtain rfl : text = text' := Except.ok.inj (hread.symm.trans htext')
        exact hbad (hgood line hline)
    | missingWeight | badWeight => simp [Stage.Fails, hweighted] at hfails
  obtain ⟨r, hr⟩ := hreports.exists_ok_iff.mpr hfaultless
  exact ⟨r, mapError_eq_ok_iff.mp hr⟩

/-- The rows that a run puts out can be read back. Split at line feeds and tabs they are the rows of
the vertices, of the edges and of the dominance, as far as they were asked for, with all their
labels and scores; so another report that is written in the same way shows the same. -/
theorem text_reads_back (plan : (n : Nat) → Schedule n) (s : Surroundings) (i : Invocation)
    {source : GraphSource} {normalize raw edges dominance : Bool} {settings : Settings}
    {text : String} {l : EdgeList}
    (hcommand : i.command = .betweenness source normalize raw edges dominance)
    (hmode : s.mode i.options = .text)
    (hsettings : Settings.resolve i.options.config s = .ok settings)
    (htext : s.files.read source.file = .ok text) (hparse : EdgeList.parse text = .ok l) :
    let out := (i.run plan s).stdout
    let score := Decimal.fixed settings.precision
    (source.weighted = false → (i.run plan s).exitCode = 0) ∧
    ((i.run plan s).exitCode = 0 → ∃ r,
      betweennessReport plan s.files source (normalizes normalize raw settings.normalize) edges
        dominance = .ok r ∧
      (out = "" ∨ ∃ rows, out = rows ++ "\n") ∧
      cellsOf out =
        r.vertices.map (fun v => [v.label, score v.betweenness]) ++
        (r.edges.getD []).map (fun e => [e.source, e.target, score e.betweenness]) ++
        r.dominance.toList.map (fun d => ["central_point_dominance", score d]) ++ [[""]] ∧
      (r.vertices.map (·.label) = l.labels.toList ∧
        (r.edges.getD []).length = (if edges then l.edgeCount else 0) ∧
        r.edges.isSome = edges ∧ r.dominance.isSome = dominance) ∧
      Shown.read dominance out = r.shown settings.precision ∧
      ∀ plan' files' source' normalize' r',
        betweennessReport plan' files' source' normalize' edges dominance = .ok r' →
        r'.render settings.precision .text = out →
        r'.shown settings.precision = r.shown settings.precision) := by
  intro out score
  let normalize' := normalizes normalize raw settings.normalize
  have hreport : i.command.report plan s i.options (s.mode i.options) =
      (betweennessReport plan s.files source normalize' edges dominance).map
        (·.render settings.precision .text) := by
    rw [hcommand, hmode, Command.report, hsettings]
    exact bind_eq_map fun _ => rfl
  refine ⟨fun hweighted => ?_, fun hexit => ?_⟩
  · have hexists : ∃ r, betweennessReport plan s.files source normalize' edges dominance = .ok r :=
      exists_report hweighted htext hparse
    obtain ⟨r, hr⟩ := hexists
    rw [hr] at hreport
    rw [Invocation.run_of_ok hreport]
  · cases hr : betweennessReport plan s.files source normalize' edges dominance with
    | error e =>
        rw [hr] at hreport
        rw [Invocation.run_of_error hreport] at hexit
        cases hexit
    | ok r =>
        rw [hr] at hreport
        have hout : out = r.render settings.precision .text :=
          congrArg Outcome.stdout (Invocation.run_of_ok hreport)
        obtain ⟨text', l', htext', hparse', hrowed⟩ := rowed_of_report hr
        obtain rfl : text = text' := Except.ok.inj (htext.symm.trans htext')
        obtain rfl : l = l' := Except.ok.inj (hparse.symm.trans hparse')
        obtain ⟨hedges, hdominance⟩ := asked_of_report hr
        have hplain := hrowed.plain hparse
        have hread := hplain.read_render settings.precision
        rw [hdominance, ← hout] at hread
        refine ⟨r, rfl, ?_, ?_, ⟨hrowed.vertices, ?_, hedges, hdominance⟩, hread, ?_⟩
        · rw [hout]
          exact unlines_closed _
        · rw [hout, hplain.cellsOf_render]
          simp [Shown.rows, BetweennessReport.shown, Function.comp_def, Option.toList_map, score]
        · have hlength := congrArg List.length hrowed.edges
          rw [List.length_map] at hlength
          rw [hlength]
          split <;> simp [EdgeList.edgeCount]
        · intro plan' files' source' normalize' r' hr' hout'
          obtain ⟨text', l', -, hparse', hrowed'⟩ := rowed_of_report hr'
          have hread' := (hrowed'.plain hparse').read_render settings.precision
          rw [(asked_of_report hr').2, hout', hread] at hread'
          exact hread'.symm

end Runs

/-- A label like that of the dominance, and another one like a score. -/
theorem text_reads_back_misleading :
    let text := "central_point_dominance 0.5\n"
    let source : GraphSource := ⟨"graph", false, false⟩
    let i : Invocation := ⟨⟨false, none, none, none⟩, .betweenness source false false true true⟩
    ∃ (l : EdgeList) (r : BetweennessReport), EdgeList.parse text = .ok l ∧
      (i.run Schedule.sequential (surroundedBy text)).exitCode = 0 ∧
      r.vertices.map (·.label) = ["central_point_dominance", "0.5"] ∧
      Shown.read true (i.run Schedule.sequential (surroundedBy text)).stdout = r.shown 6 := by
  intro text source i
  cases hparse : EdgeList.parse text with
  | error e =>
      have hok : (EdgeList.parse text).isOk = true := by decide +kernel
      rw [hparse] at hok
      cases hok
  | ok l =>
      have hsettings : Settings.resolve i.options.config (surroundedBy text) = .ok .default := rfl
      obtain ⟨hsucceeds, hreads⟩ := text_reads_back Schedule.sequential (surroundedBy text) i rfl
        rfl hsettings (read_surroundedBy text source.file) hparse
      have hexit := hsucceeds rfl
      obtain ⟨r, -, -, -, ⟨hlabels, -⟩, hread, -⟩ := hreads hexit
      refine ⟨l, r, rfl, hexit, ?_, hread⟩
      rw [hlabels, (EdgeList.reads_of_parse hparse).1]
      decide +kernel

end Geodesic
