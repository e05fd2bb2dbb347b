import Geodesic.Proofs.Report

/-!
# How a run fails

A run goes through stages: its settings are read and understood, then the graph, then its weights.
The first stage that fails decides the code of the failure, and nothing is put out then. Of the
places where settings may lie, one is chosen; what lies at the others does not matter.
-/

namespace Geodesic

variable {plan : (n : Nat) → Schedule n} {s s' : Surroundings} {asked : Option String}
  {source : GraphSource} {path text : String}

/-! ## The settings that are used -/

namespace Settings

/-- The file that holds the settings of a run: the one that was asked for, or else the one in the
working directory, or else that of the user. -/
inductive Chosen (s : Surroundings) : Option String → String → Prop
  | asked (path : String) : Chosen s (some path) path
  | nearby : s.files.has (inDirectory s.workingDirectory localName) = true →
      Chosen s none (inDirectory s.workingDirectory localName)
  | user {directory : String} : s.files.has (inDirectory s.workingDirectory localName) = false →
      s.userDirectory = some directory → s.files.has (inDirectory directory userName) = true →
      Chosen s none (inDirectory directory userName)

end Settings

open Settings (Chosen)

/-! ## Stages -/

/-- What may fail in a run. -/
inductive Stage where
  | settingsFile
  | settingsText
  | graphFile
  | graphText
  | missingWeight
  | badWeight
deriving DecidableEq

namespace Stage

def all : List Stage :=
  [settingsFile, settingsText, graphFile, graphText, missingWeight, badWeight]

def code : Stage → ErrorCode
  | settingsText => .settings
  | badWeight => .negativeWeight
  | settingsFile | graphFile | graphText | missingWeight => .input

variable (s asked source)

/-- The stage fails, whether or not one before it does. -/
def Fails : Stage → Prop
  | settingsFile => ∃ path reason, Chosen s asked path ∧ s.files.read path = .error reason
  | settingsText => ∃ path text, Chosen s asked path ∧ s.files.read path = .ok text ∧
      Settings.parse? text = none
  | graphFile => ∃ reason, s.files.read source.file = .error reason
  | graphText => ∃ text, s.files.read source.file = .ok text ∧
      ∃ line ∈ Text.lines text.toList, ¬ Acceptable line
  | missingWeight => source.weighted = true ∧ ∃ text, s.files.read source.file = .ok text ∧
      ∃ row ∈ rowsIn (Text.lines text.toList), row.weight = none
  | badWeight => source.weighted = true ∧ ∃ text, s.files.read source.file = .ok text ∧
      ∃ row ∈ rowsIn (Text.lines text.toList), ∃ w, row.weight = some w ∧ Refused w

def FailsWith (stage : Stage) (code : ErrorCode) : Prop :=
  stage.Fails s asked source ∧ stage.code = code

variable {s asked source}

/-- A computation that succeeds unless the stage fails, and fails with its code. -/
theorem reports {ε α : Type} {stage : Stage} {x : Except ε α} {codeOf : ε → ErrorCode}
    (hok : (∃ a, x = .ok a) ↔ ¬ stage.Fails s asked source)
    (hcode : ∀ e, x = .error e → codeOf e = stage.code) :
    Reports (FailsWith s asked source) [stage] (x.mapError codeOf) := by
  refine Reports.check fun code => ?_
  cases x with
  | ok a =>
      have hfails := hok.mp ⟨a, rfl⟩
      simp [Except.mapError, FailsWith, hfails]
  | error e =>
      have hfails : stage.Fails s asked source := by
        by_contra hfails
        obtain ⟨a, ha⟩ := hok.mpr hfails
        cases ha
      simp [Except.mapError, FailsWith, hfails, hcode e rfl]

end Stage

theorem mapError_bind {ε ε' α β : Type} {x : Except ε α} {f : α → Except ε β} {g : ε → ε'} :
    (x >>= f).mapError g = x.mapError g >>= fun a => (f a).mapError g := by
  cases x <;> rfl

theorem mapError_map {ε ε' α β : Type} {x : Except ε α} {f : α → β} {g : ε → ε'} :
    (f <$> x).mapError g = f <$> x.mapError g := by
  cases x <;> rfl

theorem mapError_mapError {ε ε' ε'' α : Type} {x : Except ε α} {f : ε → ε'} {g : ε' → ε''} :
    (x.mapError f).mapError g = x.mapError (g ∘ f) := by
  cases x <;> rfl

theorem bind_eq_map {ε α β : Type} {x : Except ε α} {f : α → Except ε β} {g : α → β}
    (h : ∀ a, f a = .ok (g a)) : x >>= f = x.map g := by
  cases x with
  | ok a => exact h a
  | error e => rfl

theorem exists_ok_iff {ε α : Type} {x : Except ε α} : (∃ a, x = .ok a) ↔ ¬ ∃ e, x = .error e := by
  cases x <;> simp

/-! ## The stages of a run -/

section Stages

open Stage (FailsWith reports)

theorem parse_ok_iff : (∃ l, EdgeList.parse text = .ok l) ↔
    ∀ line ∈ Text.lines text.toList, Acceptable line := by
  rw [(EdgeList.reports_parse text).exists_ok_iff, faultless_lineFault_iff]

theorem weightMap_ok_iff {l : EdgeList} (hparse : EdgeList.parse text = .ok l) :
    (∃ m, l.weightMap = .ok m) ↔ ∀ row ∈ rowsIn (Text.lines text.toList), row.weight ≠ none := by
  rw [EdgeList.reports_weightMap.exists_ok_iff, ← (EdgeList.reads_of_parse hparse).2.2,
    List.forall_mem_map]
  refine forall₂_congr fun link _ => ?_
  constructor
  · exact fun hweighted hnone => hweighted _ (.missing hnone)
  · rintro hsome e ⟨hnone⟩
    exact hsome hnone

/-- A graph is read, then understood, then its weights are collected. -/
theorem reports_load :
    Reports (FailsWith s asked source) [.graphFile, .graphText, .missingWeight]
      ((LabelledGraph.load source s.files).mapError RunError.code) := by
  have hread : (∃ text, s.files.read source.file = .ok text) ↔
      ¬ Stage.graphFile.Fails s asked source := exists_ok_iff
  unfold LabelledGraph.load
  simp only [mapError_bind, mapError_mapError]
  refine (reports hread fun _ _ => rfl).bind fun text htext => ?_
  rw [mapError_eq_ok_iff] at htext
  have hparse : (∃ l, EdgeList.parse text = .ok l) ↔ ¬ Stage.graphText.Fails s asked source := by
    rw [parse_ok_iff]
    simp [Stage.Fails, htext]
  refine (reports hparse fun _ _ => rfl).bind fun list hlist => ?_
  rw [mapError_eq_ok_iff] at hlist
  split
  · rename_i hweighted
    have hweights : (∃ m, list.weightMap = .ok m) ↔ ¬ Stage.missingWeight.Fails s asked source := by
      rw [weightMap_ok_iff hlist]
      simp [Stage.Fails, htext, hweighted]
    simp only [mapError_bind, mapError_map, mapError_mapError]
    exact ((reports hweights fun _ _ => rfl).map some).bind fun _ _ => Reports.ok _
  · rename_i hweighted
    refine Reports.of_faultless ?_ _
    simp [Faultless, FailsWith, Stage.Fails, hweighted]

theorem betweenness_ok_iff {g : Graph} {plan : Schedule g.vertexCount}
    {weight : Option (EdgeMap Float32 Float)} {normalize : Bool} :
    (∃ b : Betweenness Float32 Float, betweenness g plan weight normalize = .ok b) ↔
      ∃ weights, weight.mapM (admitWeights g) = .ok weights := by
  constructor
  · rintro ⟨b, hb⟩
    obtain ⟨scores, hcompute, -⟩ := bind_eq_ok_iff.mp hb
    unfold computeBetweenness at hcompute
    obtain ⟨_, -, hcompute⟩ := bind_eq_ok_iff.mp hcompute
    obtain ⟨_, -, hcompute⟩ := bind_eq_ok_iff.mp hcompute
    obtain ⟨_, -, hcompute⟩ := bind_eq_ok_iff.mp hcompute
    obtain ⟨_, -, hcompute⟩ := bind_eq_ok_iff.mp hcompute
    obtain ⟨weights, hweights, -⟩ := bind_eq_ok_iff.mp hcompute
    exact ⟨weights, hweights⟩
  · rintro ⟨weights, hweights⟩
    exact ⟨_, betweenness_eq_finished plan hweights normalize⟩

theorem admits_doubles_iff {g : Graph} {ws : List Float} (hsize : ws.length = g.edgeCount) :
    (∃ weights, (some ⟨.double ws.toArray⟩ : Option (EdgeMap Float32 Float)).mapM
        (admitWeights g) = .ok weights) ↔ ∀ w ∈ ws, ¬ Refused w := by
  let table : Table Float g.edgeCount := Table.ofArray ws.toArray (by simpa using hsize)
  have hentries : (∀ e : g.EdgeId, Distance.Admissible table[e]) ↔ ∀ w ∈ ws, ¬ Refused w := by
    have hentry : ∀ e : g.EdgeId, table[e] = ws[e.val] := fun e => rfl
    simp only [hentry, Distance.Admissible, admissible_iff_not_refused]
    constructor
    · intro hall w hw
      obtain ⟨i, hi, rfl⟩ := List.mem_iff_getElem.mp hw
      exact hall ⟨i, hsize ▸ hi⟩
    · exact fun hall e => hall _ (List.getElem_mem _)
  rw [← hentries]
  constructor
  · rintro ⟨weights, hweights⟩
    obtain ⟨lengths, rfl, hadmitted⟩ := mapM_admitWeights_iff.mp hweights
    obtain ⟨hnumbers, hadmissible⟩ := admitWeights_eq_ok_iff.mp hadmitted
    have hsame : ws.toArray = lengths.toArray := Option.some.inj hnumbers
    have htable : table = lengths := Table.ext fun e => by
      have hread : table.toArray[e.val]? = lengths.toArray[e.val]? := congrArg (·[e.val]?) hsame
      rw [Table.getElem?_toArray, Table.getElem?_toArray] at hread
      exact Option.some.inj hread
    rw [htable]
    exact hadmissible
  · exact fun hall => ⟨some table, mapM_admitWeights_iff.mpr
      ⟨table, rfl, admitWeights_eq_ok_iff.mpr ⟨rfl, hall⟩⟩⟩

def freshMaps (g : Graph) : ScoreMaps Float32 Float :=
  ⟨.forGraph g .double, .forGraph g .double⟩

theorem reports_betweenness {g : Graph} {plan : Schedule g.vertexCount}
    {weight : Option (EdgeMap Float32 Float)} {normalize : Bool} :
    Reports (Check.Finds g weight (freshMaps g)) Check.all
      (betweenness g plan weight normalize : Except (Fault Float) (Betweenness Float32 Float)) := by
  have hmap : (betweenness g plan weight normalize :
      Except (Fault Float) (Betweenness Float32 Float)) =
      (computeBetweenness g plan weight (freshMaps g).edge (freshMaps g).vertex normalize).map
        fun (edge, vertex) => ⟨vertex, edge⟩ := by
    exact bind_eq_map fun (_, _) => rfl
  rw [hmap]
  exact reports_computeBetweenness.map _

/-- Of fresh maps and a number for every edge, only a number can be refused. -/
theorem code_of_betweenness {g : Graph} {plan : Schedule g.vertexCount} {ws : List Float}
    (hsize : ws.length = g.edgeCount) {normalize : Bool} {fault : Fault Float}
    (h : (betweenness g plan (some ⟨.double ws.toArray⟩ : Option (EdgeMap Float32 Float))
      normalize : Except (Fault Float) (Betweenness Float32 Float)) = .error fault) :
    fault.code = .negativeWeight := by
  obtain ⟨before, check, after, -, hfinds, -⟩ := (reports_betweenness fault).mp h
  cases check with
  | edgeType | vertexType =>
      exact absurd rfl hfinds.1.2
  | edgeSize | vertexSize =>
      exact absurd (PropertyMap.fits_forGraph g .double) hfinds.1
  | weightType =>
      obtain ⟨w, hw, htype, -⟩ := hfinds
      obtain rfl := Option.some.inj hw
      cases htype
  | weightSize =>
      obtain ⟨w, hw, hcount, -⟩ := hfinds
      obtain rfl := Option.some.inj hw
      exact absurd hsize hcount
  | weightValues =>
      obtain ⟨w, -, e, x, -, rfl⟩ := hfinds
      rfl

theorem exists_weight_iff {rows : List Row} {ws : List Float} {P : Float → Prop}
    (hws : rows.map (·.weight) = ws.map some) :
    (∃ row ∈ rows, ∃ w, row.weight = some w ∧ P w) ↔ ∃ w ∈ ws, P w := by
  have hmem : ∀ w, (∃ row ∈ rows, row.weight = some w) ↔ w ∈ ws := fun w => by
    have hrows := List.mem_map (f := Row.weight) (b := some w) (l := rows)
    rw [hws] at hrows
    rw [← hrows]
    simp
  simp only [← hmem]
  grind

namespace LabelledGraph

variable {l : LabelledGraph}

theorem exists_text_of_load {files : Files} (h : load source files = .ok l) :
    ∃ text, files.read source.file = .ok text := by
  obtain ⟨text, htext, -⟩ := bind_eq_ok_iff.mp h
  exact ⟨text, mapError_eq_ok_iff.mp htext⟩

/-- Of a graph that has been read, only a weight can be refused. -/
theorem reports_betweenness (hload : load source s.files = .ok l) (normalize : Bool) :
    Reports (FailsWith s asked source) [.badWeight]
      ((l.betweenness plan normalize).mapError RunError.code) := by
  obtain ⟨text, htext⟩ := exists_text_of_load hload
  obtain ⟨hparse, -, hweights⟩ := load_eq_ok htext hload
  have hcount : l.graph.edgeCount = (rowsIn (Text.lines text.toList)).length :=
    (depicts_graph hparse l.directed).edgeCount
  unfold betweenness
  rw [mapError_mapError]
  unfold Weighs at hweights
  split at hweights
  · rename_i hweighted
    obtain ⟨ws, hws, hweights⟩ := hweights
    have hsize : ws.length = l.graph.edgeCount := by
      have hlength := congrArg List.length hws
      rw [List.length_map, List.length_map] at hlength
      rw [hcount, hlength]
    rw [hweights]
    refine reports ?_ fun fault hfault => code_of_betweenness hsize hfault
    rw [betweenness_ok_iff, admits_doubles_iff hsize]
    simp only [Stage.Fails, hweighted, htext, Except.ok.injEq, true_and, exists_eq_left',
      exists_weight_iff hws]
    simp
  · rename_i hweighted
    have hadmitted : l.weights.mapM (admitWeights l.graph) = .ok none := by
      rw [hweights]
      rfl
    obtain ⟨b, hb⟩ := betweenness_ok_iff.mpr ⟨none, hadmitted⟩
    rw [hb]
    refine Reports.of_faultless ?_ b
    simp [Faultless, FailsWith, Stage.Fails, hweighted]

theorem exists_dominance {normalize : Bool} {b : Betweenness Float32 Float}
    (hb : l.betweenness plan normalize = .ok b) : ∃ d, l.dominance b.vertex = .ok d := by
  obtain ⟨xs, -, -, -, hdominance⟩ := dominance_of_betweenness (mapError_eq_ok_iff.mp hb)
  exact ⟨_, mapError_eq_ok_iff.mpr hdominance⟩

end LabelledGraph

def Stage.ofGraph : List Stage :=
  [graphFile, graphText, missingWeight, badWeight]

/-- A graph is loaded, then its betweenness is computed, and nothing after that can fail. -/
theorem Stage.ofGraph_eq :
    ofGraph = [graphFile, graphText, missingWeight] ++ ([badWeight] ++ []) :=
  rfl

theorem reports_betweennessReport (normalize edges dominance : Bool) :
    Reports (FailsWith s asked source) Stage.ofGraph
      ((betweennessReport plan s.files source normalize edges dominance).mapError
        RunError.code) := by
  unfold betweennessReport
  rw [Stage.ofGraph_eq]
  simp only [mapError_bind]
  refine reports_load.bind fun l hl => ?_
  rw [mapError_eq_ok_iff] at hl
  refine (LabelledGraph.reports_betweenness hl normalize).bind fun b hb => ?_
  rw [mapError_eq_ok_iff] at hb
  obtain ⟨d, hd⟩ := LabelledGraph.exists_dominance hb
  rw [hd]
  cases dominance <;> exact Reports.ok _

end Stages

/-! ## Runs -/

namespace Invocation

variable {i : Invocation} {e : RunError}

theorem run_of_error (h : i.command.report plan s i.options (s.mode i.options) = .error e) :
    i.run plan s = ⟨1, "", e.failure.render (s.mode i.options)⟩ := by
  simp only [run, h]

theorem run_of_ok (h : i.command.report plan s i.options (s.mode i.options) = .ok text) :
    i.run plan s = ⟨0, text, ""⟩ := by
  simp only [run, h]

end Invocation

/-- Surroundings with nothing but the text of a graph in them. -/
def surroundedBy (text : String) : Surroundings where
  workingDirectory := "/"
  userDirectory := none
  formatVariable := none
  terminal := false
  files := { filesOf text with has := fun _ => false }

theorem read_surroundedBy (text path : String) :
    (surroundedBy text).files.read path = .ok text := by
  have htext : String.fromUTF8? text.toUTF8 = some text := dif_pos text.isValidUTF8
  simp only [surroundedBy, filesOf, Files.read, htext]

end Geodesic
