import Geodesic.Betweenness
import Geodesic.Cause
import Geodesic.Command
import Geodesic.EdgeList
import Geodesic.Report
import Geodesic.Settings

/-!
# Running a command

A run loads the settings, then the graph, computes, and writes a report. The first step that fails
decides how the run fails, and then nothing is reported. How sources are dealt out to workers is a
parameter; it may only show in the last digits of sums.
-/

namespace Geodesic

inductive RunError where
  | settings (e : SettingsError)
  | unreadable (path : String) (reason : ReadError)
  | malformed (path : String) (e : InputError)
  | fault (f : Fault Float)

namespace RunError

/-- What was being done, and what went wrong then. -/
def causes : RunError → List Cause
  | settings e =>
      match e with
      | .unreadable _ reason => [.context e.context, .reading reason]
      | .malformed _ => [.context e.context, .document]
  | unreadable path reason => [.context ("Failed to read " ++ path), .reading reason]
  | malformed path e => [.context ("Failed to parse " ++ path), .input e]
  | fault f => [.fault f]

def code (e : RunError) : ErrorCode :=
  Cause.codeOf e.causes

def message (e : RunError) : String :=
  Cause.messageOf e.causes

def failure (e : RunError) : Failure :=
  ⟨e.message, some e.code.hint, e.code.code⟩

end RunError

structure LabelledGraph where
  list : EdgeList
  directed : Bool
  weights : Option (EdgeMap Float32 Float)

namespace LabelledGraph

def load (source : GraphSource) (files : Files) : Except RunError LabelledGraph := do
  let text ← (files.read source.file).mapError (.unreadable source.file)
  let list ← (EdgeList.parse text).mapError (.malformed source.file)
  let weights ←
    if source.weighted then some <$> list.weightMap.mapError (.malformed source.file)
    else pure none
  return ⟨list, !source.undirected, weights⟩

def graph (l : LabelledGraph) : Graph :=
  l.list.graph l.directed

def label (l : LabelledGraph) (v : l.graph.Vertex) : String :=
  have h : v.val < l.list.labels.size := v.isLt
  l.list.labels[v.val]

def betweenness (l : LabelledGraph) (plan : (n : Nat) → Schedule n) (normalize : Bool) :
    Except RunError (Betweenness Float32 Float) :=
  (Geodesic.betweenness l.graph (plan _) l.weights normalize).mapError .fault

def dominance (l : LabelledGraph) (scores : VertexMap Float32 Float) : Except RunError Float :=
  (centralPointDominance l.graph scores).mapError .fault

def vertexScores (l : LabelledGraph) (scores : VertexMap Float32 Float) : List VertexScore :=
  (l.list.labels.toList.zip (scores.values.numbers?.getD #[]).toList).map fun (label, x) =>
    ⟨label, x⟩

/-- The edges of the graph with their scores, each the way it is stored. -/
def edgeScores (l : LabelledGraph) (scores : EdgeMap Float32 Float) : List EdgeScore :=
  (l.graph.edges.toList.zip (scores.values.numbers?.getD #[]).toList).map fun (e, x) =>
    ⟨l.label e.source, l.label e.target, x⟩

end LabelledGraph

/-- The scores are normalized: the options decide, then the settings. -/
def normalizes (normalize raw settings : Bool) : Bool :=
  !raw && (normalize || settings)

def betweennessReport (plan : (n : Nat) → Schedule n) (files : Files) (source : GraphSource)
    (normalize edges dominance : Bool) : Except RunError BetweennessReport := do
  let l ← LabelledGraph.load source files
  let b ← l.betweenness plan normalize
  let d ← if dominance then some <$> l.dominance b.vertex else pure none
  return {
    directed := l.directed
    weighted := source.weighted
    normalized := normalize
    vertices := l.vertexScores b.vertex
    edges := if edges then some (l.edgeScores b.edge) else none
    dominance := d }

/-- The report on the dominance of a graph, which is always that of normalized scores. -/
def dominanceReport (plan : (n : Nat) → Schedule n) (files : Files) (source : GraphSource) :
    Except RunError DominanceReport := do
  let l ← LabelledGraph.load source files
  let b ← l.betweenness plan true
  let d ← l.dominance b.vertex
  return ⟨l.directed, source.weighted, l.list.labels.size, d⟩

structure Outcome where
  exitCode : Nat
  stdout : String
  stderr : String
deriving DecidableEq

/-- The report of a command, as text. Completion scripts are empty. -/
def Command.report (plan : (n : Nat) → Schedule n) (s : Surroundings) (options : Options)
    (mode : OutputMode) : Command → Except RunError String
  | .betweenness source normalize raw withEdges withDominance => do
      let settings ← (Settings.resolve options.config s).mapError .settings
      let normalize := normalizes normalize raw settings.normalize
      let r ← betweennessReport plan s.files source normalize withEdges withDominance
      return r.render settings.precision mode
  | .dominance source => do
      let settings ← (Settings.resolve options.config s).mapError .settings
      let r ← dominanceReport plan s.files source
      return r.render settings.precision mode
  | .completions _ => return ""

def Surroundings.mode (s : Surroundings) (options : Options) : OutputMode :=
  OutputMode.resolve options.format s.formatVariable s.terminal

def Invocation.run (plan : (n : Nat) → Schedule n) (s : Surroundings) (i : Invocation) : Outcome :=
  let mode := s.mode i.options
  match i.command.report plan s i.options mode with
  | .ok text => ⟨0, text, ""⟩
  | .error e => ⟨1, "", e.failure.render mode⟩

end Geodesic
