import Geodesic.Json.Value
import Geodesic.OutputMode
import Geodesic.Text.Pretty

/-!
# Reports

What a command finds out, and how it is written: as rows with tabs, as aligned tables, or as a JSON
document. Rows and tables show scores with a fixed number of decimal places.
-/

namespace Geodesic

structure VertexScore where
  label : String
  betweenness : Float

structure EdgeScore where
  source : String
  target : String
  betweenness : Float

structure BetweennessReport where
  directed : Bool
  weighted : Bool
  normalized : Bool
  vertices : List VertexScore
  edges : Option (List EdgeScore)
  dominance : Option Float

structure DominanceReport where
  directed : Bool
  weighted : Bool
  vertices : Nat
  dominance : Float

def directionName (directed : Bool) : String :=
  if directed then "directed" else "undirected"

def row (fields : List String) : String :=
  String.intercalate "\t" fields

namespace BetweennessReport

variable (r : BetweennessReport) (places : Nat)

def textRows : List String :=
  r.vertices.map (fun v => row [v.label, Decimal.fixed places v.betweenness]) ++
    (r.edges.getD []).map
      (fun e => row [e.source, e.target, Decimal.fixed places e.betweenness]) ++
    r.dominance.toList.map (fun d => row ["central_point_dominance", Decimal.fixed places d])

def labelTitle : String := "vertex"

/-- The width of the label column, in bytes, which are never fewer than characters. -/
def labelWidth : Nat :=
  r.vertices.foldl (fun w v => max w v.label.utf8ByteSize) labelTitle.utf8ByteSize

def tableLine (label score : String) : String :=
  Text.padRight r.labelWidth label ++ "  " ++ score

def vertexTable : List String :=
  Text.titled "Vertex betweenness" ++ r.tableLine labelTitle "score" ::
    r.vertices.map fun v => r.tableLine v.label (Decimal.fixed places v.betweenness)

def edgeTable (edges : List EdgeScore) : List String :=
  Text.titled "Edge betweenness" ++
    edges.map fun e =>
      e.source ++ " -> " ++ e.target ++ "  " ++ Decimal.fixed places e.betweenness

def prettyLines : List String :=
  [Text.entry "graph" (directionName r.directed), Text.entry "weighted" (toString r.weighted),
    Text.entry "normalized" (toString r.normalized), ""] ++
  r.vertexTable places ++
  (match r.edges with
    | some es => "" :: edgeTable places es
    | none => []) ++
  (match r.dominance with
    | some d => ["", Text.rule, Text.entry "central point dominance" (Decimal.fixed places d)]
    | none => [])

def toJson : Json.Value :=
  .object <|
    [("directed", .bool r.directed), ("weighted", .bool r.weighted),
      ("normalized", .bool r.normalized),
      ("vertices", .array (r.vertices.map fun v =>
        .object [("label", .string v.label), ("betweenness", .number v.betweenness)]))] ++
    r.edges.toList.map (fun es => ("edges", .array (es.map fun e =>
      .object [("source", .string e.source), ("target", .string e.target),
        ("betweenness", .number e.betweenness)]))) ++
    r.dominance.toList.map (fun d => ("central_point_dominance", .number d))

def render (mode : OutputMode) : String :=
  match mode with
  | .json => Json.document r.toJson
  | .text => Text.unlines (r.textRows places)
  | .pretty => Text.unlines (r.prettyLines places)

end BetweennessReport

namespace DominanceReport

variable (r : DominanceReport) (places : Nat)

def prettyLines : List String :=
  [Text.entry "graph" (directionName r.directed), Text.entry "vertices" (toString r.vertices),
    Text.entry "central point dominance" (Decimal.fixed places r.dominance)]

def toJson : Json.Value :=
  .object [("directed", .bool r.directed), ("weighted", .bool r.weighted),
    ("vertices", .count r.vertices), ("central_point_dominance", .number r.dominance)]

def render (mode : OutputMode) : String :=
  match mode with
  | .json => Json.document r.toJson
  | .text => Text.unlines [Decimal.fixed places r.dominance]
  | .pretty => Text.unlines (r.prettyLines places)

end DominanceReport

structure Failure where
  message : String
  suggestion : Option String
  code : String

namespace Failure

def toJson (f : Failure) : Json.Value :=
  .object [("error", .object <|
    [("code", .string f.code), ("message", .string f.message)] ++
      f.suggestion.toList.map fun s => ("suggestion", .string s))]

def render (mode : OutputMode) (f : Failure) : String :=
  match mode with
  | .json => Json.document f.toJson
  | _ => Text.unlines (("error: " ++ f.message) ::
      f.suggestion.toList.map fun s => "  suggestion: " ++ s)

end Failure

end Geodesic
