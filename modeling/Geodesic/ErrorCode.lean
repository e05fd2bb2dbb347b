/-!
# Error codes

Stable codes for programs, each with a summary and a hint for people.
-/

namespace Geodesic

/-- The kinds of failure that a caller can tell apart. -/
inductive ErrorCode where
  | settings
  | input
  | valueType
  | mapSize
  | negativeWeight
  | unexpected
deriving DecidableEq, Repr

namespace ErrorCode

def code : ErrorCode → String
  | settings => "E1001"
  | input => "E1002"
  | valueType => "E2001"
  | mapSize => "E2002"
  | negativeWeight => "E2003"
  | unexpected => "E9001"

def message : ErrorCode → String
  | settings => "Config file parse error"
  | input => "Edge list parse error"
  | valueType => "Property map has the wrong value type"
  | mapSize => "Property map does not match the graph"
  | negativeWeight => "Negative or NaN edge weight"
  | unexpected => "Internal unexpected error"

def hint : ErrorCode → String
  | settings => "Fix syntax in centrality.toml and retry."
  | input => "Use one `SOURCE TARGET [WEIGHT]` edge per line; `#` starts a comment."
  | valueType => "Betweenness outputs must be `float` or `double` maps."
  | mapSize => "Allocate one entry per vertex or edge of the graph."
  | negativeWeight =>
      "Shortest paths are undefined with negative weights; drop --weighted or fix the input."
  | unexpected => "Retry once. If persistent, report a bug with logs."

end ErrorCode

end Geodesic
