/-!
# Output modes

A flag decides how reports and errors are written, then the environment, then whether a terminal is
listening.
-/

namespace Geodesic

inductive OutputMode where
  /-- Aligned tables for people. -/
  | pretty
  /-- Rows with tabs for scripts. -/
  | text
  | json
deriving DecidableEq, Repr

namespace OutputMode

def all : List OutputMode :=
  [pretty, text, json]

def name : OutputMode → String
  | pretty => "pretty"
  | text => "text"
  | json => "json"

def ofName? (word : String) : Option OutputMode :=
  all.find? fun m => m.name = word

/-- The mode of a word in any ASCII case; no other letter is a variant of theirs. -/
def ofAnyCase? (word : String) : Option OutputMode :=
  ofName? (word.map Char.toLower)

/-- The mode of a run. An environment that names no mode is passed over. -/
def resolve (flag : Option OutputMode) (environment : Option String) (terminal : Bool) :
    OutputMode :=
  let fallback := if terminal then pretty else text
  (flag.or (environment.bind ofAnyCase?)).getD fallback

end OutputMode

end Geodesic
