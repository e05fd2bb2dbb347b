import Geodesic.Text.Blank

/-!
# Value types

The closed set of types that a property map may hold, with two spellings of each: a name for people,
which is read in any case and with synonyms, and a tag for stored data, which is read exactly.
-/

namespace Geodesic

inductive ValueType where
  | bool
  | int32
  | int64
  | single
  | double
  | string
deriving DecidableEq, Repr

namespace ValueType

def all : List ValueType :=
  [bool, int32, int64, single, double, string]

def name : ValueType → String
  | bool => "bool"
  | int32 => "int32_t"
  | int64 => "int64_t"
  | single => "float"
  | double => "double"
  | string => "string"

def tag : ValueType → String
  | bool => "bool"
  | int32 => "int32"
  | int64 => "int64"
  | single => "float32"
  | double => "float64"
  | string => "string"

def synonyms : ValueType → List String
  | int32 => ["int", "int32"]
  | int64 => ["long", "int64"]
  | single => ["f32", "float32"]
  | double => ["f64", "float64"]
  | _ => []

def isScalar : ValueType → Bool
  | string => false
  | _ => true

/-- The type of a name or synonym, in any ASCII case and between blanks. -/
def ofName? (text : String) : Option ValueType :=
  let key := String.ofList ((Text.trim text.toList).map Char.toLower)
  all.find? fun t => t.name = key || t.synonyms.contains key

def unknownName (text : String) : String :=
  "unknown value type '" ++ text ++ "'"

def ofTag? (text : String) : Option ValueType :=
  all.find? fun t => t.tag = text

end ValueType

end Geodesic
