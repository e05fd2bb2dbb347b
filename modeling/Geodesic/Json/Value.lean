import Geodesic.Json.Number

/-!
# JSON documents

Documents are written over several lines, two blanks deeper with each level. The members of an
object keep their order.
-/

namespace Geodesic.Json

inductive Value where
  | bool (b : Bool)
  | count (n : Nat)
  | number (x : Float)
  | string (s : String)
  | array (items : List Value)
  | object (members : List (String × Value))

def controlCode (c : Char) : List Char :=
  (Nat.toDigits 16 c.toNat).leftpad 4 '0'

/-- A character inside a string. Only quotes, backslashes and control characters are escaped. -/
def escape (c : Char) : List Char :=
  match c with
  | '"' => ['\\', '"']
  | '\\' => ['\\', '\\']
  | '\x08' => ['\\', 'b']
  | '\x0c' => ['\\', 'f']
  | '\n' => ['\\', 'n']
  | '\r' => ['\\', 'r']
  | '\t' => ['\\', 't']
  | c => if c.toNat < 0x20 then '\\' :: 'u' :: controlCode c else [c]

def quote (s : String) : String :=
  String.ofList ('"' :: s.toList.flatMap escape ++ ['"'])

def newline (level : Nat) : String :=
  "\n" ++ String.ofList (List.replicate (2 * level) ' ')

/-- Items between brackets, each on a line of its own; no items, no lines. -/
def block (opening closing : Char) (level : Nat) (items : List String) : String :=
  if items.isEmpty then String.ofList [opening, closing]
  else
    opening.toString ++ newline (level + 1) ++
      String.intercalate ("," ++ newline (level + 1)) items ++
      newline level ++ closing.toString

mutual

def Value.render (level : Nat) : Value → String
  | .bool b => toString b
  | .count n => toString n
  | .number x => numberText x
  | .string s => quote s
  | .array items => block '[' ']' level (renderItems (level + 1) items)
  | .object members => block '{' '}' level (renderMembers (level + 1) members)

def renderItems (level : Nat) : List Value → List String
  | [] => []
  | v :: rest => v.render level :: renderItems level rest

def renderMembers (level : Nat) : List (String × Value) → List String
  | [] => []
  | (name, v) :: rest => (quote name ++ ": " ++ v.render level) :: renderMembers level rest

end

def document (v : Value) : String :=
  v.render 0 ++ "\n"

end Geodesic.Json
