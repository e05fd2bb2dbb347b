import Geodesic.Toml.Quoted
import Geodesic.Toml.Scalar

/-!
# TOML documents

A document is a sequence of lines: headers, keys with values, comments and empty lines. Readers take
a text and give what they have read together with the rest.

Brackets may be nested, and keys dotted, less than eighty deep. The depth still allowed is what the
reader of values recurs on; loops over items and lines recur on a count that the length of the text
bounds.
-/

namespace Geodesic.Toml

def depthLimit : Nat := 80

def isSpace (c : Char) : Bool :=
  c = ' ' || c = '\t'

def skipSpace (cs : List Char) : List Char :=
  cs.dropWhile isSpace

def skipComment : List Char → List Char
  | '#' :: rest => rest.dropWhile isPlain
  | cs => cs

/-- What follows a line with nothing more on it but blanks and a comment. -/
def lineEnd? (cs : List Char) : Option (List Char) :=
  match skipComment (skipSpace cs) with
  | [] => some []
  | '\n' :: rest => some rest
  | _ => none

/-- Drop blanks, comments and line endings; a comment must end with its line. -/
def skipFiller (comment : Bool) : List Char → List Char
  | [] => []
  | c :: rest =>
      if c = '\n' then skipFiller false rest
      else if comment then (if isPlain c then skipFiller true rest else c :: rest)
      else if c = '#' then skipFiller true rest
      else if isSpace c then skipFiller false rest
      else c :: rest

def isKeyChar (c : Char) : Bool :=
  c.isAlphanum || c = '-' || c = '_'

def simpleKey (cs : List Char) : Option (String × List Char) :=
  match cs with
  | '"' :: rest => (basic rest).map fun (k, rest) => (String.ofList k, rest)
  | '\'' :: rest => (literal rest).map fun (k, rest) => (String.ofList k, rest)
  | cs =>
      let (k, rest) := cs.span isKeyChar
      if k.isEmpty then none else some (String.ofList k, rest)

/-- A key of at most `fuel` parts, with blanks around each part: the path before the last part, and
the last part. -/
def dottedKey : Nat → List Char → Option ((List String × String) × List Char)
  | 0, _ => none
  | fuel + 1, cs => do
      let (k, rest) ← simpleKey (skipSpace cs)
      match skipSpace rest with
      | '.' :: rest =>
          let ((path, last), rest) ← dottedKey fuel rest
          return ((k :: path, last), rest)
      | rest => return (([], k), rest)

def key (cs : List Char) : Option ((List String × String) × List Char) :=
  dottedKey (depthLimit - 1) cs

abbrev ValueReader : Type :=
  List Char → Option (Value × List Char)

def keyValue (value : ValueReader) (cs : List Char) :
    Option ((List String × String) × Value × List Char) := do
  let (k, rest) ← key cs
  let (v, rest) ← value (skipSpace (← after? '=' rest))
  return (k, v, rest)

/-- The items of an array, from behind its opening bracket or a comma; there are fewer than
`fuel`. -/
def arrayItems (value : ValueReader) : Nat → List Char → Option (List Value × List Char)
  | 0, _ => none
  | fuel + 1, cs =>
      match skipFiller false cs with
      | ']' :: rest => some ([], rest)
      | cs => do
          let (v, rest) ← value cs
          match skipFiller false rest with
          | ',' :: rest =>
              let (vs, rest) ← arrayItems value fuel rest
              return (v :: vs, rest)
          | ']' :: rest => return ([v], rest)
          | _ => none

def inlineEntries (value : ValueReader) : Nat → Entries → List Char → Option (Entries × List Char)
  | 0, _, _ => none
  | fuel + 1, es, cs => do
      let ((path, k), v, rest) ← keyValue value cs
      let es ← assign path k v .inline es
      match skipSpace rest with
      | ',' :: rest => inlineEntries value fuel es rest
      | '}' :: rest => return (es, rest)
      | _ => none

/-- A value whose brackets are nested at most `depth` deep. -/
def value (depth : Nat) : ValueReader := fun cs =>
  match depth, cs with
  | 0, '[' :: _ | 0, '{' :: _ => none
  | depth + 1, '[' :: rest =>
      (arrayItems (value depth) (rest.length + 1) rest).map fun (vs, rest) => (.array vs, rest)
  | depth + 1, '{' :: rest =>
      match skipSpace rest with
      | '}' :: rest => some (.table .inline [], rest)
      | rest =>
          (inlineEntries (value depth) (rest.length + 1) [] rest).map fun (es, rest) =>
            (.table .inline es, rest)
  | _, c :: rest =>
      if c = '"' ∨ c = '\'' then
        (quoted? (c :: rest)).map fun (s, rest) => (.string (String.ofList s), rest)
      else scalar (c :: rest)
  | _, [] => none

def header (closing : List Char) (cs : List Char) :
    Option ((List String × String) × List Char) := do
  let (k, rest) ← key cs
  if closing.isPrefixOf rest then
    return (k, ← lineEnd? (rest.drop closing.length))
  else none

def statement (d : Draft) (cs : List Char) : Option (Draft × List Char) := do
  match cs with
  | '[' :: '[' :: rest =>
      let ((path, k), rest) ← header [']', ']'] rest
      return (← d.openRow path k, rest)
  | '[' :: rest =>
      let ((path, k), rest) ← header [']'] rest
      return (← d.openTable path k, rest)
  | cs =>
      let ((path, k), v, rest) ← keyValue (value (depthLimit - 1)) cs
      let rest ← lineEnd? rest
      return (← d.put path k v, rest)

/-- The remaining lines of a document; there are fewer than `fuel`. -/
def statements : Nat → Draft → List Char → Option Draft
  | 0, _, _ => none
  | fuel + 1, d, cs =>
      match skipSpace cs with
      | [] => some d
      | c :: rest =>
          if c = '#' ∨ c = '\n' then do
            let rest ← lineEnd? (c :: rest)
            statements fuel d rest
          else do
            let (d, rest) ← statement d (c :: rest)
            statements fuel d rest

/-- Single line feeds for line endings of two characters. -/
def unifyLineEnds : List Char → List Char
  | '\r' :: '\n' :: rest => '\n' :: unifyLineEnds rest
  | c :: rest => c :: unifyLineEnds rest
  | [] => []

def dropMark : List Char → List Char
  | '\uFEFF' :: rest => rest
  | cs => cs

def parse? (text : String) : Option Entries :=
  let cs := unifyLineEnds (dropMark text.toList)
  (statements (cs.length + 1) .empty cs).map (·.entries)

end Geodesic.Toml
