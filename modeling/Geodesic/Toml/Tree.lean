/-!
# TOML trees

A document is a table of named values. Tables remember how they came about, because a table may be
defined once only: a header completes a table that longer headers implied, a dotted key extends
tables that dotted keys began, and nothing extends an inline table or a plain value.

Keys that repeat and tables that are defined twice make a document invalid; no reason is kept.
-/

namespace Geodesic.Toml

/-- How a table came about. -/
inductive Origin where
  /-- The document itself, or a table with a header of its own. -/
  | defined
  /-- Named only on the way to a longer header. -/
  | implied
  /-- Named on the way to a dotted key. -/
  | dotted
  /-- Written between braces. -/
  | inline
deriving DecidableEq, Repr

inductive Value where
  | string (s : String)
  | integer (z : Int)
  | float (x : Float)
  | bool (b : Bool)
  /-- A date, a time or both. -/
  | dateTime (text : String)
  | array (items : List Value)
  | table (origin : Origin) (entries : List (String × Value))
  /-- Tables with a repeated header, the latest last. -/
  | tables (rows : List (List (String × Value)))

/-- The entries of a table, in the order of their first mention. -/
abbrev Entries : Type :=
  List (String × Value)

namespace Entries

def find? (es : Entries) (key : String) : Option Value :=
  es.lookup key

def replace (es : Entries) (key : String) (v : Value) : Entries :=
  es.map fun e => if e.1 = key then (key, v) else e

def insertNew (es : Entries) (key : String) (v : Value) : Option Entries :=
  match es.find? key with
  | some _ => none
  | none => some (es ++ [(key, v)])

end Entries

/-- A path that makes tables of one origin may pass through a table of another. -/
def Origin.admits (path through : Origin) : Bool :=
  match through with
  | .inline => false
  | .defined => path ≠ .dotted
  | .implied | .dotted => true

/-- Change the table at the end of a path. Tables that are missing on the way are made with the
origin `path`, and of tables with a repeated header the latest is meant. -/
def edit (path : Origin) (change : Origin → Entries → Option Entries) :
    List String → Origin → Entries → Option Entries
  | [], origin, es => change origin es
  | key :: rest, _, es =>
      match es.find? key with
      | none => (edit path change rest path []).map fun sub => es ++ [(key, .table path sub)]
      | some (.table origin sub) =>
          if path.admits origin then
            (edit path change rest origin sub).map fun sub => es.replace key (.table origin sub)
          else none
      | some (.tables rows) =>
          (edit path change rest .defined (rows.getLast?.getD [])).map fun sub =>
            es.replace key (.tables (rows.dropLast ++ [sub]))
      | some _ => none

/-- Give a value to the key at the end of a dotted path. A path of several keys ends in a table that
dotted keys made, a single key in any other table. -/
def assign (path : List String) (key : String) (v : Value) (origin : Origin) (es : Entries) :
    Option Entries :=
  edit .dotted
    (fun origin es =>
      if decide (origin = .dotted) == path.isEmpty then none else es.insertNew key v)
    path origin es

/-- A document that is being read: its entries, and the path of the table that keys go to. -/
structure Draft where
  entries : Entries
  focus : List String

namespace Draft

def empty : Draft :=
  ⟨[], []⟩

def openTable (d : Draft) (path : List String) (key : String) : Option Draft :=
  let define (_ : Origin) (es : Entries) : Option Entries :=
    match es.find? key with
    | none => some (es ++ [(key, .table .defined [])])
    | some (.table .implied sub) => some (es.replace key (.table .defined sub))
    | some _ => none
  (edit .implied define path .defined d.entries).map fun es => ⟨es, path ++ [key]⟩

def openRow (d : Draft) (path : List String) (key : String) : Option Draft :=
  let append (_ : Origin) (es : Entries) : Option Entries :=
    match es.find? key with
    | none => some (es ++ [(key, .tables [[]])])
    | some (.tables rows) => some (es.replace key (.tables (rows ++ [[]])))
    | some _ => none
  (edit .implied append path .defined d.entries).map fun es => ⟨es, path ++ [key]⟩

def put (d : Draft) (path : List String) (key : String) (v : Value) : Option Draft :=
  (edit .implied (assign path key v) d.focus .defined d.entries).map fun es => ⟨es, d.focus⟩

end Draft

end Geodesic.Toml
