import Geodesic.Files
import Geodesic.Toml.Document

/-!
# Settings

Defaults of a run, read from a TOML document with the sections `compute` and `output`. A section is a
table with some of its keys, or an array of their values in order; what is missing keeps its default
and what is unknown is passed over.
-/

namespace Geodesic

structure Settings where
  /-- The number of workers, if it is fixed. -/
  threads : Option Nat
  /-- Scores are normalized unless asked otherwise. -/
  normalize : Bool
  /-- The number of decimal places in tables and rows. -/
  precision : Nat
deriving DecidableEq, Repr

namespace Settings

def default : Settings :=
  ⟨none, true, 6⟩

/-! ## Sections -/

/-- The values of some keys of a section. A date or time is a section without any of them; other
plain values are none. -/
def section? (keys : List String) : Toml.Value → Option (List (Option Toml.Value))
  | .table _ es => some (keys.map (Toml.Entries.find? es))
  | .array items => some (keys.zipIdx.map fun (_, i) => items[i]?)
  | .tables rows => some (keys.zipIdx.map fun (_, i) => rows[i]?.map (.table .defined))
  | .dateTime _ => some (keys.map fun _ => none)
  | _ => none

def sectionOf? (es : Toml.Entries) (name : String) (keys : List String) :
    Option (List (Option Toml.Value)) :=
  match es.find? name with
  | some v => section? keys v
  | none => some (keys.map fun _ => none)

def count? : Toml.Value → Option Nat
  | .integer (.ofNat n) => some n
  | _ => none

def flag? : Toml.Value → Option Bool
  | .bool b => some b
  | _ => none

/-- A value that may be missing; one of the wrong kind is an error. -/
def optional {α : Type} (read? : Toml.Value → Option α) : Option Toml.Value → Option (Option α)
  | none => some none
  | some v => (read? v).map some

def ofEntries? (es : Toml.Entries) : Option Settings := do
  let [threads, normalize] ← sectionOf? es "compute" ["threads", "normalize"] | none
  let threads ← optional count? threads
  let normalize ← optional flag? normalize
  let [precision] ← sectionOf? es "output" ["precision"] | none
  let precision ← optional count? precision
  return ⟨threads, normalize.getD default.normalize, precision.getD default.precision⟩

def parse? (text : String) : Option Settings :=
  (Toml.parse? text).bind ofEntries?

variable {es es' : Toml.Entries}

/-- Sections other than the two are passed over. -/
theorem ofEntries?_congr (hcompute : es'.find? "compute" = es.find? "compute")
    (houtput : es'.find? "output" = es.find? "output") : ofEntries? es' = ofEntries? es := by
  simp only [ofEntries?, sectionOf?, hcompute, houtput]

theorem parse?_of_missing {text : String} (htext : Toml.parse? text = some es)
    (hcompute : es.find? "compute" = none) (houtput : es.find? "output" = none) :
    parse? text = some default := by
  have hempty : ofEntries? es = ofEntries? [] := ofEntries?_congr hcompute houtput
  rw [parse?, htext, Option.bind_some, hempty]
  rfl

/-- A key that is given takes the place of its default, and has to be of its kind. -/
theorem parse?_eq_some_iff {text : String} {compute output : Toml.Entries} {o o' : Toml.Origin}
    {settings : Settings} (htext : Toml.parse? text = some es)
    (hcompute : es.find? "compute" = some (.table o compute))
    (houtput : es.find? "output" = some (.table o' output)) :
    parse? text = some settings ↔ ∃ (t p : Option Nat) (b : Option Bool),
      optional count? (compute.find? "threads") = some t ∧
      optional flag? (compute.find? "normalize") = some b ∧
      optional count? (output.find? "precision") = some p ∧
      settings = ⟨t, b.getD default.normalize, p.getD default.precision⟩ := by
  rw [parse?, htext, Option.bind_some, ofEntries?, sectionOf?, sectionOf?, hcompute, houtput]
  simp only [section?, List.map_cons, List.map_nil, Option.bind_eq_bind, Option.bind_some,
    Option.bind_eq_some_iff, Option.pure_def, Option.some.injEq]
  constructor
  · rintro ⟨t, ht, b, hb, p, hp, rfl⟩
    exact ⟨t, p, b, ht, hb, hp, rfl⟩
  · rintro ⟨t, p, b, ht, hb, hp, rfl⟩
    exact ⟨t, ht, b, hb, p, hp, rfl⟩

example : parse? "[log]\nlevel = 1\n" = some default := by
  decide +kernel

end Settings

/-! ## Finding and loading -/

inductive SettingsError where
  | unreadable (path : String) (reason : ReadError)
  /-- Not TOML, or not of the shape of settings. -/
  | malformed (path : String)
deriving DecidableEq, Repr

namespace SettingsError

def context : SettingsError → String
  | unreadable path _ => "Failed to read " ++ path
  | malformed path => "Failed to parse " ++ path

end SettingsError

structure Surroundings where
  workingDirectory : String
  /-- The directory of the user's settings, if there is one. -/
  userDirectory : Option String
  /-- The output mode that the environment asks for. -/
  formatVariable : Option String
  /-- The output goes to a terminal. -/
  terminal : Bool
  files : Files

namespace Settings

def localName : String := "centrality.toml"

def userName : String := "centrality/config.toml"

def inDirectory (directory name : String) : String :=
  if directory.endsWith "/" then directory ++ name else directory ++ "/" ++ name

/-- The places where settings are looked for, the first choice first. -/
def candidates (workingDirectory : String) (userDirectory : Option String) : List String :=
  inDirectory workingDirectory localName :: userDirectory.toList.map (inDirectory · userName)

/-- The path of the settings to use: the one that was asked for, whether or not it is there, or the
first place where there is something. -/
def discover? (asked : Option String) (s : Surroundings) : Option String :=
  asked.or ((candidates s.workingDirectory s.userDirectory).find? s.files.has)

def load (path : String) (files : Files) : Except SettingsError Settings :=
  match files.read path with
  | .error e => .error (.unreadable path e)
  | .ok text =>
      match parse? text with
      | some settings => .ok settings
      | none => .error (.malformed path)

def resolve (asked : Option String) (s : Surroundings) : Except SettingsError Settings :=
  match discover? asked s with
  | some path => load path s.files
  | none => .ok default

end Settings

end Geodesic
