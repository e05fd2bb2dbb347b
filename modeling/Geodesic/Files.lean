/-!
# Files

What a run may ask of a file system: the bytes under a path, or why there are none, and whether there
is anything at all. `FileTree` is such a file system held in memory.
-/

namespace Geodesic

inductive ReadError where
  | notFound
  | notDirectory
  | isDirectory
  | nameTooLong
  | accessDenied
  | invalidText
  /-- Anything else, in the words of the system. -/
  | other (reason : String)
deriving DecidableEq, Repr

namespace ReadError

def message : ReadError → String
  | notFound => "No such file or directory (os error 2)"
  | notDirectory => "Not a directory (os error 20)"
  | isDirectory => "Is a directory (os error 21)"
  | nameTooLong => "File name too long (os error 36)"
  | accessDenied => "Permission denied (os error 13)"
  | invalidText => "stream did not contain valid UTF-8"
  | other reason => reason

end ReadError

structure Files where
  bytes : String → Except ReadError ByteArray
  /-- The path leads to something, whether or not it can be read. -/
  has : String → Bool := fun path =>
    match bytes path with
    | .error .notFound | .error .notDirectory | .error .nameTooLong => false
    | _ => true

namespace Files

def read (files : Files) (path : String) : Except ReadError String :=
  match files.bytes path with
  | .error e => .error e
  | .ok bytes =>
      match String.fromUTF8? bytes with
      | some text => .ok text
      | none => .error .invalidText

end Files

/-! ## Files in memory -/

/-- Files by their names from the root down; whatever stands before the last part of a name is a
directory. -/
structure FileTree where
  files : List (List String × ByteArray)
  /-- Directories besides those that hold files. -/
  directories : List (List String)

namespace FileTree

inductive Node where
  | file (bytes : ByteArray)
  | directory

def node? (t : FileTree) (name : List String) : Option Node :=
  match t.files.lookup name with
  | some bytes => some (.file bytes)
  | none =>
      if name.isEmpty || t.files.any (fun f => name.isPrefixOf f.1) ||
        t.directories.any (name.isPrefixOf ·) then some .directory
      else none

def maxPartSize : Nat := 255

def maxPathSize : Nat := 4095

def walk (t : FileTree) : List String → List String → Except ReadError Node
  | here, [] =>
      match t.node? here with
      | some node => .ok node
      | none => .error .notFound
  | here, part :: rest =>
      match t.node? here with
      | none => .error .notFound
      | some (.file _) => .error .notDirectory
      | some .directory =>
          if part = "" ∨ part = "." then walk t here rest
          else if part = ".." then walk t here.dropLast rest
          else if maxPartSize < part.utf8ByteSize then .error .nameTooLong
          else walk t (here ++ [part]) rest

def view (t : FileTree) (workingDirectory : List String) : Files where
  bytes path :=
    let start := if path.startsWith "/" then [] else workingDirectory
    if path = "" then .error .notFound
    else if maxPathSize < path.utf8ByteSize then .error .nameTooLong
    else
      match t.walk start (path.splitOn "/") with
      | .ok (.file bytes) => .ok bytes
      | .ok .directory => .error .isDirectory
      | .error e => .error e

end FileTree

end Geodesic
