import Geodesic.Run

/-!
# The program

Reads arguments, environment and files, runs the command, and writes what it leaves behind.
-/

namespace Geodesic

/-- The error of a system code; some calls report codes negated. -/
def ReadError.ofCode? (code : UInt32) : Option ReadError :=
  match if code < 0x80000000 then code else -code with
  | 13 => some .accessDenied
  | 20 => some .notDirectory
  | 21 => some .isDirectory
  | 36 => some .nameTooLong
  | _ => none

def ReadError.ofSystem (e : IO.Error) : ReadError :=
  match e with
  | .noFileOrDirectory .. => .notFound
  | .permissionDenied _ code _ | .inappropriateType _ code _ | .invalidArgument _ code _ =>
      (ReadError.ofCode? code).getD (.other (toString e))
  | _ => .other (toString e)

def readBytes (path : String) : IO (Except ReadError ByteArray) := do
  try return .ok (← IO.FS.readBinFile path)
  catch e => return .error (.ofSystem e)

def loadFiles (paths : List String) : IO Files := do
  let contents ← paths.mapM fun path => return (path, ← readBytes path)
  return { bytes := fun path => (contents.lookup path).getD (.error .notFound) }

def userDirectory : IO (Option String) := do
  match ← IO.getEnv "XDG_CONFIG_HOME" with
  | some directory => if directory.startsWith "/" then return some directory
  | none => pure ()
  return (← IO.getEnv "HOME").map fun home => Settings.inDirectory home ".config"

def surroundings (i : Invocation) : IO Surroundings := do
  let workingDirectory := toString (← IO.currentDir)
  let userDirectory ← userDirectory
  let files ← loadFiles <|
    i.options.config.toList ++ (i.command.source?.map (·.file)).toList ++
      Settings.candidates workingDirectory userDirectory
  return {
    workingDirectory
    userDirectory
    formatVariable := ← IO.getEnv "FORMAT"
    terminal := ← (← IO.getStdout).isTty
    files }

end Geodesic

open Geodesic in
def main (args : List String) : IO UInt32 := do
  match Invocation.parse args with
  | .error usage =>
      (← IO.getStderr).putStrLn usage.name
      return usage.exitCode.toUInt32
  | .ok i =>
      let outcome := i.run Schedule.sequential (← surroundings i)
      (← IO.getStdout).putStr outcome.stdout
      (← IO.getStderr).putStr outcome.stderr
      return outcome.exitCode.toUInt32
