import BranchPaint.Command.Run

/-!
# The program

Collects the variables, files and standard input that an invocation may read, runs it, and prints
what comes of it.
-/

namespace BranchPaint.Main

/-- A file's text, or why it cannot be read. -/
def readFile (path : String) : IO (Except FileError String) := do
  try
    return .ok (← IO.FS.readFile path)
  catch e =>
    match e with
    | .inappropriateType _ 20 _ => return .error .notFolder
    | .inappropriateType _ 21 _ => return .error .folder
    | _ => return .error .missing

/-- All of a stream. -/
partial def readAll (input : IO.FS.Stream) (text : String) : IO String := do
  let line ← input.getLine
  if line.isEmpty then return text else readAll input (text ++ line)

/-- The variables of this program that are set. -/
def environment : IO Variables :=
  Variables.names.filterMapM fun name => do
    return (← IO.getEnv name).map fun value => (name, value)

/-- What there is at each of some paths. -/
def readFiles (paths : List String) : IO (List (String × Except FileError String)) :=
  paths.mapM fun path => do return (path, ← readFile path)

/-- The surroundings in which these files have been read. -/
def surroundings (files : List (String × Except FileError String)) (environment : Variables) :
    Surroundings :=
  ⟨fun path => (List.lookup path files).getD (.error .missing), environment⟩

/-- What `--help` prints. -/
def helpText : String :=
  "Inline variable bindings and highlight taken branches\n\n"
    ++ "Usage: codepaint [--config FILE] simplify INPUT\n"
    ++ "       codepaint [--config FILE] paint INPUT [-p VALUES] [-f html|json]\n"
    ++ "       codepaint [--config FILE] analyze INPUT [-p VALUES] [-f html|json]\n"
    ++ "       codepaint [--config FILE] config\n"

/-- Prints how a command ended. -/
def report (o : Outcome) : IO Unit := do
  match o with
  | .printed text => IO.print text
  | .failed _ => IO.eprintln (o.errorLine?.getD "")
  | .refused .help => IO.print helpText
  | .refused .misuse => IO.eprint helpText

end BranchPaint.Main

open BranchPaint in
def main (args : List String) : IO UInt32 := do
  let environment ← Main.environment
  let early ← Main.readFiles [".env"]
  let paths := match Invocation.ofArguments args with
    | .ok i => i.paths (Main.surroundings early environment)
    | .error _ => []
  let files ← Main.readFiles paths
  let stdin ← if paths.contains "-" then Main.readAll (← IO.getStdin) "" else pure ""
  let outcome := runCommand (Main.surroundings (early ++ files) environment) stdin args
  Main.report outcome
  return UInt32.ofNat outcome.status
