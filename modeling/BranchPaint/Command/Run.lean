import BranchPaint.Command.Document
import BranchPaint.Command.Invocation
import BranchPaint.Settings.Library

/-!
# Running a command

A command loads the settings, then reads its input, then makes its report. It prints one text, or
fails with one error; which of several errors it is follows from this order.
-/

namespace BranchPaint

/-- Why a command failed. -/
inductive CommandError where
  | settings (e : SettingsError)
  /-- The input cannot be read. -/
  | unreadable (path : String) (e : FileError)
  | report (e : ReportError)
deriving Repr, DecidableEq

/-- The words for it. A report error is followed by its cause in full, and so are settings that
cannot be written; of a syntax error there is only the headline. -/
def CommandError.text : CommandError → String
  | settings .unwritable => SettingsError.text .unwritable ++ ": out-of-range value for u64 type"
  | settings e => e.text
  | unreadable path e => "Failed to read " ++ path ++ ": " ++ e.text
  | report (.parse (.malformed e)) => ReportError.text (.parse (.malformed e))
  | report (.parse e) => ReportError.text (.parse e) ++ ": " ++ e.text
  | report (.evaluation e) => ReportError.text (.evaluation e) ++ ": " ++ e.text

/-- How a command ended. -/
inductive Outcome where
  | printed (text : String)
  | failed (e : CommandError)
  | refused (r : Refusal)
deriving Repr, DecidableEq

/-- The status that the program ends with. -/
def Outcome.status : Outcome → Nat
  | printed _ => 0
  | failed _ => 1
  | refused .help => 0
  | refused .misuse => 2

/-- The line that tells of an error. -/
def Outcome.errorLine? : Outcome → Option String
  | failed e => some ("Error: " ++ e.text)
  | _ => none

namespace Invocation

/-- The text to work on: a file, or the standard input under the name `-`. -/
def readInput (w : Surroundings) (stdin path : String) : Except CommandError String :=
  if path = "-" then .ok stdin else (w.read path).mapError (.unreadable path)

/-- A painting in a format. -/
def paintingText (p : Painting) : Format → String
  | .html => p.html
  | .json => p.document.pretty 0

/-- A report in a format. -/
def reportText (r : Report) : Format → String
  | .html => r.html
  | .json => r.document.pretty 0

/-- What an action prints under settings. -/
def perform (w : Surroundings) (stdin : String) (s : Settings) : Action → Except CommandError String
  | .simplify input => do
    let source ← readInput w stdin input
    let text ← (s.style.simplify source).mapError .report
    pure (text ++ "\n")
  | .paint input params format => do
    let source ← readInput w stdin input
    let p ← (s.style.paint source params).mapError .report
    pure (paintingText p format ++ "\n")
  | .analyze input params format => do
    let source ← readInput w stdin input
    let r ← (s.style.analyze source params).mapError .report
    pure (reportText r format ++ "\n")
  | .showSettings => s.toToml.mapError .settings

/-- What an invocation prints. -/
def run (w : Surroundings) (stdin : String) (i : Invocation) : Except CommandError String := do
  let s ← (Settings.load w ⟨i.settingsPath, none, none⟩).mapError .settings
  perform w stdin s i.action

/-- The paths of all files that an invocation may read. -/
def paths (w : Surroundings) (i : Invocation) : List String :=
  w.settingsPaths i.settingsPath ++ i.action.input?.toList

end Invocation

/-- Runs the program on its arguments. -/
def runCommand (w : Surroundings) (stdin : String) (args : List String) : Outcome :=
  match Invocation.ofArguments args with
  | .error r => .refused r
  | .ok i =>
    match i.run w stdin with
    | .ok text => .printed text
    | .error e => .failed e

end BranchPaint
