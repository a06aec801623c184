import BranchPaint.Settings.Key
import BranchPaint.Settings.VariableFile

/-!
# Variables as settings

A variable `CODEPAINT_SECTION__KEY` sets a key; the case of its name does not count. Two underscores
stand for a dot, and a dot is as good.
-/

namespace BranchPaint.Variables

/-- The variables that set something, by their usual names. -/
def names : List String :=
  ["CODEPAINT_CONFIG_PATH", "CODEPAINT_PRINTER", "CODEPAINT_PRINTER__INDENT_WIDTH",
    "CODEPAINT_RENDER", "CODEPAINT_RENDER__TAKEN_COLOR", "CODEPAINT_RENDER__NOT_TAKEN_COLOR",
    "CODEPAINT_RENDER__ESCAPE_HTML", "CODEPAINT_LOG", "CODEPAINT_LOG__FILTER"]

/-- A name with a dot for every two underscores. -/
def dotted : List Char → List Char
  | [] => []
  | '_' :: '_' :: r => '.' :: dotted r
  | c :: r => c :: dotted r

/-- The key that a variable sets, if its name starts as wanted. The case does not count. -/
def key? (start name : String) : Option String :=
  let mark := (Scalar.lower start).toList
  let cs := (Scalar.lower name).toList
  if mark.isPrefixOf cs then some (String.ofList (dotted (cs.drop mark.length))) else none

/-- The variables with the first value of each name. -/
def effective (vs : Variables) : Variables :=
  vs.foldr (fun (name, value) vs => (name, value) :: vs.filter fun v => v.1 ≠ name) []

/-- What variables say. -/
def layer (start : String) (vs : Variables) : Layer :=
  vs.filterMap fun (name, value) =>
    (key? start name).map fun key => (Key.steps key, .scalar (.ofVariable value))

end BranchPaint.Variables
