import BranchPaint.Settings.Basic
import BranchPaint.Settings.Toml.Document
import BranchPaint.Settings.Variables

/-!
# The libraries of the program

The libraries that the program itself runs with. They are plainer than others: the only format of
files they know is TOML, the file `.env` is looked for in the working folder and nowhere else, and
of several entries for one place the last one counts.

What is proved about loading holds for all libraries that keep the laws asked of them; these are an
instance that does.
-/

namespace BranchPaint

/-- A literal as a scalar. -/
def Literal.scalar : Literal → Scalar
  | number n => .integer n
  | flag b => .boolean b
  | text s => .text s

/-! ## Sources -/

namespace Surroundings

/-- All variables, those of the file `.env` behind those that are set. -/
def allVariables (w : Surroundings) : Variables :=
  match w.file? ".env" with
  | some text => VariableFile.addTo w.environment text
  | none => w.environment

/-- The text of a settings file: of the file at this very path, if its name is one for TOML, or else
of the one with the ending added. -/
def settingsFile? (w : Surroundings) (path : String) : Option String :=
  match w.file? path with
  | some text => if (Path.baseName? path).bind Path.ending? = some "toml" then some text else none
  | none => (Path.extend? path ".toml").bind w.file?

/-- The paths at which the settings file may be found. -/
def settingsPaths (w : Surroundings) (path : Option String) : List String :=
  let path := (path.or (w.allVariables.lookup pathVariable)).getD "codepaint"
  path :: (Path.extend? path ".toml").toList

end Surroundings

/-- The layer that sections make. -/
def Sections.layer (doc : Sections) : Layer :=
  doc.map fun sec => (Key.steps sec.1, .table (sec.2.map fun e => (e.1, .scalar e.2.scalar)))

/-- The layer that a text in TOML makes. -/
def Toml.layer? (text : String) : Option Layer :=
  (Toml.parse? text).map fun fields => fields.map fun f => (Key.steps f.1, f.2)

/-- The layer that a source makes. -/
def Source.layer? (w : Surroundings) : Source → Option Layer
  | given doc => some doc.layer
  | file path => (w.settingsFile? path).bind Toml.layer?
  | fileNamed stem =>
    match w.settingsFile? stem with
    | some text => Toml.layer? text
    | none => some []
  | environment start => some (w.environment.effective.layer start)

/-- The layers that sources make, one behind the other. -/
def Source.layers? (w : Surroundings) : List Source → Option Layer
  | [] => some []
  | src :: srcs => do
    let layer ← src.layer? w
    let layers ← Source.layers? w srcs
    return layer ++ layers

/-- What a recipe says, from the lowest to the highest. -/
def Recipe.layer? (r : Recipe) (w : Surroundings) : Option Layer :=
  (Source.layers? w r.sources).map fun layers =>
    layers ++ r.overrides.map fun e => (Key.steps e.1, .scalar e.2.scalar)

/-! ## Settings from a tree -/

/-- The settings that a tree amounts to. What it leaves out has its default. -/
def Settings.ofTree? (t : SettingTree) : Option Settings := do
  let defaults : Settings := {}
  let width ← t.get? "printer" "indent_width" 0 Scalar.width? defaults.width
  let takenColor ← t.get? "render" "taken_color" 0 Scalar.text? defaults.palette.takenColor
  let notTakenColor ←
    t.get? "render" "not_taken_color" 1 Scalar.text? defaults.palette.notTakenColor
  let escapeHtml ← t.get? "render" "escape_html" 2 Scalar.flag? defaults.palette.escapeHtml
  let filter ← t.get? "log" "filter" 0 Scalar.text? defaults.filter
  return ⟨width, ⟨takenColor, notTakenColor, escapeHtml⟩, filter⟩

/-! ## TOML -/

namespace Toml

/-- The text of a literal. An integer in a file has 64 bits, one of them for its sign. -/
def literalText? : Literal → Option String
  | .number n => if n < Nat.pow 2 63 then some (toString n) else none
  | .flag b => some (if b then "true" else "false")
  | .text s => some (quote s)

/-- The lines that set keys. -/
def entriesText? : List (String × Literal) → Option String
  | [] => some ""
  | (key, v) :: es => do
    let value ← literalText? v
    let lines ← entriesText? es
    return key ++ " = " ++ value ++ "\n" ++ lines

/-- The text of a file with sections. An empty line stands between two of them. -/
def sectionsText? : Sections → Option String
  | [] => some ""
  | (name, es) :: doc => do
    let lines ← entriesText? es
    let rest ← sectionsText? doc
    return "[" ++ name ++ "]\n" ++ lines ++ (if doc.isEmpty then "" else "\n") ++ rest

end Toml

/-! ## All together -/

/-- The libraries of the program. A configuration is the layer of all that was said. -/
def Libraries.own : Libraries where
  Config := Layer
  environment := Surroundings.allVariables
  build? w r := r.layer? w
  settings? layer := Settings.ofTree? (SettingTree.empty.addLayer layer)
  write? := Toml.sectionsText?

namespace Settings

/-- Loads the settings. -/
def load (w : Surroundings) (o : Overrides) : Except SettingsError Settings :=
  Libraries.own.load w o

/-- The settings as a file. -/
def toToml (s : Settings) : Except SettingsError String := Libraries.own.toToml s

end Settings

end BranchPaint
