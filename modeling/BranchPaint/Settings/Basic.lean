import BranchPaint.Files.Folder
import BranchPaint.Report

/-!
# Settings

Five settings in three sections. Each takes its value from the highest layer that supplies it:
explicit overrides, then variables, then one settings file, then the default. The file is the one
named explicitly, or else by the variable `CODEPAINT_CONFIG_PATH`, and must exist; without either it
is `codepaint.toml`, which need not.

Files of variables, the merging of layers, the reading of values and TOML are left to libraries.
What is asked of them is in `Libraries`, and `Libraries.load` and `Libraries.toToml` are written
over any of them.
-/

namespace BranchPaint

/-- The effective settings. -/
structure Settings where
  width : Nat := 4
  palette : Palette := {}
  filter : String := "warn"
deriving Repr, DecidableEq

/-- Why there are no settings. -/
inductive SettingsError where
  /-- A named file is missing, or a file cannot be read. -/
  | unloadable
  /-- A value has the wrong type. -/
  | invalid
  /-- The width is zero. -/
  | zeroWidth
  /-- The width is too large for a settings file. -/
  | unwritable
deriving Repr, DecidableEq

/-- The words for it. -/
def SettingsError.text : SettingsError → String
  | unloadable => "Failed to load configuration"
  | invalid => "Invalid configuration"
  | zeroWidth => "printer.indent_width must be at least 1"
  | unwritable => "Failed to render configuration as TOML"

/-! ## Sections and keys -/

/-- A value that can be written down. -/
inductive Literal where
  | number (n : Nat)
  | flag (b : Bool)
  | text (s : String)
deriving Repr, DecidableEq

/-- Sections by name, with their keys and values, in order. -/
abbrev Sections := List (String × List (String × Literal))

/-- The style of reports that the settings ask for. -/
def Settings.style (s : Settings) : Style := ⟨s.width, s.palette⟩

/-- The sections that settings are written in. -/
def Settings.sections (s : Settings) : Sections :=
  [("printer", [("indent_width", .number s.width)]),
    ("render", [("taken_color", .text s.palette.takenColor),
      ("not_taken_color", .text s.palette.notTakenColor),
      ("escape_html", .flag s.palette.escapeHtml)]),
    ("log", [("filter", .text s.filter)])]

/-! ## Where a program runs -/

/-- Names and values of variables; the first of a name counts. -/
abbrev Variables := List (String × String)

/-- Where a program runs: the files it can read, and the variables that are set. -/
structure Surroundings where
  read : String → Except FileError String
  environment : Variables

/-- The text of a file, if it can be read. -/
def Surroundings.file? (w : Surroundings) (path : String) : Option String := (w.read path).toOption

/-! ## Libraries -/

/-- Where values come from. -/
inductive Source where
  /-- Values that are given. -/
  | given (sections : Sections)
  /-- The file at a path, which must exist. -/
  | file (path : String)
  /-- The file with a name, in any format that is known by its ending, if there is one. -/
  | fileNamed (stem : String)
  /-- The variables whose names start in some way, whatever the case. In the rest of a name two
  underscores stand between a section and a key. Values are parsed. -/
  | environment (start : String)

/-- What a configuration is built from: sources, the lowest first, and values for keys that win over
all of them. -/
structure Recipe where
  sources : List Source
  overrides : List (String × Literal)

/-- The libraries that settings are loaded and written with. -/
structure Libraries where
  /-- All that the sources say, put together. -/
  Config : Type
  /-- The variables that are set once the file `.env` has been read. -/
  environment : Surroundings → Variables
  /-- Puts together what the sources say. -/
  build? : Surroundings → Recipe → Option Config
  /-- The settings that a configuration amounts to. -/
  settings? : Config → Option Settings
  /-- Writes sections as TOML. -/
  write? : Sections → Option String

/-! ## Loading and writing -/

/-- Settings that win over all layers, and the path of the settings file. -/
structure Overrides where
  path : Option String := none
  width : Option Nat := none
  filter : Option String := none

/-- The variable that names the settings file. -/
def pathVariable : String := "CODEPAINT_CONFIG_PATH"

/-- The settings file: the one that is named, or else an optional one with the usual name. -/
def Source.ofPath : Option String → Source
  | some path => .file path
  | none => .fileNamed "codepaint"

/-- How the names of the variables that are settings start. -/
def variableStart : String := "CODEPAINT_"

/-- What settings are built from, given the path of the settings file: the defaults, the file,
variables, and overrides. -/
def Overrides.recipe (o : Overrides) (path : Option String) : Recipe where
  sources := [.given ({} : Settings).sections, .ofPath path, .environment variableStart]
  overrides :=
    (o.width.map fun n => ("printer.indent_width", .number n)).toList
      ++ (o.filter.map fun f => ("log.filter", .text f)).toList

namespace Libraries

variable (L : Libraries)

/-- Loads the settings. The file `.env` is read first, since a variable in it may name the settings
file; the width is looked at last. -/
def load (w : Surroundings) (o : Overrides) : Except SettingsError Settings :=
  let w := { w with environment := L.environment w }
  match L.build? w (o.recipe (o.path.or (w.environment.lookup pathVariable))) with
  | none => .error .unloadable
  | some c =>
    match L.settings? c with
    | none => .error .invalid
    | some s => if s.width = 0 then .error .zeroWidth else .ok s

/-- The settings as the text of a file. -/
def toToml (s : Settings) : Except SettingsError String :=
  match L.write? s.sections with
  | none => .error .unwritable
  | some text => .ok text

end Libraries

end BranchPaint
