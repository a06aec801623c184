import BranchPaint.Settings.Basic
import Mathlib.Tactic.ByContra

/-!
# What is asked of the libraries

Settings are loaded and written with libraries (`Libraries`), of which nothing is known but what
their documentation says. This module says it, and what follows for loading:

* `Libraries.Terms` has the terms in which the behaviour of libraries is described: the values of a
  configuration, what it supplies for a setting, what a text in TOML says, what the file `.env`
  sets.
* `Libraries.Laws` has what the documentation says in these terms. Each law is about one source, one
  override, one value or one text on its own. None is about settings as they are loaded.
* `Libraries.Laws.exists_build` puts sources, overrides and variables together: what is built
  supplies for each setting the value that was chosen for it (`Terms.chosen`).
* `Libraries.Laws.load_eq_ok_iff` says when loading gives settings, and which.

A text in TOML is described for plain files only (`Toml.Denotes`): lines with headers, lines that
set keys, and empty lines.
-/

namespace BranchPaint

/-! ## The five settings -/

/-- One of the five settings. -/
inductive Setting where
  | width
  | takenColor
  | notTakenColor
  | escapeHtml
  | filter
deriving Repr, DecidableEq

namespace Setting

/-- The section that a setting stands in. -/
def home : Setting → String
  | width => "printer"
  | takenColor | notTakenColor | escapeHtml => "render"
  | filter => "log"

/-- Its key there. -/
def key : Setting → String
  | width => "indent_width"
  | takenColor => "taken_color"
  | notTakenColor => "not_taken_color"
  | escapeHtml => "escape_html"
  | filter => "filter"

/-- Both together. -/
def path : Setting → String
  | width => "printer.indent_width"
  | takenColor => "render.taken_color"
  | notTakenColor => "render.not_taken_color"
  | escapeHtml => "render.escape_html"
  | filter => "log.filter"

/-- The variable that sets it. -/
def variableName : Setting → String
  | width => "CODEPAINT_PRINTER__INDENT_WIDTH"
  | takenColor => "CODEPAINT_RENDER__TAKEN_COLOR"
  | notTakenColor => "CODEPAINT_RENDER__NOT_TAKEN_COLOR"
  | escapeHtml => "CODEPAINT_RENDER__ESCAPE_HTML"
  | filter => "CODEPAINT_LOG__FILTER"

/-- What its values are. -/
def Kind : Setting → Type
  | width => Nat
  | escapeHtml => Bool
  | takenColor | notTakenColor | filter => String

instance (k : Setting) : DecidableEq k.Kind :=
  match k with
  | width => inferInstanceAs (DecidableEq Nat)
  | escapeHtml => inferInstanceAs (DecidableEq Bool)
  | takenColor | notTakenColor | filter => inferInstanceAs (DecidableEq String)

/-- How a value of it is written. -/
def literal : (k : Setting) → k.Kind → Literal
  | width, n => .number n
  | escapeHtml, b => .flag b
  | takenColor, s | notTakenColor, s | filter, s => .text s

/-- There are only five settings to look at. -/
instance {p : Setting → Prop} [DecidablePred p] : Decidable (∀ k, p k) :=
  decidable_of_iff (p width ∧ p takenColor ∧ p notTakenColor ∧ p escapeHtml ∧ p filter)
    ⟨fun ⟨hw, ht, hn, he, hf⟩ k => by cases k <;> assumption, fun h => ⟨h _, h _, h _, h _, h _⟩⟩

end Setting

namespace Settings

/-- The value of a setting. -/
def get (s : Settings) : (k : Setting) → k.Kind
  | .width => s.width
  | .takenColor => s.palette.takenColor
  | .notTakenColor => s.palette.notTakenColor
  | .escapeHtml => s.palette.escapeHtml
  | .filter => s.filter

/-- The settings with given values. -/
def ofValues (f : (k : Setting) → k.Kind) : Settings :=
  ⟨f .width, ⟨f .takenColor, f .notTakenColor, f .escapeHtml⟩, f .filter⟩

/-- Settings with given values have these values. -/
theorem get_ofValues (f : (k : Setting) → k.Kind) (k : Setting) : (ofValues f).get k = f k := by
  cases k
  all_goals rfl

end Settings

/-! ## Plain files -/

/-- A name of small letters and underscores. -/
def IsSmallName (name : String) : Prop :=
  name.toList ≠ [] ∧ ∀ c ∈ name.toList, (c.isLower || c = '_') = true

instance (name : String) : Decidable (IsSmallName name) :=
  decidable_of_iff (name.toList ≠ [] ∧ name.toList.all (fun c => c.isLower || c = '_') = true)
    (and_congr_right' List.all_eq_true)

namespace Sections

/-- What sections have for a setting. -/
def value? (doc : Sections) (k : Setting) : Option Literal :=
  (doc.lookup k.home).bind fun es => es.lookup k.key

/-- No name occurs twice in one place, and all are plain. -/
structure Tidy (doc : Sections) : Prop where
  nodup : (doc.map Prod.fst).Nodup
  keys : ∀ sec ∈ doc, (sec.2.map Prod.fst).Nodup
  names : ∀ sec ∈ doc, IsSmallName sec.1 ∧ ∀ e ∈ sec.2, IsSmallName e.1

end Sections

/-- Settings are written in tidy sections. -/
theorem Settings.tidy_sections (s : Settings) : s.sections.Tidy where
  nodup := by
    rw [show s.sections.map Prod.fst = ["printer", "render", "log"] from rfl]
    decide
  keys := by
    simp only [sections, List.forall_mem_cons, List.map_cons, List.map_nil, List.not_mem_nil,
      false_implies, implies_true, and_true]
    decide
  names := by
    simp only [sections, List.forall_mem_cons, List.not_mem_nil, false_implies, implies_true,
      and_true]
    decide

/-- The sections of settings have their values. -/
theorem Settings.value?_sections (s : Settings) (k : Setting) :
    s.sections.value? k = some (k.literal (s.get k)) := by
  cases k
  all_goals rfl

namespace Toml

/-- A character that stands for itself between quotes. -/
def isPlainChar (c : Char) : Bool := c ≠ '"' && c ≠ '\\' && 0x20 ≤ c.toNat && c.toNat ≠ 0x7F

/-- A text without double quotes, backslashes and control characters. -/
def IsPlain (s : String) : Prop := ∀ c ∈ s.toList, isPlainChar c = true

instance (s : String) : Decidable (IsPlain s) :=
  decidable_of_iff (s.toList.all isPlainChar = true) List.all_eq_true

/-- The header of a section, as a line. -/
def headerLine (name : String) : List Char := '[' :: (name.toList ++ [']', '\n'])

/-- A line that sets a key, up to the value. -/
def keyStart (name : String) : List Char := name.toList ++ [' ', '=', ' ']

/-- The text between two marks. -/
def between (mark : Char) (s : String) : List Char := mark :: (s.toList ++ [mark])

/-- How a literal is written: a number in decimal digits, a flag as a word, a plain text between
double quotes or, if it has none itself, between single ones. -/
def Spells (value : List Char) : Literal → Prop
  | .number n => n < Nat.pow 2 63 ∧ value = (toString n).toList
  | .flag b => value = (if b then "true" else "false").toList
  | .text s => IsPlain s ∧ (value = between '"' s ∨ '\'' ∉ s.toList ∧ value = between '\'' s)

/-- Lines that set keys, and empty lines. -/
inductive Lists : List Char → List (String × Literal) → Prop where
  | nil : Lists [] []
  | blank {cs es} : Lists cs es → Lists ('\n' :: cs) es
  | entry {cs es value v} (key : String) : Spells value v → Lists cs es →
      Lists (keyStart key ++ (value ++ '\n' :: cs)) ((key, v) :: es)

/-- The text of a plain file with sections. -/
inductive Denotes : List Char → Sections → Prop where
  | nil : Denotes [] []
  | blank {cs doc} : Denotes cs doc → Denotes ('\n' :: cs) doc
  | header {lines es cs doc} (name : String) : Lists lines es → Denotes cs doc →
      Denotes (headerLine name ++ (lines ++ cs)) ((name, es) :: doc)

end Toml

/-- Can a literal be written in a plain file? -/
def Literal.IsPlain : Literal → Prop
  | number n => n < Nat.pow 2 63
  | flag _ => True
  | text s => Toml.IsPlain s

/-- The texts of settings are plain. -/
def Settings.IsPlain (s : Settings) : Prop :=
  Toml.IsPlain s.palette.takenColor ∧ Toml.IsPlain s.palette.notTakenColor ∧ Toml.IsPlain s.filter

instance (s : Settings) : Decidable s.IsPlain :=
  inferInstanceAs (Decidable (_ ∧ Toml.IsPlain _ ∧ Toml.IsPlain _))

/-- Settings with plain texts and a width that is not too large can be written in a plain file. -/
theorem Settings.isPlain_sections {s : Settings} (hwidth : s.width < Nat.pow 2 63)
    (hs : s.IsPlain) : ∀ sec ∈ s.sections, ∀ e ∈ sec.2, e.2.IsPlain := by
  obtain ⟨htaken, hother, hfilter⟩ := hs
  simp only [sections, List.forall_mem_cons, List.not_mem_nil, false_implies, implies_true,
    and_true]
  exact ⟨hwidth, ⟨htaken, hother, trivial⟩, hfilter⟩

/-- Is the name at the end of a path one of a file in TOML? -/
def Path.IsToml (path : String) : Prop := (baseName? path).bind ending? = some "toml"

instance (path : String) : Decidable (Path.IsToml path) :=
  inferInstanceAs (Decidable (_ = some "toml"))

/-- Is a variable one of this program? Its name starts in the usual way, whatever the case. -/
def Variables.isOwn (name : String) : Bool :=
  (variableStart.toList.map Char.toLower).isPrefixOf (name.toList.map Char.toLower)

/-! ## Terms and laws -/

namespace Libraries

variable {L : Libraries}

/-- The terms in which the behaviour of libraries is described. -/
structure Terms (L : Libraries) where
  /-- What a configuration can have for a key. -/
  Value : Type
  /-- A literal as such a value. -/
  literal : Literal → Value
  /-- What the text of a variable is parsed as. -/
  parse : String → Value
  /-- What a value is for a setting, if it can be converted to the right type. -/
  read? : (k : Setting) → Value → Option k.Kind
  /-- What a configuration supplies for a setting. A table without fields is nothing. -/
  get? : L.Config → Setting → Option Value
  /-- The sections of the settings are tables, or are not there, and no two entries of one source
  are for the same place. -/
  Sectioned : L.Config → Prop
  /-- What a text in TOML says, if it is valid. -/
  toml? : String → Option L.Config
  /-- The endings of the formats of files that are known. -/
  endings : List String
  /-- The variables that the file `.env` sets, in order. It is the one in the working folder, or
  else in the nearest folder above; without any there are none. -/
  variableFile : Surroundings → Variables
  /-- A variable of this name is about the setting, its section or a part of it. -/
  Touches : String → Setting → Prop

namespace Terms

variable (T : L.Terms)

/-- What a configuration supplies for all settings. -/
def Supplies (c : L.Config) (v : Setting → Option T.Value) : Prop :=
  T.Sectioned c ∧ ∀ k, T.get? c k = v k

/-- The variables that are about a setting have its usual name. -/
def UsualNames (vs : Variables) : Prop :=
  ∀ v ∈ vs, ∀ k : Setting, T.Touches v.1 k → v.1 = k.variableName

/-- No file but `codepaint.toml` has the usual name, in any format. -/
def Alone (w : Surroundings) : Prop :=
  w.file? "codepaint" = none ∧ ∀ e ∈ T.endings, e ≠ "toml" → w.file? ("codepaint." ++ e) = none

end Terms

/-- What the documentation of the libraries says. -/
structure Laws (T : L.Terms) : Prop where
  /-- The file `.env` sets variables that are not set, and replaces none. -/
  lookup_environment (w : Surroundings) (name : String) : (L.environment w).lookup name =
    (w.environment.lookup name).or ((T.variableFile w).lookup name)
  /-- Values that are given are supplied under their keys. -/
  given (w : Surroundings) {doc : Sections} : doc.Tidy →
    ∃ c, L.build? w ⟨[.given doc], []⟩ = some c ∧
      T.Supplies c fun k => (doc.value? k).map T.literal
  /-- The format of a file is known by its ending. -/
  file (w : Surroundings) {path text : String} : w.file? path = some text → Path.IsToml path →
    L.build? w ⟨[.file path], []⟩ = T.toml? text
  /-- A file with the usual name is found under its ending. -/
  fileNamed (w : Surroundings) {text : String} : T.Alone w →
    w.file? "codepaint.toml" = some text →
      L.build? w ⟨[.fileNamed "codepaint"], []⟩ = T.toml? text
  /-- It need not be there. -/
  fileNamed_missing (w : Surroundings) : T.Alone w → w.file? "codepaint.toml" = none →
    ∃ c, L.build? w ⟨[.fileNamed "codepaint"], []⟩ = some c ∧ T.Supplies c fun _ => none
  /-- A variable sets the key that its name spells. -/
  environment (w : Surroundings) : T.UsualNames w.environment →
    ∃ c, L.build? w ⟨[.environment variableStart], []⟩ = some c ∧
      T.Supplies c fun k => (w.environment.lookup k.variableName).map T.parse
  /-- Only variables whose names start in the usual way are about settings. -/
  isOwn_of_touches {name : String} {k : Setting} : T.Touches name k → Variables.isOwn name = true
  /-- A source wins over those before it, key by key. -/
  source (w : Surroundings) {srcs : List Source} {src : Source} {a b : L.Config}
    {u v : Setting → Option T.Value} :
    L.build? w ⟨srcs, []⟩ = some a → T.Supplies a u →
    L.build? w ⟨[src], []⟩ = some b → T.Supplies b v →
      ∃ c, L.build? w ⟨srcs ++ [src], []⟩ = some c ∧ T.Supplies c fun k => (v k).or (u k)
  /-- An override wins over everything before it, for its key. -/
  override (w : Surroundings) {srcs : List Source} {os : List (String × Literal)} {a : L.Config}
    {v : Setting → Option T.Value} : L.build? w ⟨srcs, os⟩ = some a → T.Supplies a v →
    ∀ (k : Setting) (x : Literal), ∃ c, L.build? w ⟨srcs, os ++ [(k.path, x)]⟩ = some c ∧
      T.Supplies c fun j => if j = k then some (T.literal x) else v j
  /-- Each field of the settings is converted from what is supplied for it. -/
  settings {c : L.Config} {v : Setting → T.Value} : T.Supplies c (fun k => some (v k)) →
    ∀ s, L.settings? c = some s ↔ ∀ k, T.read? k (v k) = some (s.get k)
  /-- Literals of the right type are converted to themselves. -/
  read?_literal {s : Settings} : s.width < Nat.pow 2 64 →
    ∀ k, T.read? k (T.literal (k.literal (s.get k))) = some (s.get k)
  /-- Sections are written as TOML. -/
  write {doc : Sections} : doc.Tidy → (∀ sec ∈ doc, ∀ e ∈ sec.2, e.2.IsPlain) →
    ∃ text, L.write? doc = some text ∧ Toml.Denotes text.toList doc
  /-- A plain file in TOML is read as its sections. -/
  toml {text : String} {doc : Sections} : doc.Tidy → Toml.Denotes text.toList doc →
    ∃ c, T.toml? text = some c ∧ T.Supplies c fun k => (doc.value? k).map T.literal

end Libraries

/-! ## What is chosen -/

/-- What overrides say for a setting. -/
def Overrides.literal? (o : Overrides) : Setting → Option Literal
  | .width => o.width.map .number
  | .filter => o.filter.map .text
  | .takenColor | .notTakenColor | .escapeHtml => none

namespace Libraries.Terms

variable {L : Libraries} (T : L.Terms)

/-- The path of the settings file, if one is named: explicitly, by a variable that is set, or by one
of the file `.env`. -/
def namedPath? (w : Surroundings) (o : Overrides) : Option String :=
  o.path.or <| (w.environment.lookup pathVariable).or <| (T.variableFile w).lookup pathVariable

/-- The text of the settings file. -/
inductive Selects (w : Surroundings) : Option String → Option String → Prop where
  /-- A file that is named exists, and its name is one for TOML. -/
  | named {path text} : w.file? path = some text → Path.IsToml path →
      Selects w (some path) (some text)
  /-- Without a name it is `codepaint.toml`, if that is there. -/
  | unnamed {text} : T.Alone w → w.file? "codepaint.toml" = text → Selects w none text

/-- What the settings file says, if there is one: it is valid TOML with tables for its sections. -/
inductive FileReady (w : Surroundings) (path : Option String) : Option L.Config → Prop where
  | present {text c} : T.Selects w path (some text) → T.toml? text = some c → T.Sectioned c →
      FileReady w path (some c)
  | missing : T.Selects w path none → FileReady w path none

variable {T} in
/-- Which file is ready does not depend on variables. -/
theorem FileReady.of_read {w : Surroundings} {path : Option String} {file : Option L.Config}
    (h : T.FileReady w path file) (vs : Variables) :
    T.FileReady { w with environment := vs } path file := by
  have hselects {text : Option String} (h : T.Selects w path text) :
      T.Selects { w with environment := vs } path text := by
    cases h with
    | named htext hname => exact .named htext hname
    | unnamed halone htext => exact .unnamed halone htext
  cases h with
  | present hs htoml hsectioned => exact .present (hselects hs) htoml hsectioned
  | missing hs => exact .missing (hselects hs)

/-- What variables say for a setting. -/
def inVariables? (vs : Variables) (k : Setting) : Option T.Value :=
  (vs.lookup k.variableName).map T.parse

/-- The value of a setting: what the first of these layers has that has anything, from overrides
down to the defaults. -/
def chosen (w : Surroundings) (o : Overrides) (file : Option L.Config) (k : Setting) : T.Value :=
  (((o.literal? k).map T.literal).or <|
    (T.inVariables? w.environment k).or <|
    (T.inVariables? (T.variableFile w) k).or <|
    file.bind (T.get? · k)).getD (T.literal (k.literal (({} : Settings).get k)))

end Libraries.Terms

/-! ## Building -/

namespace Libraries.Laws

variable {L : Libraries} {T : L.Terms}

/-- The file of settings makes a source of its own. -/
theorem exists_build_file (hL : L.Laws T) {w : Surroundings} {path : Option String}
    {file : Option L.Config} (hfile : T.FileReady w path file) :
    ∃ c, L.build? w ⟨[.ofPath path], []⟩ = some c ∧ T.Supplies c fun k =>
      file.bind (T.get? · k) := by
  cases hfile with
  | present hselects htoml hsectioned =>
    refine ⟨_, ?_, hsectioned, fun k => rfl⟩
    cases hselects with
    | named htext hname => exact (hL.file w htext hname).trans htoml
    | unnamed halone htext => exact (hL.fileNamed w halone htext).trans htoml
  | missing hselects =>
    cases hselects with
    | unnamed halone htext => exact hL.fileNamed_missing w halone htext

/-- The variables that are set once `.env` has been read have their usual names, if all do that are
set or stand in `.env`. -/
theorem usualNames_environment (hL : L.Laws T) {w : Surroundings}
    (hnames : T.UsualNames (w.environment ++ T.variableFile w)) :
    T.UsualNames (L.environment w) := by
  intro v hv k htouches
  have hsome : ((w.environment ++ T.variableFile w).lookup v.1).isSome := by
    rw [List.lookup_append, ← hL.lookup_environment]
    by_contra hnone
    have hne := List.lookup_eq_none_iff.1 (Option.not_isSome_iff_eq_none.1 hnone) v hv
    simp at hne
  obtain ⟨value, hvalue⟩ := Option.isSome_iff_exists.1 hsome
  obtain ⟨before, behind, hsplit, -⟩ := List.lookup_eq_some_iff.1 hvalue
  exact hnames (v.1, value) (by rw [hsplit]; simp) k htouches

/-- Overrides are laid over what the sources supply. -/
theorem exists_build_overrides (hL : L.Laws T) {w : Surroundings} {srcs : List Source}
    {a : L.Config} {v : Setting → Option T.Value} (ha : L.build? w ⟨srcs, []⟩ = some a)
    (hv : T.Supplies a v) (o : Overrides) (path : Option String) :
    ∃ c, L.build? w ⟨srcs, (o.recipe path).overrides⟩ = some c ∧
      T.Supplies c fun k => ((o.literal? k).map T.literal).or (v k) := by
  obtain ⟨_, width, filter⟩ := o
  -- the override of the width comes first, that of the filter behind it
  obtain ⟨b, hb, hwidth⟩ : ∃ b, L.build? w
      ⟨srcs, (width.map fun n => ("printer.indent_width", Literal.number n)).toList⟩ = some b ∧
      T.Supplies b fun k =>
        (((⟨none, width, none⟩ : Overrides).literal? k).map T.literal).or (v k) := by
    cases width with
    | none =>
      refine ⟨a, ha, hv.1, fun k => (hv.2 k).trans ?_⟩
      cases k
      all_goals rfl
    | some n =>
      obtain ⟨b, hb, hsectioned, hget⟩ := hL.override w ha hv .width (.number n)
      refine ⟨b, hb, hsectioned, fun k => (hget k).trans ?_⟩
      cases k
      all_goals rfl
  cases filter with
  | none =>
    refine ⟨b, ?_, hwidth.1, fun k => (hwidth.2 k).trans ?_⟩
    · rw [← hb]
      simp [Overrides.recipe]
    · cases k
      all_goals rfl
  | some f =>
    obtain ⟨c, hc, hsectioned, hget⟩ := hL.override w hb hwidth .filter (.text f)
    refine ⟨c, hc, hsectioned, fun k => (hget k).trans ?_⟩
    cases k
    all_goals rfl

/-- What is built supplies for each setting the value that was chosen. -/
theorem exists_build (hL : L.Laws T) {w : Surroundings} {o : Overrides} {file : Option L.Config}
    {path : Option String} (hfile : T.FileReady w path file)
    (hnames : T.UsualNames (w.environment ++ T.variableFile w)) :
    ∃ c, L.build? { w with environment := L.environment w } (o.recipe path) = some c ∧
      T.Supplies c fun k => some (T.chosen w o file k) := by
  let w' : Surroundings := { w with environment := L.environment w }
  obtain ⟨a, ha, hdefaults⟩ := hL.given w' ({} : Settings).tidy_sections
  obtain ⟨b, hb, hfromFile⟩ := hL.exists_build_file (hfile.of_read (L.environment w))
  obtain ⟨c, hc, hfromVariables⟩ := hL.environment w' (hL.usualNames_environment hnames)
  obtain ⟨ab, hab, hsupplies⟩ := hL.source w' ha hdefaults hb hfromFile
  obtain ⟨abc, habc, hsupplies⟩ := hL.source w' hab hsupplies hc hfromVariables
  obtain ⟨d, hd, hsectioned, hget⟩ := hL.exists_build_overrides habc hsupplies o path
  refine ⟨d, hd, hsectioned, fun k => (hget k).trans ?_⟩
  have hlookup : ((L.environment w).lookup k.variableName).map T.parse =
      (T.inVariables? w.environment k).or (T.inVariables? (T.variableFile w) k) := by
    rw [hL.lookup_environment, Option.map_or]
    rfl
  simp only [w', Settings.value?_sections, hlookup, Terms.chosen, Option.map_some, Option.or_some,
    Option.getD_or]

/-- Loading gives the settings that the chosen values are converted to, unless the width is zero. -/
theorem load_eq_ok_iff (hL : L.Laws T) {w : Surroundings} {o : Overrides} {file : Option L.Config}
    (hfile : T.FileReady w (T.namedPath? w o) file)
    (hnames : T.UsualNames (w.environment ++ T.variableFile w)) {s : Settings} :
    L.load w o = .ok s ↔
      (∀ k, T.read? k (T.chosen w o file k) = some (s.get k)) ∧ s.width ≠ 0 := by
  obtain ⟨c, hc, hsupplies⟩ := hL.exists_build hfile hnames (o := o)
  have hpath : o.path.or ((L.environment w).lookup pathVariable) = T.namedPath? w o := by
    rw [hL.lookup_environment]
    rfl
  rw [← hL.settings hsupplies s]
  simp only [load, hpath, hc]
  split
  · rename_i hnone
    simp [hnone]
  · rename_i r hsome
    rw [hsome]
    split
    · rename_i hzero
      simp only [reduceCtorEq, false_iff, not_and, Option.some.injEq]
      rintro rfl hne
      exact hne hzero
    · rename_i hne
      simp only [Except.ok.injEq, Option.some.injEq]
      exact ⟨fun h => ⟨h, h ▸ hne⟩, fun h => h.1⟩

end Libraries.Laws

end BranchPaint
