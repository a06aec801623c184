import BranchPaint.Settings.Toml.Value

/-!
# Settings files

A settings file is in TOML. Its lines set keys, or open the table that the keys behind them belong
to.
-/

namespace BranchPaint.Toml

/-- What a line says. -/
inductive Statement where
  /-- Opens a table. -/
  | table (names : List String)
  /-- Opens one more of the tables in a row. -/
  | next (names : List String)
  | assign (names : List String) (v : SettingTree)

/-- A statement, and what follows it on its line. -/
def statement? : Reader Statement
  | '[' :: '[' :: r =>
    (key? r).bind fun (names, r) =>
      match r with
      | ']' :: ']' :: r => some (.next names, r)
      | _ => none
  | '[' :: r =>
    (key? r).bind fun (names, r) =>
      match r with
      | ']' :: r => some (.table names, r)
      | _ => none
  | cs => (pair? (value? (depthLimit - 1)) cs).map fun ((names, v), r) => (.assign names v, r)

/-- A file being read: the table that is open, and the parts so far. -/
structure Reading where
  current : List String
  parts : Parts

/-- Nothing read yet. -/
def Reading.start : Reading := ⟨[], []⟩

/-- Takes in a statement. -/
def Reading.step (st : Reading) : Statement → Option Reading
  | .table names =>
    names.getLast?.bind fun name =>
      (Parts.within (Parts.openTable name) names.dropLast st.parts).map fun ps => ⟨names, ps⟩
  | .next names =>
    names.getLast?.bind fun name =>
      (Parts.within (Parts.openNext name) names.dropLast st.parts).map fun ps => ⟨names, ps⟩
  | .assign names v =>
    (Parts.within (Parts.assign v names) st.current st.parts).map fun ps => { st with parts := ps }

/-- Takes in the statements of a text. Each takes a character at least, so the length of the text is
fuel enough. -/
def Reading.run : Nat → List Char → Reading → Option Reading
  | 0, _, _ => none
  | n + 1, cs, st =>
    (skipBlank false cs).bind fun cs =>
      if cs.isEmpty then some st
      else
        (statement? cs).bind fun (s, r) =>
          (lineEnd? r).bind fun r => (st.step s).bind fun st => Reading.run n r st

/-- A text without the mark of its byte order. -/
def withoutMark : List Char → List Char
  | '\ufeff' :: cs => cs
  | cs => cs

/-- The names at the top of a file, and what they hold. -/
def parse? (text : String) : Option (List (String × SettingTree)) :=
  let cs := withoutMark text.toList
  (Reading.run (cs.length + 1) cs .start).map fun st => fieldTrees st.parts

end BranchPaint.Toml
