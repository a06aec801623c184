import BranchPaint.Branch.Classify
import BranchPaint.Text.Split

/-!
# Painted source

Source text as an HTML fragment, one paragraph for each line. The lines of classified branches are
marked in one of two colours. If asked for, the three characters with a meaning in HTML are written
as entities.
-/

namespace BranchPaint

/-- How painted source looks. -/
structure Palette where
  takenColor : String := "lawngreen"
  notTakenColor : String := "red"
  escapeHtml : Bool := false
deriving Repr, DecidableEq

/-- The lines of a text; a text of `n` line feeds has `n + 1` of them. -/
def textLines (cs : List Char) : List (List Char) := splitChars '\n' cs

/-- A character as an entity, if it has a meaning in HTML. -/
def entity (c : Char) : List Char :=
  match c with
  | '&' => "&amp;".toList
  | '<' => "&lt;".toList
  | '>' => "&gt;".toList
  | c => [c]

namespace Palette

/-- The text of a line as it is written. -/
def lineText (palette : Palette) (line : List Char) : String :=
  String.ofList (if palette.escapeHtml then line.flatMap entity else line)

/-- Text marked in a colour. -/
def marked (color text : String) : String :=
  "<p><mark style=\"background-color:" ++ color ++ "\">" ++ text ++ "</mark></p>"

/-- The paragraph of one line. -/
def paragraph (palette : Palette) (state : LineState) (line : List Char) : String :=
  let text := palette.lineText line
  match state with
  | .taken => marked palette.takenColor text
  | .notTaken => marked palette.notTakenColor text
  | .plain => "<p>" ++ text ++ "</p>"

/-- The paragraphs of a text, one for each line. -/
def paragraphs (palette : Palette) (c : Classification) (source : String) : List String :=
  (textLines source.toList).mapIdx fun i line => palette.paragraph (c.lineState i) line

/-- The whole fragment. -/
def html (palette : Palette) (c : Classification) (source : String) : String :=
  String.join (palette.paragraphs c source)

end Palette

/-- What each line of a text is under a classification. -/
def Classification.lineStates (c : Classification) (source : String) : List LineState :=
  (textLines source.toList).mapIdx fun i _ => c.lineState i

end BranchPaint
