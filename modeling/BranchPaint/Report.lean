import BranchPaint.Branch.Arguments
import BranchPaint.Canonical.Statement
import BranchPaint.Inline.Statement
import BranchPaint.Markup

/-!
# Reports

The three things to do with a script: simplify it, paint its branches, or both. Each starts afresh
from text and either succeeds as a whole or fails with one error.
-/

namespace BranchPaint

/-- How reports are written: the width of indentation, and the colours. -/
structure Style where
  width : Nat := 4
  palette : Palette := {}
deriving Repr, DecidableEq

/-- Why there is no report. -/
inductive ReportError where
  /-- A text could not be read. -/
  | parse (e : ReadError)
  /-- A branch could not be decided. -/
  | evaluation (e : EvalError)
deriving Repr, DecidableEq

/-- The words for it. -/
def ReportError.text : ReportError → String
  | parse e => "parse error: " ++ e.text
  | evaluation e => "evaluation error: " ++ e.text

/-- Classified lines and the painted source. -/
structure Painting where
  classification : Classification
  html : String

/-- A painting, and the simplified source it shows. -/
structure Report where
  simplified : String
  classification : Classification
  html : String

namespace Style

/-- Reads a script. -/
def read (source : String) : Except ReportError Program :=
  (Program.parse source).mapError fun e => .parse (.malformed e)

/-- The canonical text of a script with its bindings inlined. -/
def simplify (style : Style) (source : String) : Except ReportError String := do
  let p ← read source
  pure (p.inline.text style.width)

/-- The branches of a script under the values that `params` lists. The script is read first. -/
def paint (style : Style) (source params : String) : Except ReportError Painting := do
  let p ← read source
  let values ← (readValues params).mapError .parse
  let c ← (p.classify values).mapError .evaluation
  pure ⟨c, style.palette.html c source⟩

/-- Simplifies a script, then paints the result. -/
def analyze (style : Style) (source params : String) : Except ReportError Report := do
  let simplified ← style.simplify source
  let painting ← style.paint simplified params
  pure ⟨simplified, painting.classification, painting.html⟩

end Style

end BranchPaint
