import BranchPaint.Grammar.Statement

/-!
# Parameter values

Values for parameters are written as a comma-separated list of expressions, which is a program of a
single expression statement. A sequence stands for its parts, and blank text for no values at all.
-/

namespace BranchPaint

/-- Why a text could not be read. -/
inductive ReadError where
  /-- It is no program. -/
  | malformed (e : SyntaxError)
  /-- It is a program, but no list of values; the span of the statement that is none. -/
  | notValues (span : Span)
deriving Repr, DecidableEq

namespace ReadError

/-- The span that reports the error. -/
def span : ReadError → Span
  | malformed e => e.span
  | notValues s => s

/-- The words for it. Of a syntax error this is the headline, which gives the place, counted from
one. -/
def text : ReadError → String
  | malformed e =>
    "syntax error:  --> " ++ toString (e.place.line + 1) ++ ":" ++ toString (e.place.column + 1)
  | notValues _ => "Parameter values must be a comma-separated list of expressions"

end ReadError

/-- The values of the first statement of a program; the text behind it does not count. -/
def Program.values (p : Program) : Except ReadError (List Expr) :=
  match p.body with
  | [] => .ok []
  | .expr (.sequence es _) _ :: _ => .ok es
  | .expr e _ :: _ => .ok [e]
  | s :: _ => .error (.notValues s.span)

/-- Reads parameter values. -/
def readValues (text : String) : Except ReadError (List Expr) :=
  match Program.parse text with
  | .ok p => p.values
  | .error e => .error (.malformed e)

end BranchPaint
