import BranchPaint.Settings.Tree

/-!
# Keys

A key names a place in the settings by a way to it: names with dots between them, and indices in
brackets behind them. A key that cannot be taken apart is one name.
-/

namespace BranchPaint.Key

/-- A character of a name between dots. -/
def isNameChar (c : Char) : Bool := c.isAlphanum || c = ' ' || c = '_' || c = '-'

/-- A blank around an index. -/
def isGap (c : Char) : Bool := c = ' ' || c = '\t' || c = '\n' || c = '\r'

/-- An index of 64 bits behind its opening bracket, and what follows the closing one. -/
def index? (cs : List Char) : Option (Int × List Char) :=
  let cs := cs.dropWhile isGap
  let sign := if cs.head? = some '-' then ['-'] else []
  let cs := cs.drop sign.length
  match (cs.dropWhile Char.isDigit).dropWhile isGap with
  | ']' :: r =>
    (Scalar.integerOfText? (String.ofList (sign ++ cs.takeWhile Char.isDigit))).map fun i => (i, r)
  | _ => none

/-- The steps that a text is, each with its mark: a dot before a name, brackets around an index.
Every step takes a character at least, so the length of the text is fuel enough. -/
def marked? : Nat → List Char → Option (List Step)
  | _, [] => some []
  | 0, _ :: _ => none
  | n + 1, '.' :: r =>
    let name := r.takeWhile isNameChar
    if name.isEmpty then none
    else (marked? n (r.dropWhile isNameChar)).map (.name (String.ofList name) :: ·)
  | n + 1, '[' :: r => (index? r).bind fun (i, r) => (marked? n r).map (.index i :: ·)
  | _ + 1, _ :: _ => none

/-- The way that a key names. -/
def steps (key : String) : List Step :=
  (marked? (key.length + 1) ('.' :: key.toList)).getD [.name key]

end BranchPaint.Key
