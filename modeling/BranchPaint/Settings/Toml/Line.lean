/-!
# Lines of a settings file

A line ends with a line feed, which may have a carriage return before it. Blanks are spaces and
tabs. A comment goes from a number sign to the end of its line, and holds no control characters but
tabs.
-/

namespace BranchPaint.Toml

/-- Reads something at the front of a text, and gives what follows too. -/
abbrev Reader (α : Type) := List Char → Option (α × List Char)

/-- A control character other than a tab. -/
def isControl (c : Char) : Bool := (c.toNat < 0x20 && c ≠ '\t') || c.toNat = 0x7F

/-- A blank inside a line. -/
def isGap (c : Char) : Bool := c = ' ' || c = '\t'

/-- What follows the end of a line that is at the front. -/
def newline? : List Char → Option (List Char)
  | '\n' :: r => some r
  | '\r' :: '\n' :: r => some r
  | _ => none

/-- What follows the rest of a line, which may only hold blanks and a comment. The end of the text
is an end of a line too. -/
def lineEnd? (cs : List Char) : Option (List Char) :=
  let cs := cs.dropWhile isGap
  let cs := if cs.head? = some '#' then cs.dropWhile fun c => !isControl c else cs
  if cs.isEmpty then some [] else newline? cs

/-- What follows blanks, comments and ends of lines. -/
def skipBlank (inComment : Bool) : List Char → Option (List Char)
  | [] => some []
  | '\n' :: r => skipBlank false r
  | '\r' :: '\n' :: r => skipBlank false r
  | c :: r =>
    if inComment then (if isControl c then none else skipBlank true r)
    else if isGap c then skipBlank false r
    else if c = '#' then skipBlank true r
    else some (c :: r)

/-- What follows blanks and ends of lines. -/
def skipSpace : List Char → List Char
  | '\n' :: r => skipSpace r
  | '\r' :: '\n' :: r => skipSpace r
  | c :: r => if isGap c then skipSpace r else c :: r
  | [] => []

end BranchPaint.Toml
