import BranchPaint.Source.Cursor

/-!
# Quoted text

String literals. Text is written between single quotes, with a backslash before the quote and the
backslash, and with letters for line feed, carriage return, tab and the null character. It is read
between single or double quotes: a backslash takes the next character, whatever it is, and four
letters stand for the four characters above. A line feed ends no literal, so a literal that reaches
one is none.
-/

namespace BranchPaint.Quoted

/-- The character that a backslash and `c` stand for. -/
def unescape (c : Char) : Char :=
  match c with
  | 'n' => '\n'
  | 't' => '\t'
  | 'r' => '\r'
  | '0' => '\x00'
  | c => c

/-- One character as it is written inside quotes. -/
def escape (c : Char) : List Char :=
  match c with
  | '\\' => ['\\', '\\']
  | '\'' => ['\\', '\'']
  | '\n' => ['\\', 'n']
  | '\r' => ['\\', 'r']
  | '\t' => ['\\', 't']
  | '\x00' => ['\\', '0']
  | c => [c]

/-- The literal that stands for `text`. -/
def quote (text : String) : String :=
  String.ofList ('\'' :: (text.toList.flatMap escape ++ ['\'']))

/-- Reads up to and including the closing `mark`. -/
def body? (mark : Char) : List Char → Position → Option (List Char × Cursor)
  | [], _ => none
  | '\\' :: [], _ => none
  | '\\' :: c :: r, p =>
    (body? mark r ((p.next '\\').next c)).map fun (cs, s) => (unescape c :: cs, s)
  | c :: r, p =>
    if c = mark then some ([], ⟨r, p.next c⟩)
    else if c = '\n' then none
    else (body? mark r (p.next c)).map fun (cs, s) => (c :: cs, s)

/-- Reads a literal in either kind of quotes: the text it stands for. -/
def scan? (s : Cursor) : Option (String × Cursor) :=
  match s.rest with
  | c :: r =>
    if c = '\'' || c = '"' then
      (body? c r (s.pos.next c)).map fun (cs, t) => (String.ofList cs, t)
    else none
  | [] => none

end BranchPaint.Quoted
