import BranchPaint.Report

/-!
# JSON documents

Reports as JSON, spread over lines: two blanks for each level, one item a line, and empty lists
closed at once. Fields stand in the order in which a report has them. Only quotes, backslashes and
control characters are escaped.
-/

namespace BranchPaint

/-- A JSON document. -/
inductive Document where
  | number (n : Nat)
  | text (s : String)
  | list (items : List Document)
  | object (fields : List (String × Document))

namespace Document

/-- A character between quotes. -/
def escape (c : Char) : List Char :=
  match c with
  | '"' => ['\\', '"']
  | '\\' => ['\\', '\\']
  | '\x08' => ['\\', 'b']
  | '\x0c' => ['\\', 'f']
  | '\n' => ['\\', 'n']
  | '\r' => ['\\', 'r']
  | '\t' => ['\\', 't']
  | c =>
    if c.toNat < 0x20 then
      let digits := Nat.toDigits 16 c.toNat
      '\\' :: 'u' :: (List.replicate (4 - digits.length) '0' ++ digits)
    else [c]

/-- A text in quotes. -/
def quote (s : String) : String := "\"" ++ String.ofList (s.toList.flatMap escape) ++ "\""

/-- The blanks in front of a line at a depth. -/
def margin (depth : Nat) : String := String.ofList (List.replicate (2 * depth) ' ')

/-- Lines between brackets that stand at a depth; without lines the brackets meet. -/
def bracketed (depth : Nat) (opening closing : String) (lines : List String) : String :=
  if lines.isEmpty then opening ++ closing
  else
    opening ++ "\n" ++ String.intercalate ",\n" (lines.map fun l => margin (depth + 1) ++ l)
      ++ "\n" ++ margin depth ++ closing

mutual

/-- The text of a document that stands at a depth. -/
def pretty (depth : Nat) : Document → String
  | number n => toString n
  | text s => quote s
  | list items => bracketed depth "[" "]" (itemLines (depth + 1) items)
  | object fields => bracketed depth "\x7b" "\x7d" (fieldLines (depth + 1) fields)

/-- The texts of items. -/
def itemLines (depth : Nat) : List Document → List String
  | [] => []
  | d :: ds => pretty depth d :: itemLines depth ds

/-- The texts of fields. -/
def fieldLines (depth : Nat) : List (String × Document) → List String
  | [] => []
  | (name, d) :: fields => (quote name ++ ": " ++ pretty depth d) :: fieldLines depth fields

end

end Document

/-- A set of lines as a document. -/
def LineSet.document (s : LineSet) : Document := .list (s.toList.map .number)

/-- A classification as a document. -/
def Classification.document (c : Classification) : Document :=
  .object [("taken", c.taken.document), ("not_taken", c.notTaken.document)]

/-- A painting as a document. -/
def Painting.document (p : Painting) : Document :=
  .object [("classification", p.classification.document), ("html", .text p.html)]

/-- A report as a document. -/
def Report.document (r : Report) : Document :=
  .object [("simplified", .text r.simplified), ("classification", r.classification.document),
    ("html", .text r.html)]

end BranchPaint
