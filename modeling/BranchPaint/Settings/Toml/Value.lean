import BranchPaint.Settings.Toml.Moment
import BranchPaint.Settings.Toml.Number
import BranchPaint.Settings.Toml.Part

/-!
# Values in a settings file

A value is a text, a word, a list in brackets, or a table in braces. A word is a truth value, a
number, a date or a time. A list may go on over several lines and end with a comma; a table in
braces may do neither.
-/

namespace BranchPaint.Toml

/-! ## Words -/

/-- A character of a word. -/
def isWordChar (c : Char) : Bool := c.isAlphanum || ['+', '-', '_', '.', ':'].contains c

/-- The word at the front, and what follows. A space inside it may stand between a date and a
time. -/
def word (cs : List Char) : List Char × List Char :=
  let w := cs.takeWhile isWordChar
  match cs.dropWhile isWordChar with
  | ' ' :: c :: r =>
    if isWordChar c then (w ++ ' ' :: (c :: r).takeWhile isWordChar, r.dropWhile isWordChar)
    else (w, ' ' :: c :: r)
  | r => (w, r)

/-- The scalar that a word is. -/
def scalarOfWord? (w : List Char) : Option Scalar :=
  if w = "true".toList then some (.boolean true)
  else if w = "false".toList then some (.boolean false)
  else
    ((integer? w).map .integer).or
      (((float? w).map .decimal).or ((moment? w).map fun cs => .text (String.ofList cs)))

/-- A text or a word. -/
def plain? (cs : List Char) : Option (SettingTree × List Char) :=
  if cs.head? = some '"' || cs.head? = some '\'' then
    (text? cs).map fun (s, r) => (.scalar (.text s), r)
  else (scalarOfWord? (word cs).1).map fun v => (.scalar v, (word cs).2)

/-! ## Keys -/

/-- A character of a name that needs no quotes. -/
def isNameChar (c : Char) : Bool := c.isAlphanum || c = '_' || c = '-'

/-- A name, which may be in quotes. -/
def name? (cs : List Char) : Option (String × List Char) :=
  if cs.head? = some '"' || cs.head? = some '\'' then lineText? cs
  else if (cs.takeWhile isNameChar).isEmpty then none
  else some (String.ofList (cs.takeWhile isNameChar), cs.dropWhile isNameChar)

/-- Names with dots between them, and blanks around them. -/
def names? : Nat → Reader (List String)
  | 0, _ => none
  | n + 1, cs =>
    (name? (cs.dropWhile isGap)).bind fun (s, r) =>
      match r.dropWhile isGap with
      | '.' :: r => (names? n r).map fun (ss, r) => (s :: ss, r)
      | r => some ([s], r)

/-- Keys and values are nested less deep than this. -/
def depthLimit : Nat := 80

/-- A key. -/
def key? (cs : List Char) : Option (List String × List Char) :=
  (names? (cs.length + 1) cs).filter fun (ss, _) => ss.length < depthLimit

/-! ## Lists and tables -/

/-- The items of a list up to its closing bracket. -/
def items? (item : Reader SettingTree) : Nat → Reader (List SettingTree)
  | 0, _ => none
  | n + 1, cs =>
    (skipBlank false cs).bind fun cs =>
      if cs.head? = some ']' then some ([], cs.tail)
      else
        (item cs).bind fun (v, r) =>
          (skipBlank false r).bind fun r =>
            match r with
            | ',' :: r => (items? item n r).map fun (vs, r) => (v :: vs, r)
            | ']' :: r => some ([v], r)
            | _ => none

/-- A key, an equals sign and a value. -/
def pair? (item : Reader SettingTree) (cs : List Char) :
    Option ((List String × SettingTree) × List Char) :=
  (key? cs).bind fun (names, r) =>
    match r with
    | '=' :: r => (item (r.dropWhile isGap)).map fun (v, r) => ((names, v), r)
    | _ => none

/-- The pairs of a table up to its closing brace, of which there is one at least. -/
def pairs? (item : Reader SettingTree) : Nat → Reader (List (List String × SettingTree))
  | 0, _ => none
  | n + 1, cs =>
    (pair? item cs).bind fun (p, r) =>
      match r.dropWhile isGap with
      | ',' :: r => (pairs? item n r).map fun (ps, r) => (p :: ps, r)
      | '\x7d' :: r => some ([p], r)
      | _ => none

/-- The table that pairs make. -/
def tableOfPairs? (pairs : List (List String × SettingTree)) : Option SettingTree :=
  (pairs.foldlM (fun (ps : Parts) (names, v) => ps.assign v names) []).map fun ps =>
    .table (fieldTrees ps)

/-- A table behind its opening brace. -/
def braced? (item : Reader SettingTree) (cs : List Char) : Option (SettingTree × List Char) :=
  match cs.dropWhile isGap with
  | '\x7d' :: r => some (.empty, r)
  | _ => (pairs? item (cs.length + 1) cs).bind fun (ps, r) => (tableOfPairs? ps).map fun t => (t, r)

/-- A value in which lists and tables are nested at most so deep. -/
def value? : Nat → Reader SettingTree
  | n + 1, '[' :: r => (items? (value? n) (r.length + 1) r).map fun (vs, r) => (.list vs, r)
  | n + 1, '\x7b' :: r => braced? (value? n) r
  | _, cs => plain? cs

end BranchPaint.Toml
