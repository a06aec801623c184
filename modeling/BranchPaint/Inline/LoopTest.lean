import BranchPaint.Canonical.Expression
import BranchPaint.Grammar.Lexeme

/-!
# Names that a loop test watches

A store to a name that the test of the enclosing loop mentions must stay, because the next round
reads it again. What a test mentions is found in its text: every word outside of quotes counts, and
digits start a number, which is no word.
-/

namespace BranchPaint

/-- Where a scan for words stands. -/
inductive WordScan where
  /-- Between words. -/
  | between
  /-- In a word; its letters so far, last first. -/
  | word (letters : List Char)
  /-- In a number. -/
  | number
  /-- In quotes of the given kind. -/
  | quoted (mark : Char)
  /-- In quotes, behind a backslash. -/
  | escaped (mark : Char)
deriving Repr, DecidableEq

namespace WordScan

/-- The word that ends here, if one does. -/
def finished : WordScan → List String
  | word letters => [String.ofList letters.reverse]
  | _ => []

/-- The state behind the character `c`, outside of quotes, if `c` belongs to no word. -/
def afterMark (c : Char) : WordScan :=
  if c = '\'' || c = '"' then quoted c else between

/-- The words from here on, in order. -/
def words (st : WordScan) : List Char → List String
  | [] => st.finished
  | c :: r =>
    match st with
    | escaped q => words (quoted q) r
    | quoted q => words (if c = '\\' then escaped q else if c = q then between else quoted q) r
    | number => words (if isWordChar c then number else afterMark c) r
    | word letters =>
      if isWordChar c then words (word (c :: letters)) r
      else String.ofList letters.reverse :: words (afterMark c) r
    | between =>
      words (if isWordChar c then (if c.isDigit then number else word [c]) else afterMark c) r

end WordScan

/-- The names that the test of the innermost loop watches. -/
structure LoopTest where
  names : List String
deriving Repr, DecidableEq

namespace LoopTest

/-- Outside of any loop. -/
def none : LoopTest := ⟨[]⟩

instance : Inhabited LoopTest := ⟨none⟩

/-- The names that a test watches. -/
def ofExpr (test : Expr) : LoopTest := ⟨WordScan.between.words test.text.toList⟩

/-- Is the name watched? -/
def observes (test : LoopTest) (name : String) : Bool := test.names.contains name

/-- Puts a name in its place among ascending ones, unless it is there already. -/
def insertName (name : String) : List String → List String
  | [] => [name]
  | n :: ns =>
    if name < n then name :: n :: ns
    else if n = name then n :: ns
    else n :: insertName name ns

/-- The watched names in ascending order, each once. -/
def sortedNames (test : LoopTest) : List String := test.names.foldr insertName []

end LoopTest

end BranchPaint
