import BranchPaint.Settings.Basic
import BranchPaint.Text.Alphanumeric
import BranchPaint.Text.Blank

/-!
# Files of variables

A file of variables has one `NAME=value` a line, with comments and blank lines. A value in quotes
may go on over several lines; single quotes keep everything as it is, and outside of them `$NAME`
and `${NAME}` stand for the value of a variable that is already set. Reading ends at the first line
that makes no sense, and what came before it counts. A variable that is set already keeps its value.
-/

namespace BranchPaint

namespace VariableFile

/-! ## Lines -/

/-- Where the search for the end of a line stands. -/
inductive LineState where
  | plain
  /-- Behind a single blank. -/
  | gap
  | escaped
  | single
  | singleEscaped
  | double
  | doubleEscaped
deriving Repr, DecidableEq

/-- The state behind a character outside of quotes that is no blank. -/
def LineState.ofMark (c : Char) : LineState :=
  if c = '\\' then .escaped else if c = '"' then .double else if c = '\'' then .single else .plain

/-- The state behind one more character. Only the first of several blanks counts as one. -/
def LineState.next (st : LineState) (c : Char) : LineState :=
  match st with
  | .plain => if isWhiteSpace c && c ≠ '\n' && c ≠ '\r' then .gap else .ofMark c
  | .gap => .ofMark c
  | .escaped => .plain
  | .single => if c = '\\' then .singleEscaped else if c = '\'' then .plain else .single
  | .singleEscaped => .single
  | .double => if c = '\\' then .doubleEscaped else if c = '"' then .plain else .double
  | .doubleEscaped => .double

/-- How the search through a stretch of text ended. -/
inductive Scan where
  | reached (st : LineState)
  /-- At a comment; the text before it. -/
  | comment (before : List Char)

/-- Searches through a stretch of text. A comment starts behind a blank. -/
def LineState.scan (st : LineState) : List Char → Scan
  | [] => .reached st
  | c :: r =>
    if st = .gap && c = '#' then .comment []
    else
      match (st.next c).scan r with
      | .comment before => .comment (c :: before)
      | .reached st => .reached st

/-- The stretches of a text up to each line feed, which they contain. -/
def stretches : List Char → List (List Char)
  | [] => []
  | c :: r =>
    if c = '\n' then [c] :: stretches r
    else
      match stretches r with
      | s :: ss => (c :: s) :: ss
      | [] => [[c]]

/-- A line without the line feed at its end, and the carriage return before that. -/
def withoutEnd (cs : List Char) : List Char :=
  if cs.getLast? = some '\n' then
    if cs.dropLast.getLast? = some '\r' then cs.dropLast.dropLast else cs.dropLast
  else cs

/-- The lines of a file, from the stretches that are left, behind a line that has begun. A line ends
with a stretch, unless that leaves it in quotes. At the end of the file a single blank or a
backslash leaves it open too, and a line that is left open there is no line. -/
def lines (begun : List Char) (st : LineState) : List (List Char) → List (List Char)
  | [] => []
  | s :: ss =>
    if begun.isEmpty && (s.dropWhile isWhiteSpace).head? = some '#' then [] :: lines [] .plain ss
    else
      match st.scan s with
      | .comment before => (begun ++ before) :: lines [] .plain ss
      | .reached .plain => withoutEnd (begun ++ s) :: lines [] .plain ss
      | .reached st => lines (begun ++ s) st ss

/-! ## Values -/

/-- Where the reading of a value stands. `quoted` says whether it is in double quotes. -/
inductive ValueState where
  | plain (quoted : Bool)
  | escaped (quoted : Bool)
  | single
  /-- In a name behind a dollar sign; its letters so far, last first. -/
  | name (quoted : Bool) (letters : List Char)
  /-- In a name in braces. -/
  | braced (quoted : Bool) (letters : List Char)
  /-- Behind the value. -/
  | done
deriving Repr, DecidableEq

/-- The value of a variable, nothing if it is not set. -/
def expand (known : Variables) (letters : List Char) : List Char :=
  ((List.lookup (String.ofList letters.reverse) known).getD "").toList

/-- Reads a value. It ends at a blank outside of quotes, behind which there may only be a comment.
The character that ends a name without braces is taken as it is, whatever it is. -/
def value? (known : Variables) (st : ValueState) : List Char → Option (List Char)
  | [] =>
    match st with
    | .plain false | .escaped false | .done => some []
    | .name false letters => some (expand known letters)
    | _ => none
  | c :: r =>
    match st with
    | .done =>
      if c = ' ' || c = '\t' then value? known .done r
      else if c = '#' then some []
      else none
    | .escaped q =>
      if c = 'n' then (value? known (.plain q) r).map ('\n' :: ·)
      else if ['\\', '\'', '"', '$', ' '].contains c then (value? known (.plain q) r).map (c :: ·)
      else none
    | .single =>
      if c = '\'' then value? known (.plain false) r else (value? known .single r).map (c :: ·)
    | .name q letters =>
      if isAlphanumeric c then value? known (.name q (c :: letters)) r
      else if c = '\x7b' && letters.isEmpty then value? known (.braced q []) r
      else if c = '$' then (value? known (.name q []) r).map (expand known letters ++ ·)
      else (value? known (.plain q) r).map (expand known letters ++ c :: ·)
    | .braced q letters =>
      if c = '\x7d' then (value? known (.plain q) r).map (expand known letters ++ ·)
      else value? known (.braced q (c :: letters)) r
    | .plain q =>
      if c = '$' then value? known (.name q []) r
      else if c = '\\' then value? known (.escaped q) r
      else if c = '"' then value? known (.plain !q) r
      else if q then (value? known (.plain q) r).map (c :: ·)
      else if c = '\'' then value? known .single r
      else if c = ' ' || c = '\t' then value? known .done r
      else (value? known (.plain q) r).map (c :: ·)

/-! ## Assignments -/

/-- Can a name start with this character? -/
def isNameStart (c : Char) : Bool := c.isAlpha || c = '_'

/-- Can a name go on with this character? -/
def isNameChar (c : Char) : Bool := c.isAlphanum || c = '_' || c = '.'

/-- A name with an equals sign behind it, and what follows. -/
def target? (cs : List Char) : Option (String × List Char) :=
  if !(cs.head?.any isNameStart) then none
  else
    match (cs.dropWhile isNameChar).dropWhile isWhiteSpace with
    | '=' :: r => some (String.ofList (cs.takeWhile isNameChar), r.dropWhile isWhiteSpace)
    | _ => none

/-- What a line sets; the word `export` may stand in front, and may be a name too. -/
def assignment? (cs : List Char) : Option (String × List Char) :=
  match target? cs with
  | some a => some a
  | none =>
    if cs.takeWhile isNameChar = "export".toList then
      target? ((cs.dropWhile isNameChar).dropWhile isWhiteSpace)
    else none

/-- Is there nothing but a comment? -/
def isNothing (cs : List Char) : Bool := cs.isEmpty || cs.head? = some '#'

/-- Reads lines in order, up to the first that makes no sense, and adds what they set. -/
def addLines : List (List Char) → Variables → Variables
  | [], known => known
  | l :: ls, known =>
    let cs := (trimEndWhiteSpace l).dropWhile isWhiteSpace
    if isNothing cs then addLines ls known
    else
      match assignment? cs with
      | none => known
      | some (name, text) =>
        match if isNothing text then some [] else value? known (.plain false) text with
        | none => known
        | some value => addLines ls (known ++ [(name, String.ofList value)])

/-- The variables, with those that a file sets behind them. -/
def addTo (known : Variables) (text : String) : Variables :=
  let cs := match text.toList with
    | '\ufeff' :: cs => cs
    | cs => cs
  addLines (lines [] .plain (stretches cs)) known

end VariableFile

end BranchPaint
