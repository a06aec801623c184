import BranchPaint.Settings.Toml.Line

/-!
# Texts in a settings file

A text stands in double quotes, where a backslash escapes, or in single quotes, where nothing does.
In three quotes of a kind it may go on over several lines; a line feed right behind the opening
quotes is not part of it, and one or two quotes may stand before the closing ones.

A text is written in the first of these four ways that needs no escapes: double quotes, single
quotes, three of the one, three of the other. If none will do, it is escaped in double quotes, three
of them if it has line feeds.
-/

namespace BranchPaint.Toml

/-! ## Reading -/

/-- The value of a digit in a base of at most sixteen. -/
def digit? (base : Nat) (c : Char) : Option Nat :=
  let n :=
    if c.isDigit then c.toNat - '0'.toNat
    else if 'a' ≤ c && c ≤ 'f' then c.toNat - 'a'.toNat + 10
    else if 'A' ≤ c && c ≤ 'F' then c.toNat - 'A'.toNat + 10
    else base
  if n < base then some n else none

/-- The number that digits in a base are. -/
def number? (base : Nat) (ds : List Char) : Option Nat :=
  ds.foldl (fun n? c => n?.bind fun n => (digit? base c).map (base * n + ·)) (some 0)

/-- The character with a code of `n` hexadecimal digits. -/
def codePoint? (n : Nat) (cs : List Char) : Option (Char × List Char) :=
  if cs.length < n then none
  else (number? 16 (cs.take n)).bind fun code =>
    if code.isValidChar then some (Char.ofNat code, cs.drop n) else none

/-- What an escape stands for, read behind its backslash. -/
def escaped? : Reader Char
  | 'b' :: r => some ('\x08', r)
  | 't' :: r => some ('\t', r)
  | 'n' :: r => some ('\n', r)
  | 'f' :: r => some ('\x0c', r)
  | 'r' :: r => some ('\r', r)
  | '"' :: r => some ('"', r)
  | '\\' :: r => some ('\\', r)
  | 'u' :: r => codePoint? 4 r
  | 'U' :: r => codePoint? 8 r
  | _ => none

/-- A text on one line up to its closing quote. -/
def oneLine? (mark : Char) (escapes : Bool) : Nat → Reader (List Char)
  | 0, _ => none
  | _ + 1, [] => none
  | n + 1, c :: r =>
    if c = mark then some ([], r)
    else if isControl c then none
    else if escapes && c = '\\' then
      (escaped? r).bind fun (e, r) => (oneLine? mark escapes n r).map fun (cs, r) => (e :: cs, r)
    else (oneLine? mark escapes n r).map fun (cs, r) => (c :: cs, r)

/-- Up to two quotes in front. -/
def spareMarks (mark : Char) : List Char → List Char × List Char
  | a :: b :: r =>
    if a = mark && b = mark then ([a, b], r)
    else if a = mark then ([a], b :: r)
    else ([], a :: b :: r)
  | [a] => if a = mark then ([a], []) else ([], [a])
  | [] => ([], [])

/-- A text over several lines up to its closing quotes. A backslash at the end of a line takes away
the end of the line, and all blanks and ends of lines behind it. -/
def manyLines? (mark : Char) (escapes : Bool) : Nat → Reader (List Char)
  | 0, _ => none
  | _ + 1, [] => none
  | n + 1, c :: r =>
    if c = mark && r.take 2 = [mark, mark] then some (spareMarks mark (r.drop 2))
    else
      match newline? (c :: r) with
      | some r => (manyLines? mark escapes n r).map fun (cs, r) => ('\n' :: cs, r)
      | none =>
        if isControl c then none
        else if escapes && c = '\\' then
          match newline? (r.dropWhile isGap) with
          | some r => manyLines? mark escapes n (skipSpace r)
          | none =>
            (escaped? r).bind fun (e, r) =>
              (manyLines? mark escapes n r).map fun (cs, r) => (e :: cs, r)
        else (manyLines? mark escapes n r).map fun (cs, r) => (c :: cs, r)

/-- A text on one line, with its quotes. -/
def lineText? : Reader String
  | [] => none
  | c :: r =>
    if c = '"' || c = '\'' then
      (oneLine? c (c = '"') (r.length + 1) r).map fun (cs, r) => (String.ofList cs, r)
    else none

/-- A text with its quotes. -/
def text? (cs : List Char) : Option (String × List Char) :=
  match cs with
  | a :: b :: c :: r =>
    if (a = '"' || a = '\'') && b = a && c = a then
      (manyLines? a (a = '"') (r.length + 1) ((newline? r).getD r)).map fun (cs, r) =>
        (String.ofList cs, r)
    else lineText? cs
  | cs => lineText? cs

/-! ## Writing -/

/-- A way to write a text. -/
inductive Style where
  | double
  | single
  | tripleDouble
  | tripleSingle
deriving Repr, DecidableEq

/-- The length of the longest run of a character, given the length of the run before. -/
def longestRun (q : Char) (run : Nat) : List Char → Nat
  | [] => run
  | c :: r => if c = q then longestRun q (run + 1) r else max run (longestRun q 0 r)

/-- The first way that needs no escapes, or else the plainest that can be escaped. -/
def Style.of (cs : List Char) : Style :=
  let lines := cs.contains '\n'
  let control := cs.any fun c => isControl c && c ≠ '\n'
  let backslash := cs.contains '\\'
  if !control && !backslash && !lines && longestRun '"' 0 cs = 0 then .double
  else if !control && !lines && longestRun '\'' 0 cs = 0 then .single
  else if !control && !backslash && longestRun '"' 0 cs ≤ 2 then .tripleDouble
  else if !control && longestRun '\'' 0 cs ≤ 2 then .tripleSingle
  else if lines then .tripleDouble
  else .double

/-- A character other than a double quote, between double quotes. -/
def escape (lines : Bool) (c : Char) : List Char :=
  match c with
  | '\x08' => ['\\', 'b']
  | '\t' => ['\\', 't']
  | '\n' => if lines then ['\n'] else ['\\', 'n']
  | '\x0c' => ['\\', 'f']
  | '\r' => ['\\', 'r']
  | '\\' => ['\\', '\\']
  | c =>
    if isControl c then
      let digits := (Nat.toDigits 16 c.toNat).map Char.toUpper
      '\\' :: 'u' :: (List.replicate (4 - digits.length) '0' ++ digits)
    else [c]

/-- A text between double quotes. A double quote is escaped if there are `limit` of them in front of
it. -/
def escapeAll (lines : Bool) (limit run : Nat) : List Char → List Char
  | [] => []
  | c :: r =>
    if c = '"' then
      if limit ≤ run then '\\' :: '"' :: escapeAll lines limit 0 r
      else '"' :: escapeAll lines limit (run + 1) r
    else escape lines c ++ escapeAll lines limit 0 r

/-- A text as it is written. A text of several lines starts on a line of its own. -/
def quote (s : String) : String :=
  let cs := s.toList
  let start := if cs.contains '\n' then "\n" else ""
  match Style.of cs with
  | .double => "\"" ++ String.ofList (escapeAll false 0 0 cs) ++ "\""
  | .single => "'" ++ s ++ "'"
  | .tripleDouble => "\"\"\"" ++ start ++ String.ofList (escapeAll true 2 0 cs) ++ "\"\"\""
  | .tripleSingle => "'''" ++ start ++ s ++ "'''"

end BranchPaint.Toml
