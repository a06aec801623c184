import BranchPaint.Source.Position

/-!
# Cursors and blanks

A cursor is a text being read: what is left of it, and the position reached. Every reader in this
project is a function on cursors, so position and remaining text cannot disagree about how much was
read.

Blanks are spaces, tabs, carriage returns, line feeds and comments. A line comment runs up to the
next line feed; a block comment needs its closing mark, and an opening mark without one is no blank
at all.
-/

namespace BranchPaint

/-- A text being read. -/
structure Cursor where
  /-- The characters still to be read. -/
  rest : List Char
  /-- Where the first of them stands. -/
  pos : Position
deriving Repr, DecidableEq, Inhabited

namespace Cursor

/-- A cursor at the start of `text`. -/
def ofString (text : String) : Cursor := ⟨text.toList, .start⟩

/-- Moves over the literal `word`, if the text goes on with it. -/
def literal? : List Char → Cursor → Option Cursor
  | [], s => some s
  | w :: ws, ⟨c :: r, p⟩ => if c = w then literal? ws ⟨r, p.next c⟩ else none
  | _ :: _, ⟨[], _⟩ => none

/-- The longest run of characters that satisfy `f`, and the cursor behind it. -/
def takeWhile (f : Char → Bool) (s : Cursor) : List Char × Cursor :=
  let run := s.rest.takeWhile f
  (run, ⟨s.rest.dropWhile f, s.pos.advance run⟩)

/-- Does the next character exist and satisfy `f`? -/
def peek (f : Char → Bool) (s : Cursor) : Bool :=
  match s.rest with
  | [] => false
  | c :: _ => f c

end Cursor

/-! ## Blanks

Skipping is one pass over the text with a small state, so it ends because the text does. -/

/-- The four blank characters. -/
def isBlankChar (c : Char) : Bool :=
  c = ' ' || c = '\t' || c = '\r' || c = '\n'

/-- Does a closing mark of a block comment occur? -/
def closesComment : List Char → Bool
  | [] => false
  | '*' :: '/' :: _ => true
  | _ :: r => closesComment r

/-- Where in a run of blanks the next character stands. -/
inductive BlankState where
  /-- Outside of comments. -/
  | outside
  /-- In a line comment. -/
  | line
  /-- At the second character of a block comment's opening mark. -/
  | opening
  /-- Inside a block comment. -/
  | inside
  /-- At the second character of a block comment's closing mark. -/
  | closing
deriving Repr, DecidableEq

/-- Moves over the blanks at the front, in state `st`. -/
def skipBlanksFrom (st : BlankState) : List Char → Position → Cursor
  | [], p => ⟨[], p⟩
  | c :: r, p =>
    match st with
    | .outside =>
      if isBlankChar c then skipBlanksFrom .outside r (p.next c)
      else if c = '/' && r.head? = some '/' then skipBlanksFrom .line r (p.next c)
      else if c = '/' && r.head? = some '*' && closesComment r.tail then
        skipBlanksFrom .opening r (p.next c)
      else ⟨c :: r, p⟩
    | .line => skipBlanksFrom (if c = '\n' then .outside else .line) r (p.next c)
    | .opening => skipBlanksFrom .inside r (p.next c)
    | .inside =>
      skipBlanksFrom (if c = '*' && r.head? = some '/' then .closing else .inside) r (p.next c)
    | .closing => skipBlanksFrom .outside r (p.next c)

/-- Moves over all blanks at the front. -/
def Cursor.skipBlanks (s : Cursor) : Cursor :=
  skipBlanksFrom .outside s.rest s.pos

end BranchPaint
