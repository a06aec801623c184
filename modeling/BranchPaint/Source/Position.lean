/-!
# Positions and spans

A position is a place in a text, counted three ways: bytes from the start, line feeds before it, and
characters since the last line feed. A span is a pair of positions, flattened so that a node of a
tree carries six plain numbers.

Columns count Unicode scalar values, offsets count bytes of the UTF-8 form, and everything starts at
zero.
-/

namespace BranchPaint

/-- A place in a text. -/
structure Position where
  /-- Bytes of UTF-8 before the place. -/
  offset : Nat
  /-- Line feeds before the place. -/
  line : Nat
  /-- Characters between the last line feed and the place. -/
  column : Nat
deriving Repr, DecidableEq, Inhabited

namespace Position

/-- The start of every text. -/
def start : Position := ⟨0, 0, 0⟩

/-- The place just after the character `c`. Only a line feed ends a line; a carriage return is an
ordinary column, and the line feed that usually follows it takes the column back to zero. -/
def next (p : Position) (c : Char) : Position :=
  if c = '\n' then ⟨p.offset + c.utf8Size, p.line + 1, 0⟩
  else ⟨p.offset + c.utf8Size, p.line, p.column + 1⟩

/-- The later of two places. -/
def later (p q : Position) : Position :=
  if p.offset ≤ q.offset then q else p

/-- The place after all of `text`, starting at `p`. -/
def advance (p : Position) (text : List Char) : Position :=
  text.foldl next p

end Position

/-- The part of a text that a node stands for, from its start up to and excluding its end. -/
structure Span where
  /-- Byte offset of the start. -/
  start : Nat
  /-- Byte offset of the end. -/
  stop : Nat
  /-- Line of the start. -/
  startLine : Nat
  /-- Column of the start. -/
  startColumn : Nat
  /-- Line of the end. -/
  stopLine : Nat
  /-- Column of the end. -/
  stopColumn : Nat
deriving Repr, DecidableEq, Inhabited

namespace Span

/-- The span of a node that stands nowhere in a text: all six numbers are zero. -/
def nowhere : Span := ⟨0, 0, 0, 0, 0, 0⟩

/-- The span between two places. -/
def between (p q : Position) : Span :=
  ⟨p.offset, q.offset, p.line, p.column, q.line, q.column⟩

/-- The span from the earlier start to the later end. On equal starts, and on equal ends, the left
span gives the line and the column. -/
def merge (a b : Span) : Span :=
  let first := if a.start ≤ b.start then a else b
  let last := if a.stop ≥ b.stop then a else b
  ⟨first.start, last.stop, first.startLine, first.startColumn, last.stopLine, last.stopColumn⟩

/-- The one-column span that reports a place: its offsets are zero, since only line and column are
reported. -/
def marker (p : Position) : Span :=
  ⟨0, 0, p.line, p.column, p.line, p.column + 1⟩

end Span

end BranchPaint
