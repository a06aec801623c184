import BranchPaint.Source.Cursor

/-!
# Grammar rules

A rule reads the front of a text. It either succeeds with a value and the text behind what it read,
or gives up; in both cases its reply also says how far into the text some rule got before giving up.
That place is what a syntax error reports: of all the ways in which the text was tried, the one that
came furthest is most likely the one its author had in mind.

The choice between rules is ordered: a later alternative is tried only if the earlier one gave up,
and a choice once made is never taken back. The place reached is kept across alternatives, the text
is not.
-/

namespace BranchPaint

/-- What a rule answers. -/
structure Reply (α : Type) where
  /-- The furthest place at which a reporting rule that gave up had started. -/
  reach : Position
  /-- The value read and the text behind it, or nothing if the rule gave up. -/
  result : Option (α × Cursor)

/-- A rule that reads an `α`. -/
abbrev Rule (α : Type) : Type := Cursor → Reply α

/-- A lexer reads one indivisible piece of text. It reports nothing by itself. -/
abbrev Lexer (α : Type) : Type := Cursor → Option (α × Cursor)

namespace Rule

instance : Monad Rule where
  pure a := fun s => ⟨.start, some (a, s)⟩
  bind p f := fun s =>
    match p s with
    | ⟨r, none⟩ => ⟨r, none⟩
    | ⟨r, some (a, t)⟩ =>
      let q := f a t
      ⟨r.later q.reach, q.result⟩

/-- The rule that always gives up and reports nothing. -/
def fail {α : Type} : Rule α := fun _ => ⟨.start, none⟩

/-- The rule that reads nothing and answers where it stands. -/
def position : Rule Position := fun s => ⟨.start, some (s.pos, s)⟩

/-- Moves over blanks, if there are any. -/
def blanks : Rule Unit := fun s => ⟨.start, some ((), s.skipBlanks)⟩

/-- Reads one fixed piece of text. Giving up is not reported: what is expected here belongs to the
rule around it. -/
def literal (word : String) : Rule Unit := fun s =>
  ⟨.start, (s.literal? word.toList).map fun t => ((), t)⟩

/-- A rule that reports where it started whenever it gives up. -/
def reporting {α : Type} (p : Rule α) : Rule α := fun s =>
  match p s with
  | ⟨r, none⟩ => ⟨r.later s.pos, none⟩
  | reply => reply

/-- A lexer as a reporting rule. -/
def token {α : Type} (lex : Lexer α) : Rule α := fun s =>
  match lex s with
  | none => ⟨s.pos, none⟩
  | some x => ⟨.start, some x⟩

/-- The first rule, or the second one on the same text if the first gives up. -/
def orElse {α : Type} (p q : Rule α) : Rule α := fun s =>
  match p s with
  | ⟨r, none⟩ =>
    let x := q s
    ⟨r.later x.reach, x.result⟩
  | reply => reply

/-- The first rule of a list that does not give up. -/
def firstOf {α : Type} : List (Rule α) → Rule α
  | [] => fail
  | p :: ps => orElse p (firstOf ps)

/-- Reads what the rule reads, or nothing. -/
def optional {α : Type} (p : Rule α) : Rule (Option α) := fun s =>
  match p s with
  | ⟨r, none⟩ => ⟨r, some (none, s)⟩
  | ⟨r, some (a, t)⟩ => ⟨r, some (some a, t)⟩

/-- Reads as often as possible, at most `n` times, with blanks before each time. The blanks before
an attempt that gives up are not read. -/
def many {α : Type} (p : Rule α) : Nat → Rule (List α)
  | 0, s => ⟨.start, some ([], s)⟩
  | n + 1, s =>
    match p s.skipBlanks with
    | ⟨r, none⟩ => ⟨r, some ([], s)⟩
    | ⟨r, some (a, t)⟩ =>
      match many p n t with
      | ⟨r', none⟩ => ⟨r.later r', none⟩
      | ⟨r', some (as, u)⟩ => ⟨r.later r', some (a :: as, u)⟩

/-- One or more, divided by commas: the first and the others. -/
def commaList {α : Type} (n : Nat) (p : Rule α) : Rule (α × List α) := do
  let a ← p
  blanks
  let as ← many (do literal ","; blanks; p) n
  pure (a, as)

/-- The value read, with the span it was read from. -/
def spanned {α : Type} (p : Rule α) : Rule (α × Span) := do
  let start ← position
  let a ← p
  let stop ← position
  pure (a, .between start stop)

/-- Succeeds at the end of the text only. -/
def endOfText : Rule Unit := token fun s =>
  match s.rest with
  | [] => some ((), s)
  | _ :: _ => none

end Rule

end BranchPaint
