import BranchPaint.Grammar.Rule
import BranchPaint.Number.Decimal
import BranchPaint.Script.Operator
import BranchPaint.Text.Quoted

/-!
# Words and symbols

The indivisible pieces of a script. A word is a maximal run of letters, digits, `_` and `$` that
does not start with a digit; fifteen words are reserved and name nothing. A symbol is fixed text
that may be forbidden before certain characters, so that the front of a longer symbol is not taken
for a shorter one.
-/

namespace BranchPaint

/-! ## Words -/

/-- Can a word start with this character? -/
def isWordStart (c : Char) : Bool := c.isAlpha || c = '_' || c = '$'

/-- Can a word go on with this character? -/
def isWordChar (c : Char) : Bool := c.isAlphanum || c = '_' || c = '$'

/-- The words that name nothing. -/
def reservedWords : List String :=
  ["function", "let", "const", "var", "if", "else", "while", "for", "return", "break", "continue",
    "true", "false", "null", "typeof"]

namespace Lexer

/-- Any word, reserved or not. -/
def word : Lexer String := fun s =>
  if s.peek isWordStart then
    let (cs, t) := s.takeWhile isWordChar
    some (String.ofList cs, t)
  else none

/-- A word that is not reserved. -/
def identifier : Lexer String := fun s =>
  match word s with
  | some (w, t) => if reservedWords.contains w then none else some (w, t)
  | none => none

/-- The given word. -/
def keyword (k : String) : Lexer Unit := fun s =>
  match word s with
  | some (w, t) => if w = k then some ((), t) else none
  | none => none

/-- One of the declaring words. -/
def declareWord : Lexer DeclareWord := fun s =>
  match word s with
  | some (w, t) => (DeclareWord.ofText? w).map fun d => (d, t)
  | none => none

/-- A decimal, as the nearest number. -/
def number : Lexer Float := fun s =>
  (Decimal.scan? s).map fun (d, t) => (d.toFloat false, t)

/-- A truth value. -/
def boolean : Lexer Bool := fun s =>
  match word s with
  | some (w, t) =>
    if w = "true" then some (true, t)
    else if w = "false" then some (false, t)
    else none
  | none => none

end Lexer

/-! ## Symbols -/

/-- Fixed text with a meaning. -/
structure Symbol (α : Type) where
  /-- The text. -/
  text : String
  /-- What the text stands for. -/
  meaning : α
  /-- The text is not this symbol if one of these characters follows. -/
  notBefore : List Char := []

/-- The first symbol of a list that the text goes on with. -/
def Lexer.symbol {α : Type} : List (Symbol α) → Lexer α
  | [], _ => none
  | y :: ys, s =>
    match s.literal? y.text.toList with
    | some t => if t.peek y.notBefore.contains then symbol ys s else some (y.meaning, t)
    | none => symbol ys s

/-- The assignment operators. -/
def assignSymbols : List (Symbol AssignOp) :=
  [⟨"+=", .compound .add, []⟩, ⟨"-=", .compound .sub, []⟩, ⟨"*=", .compound .mul, []⟩,
    ⟨"/=", .compound .div, []⟩, ⟨"%=", .compound .rem, []⟩, ⟨"=", .assign, ['=']⟩]

/-- The unary operators that are not words. -/
def unarySymbols : List (Symbol UnaryOp) :=
  [⟨"!", .not, []⟩, ⟨"~", .bitNot, []⟩, ⟨"-", .neg, ['-']⟩, ⟨"+", .plus, ['+']⟩]

/-- The steps by one. -/
def updateSymbols : List (Symbol UpdateOp) :=
  [⟨"++", .increment, []⟩, ⟨"--", .decrement, []⟩]

/-- A unary operator, word or symbol. -/
def Lexer.unaryOp : Lexer UnaryOp := fun s =>
  match Lexer.keyword "typeof" s with
  | some (_, t) => some (.typeOf, t)
  | none => Lexer.symbol unarySymbols s

/-! ## Connectives

The operators between two operands, from the loosest level to the tightest. All of them group to the
left. -/

/-- An operator between two operands. -/
inductive Connective where
  | logical (op : LogicalOp)
  | binary (op : BinaryOp)
deriving Repr, DecidableEq

/-- The levels of connectives, loosest first. -/
def connectiveLevels : List (List (Symbol Connective)) :=
  [[⟨"||", .logical .or, []⟩],
    [⟨"&&", .logical .and, []⟩],
    [⟨"===", .binary .strictEq, []⟩, ⟨"!==", .binary .strictNe, []⟩, ⟨"==", .binary .eq, []⟩,
      ⟨"!=", .binary .ne, []⟩],
    [⟨"<=", .binary .le, []⟩, ⟨">=", .binary .ge, []⟩, ⟨"<", .binary .lt, []⟩,
      ⟨">", .binary .gt, []⟩],
    [⟨"+", .binary .add, ['+', '=']⟩, ⟨"-", .binary .sub, ['-', '=']⟩],
    [⟨"*", .binary .mul, ['=']⟩, ⟨"/", .binary .div, ['=']⟩, ⟨"%", .binary .rem, ['=']⟩]]

end BranchPaint
