import BranchPaint.Grammar.Lexeme
import BranchPaint.Script.Tree

/-!
# The grammar of expressions

From the loosest to the tightest: sequences, assignments, conditionals, six levels of connectives,
unary operators, steps by one, and primaries with their suffixes.

The grammar is recursive only where at least one character has been read: inside brackets, and
behind an operator. `Inner` holds the two rules that may be used there. The rules of this module are
plain functions of an `Inner`, and `unary` and `assignment` close the circle with one unit of fuel
for each step inwards. As every such step shortens the text, fuel above the length of the text never
runs out, and repetitions are bounded by the same number.
-/

namespace BranchPaint.Grammar

open Rule

/-- The rules for text further in. -/
structure Inner where
  /-- An operand of a unary operator. -/
  unary : Rule Expr
  /-- An assignment, or anything tighter. -/
  assignment : Rule Expr

/-- A sequence, or a single assignment. -/
def sequence (n : Nat) (assignment : Rule Expr) : Rule Expr := reporting do
  let ((e, es), span) ← spanned (commaList n assignment)
  pure (if es.isEmpty then e else .sequence (e :: es) span)

/-! ## Primaries and suffixes -/

/-- Zero or more assignments, divided by commas. -/
def items (n : Nat) (assignment : Rule Expr) : Rule (List Expr) := do
  match ← optional (commaList n assignment) with
  | none => pure []
  | some (e, es) => pure (e :: es)

/-- A list in brackets; one comma may stand behind the last element, and also alone. -/
def listLiteral (n : Nat) (inner : Inner) : Rule Expr := reporting do
  let (es, span) ← spanned do
    literal "["
    blanks
    let es ← items n inner.assignment
    blanks
    let _ ← optional (literal ",")
    blanks
    literal "]"
    pure es
  pure (.list es span)

/-- An expression in parentheses. They leave no trace, not even in its span. -/
def parenthesized (n : Nat) (inner : Inner) : Rule Expr := do
  literal "("
  blanks
  let e ← sequence n inner.assignment
  blanks
  literal ")"
  pure e

/-- A leaf that a lexer reads. -/
def leaf {α : Type} (lex : Lexer α) (make : α → Span → Expr) : Rule Expr := do
  let (a, span) ← spanned (token lex)
  pure (make a span)

/-- An expression without operators around it. -/
def primary (n : Nat) (inner : Inner) : Rule Expr := firstOf
  [leaf Lexer.number .num,
    leaf Quoted.scan? .str,
    leaf Lexer.boolean .bool,
    leaf (Lexer.keyword "null") fun _ => .null,
    listLiteral n inner,
    leaf Lexer.identifier .ident,
    parenthesized n inner]

/-- What can be written behind a primary. -/
inductive Suffix where
  /-- A dotted name, with the span of the name. -/
  | property (name : String) (span : Span)
  /-- An index in brackets. -/
  | index (e : Expr)
  /-- Arguments in parentheses. -/
  | call (args : List Expr)

/-- A dotted name. -/
def propertySuffix : Rule Suffix := reporting do
  literal "."
  blanks
  let (name, span) ← spanned (token Lexer.word)
  pure (.property name span)

/-- An index in brackets. -/
def indexSuffix (n : Nat) (inner : Inner) : Rule Suffix := reporting do
  literal "["
  blanks
  let e ← sequence n inner.assignment
  blanks
  literal "]"
  pure (.index e)

/-- Arguments in parentheses. -/
def callSuffix (n : Nat) (inner : Inner) : Rule Suffix := reporting do
  literal "("
  blanks
  let args ← items n inner.assignment
  blanks
  literal ")"
  pure (.call args)

/-- An expression with one more suffix, which stands at `span`. -/
def attach (e : Expr) (suffix : Suffix × Span) : Expr :=
  let span := e.span.merge suffix.2
  match suffix.1 with
  | .property name nameSpan => .member e (.ident name nameSpan) false span
  | .index i => .member e i true span
  | .call args => .call e args span

/-- A primary with its suffixes. -/
def suffixed (n : Nat) (inner : Inner) : Rule Expr := reporting do
  let e ← primary n inner
  blanks
  let suffixes ←
    many (spanned (firstOf [propertySuffix, indexSuffix n inner, callSuffix n inner])) n
  pure (suffixes.foldl attach e)

/-! ## Operators

The rules from here to the conditional take the rule for suffixed primaries as an argument, because
an assignment has already read one at the same place. -/

/-- A step by one in front of an operand. -/
def updateBefore (inner : Inner) : Rule Expr := do
  let ((op, e), span) ← spanned do
    let op ← token (Lexer.symbol updateSymbols)
    blanks
    let e ← inner.unary
    pure (op, e)
  pure (.update op true e span)

/-- A suffixed primary, with or without a step by one behind it. -/
def updateAfter (operand : Rule Expr) : Rule Expr := do
  let ((e, op), span) ← spanned do
    let e ← operand
    blanks
    let op ← optional (token (Lexer.symbol updateSymbols))
    pure (e, op)
  match op with
  | none => pure e
  | some op => pure (.update op false e span)

/-- A unary operator and its operand. -/
def unaryApplied (inner : Inner) : Rule Expr := do
  let ((op, e), span) ← spanned do
    let op ← token Lexer.unaryOp
    blanks
    let e ← inner.unary
    pure (op, e)
  pure (.unary op e span)

/-- An operand of a connective. -/
def unaryRule (inner : Inner) (operand : Rule Expr) : Rule Expr :=
  reporting (orElse (unaryApplied inner)
    (reporting (orElse (updateBefore inner) (updateAfter operand))))

/-- Two expressions joined by a connective, spanning both. -/
def join (left : Expr) (next : Connective × Expr) : Expr :=
  let span := left.span.merge next.2.span
  match next.1 with
  | .logical op => .logical op left next.2 span
  | .binary op => .binary op left next.2 span

/-- A chain of operands and connectives of the given levels. The first operand has a rule of its
own. -/
def chain (n : Nat) (operand : Rule Expr) : List (List (Symbol Connective)) → Rule Expr → Rule Expr
  | [], first => first
  | level :: tighter, first => reporting do
    let e ← chain n operand tighter first
    blanks
    let es ← many (do
      let op ← token (Lexer.symbol level)
      blanks
      let e ← chain n operand tighter operand
      pure (op, e)) n
    pure (es.foldl join e)

/-- A choice between two expressions, or only its condition. -/
def conditional (n : Nat) (inner : Inner) (operand first : Rule Expr) : Rule Expr := reporting do
  let ((c, branches), span) ← spanned do
    let c ← chain n operand connectiveLevels first
    blanks
    let branches ← optional do
      literal "?"
      blanks
      let t ← inner.assignment
      blanks
      literal ":"
      blanks
      let e ← inner.assignment
      pure (t, e)
    pure (c, branches)
  match branches with
  | none => pure c
  | some (t, e) => pure (.ternary c t e span)

/-- A target, an assignment operator and a value. -/
def store (inner : Inner) (operand : Rule Expr) : Rule Expr := do
  let ((target, op, value), span) ← spanned do
    let target ← operand
    blanks
    let op ← token (Lexer.symbol assignSymbols)
    blanks
    let value ← inner.assignment
    pure (target, op, value)
  pure (.assign op target value span)

/-- An assignment or a conditional. Both may start with a suffixed primary at the same place, which
is read once. -/
def assignmentRule (n : Nat) (inner : Inner) : Rule Expr := reporting fun s =>
  let operand := suffixed n inner
  let here := operand s
  orElse (store inner fun _ => here)
    (conditional n inner (unaryRule inner operand) (unaryRule inner fun _ => here)) s

/-! ## Closing the circle -/

mutual

/-- An operand of a connective, read with the given fuel. -/
def unary : Nat → Rule Expr
  | 0, s => fail s
  | n + 1, s => unaryRule ⟨unary n, assignment n⟩ (suffixed (n + 1) ⟨unary n, assignment n⟩) s

/-- An assignment or anything tighter, read with the given fuel. -/
def assignment : Nat → Rule Expr
  | 0, s => fail s
  | n + 1, s => assignmentRule (n + 1) ⟨unary n, assignment n⟩ s

end

/-- A full expression, read with the given fuel. -/
def expression (n : Nat) : Rule Expr := sequence n (assignment n)

end BranchPaint.Grammar
