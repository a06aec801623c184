import BranchPaint.Grammar.Expression

/-!
# The grammar of statements

Statements and whole programs. A statement contains statements only behind a keyword or an opening
brace, so the circle is closed as for expressions: one unit of fuel for each step inwards.

`Program.parse` supplies the fuel. Its only failure is a text that is no program, reported at the
furthest place where a rule gave up.
-/

namespace BranchPaint.Grammar

open Rule

/-! ## Declarations -/

/-- One declared name, with or without a first value. -/
def declarator (n : Nat) : Rule Declarator := reporting do
  let ((name, init), span) ← spanned do
    let name ← token Lexer.identifier
    blanks
    let init ← optional do
      literal "="
      blanks
      assignment n
    pure (name, init)
  pure ⟨name, init, span⟩

/-- A declaring word and one or more declared names. -/
def declaration (n : Nat) : Rule (DeclareWord × List Declarator) := reporting do
  let word ← token Lexer.declareWord
  blanks
  let (d, ds) ← commaList n (declarator n)
  pure (word, d :: ds)

/-! ## Statements

Each rule takes the rule for the statements inside it. -/

/-- An optional semicolon, with the blanks before it. -/
def semicolon : Rule Unit := do
  blanks
  let _ ← optional (literal ";")
  pure ()

/-- A test in parentheses, with the blanks around it. -/
def test (n : Nat) : Rule Expr := do
  blanks
  literal "("
  blanks
  let e ← expression n
  blanks
  literal ")"
  blanks
  pure e

/-- The statements between braces. -/
def braces (n : Nat) (statement : Rule Stmt) : Rule (List Stmt) := reporting do
  literal "\x7b"
  blanks
  let body ← many statement n
  blanks
  literal "\x7d"
  pure body

/-- The parameters of a function. -/
def paramList (n : Nat) : Rule (List String) := reporting do
  let (p, ps) ← commaList n (token Lexer.identifier)
  pure (p :: ps)

/-- A function. -/
def functionRule (n : Nat) (statement : Rule Stmt) : Rule Stmt := reporting do
  let ((name, params, body), span) ← spanned do
    token (Lexer.keyword "function")
    blanks
    let name ← token Lexer.identifier
    blanks
    literal "("
    blanks
    let params ← optional (paramList n)
    blanks
    literal ")"
    blanks
    let body ← braces n statement
    pure (name, params.getD [], body)
  pure (.function name params body span)

/-- A declaration as a statement. -/
def declareRule (n : Nat) : Rule Stmt := reporting do
  let ((word, ds), span) ← spanned do
    let d ← declaration n
    semicolon
    pure d
  pure (.declare word ds span)

/-- The alternative of a branch. -/
def elseClause (statement : Rule Stmt) : Rule Stmt := reporting do
  token (Lexer.keyword "else")
  blanks
  statement

/-- A branch; an alternative belongs to the nearest one. -/
def branchRule (n : Nat) (statement : Rule Stmt) : Rule Stmt := reporting do
  let ((t, c, a), span) ← spanned do
    token (Lexer.keyword "if")
    let t ← test n
    let c ← statement
    blanks
    let a ← optional (elseClause statement)
    pure (t, c, a)
  pure (.branch t c a span)

/-- A loop with a test. -/
def whileRule (n : Nat) (statement : Rule Stmt) : Rule Stmt := reporting do
  let ((t, body), span) ← spanned do
    token (Lexer.keyword "while")
    let t ← test n
    let body ← statement
    pure (t, body)
  pure (.whileLoop t body span)

/-- The first clause of a counting loop. -/
def forInit (n : Nat) : Rule ForInit := reporting (orElse
  (do let (word, ds) ← declaration n; pure (.declare word ds))
  (do let e ← expression n; pure (.expr e)))

/-- A counting loop. -/
def forRule (n : Nat) (statement : Rule Stmt) : Rule Stmt := reporting do
  let ((init, t, u, body), span) ← spanned do
    token (Lexer.keyword "for")
    blanks
    literal "("
    blanks
    let init ← optional (forInit n)
    blanks
    literal ";"
    blanks
    let t ← optional (reporting (expression n))
    blanks
    literal ";"
    blanks
    let u ← optional (reporting (expression n))
    blanks
    literal ")"
    blanks
    let body ← statement
    pure (init, t, u, body)
  pure (.forLoop init t u body span)

/-- A return, with or without a value. -/
def returnRule (n : Nat) : Rule Stmt := reporting do
  let (value, span) ← spanned do
    token (Lexer.keyword "return")
    blanks
    let value ← optional (expression n)
    semicolon
    pure value
  pure (.ret value span)

/-- A statement that is a single word. -/
def wordRule (word : String) (make : Span → Stmt) : Rule Stmt := reporting do
  let ((), span) ← spanned do
    token (Lexer.keyword word)
    semicolon
  pure (make span)

/-- Statements in braces. -/
def blockRule (n : Nat) (statement : Rule Stmt) : Rule Stmt := do
  let (body, span) ← spanned (braces n statement)
  pure (.block body span)

/-- A lone semicolon. -/
def emptyRule : Rule Stmt := reporting do
  let ((), span) ← spanned (literal ";")
  pure (.empty span)

/-- An expression as a statement. -/
def exprRule (n : Nat) : Rule Stmt := reporting do
  let (e, span) ← spanned do
    let e ← expression n
    semicolon
    pure e
  pure (.expr e span)

/-- Any statement, given the rule for the statements inside it. -/
def statementRule (n : Nat) (inner : Rule Stmt) : Rule Stmt := reporting (firstOf
  [functionRule n inner,
    declareRule n,
    branchRule n inner,
    whileRule n inner,
    forRule n inner,
    returnRule n,
    wordRule "break" .breakLoop,
    wordRule "continue" .continueLoop,
    blockRule n inner,
    emptyRule,
    exprRule n])

/-- A statement, read with the given fuel. -/
def statement : Nat → Rule Stmt
  | 0, s => fail s
  | n + 1, s => statementRule (n + 1) (statement n) s

/-- A whole text as a program. -/
def program (n : Nat) : Rule Program := reporting do
  let (body, span) ← spanned do
    blanks
    let body ← many (statement n) n
    blanks
    endOfText
    pure body
  pure ⟨body, span⟩

end BranchPaint.Grammar

namespace BranchPaint

/-- A text that is no program. -/
structure SyntaxError where
  /-- The furthest place at which a rule of the grammar gave up. -/
  place : Position
deriving Repr, DecidableEq

/-- The span that reports the error. -/
def SyntaxError.span (e : SyntaxError) : Span := .marker e.place

/-- Reads a program. -/
def Program.parse (text : String) : Except SyntaxError Program :=
  let s := Cursor.ofString text
  match Grammar.program (s.rest.length + 1) s with
  | ⟨_, some (p, _)⟩ => .ok p
  | ⟨reach, none⟩ => .error ⟨reach⟩

end BranchPaint
