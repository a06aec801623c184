import BranchPaint.Grammar.Lexeme
import BranchPaint.Proofs.Peg.Termination

/-!
# The grammar of scripts as a table

All rules of the language, from words to programs, written down as patterns. Semicolons are
optional; parentheses, like commas and brackets, leave no nodes. Blanks are spaces, tabs, carriage
returns, line feeds and comments.

The ranking at the end shows that matching ends on every text. It follows the levels of the
language: the rank of a rule is above that of every rule that may be called at the same place, and a
rule that starts with a mark of its own has a low one.
-/

namespace BranchPaint.Peg

/-! ## Names -/

/-- The rules that leave nodes. -/
inductive Name where
  | program
  | endOfText
  | keyword
  | identifier
  | propertyName
  | functionWord
  | ifWord
  | elseWord
  | whileWord
  | forWord
  | returnWord
  | breakWord
  | continueWord
  | declareWord
  | statement
  | functionDecl
  | paramList
  | declaration
  | declarator
  | declareStmt
  | ifStmt
  | elseClause
  | whileStmt
  | forStmt
  | forInit
  | forTest
  | forUpdate
  | returnStmt
  | breakStmt
  | continueStmt
  | block
  | emptyStmt
  | exprStmt
  | expression
  | assignmentExpr
  | assignOp
  | conditionalExpr
  | logicalOrExpr
  | logicalAndExpr
  | equalityExpr
  | relationalExpr
  | additiveExpr
  | multiplicativeExpr
  | orOp
  | andOp
  | equalityOp
  | relationalOp
  | additiveOp
  | multiplicativeOp
  | unaryExpr
  | unaryOp
  | updateExpr
  | updateOp
  | postfixExpr
  | memberAccess
  | indexAccess
  | callArgs
  | number
  | string
  | singleQuoted
  | doubleQuoted
  | boolean
  | nullLiteral
  | arrayLiteral
deriving DecidableEq

namespace Name

/-- The name as it is written in messages. -/
def text : Name → String
  | program => "program"
  | endOfText => "EOI"
  | keyword => "keyword"
  | identifier => "identifier"
  | propertyName => "property_name"
  | functionWord => "kw_function"
  | ifWord => "kw_if"
  | elseWord => "kw_else"
  | whileWord => "kw_while"
  | forWord => "kw_for"
  | returnWord => "kw_return"
  | breakWord => "kw_break"
  | continueWord => "kw_continue"
  | declareWord => "var_kind"
  | statement => "statement"
  | functionDecl => "function_decl"
  | paramList => "param_list"
  | declaration => "declaration"
  | declarator => "declarator"
  | declareStmt => "declare_stmt"
  | ifStmt => "if_stmt"
  | elseClause => "else_clause"
  | whileStmt => "while_stmt"
  | forStmt => "for_stmt"
  | forInit => "for_init"
  | forTest => "for_test"
  | forUpdate => "for_update"
  | returnStmt => "return_stmt"
  | breakStmt => "break_stmt"
  | continueStmt => "continue_stmt"
  | block => "block"
  | emptyStmt => "empty_stmt"
  | exprStmt => "expr_stmt"
  | expression => "expression"
  | assignmentExpr => "assignment_expr"
  | assignOp => "assign_op"
  | conditionalExpr => "conditional_expr"
  | logicalOrExpr => "logical_or_expr"
  | logicalAndExpr => "logical_and_expr"
  | equalityExpr => "equality_expr"
  | relationalExpr => "relational_expr"
  | additiveExpr => "additive_expr"
  | multiplicativeExpr => "multiplicative_expr"
  | orOp => "op_or"
  | andOp => "op_and"
  | equalityOp => "equality_op"
  | relationalOp => "relational_op"
  | additiveOp => "additive_op"
  | multiplicativeOp => "multiplicative_op"
  | unaryExpr => "unary_expr"
  | unaryOp => "unary_op"
  | updateExpr => "update_expr"
  | updateOp => "update_op"
  | postfixExpr => "postfix_expr"
  | memberAccess => "member_access"
  | indexAccess => "index_access"
  | callArgs => "call_args"
  | number => "number"
  | string => "string"
  | singleQuoted => "single_quoted"
  | doubleQuoted => "double_quoted"
  | boolean => "boolean"
  | nullLiteral => "null_lit"
  | arrayLiteral => "array_lit"

/-- Words, symbols and literals are atomic, apart from quoted text, whose node has the text between
the quotes in it. -/
def kind : Name → Kind
  | endOfText | keyword | identifier | propertyName | functionWord | ifWord | elseWord | whileWord
  | forWord | returnWord
  | breakWord | continueWord | declareWord | assignOp | orOp | andOp | equalityOp
  | relationalOp | additiveOp
  | multiplicativeOp | unaryOp | updateOp | number | singleQuoted | doubleQuoted | boolean
  | nullLiteral => .atomic
  | string => .compound
  | _ => .plain

end Name

/-! ## Patterns -/

namespace Pattern

variable {ν : Type}

/-- One after the other. -/
def inOrder : List (Pattern ν) → Pattern ν
  | [] => .text ""
  | [p] => p
  | p :: q :: ps => .seq p (inOrder (q :: ps))

/-- The first that matches. -/
def oneOf : List (Pattern ν) → Pattern ν
  | [] => .not (.text "")
  | [p] => p
  | p :: q :: ps => .or p (oneOf (q :: ps))

/-- One or more, divided by commas. -/
def commas (p : Pattern ν) : Pattern ν := inOrder [p, .star (inOrder [.text ",", p])]

/-- One or more, without blanks between them. -/
def plus (p : Pattern ν) : Pattern ν := inOrder [p, .star p]

/-! ### Blanks -/

/-- A blank character. -/
def whiteSpace : Pattern ν := oneOf [.text " ", .text "\t", .text "\r", .text "\n"]

/-- A comment up to the end of its line, or one that is closed. -/
def comment : Pattern ν := oneOf
  [inOrder [.text "//", .star (inOrder [.not (.text "\n"), .char fun _ => true])],
    inOrder [.text "/*", .star (inOrder [.not (.text "*/"), .char fun _ => true]), .text "*/"]]

/-- Any number of blank characters and comments. -/
def blanks : Pattern ν := inOrder [.star whiteSpace, .star (inOrder [comment, .star whiteSpace])]

/-! ### Words, symbols and literals -/

/-- A character that can start a word. -/
def wordStart : Pattern ν := oneOf [.char Char.isAlpha, .text "_", .text "$"]

/-- A character with which a word can go on. -/
def wordChar : Pattern ν := oneOf [.char Char.isAlphanum, .text "_", .text "$"]

/-- One of the given words. -/
def words (ws : List String) : Pattern ν := inOrder [oneOf (ws.map .text), .not wordChar]

/-- A decimal. -/
def decimal : Pattern ν :=
  inOrder [oneOf [inOrder [plus (.char Char.isDigit),
      .opt (inOrder [.text ".", .star (.char Char.isDigit)])],
      inOrder [.text ".", plus (.char Char.isDigit)]], .opt (inOrder [oneOf [.text "e", .text "E"],
      .opt (oneOf [.text "+", .text "-"]), plus (.char Char.isDigit)])]

/-- The text between two of the given quotes. -/
def quotedBy (quote : String) : Pattern ν :=
  .star (oneOf [inOrder [.text "\\", .char fun _ => true],
    inOrder [.not (oneOf [.text quote, .text "\\", .text "\n"]), .char fun _ => true]])

end Pattern

/-! ## The table -/

namespace Name

open Pattern

/-- A chain of operands and operators between them. -/
def chainOf (operand op : Name) : Pattern Name :=
  inOrder [call operand, .star (inOrder [call op, call operand])]

/-- An expression without operators around it. -/
def primary : Pattern Name := oneOf
  [call number, call string, call boolean, call nullLiteral, call arrayLiteral, call identifier,
    inOrder [.text "(", call expression, .text ")"]]

/-- What a rule matches. -/
def pattern : Name → Pattern Name
  | program => inOrder [.start, .star (call statement), call endOfText]
  | endOfText => .finish
  | keyword => words reservedWords
  | identifier => inOrder [.not (call keyword), wordStart, .star wordChar]
  | propertyName => inOrder [wordStart, .star wordChar]
  | functionWord => words ["function"]
  | ifWord => words ["if"]
  | elseWord => words ["else"]
  | whileWord => words ["while"]
  | forWord => words ["for"]
  | returnWord => words ["return"]
  | breakWord => words ["break"]
  | continueWord => words ["continue"]
  | declareWord => words ["let", "const", "var"]
  | statement => oneOf [call functionDecl, call declareStmt, call ifStmt, call whileStmt,
      call forStmt, call returnStmt, call breakStmt, call continueStmt, call block, call emptyStmt,
      call exprStmt]
  | functionDecl => inOrder
    [call functionWord, call identifier, .text "(", .opt (call paramList), .text ")", call block]
  | paramList => commas (call identifier)
  | declaration => inOrder [call declareWord, commas (call declarator)]
  | declarator => inOrder [call identifier, .opt (inOrder [.text "=", call assignmentExpr])]
  | declareStmt => inOrder [call declaration, .opt (.text ";")]
  | ifStmt => inOrder
    [call ifWord, .text "(", call expression, .text ")", call statement, .opt (call elseClause)]
  | elseClause => inOrder [call elseWord, call statement]
  | whileStmt => inOrder [call whileWord, .text "(", call expression, .text ")", call statement]
  | forStmt => inOrder [call forWord, .text "(", .opt (call forInit), .text ";",
      .opt (call forTest), .text ";", .opt (call forUpdate), .text ")", call statement]
  | forInit => oneOf [call declaration, call expression]
  | forTest => call expression
  | forUpdate => call expression
  | returnStmt => inOrder [call returnWord, .opt (call expression), .opt (.text ";")]
  | breakStmt => inOrder [call breakWord, .opt (.text ";")]
  | continueStmt => inOrder [call continueWord, .opt (.text ";")]
  | block => inOrder [.text "\x7b", .star (call statement), .text "\x7d"]
  | emptyStmt => .text ";"
  | exprStmt => inOrder [call expression, .opt (.text ";")]
  | expression => commas (call assignmentExpr)
  | assignmentExpr => oneOf
    [inOrder [call postfixExpr, call assignOp, call assignmentExpr], call conditionalExpr]
  | assignOp => oneOf [.text "+=", .text "-=", .text "*=", .text "/=", .text "%=",
      inOrder [.text "=", .not (.text "=")]]
  | conditionalExpr => inOrder [call logicalOrExpr,
      .opt (inOrder [.text "?", call assignmentExpr, .text ":", call assignmentExpr])]
  | logicalOrExpr => chainOf logicalAndExpr orOp
  | logicalAndExpr => chainOf equalityExpr andOp
  | equalityExpr => chainOf relationalExpr equalityOp
  | relationalExpr => chainOf additiveExpr relationalOp
  | additiveExpr => chainOf multiplicativeExpr additiveOp
  | multiplicativeExpr => chainOf unaryExpr multiplicativeOp
  | orOp => .text "||"
  | andOp => .text "&&"
  | equalityOp => oneOf [.text "===", .text "!==", .text "==", .text "!="]
  | relationalOp => oneOf [.text "<=", .text ">=", .text "<", .text ">"]
  | additiveOp => oneOf [inOrder [.text "+", .not (oneOf [.text "+", .text "="])],
      inOrder [.text "-", .not (oneOf [.text "-", .text "="])]]
  | multiplicativeOp => inOrder [oneOf [.text "*", .text "/", .text "%"], .not (.text "=")]
  | unaryExpr => oneOf [inOrder [call unaryOp, call unaryExpr], call updateExpr]
  | unaryOp => oneOf [words ["typeof"], .text "!", .text "~", inOrder [.text "-", .not (.text "-")],
      inOrder [.text "+", .not (.text "+")]]
  | updateExpr => oneOf [inOrder [call updateOp, call unaryExpr],
      inOrder [call postfixExpr, .opt (call updateOp)]]
  | updateOp => oneOf [.text "++", .text "--"]
  | postfixExpr =>
    inOrder [primary, .star (oneOf [call memberAccess, call indexAccess, call callArgs])]
  | memberAccess => inOrder [.text ".", call propertyName]
  | indexAccess => inOrder [.text "[", call expression, .text "]"]
  | callArgs => inOrder [.text "(", .opt (commas (call assignmentExpr)), .text ")"]
  | number => decimal
  | string => oneOf [inOrder [.text "'", call singleQuoted, .text "'"],
      inOrder [.text "\"", call doubleQuoted, .text "\""]]
  | singleQuoted => quotedBy "'"
  | doubleQuoted => quotedBy "\""
  | boolean => words ["true", "false"]
  | nullLiteral => words ["null"]
  | arrayLiteral =>
    inOrder [.text "[", .opt (commas (call assignmentExpr)), .opt (.text ","), .text "]"]

end Name

/-- The grammar of scripts. -/
def script : Table Name := ⟨Name.kind, Name.pattern, .blanks⟩

/-! ## Matching ends -/

namespace Name

/-- The rules that can match the empty text. -/
def isEmpty : Name → Bool
  | program | endOfText | singleQuoted | doubleQuoted => true
  | _ => false

/-- Above the ranks of the rules that may be called where this one is, before anything is read. -/
def rank : Name → Nat
  | program => 16
  | statement => 15
  | forInit | forTest | forUpdate | exprStmt => 14
  | expression => 13
  | assignmentExpr => 12
  | conditionalExpr => 11
  | logicalOrExpr => 10
  | logicalAndExpr => 9
  | equalityExpr => 8
  | relationalExpr => 7
  | additiveExpr => 6
  | multiplicativeExpr => 5
  | unaryExpr => 4
  | updateExpr => 3
  | postfixExpr | paramList | declarator | declareStmt => 2
  | identifier | functionDecl | declaration | ifStmt | elseClause | whileStmt | forStmt
  | returnStmt | breakStmt
  | continueStmt => 1
  | _ => 0

end Name

/-- The ranks show that matching scripts ends. -/
def scriptRanking : Ranking script where
  rank := Name.rank
  empty := Name.isEmpty
  top := 17
  size := 1000
  rank_lt x := by cases x <;> decide
  nullable_le x := by cases x <;> decide
  guarded x := by cases x <;> decide
  guarded_blank := by decide
  depth_le x := by cases x <;> decide

end BranchPaint.Peg
