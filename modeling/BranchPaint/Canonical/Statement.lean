import BranchPaint.Canonical.Expression

/-!
# Canonical text of programs

One statement per line, bodies indented by a fixed width, an opening brace on the line of its
header, and `else` on the line of the closing brace before it. The width is a parameter of
everything here; zero is a width like any other.
-/

namespace BranchPaint

/-- The blanks in front of a line at a level of nesting. -/
def indentation (width level : Nat) : String :=
  String.ofList (List.replicate (width * level) ' ')

/-- The text of one declared name. -/
def Declarator.text (d : Declarator) : String :=
  match d.init with
  | some e => d.name ++ " = " ++ e.textAt Precedence.assignment
  | none => d.name

/-- The text of a declaration without its semicolon. -/
def declarationText (word : DeclareWord) (ds : List Declarator) : String :=
  word.text ++ " " ++ ", ".intercalate (ds.map Declarator.text)

/-- The text of the first clause of a counting loop. -/
def ForInit.text : ForInit → String
  | declare word ds => declarationText word ds
  | expr e => e.text

/-- The text of an optional clause: a blank and the expression, or nothing. -/
def clauseText : Option Expr → String
  | some e => " " ++ e.text
  | none => ""

/-- Is this statement written in braces? -/
def Stmt.isBlock : Stmt → Bool
  | block _ _ => true
  | _ => false

/-- Is this statement a branch? -/
def Stmt.isBranch : Stmt → Bool
  | branch _ _ _ _ => true
  | _ => false

/-- The level at which a body is written under a header at `level`: braces stay at the header's
level, and all else goes one level further in. -/
def Stmt.bodyLevel (level : Nat) : Stmt → Nat
  | block _ _ => level
  | _ => level + 1

/-- A body, given its text, as it stands behind a header at `level`: braces stay on the line, an
empty statement is a semicolon right behind the header, and all else moves to the next line. -/
def Stmt.placed (width level : Nat) (body : Stmt) (text : String) : String :=
  match body with
  | empty _ => ";"
  | block _ _ => " " ++ text
  | _ => "\n" ++ indentation width (level + 1) ++ text

mutual

/-- The text of a statement whose first line is already indented. Further lines are indented for
`level`. -/
def Stmt.text (width level : Nat) : Stmt → String
  | .function name params body _ =>
    "function " ++ name ++ "(" ++ ", ".intercalate params ++ ") \x7b"
      ++ linesText width (level + 1) body ++ "\n" ++ indentation width level ++ "\x7d"
  | .declare word ds _ => declarationText word ds ++ ";"
  | .branch t c none _ =>
    "if (" ++ t.text ++ ")" ++ c.placed width level (c.text width (c.bodyLevel level))
  | .branch t c (some a) _ =>
    "if (" ++ t.text ++ ")" ++ c.placed width level (c.text width (c.bodyLevel level))
      ++ (if c.isBlock then " " else "\n" ++ indentation width level) ++ "else"
      ++ (if a.isBranch then " " ++ a.text width level
          else a.placed width level (a.text width (a.bodyLevel level)))
  | .whileLoop t body _ =>
    "while (" ++ t.text ++ ")" ++ body.placed width level (body.text width (body.bodyLevel level))
  | .forLoop init t u body _ =>
    "for (" ++ (init.map ForInit.text).getD "" ++ ";" ++ clauseText t ++ ";" ++ clauseText u ++ ")"
      ++ body.placed width level (body.text width (body.bodyLevel level))
  | .ret value _ => "return" ++ clauseText value ++ ";"
  | .block body _ =>
    "\x7b" ++ linesText width (level + 1) body ++ "\n" ++ indentation width level ++ "\x7d"
  | .expr e _ => e.text ++ ";"
  | .breakLoop _ => "break;"
  | .continueLoop _ => "continue;"
  | .empty _ => ";"

/-- The texts of statements on lines of their own, with a line feed before each. -/
def Stmt.linesText (width level : Nat) : List Stmt → String
  | [] => ""
  | s :: ss => "\n" ++ indentation width level ++ s.text width level ++ linesText width level ss

end

/-- The text of a program: its statements, with line feeds between them. -/
def Program.text (width : Nat) (p : Program) : String :=
  "\n".intercalate (p.body.map (Stmt.text width 0))

end BranchPaint
