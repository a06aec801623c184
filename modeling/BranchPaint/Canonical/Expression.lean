import BranchPaint.Number.Decimal
import BranchPaint.Script.Tree
import BranchPaint.Text.Quoted

/-!
# Canonical text of expressions

One text for each expression: single spaces around connectives and behind commas, and parentheses
exactly where the grammar would otherwise group differently. Each expression has a precedence, each
place asks for one, and an expression looser than its place asks for is put into parentheses.
-/

namespace BranchPaint

/-! ## Precedence -/

namespace Precedence

/-- Sequences. -/
def sequence : Nat := 0
/-- Assignments. -/
def assignment : Nat := 1
/-- Choices between two expressions. -/
def conditional : Nat := 2
/-- The connective `||`. -/
def logicalOr : Nat := 3
/-- The connective `&&`. -/
def logicalAnd : Nat := 4
/-- Equality and its negation, loose and strict. -/
def equality : Nat := 5
/-- Order. -/
def relational : Nat := 6
/-- Sums and differences. -/
def additive : Nat := 7
/-- Products, quotients and remainders. -/
def multiplicative : Nat := 8
/-- Unary operators and steps by one in front. -/
def unary : Nat := 9
/-- Steps by one behind. -/
def updated : Nat := 10
/-- Calls. -/
def call : Nat := 11
/-- Members. -/
def member : Nat := 12
/-- Names, literals and lists. -/
def primary : Nat := 13

end Precedence

/-- The precedence of a binary operator. -/
def BinaryOp.precedence : BinaryOp → Nat
  | eq | ne | strictEq | strictNe => Precedence.equality
  | lt | le | gt | ge => Precedence.relational
  | add | sub => Precedence.additive
  | mul | div | rem => Precedence.multiplicative

/-- The precedence of a logical operator. -/
def LogicalOp.precedence : LogicalOp → Nat
  | or => Precedence.logicalOr
  | and => Precedence.logicalAnd

/-- The precedence of an expression. -/
def Expr.precedence : Expr → Nat
  | bool _ _ | num _ _ | str _ _ | null _ | ident _ _ | list _ _ => Precedence.primary
  | member _ _ _ _ => Precedence.member
  | call _ _ _ => Precedence.call
  | binary op _ _ _ => op.precedence
  | logical op _ _ _ => op.precedence
  | unary _ _ _ => Precedence.unary
  | update _ true _ _ => Precedence.unary
  | update _ false _ _ => Precedence.updated
  | assign _ _ _ _ => Precedence.assignment
  | ternary _ _ _ _ => Precedence.conditional
  | sequence _ _ => Precedence.sequence

/-! ## Text -/

/-- Text in parentheses, if `wanted`. -/
def parens (wanted : Bool) (text : String) : String :=
  if wanted then "(" ++ text ++ ")" else text

/-- The blank between a unary operator and its operand: a word needs one, and a sign needs one
before the same sign, which would make it a step by one. -/
def UnaryOp.gap (op : UnaryOp) (operand : String) : String :=
  match op with
  | typeOf => " "
  | neg => if operand.toList.head? = some '-' then " " else ""
  | plus => if operand.toList.head? = some '+' then " " else ""
  | not | bitNot => ""

/-- Must the object of a member stand in parentheses? Anything looser than a call must, and a number
before a point must too, since it would take the point for its own. -/
def Expr.needsParensAsObject (object : Expr) (computed : Bool) : Bool :=
  match object with
  | num _ _ => !computed
  | e => e.precedence < Precedence.call

mutual

/-- The text of an expression that stands alone. -/
def Expr.text : Expr → String
  | .bool v _ => if v then "true" else "false"
  | .num v _ => numberText v
  | .str v _ => Quoted.quote v
  | .null _ => "null"
  | .ident name _ => name
  | .list es _ => "[" ++ ", ".intercalate (itemTexts es) ++ "]"
  | .member o p computed _ =>
    let object := parens (o.needsParensAsObject computed) o.text
    if computed then object ++ "[" ++ p.text ++ "]"
    else object ++ "." ++ parens (p.precedence < Precedence.primary) p.text
  | .call f args _ =>
    parens (f.precedence < Precedence.call) f.text
      ++ "(" ++ ", ".intercalate (itemTexts args) ++ ")"
  | .binary op l r _ =>
    parens (l.precedence < op.precedence) l.text ++ " " ++ op.text ++ " "
      ++ parens (r.precedence < op.precedence + 1) r.text
  | .logical op l r _ =>
    parens (l.precedence < op.precedence) l.text ++ " " ++ op.text ++ " "
      ++ parens (r.precedence < op.precedence + 1) r.text
  | .unary op a _ =>
    let operand := parens (a.precedence < Precedence.unary) a.text
    op.text ++ op.gap operand ++ operand
  | .update op before a _ =>
    if before then op.text ++ parens (a.precedence < Precedence.unary) a.text
    else parens (a.precedence < Precedence.call) a.text ++ op.text
  | .assign op t v _ =>
    parens (t.precedence < Precedence.call) t.text ++ " " ++ op.text ++ " "
      ++ parens (v.precedence < Precedence.assignment) v.text
  | .ternary c t e _ =>
    parens (c.precedence < Precedence.logicalOr) c.text ++ " ? "
      ++ parens (t.precedence < Precedence.assignment) t.text ++ " : "
      ++ parens (e.precedence < Precedence.assignment) e.text
  | .sequence es _ => ", ".intercalate (itemTexts es)

/-- The texts of expressions that stand between commas. -/
def Expr.itemTexts : List Expr → List String
  | [] => []
  | e :: es => parens (e.precedence < Precedence.assignment) e.text :: itemTexts es

end

/-- The text of an expression in a place that asks for at least the given precedence. -/
def Expr.textAt (e : Expr) (required : Nat) : String :=
  parens (e.precedence < required) e.text

end BranchPaint
