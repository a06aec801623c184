import BranchPaint.Script.Operator
import BranchPaint.Source.Position

/-!
# Syntax trees

Expressions, statements and programs. Every node carries the span of text it was read from; nodes
that no text stands behind have the span `Span.nowhere`. Parentheses leave no node: they only group.

Two trees that differ in their spans alone say the same. `eraseSpans` makes this precise: it moves
every node of a tree to `Span.nowhere`.
-/

namespace BranchPaint

/-- Expressions. -/
inductive Expr where
  | bool (v : Bool) (span : Span)
  | num (v : Float) (span : Span)
  | str (v : String) (span : Span)
  | null (span : Span)
  | list (elements : List Expr) (span : Span)
  | ident (name : String) (span : Span)
  /-- `object[property]` if `computed`, else `object.property`, where the property is an
  identifier. -/
  | member (object property : Expr) (computed : Bool) (span : Span)
  | call (callee : Expr) (args : List Expr) (span : Span)
  | binary (op : BinaryOp) (left right : Expr) (span : Span)
  | logical (op : LogicalOp) (left right : Expr) (span : Span)
  | unary (op : UnaryOp) (arg : Expr) (span : Span)
  /-- The operator stands in front of its operand if `before`, else behind it. -/
  | update (op : UpdateOp) (before : Bool) (arg : Expr) (span : Span)
  | assign (op : AssignOp) (target value : Expr) (span : Span)
  | ternary (condition consequent alternate : Expr) (span : Span)
  | sequence (exprs : List Expr) (span : Span)
deriving Inhabited

/-- One entry `name = init` of a declaration. -/
structure Declarator where
  name : String
  init : Option Expr
  span : Span

/-- The first clause of a counting loop. -/
inductive ForInit where
  | declare (word : DeclareWord) (declarations : List Declarator)
  | expr (expr : Expr)

/-- Statements. -/
inductive Stmt where
  | function (name : String) (params : List String) (body : List Stmt) (span : Span)
  | declare (word : DeclareWord) (declarations : List Declarator) (span : Span)
  | branch (test : Expr) (consequent : Stmt) (alternate : Option Stmt) (span : Span)
  | whileLoop (test : Expr) (body : Stmt) (span : Span)
  | forLoop (init : Option ForInit) (test update : Option Expr) (body : Stmt) (span : Span)
  | ret (value : Option Expr) (span : Span)
  | block (body : List Stmt) (span : Span)
  | expr (expr : Expr) (span : Span)
  | breakLoop (span : Span)
  | continueLoop (span : Span)
  | empty (span : Span)
deriving Inhabited

/-- A script: its statements in order. -/
structure Program where
  body : List Stmt
  span : Span
deriving Inhabited

/-! ## Spans of nodes -/

/-- The span of an expression. -/
def Expr.span : Expr → Span
  | bool _ s | num _ s | str _ s | null s | list _ s | ident _ s | member _ _ _ s | call _ _ s
  | binary _ _ _ s | logical _ _ _ s | unary _ _ s | update _ _ _ s | assign _ _ _ s
  | ternary _ _ _ s | sequence _ s => s

/-- The span of a statement. -/
def Stmt.span : Stmt → Span
  | function _ _ _ s | declare _ _ s | branch _ _ _ s | whileLoop _ _ s
  | forLoop _ _ _ _ s | ret _ s
  | block _ s | expr _ s | breakLoop s | continueLoop s | empty s => s

/-- Is this the empty statement? -/
def Stmt.isEmpty : Stmt → Bool
  | empty _ => true
  | _ => false

/-- An identifier that no text stands behind. -/
def Expr.name (n : String) : Expr := .ident n .nowhere

/-! ## Trees up to spans -/

mutual

/-- The same expression, standing nowhere. -/
def Expr.eraseSpans : Expr → Expr
  | .bool v _ => .bool v .nowhere
  | .num v _ => .num v .nowhere
  | .str v _ => .str v .nowhere
  | .null _ => .null .nowhere
  | .list es _ => .list (eraseSpansAll es) .nowhere
  | .ident n _ => .ident n .nowhere
  | .member o p c _ => .member o.eraseSpans p.eraseSpans c .nowhere
  | .call f as _ => .call f.eraseSpans (eraseSpansAll as) .nowhere
  | .binary op l r _ => .binary op l.eraseSpans r.eraseSpans .nowhere
  | .logical op l r _ => .logical op l.eraseSpans r.eraseSpans .nowhere
  | .unary op a _ => .unary op a.eraseSpans .nowhere
  | .update op b a _ => .update op b a.eraseSpans .nowhere
  | .assign op t v _ => .assign op t.eraseSpans v.eraseSpans .nowhere
  | .ternary c t e _ => .ternary c.eraseSpans t.eraseSpans e.eraseSpans .nowhere
  | .sequence es _ => .sequence (eraseSpansAll es) .nowhere

/-- The same expressions, standing nowhere. -/
def Expr.eraseSpansAll : List Expr → List Expr
  | [] => []
  | e :: es => e.eraseSpans :: eraseSpansAll es

end

/-- The same entry, standing nowhere. -/
def Declarator.eraseSpans (d : Declarator) : Declarator :=
  ⟨d.name, d.init.map Expr.eraseSpans, .nowhere⟩

/-- The same clause, standing nowhere. -/
def ForInit.eraseSpans : ForInit → ForInit
  | declare w ds => declare w (ds.map Declarator.eraseSpans)
  | expr e => expr e.eraseSpans

mutual

/-- The same statement, standing nowhere. -/
def Stmt.eraseSpans : Stmt → Stmt
  | .function n ps body _ => .function n ps (eraseSpansAll body) .nowhere
  | .declare w ds _ => .declare w (ds.map Declarator.eraseSpans) .nowhere
  | .branch t c none _ => .branch t.eraseSpans c.eraseSpans none .nowhere
  | .branch t c (some a) _ => .branch t.eraseSpans c.eraseSpans (some a.eraseSpans) .nowhere
  | .whileLoop t b _ => .whileLoop t.eraseSpans b.eraseSpans .nowhere
  | .forLoop i t u b _ =>
    .forLoop (i.map ForInit.eraseSpans) (t.map Expr.eraseSpans) (u.map Expr.eraseSpans)
      b.eraseSpans .nowhere
  | .ret v _ => .ret (v.map Expr.eraseSpans) .nowhere
  | .block body _ => .block (eraseSpansAll body) .nowhere
  | .expr e _ => .expr e.eraseSpans .nowhere
  | .breakLoop _ => .breakLoop .nowhere
  | .continueLoop _ => .continueLoop .nowhere
  | .empty _ => .empty .nowhere

/-- The same statements, standing nowhere. -/
def Stmt.eraseSpansAll : List Stmt → List Stmt
  | [] => []
  | s :: ss => s.eraseSpans :: eraseSpansAll ss

end

/-- The same program, standing nowhere. -/
def Program.eraseSpans (p : Program) : Program :=
  ⟨Stmt.eraseSpansAll p.body, .nowhere⟩

end BranchPaint
