import BranchPaint.Inline.Expression

/-!
# Inlining in programs

Declarations and absorbed assignments become empty statements, which lists of statements drop. The
branches of an `if`, the rounds of a loop and the bodies of functions work on copies of the scope,
so nothing bound there is seen behind them. Inside a function its parameters stand for themselves.
Counting loops are left alone.
-/

namespace BranchPaint

/-- The scope behind a list of declared names. A name without a first value is undefined. -/
def Scope.declareAll (test : LoopTest) : List Declarator → Scope → Scope
  | [], scope => scope
  | ⟨name, some e, _⟩ :: ds, scope =>
    let (e', scope) := e.inline test scope
    declareAll test ds (scope.bind name e')
  | ⟨name, none, _⟩ :: ds, scope => declareAll test ds (scope.bind name (.name "undefined"))

mutual

/-- The statement with its bound names replaced, and the scope behind it. A loop's test is scanned
twice: as written for the stores inside the test itself, and after inlining for those in the
body. -/
def Stmt.inline (test : LoopTest) : Stmt → Scope → Stmt × Scope
  | .function n ps body s, scope =>
    (.function n ps (inlineAll .none body (scope.bindOpaque ps)).1 s, scope)
  | .declare _ ds s, scope => (.empty s, scope.declareAll test ds)
  | .expr (.assign op t v as) s, scope =>
    match Expr.inlineAssignment test op t v as scope with
    | (.kept e, scope) => (.expr e s, scope)
    | (.absorbed _, scope) => (.empty s, scope)
  | .expr e s, scope =>
    let (e', scope) := e.inline test scope
    (.expr e' s, scope)
  | .whileLoop t body s, scope =>
    let (t', inside) := t.inline (.ofExpr t) scope
    (.whileLoop t' (body.inline (.ofExpr t') inside).1 s, scope)
  | .branch t c none s, scope =>
    let (t', scope) := t.inline test scope
    (.branch t' (c.inline test scope).1 none s, scope)
  | .branch t c (some a) s, scope =>
    let (t', scope) := t.inline test scope
    (.branch t' (c.inline test scope).1 (some (a.inline test scope).1) s, scope)
  | .ret (some e) s, scope =>
    let (e', scope) := e.inline test scope
    (.ret (some e') s, scope)
  | .ret none s, scope => (.ret none s, scope)
  | .block body s, scope =>
    let (body', scope) := inlineAll test body scope
    (.block body' s, scope)
  | .forLoop i t u body s, scope => (.forLoop i t u body s, scope)
  | .breakLoop s, scope => (.breakLoop s, scope)
  | .continueLoop s, scope => (.continueLoop s, scope)
  | .empty s, scope => (.empty s, scope)

/-- The statements in order, without those that came out empty, and the scope behind them. -/
def Stmt.inlineAll (test : LoopTest) : List Stmt → Scope → List Stmt × Scope
  | [], scope => ([], scope)
  | s :: ss, scope =>
    let (s', scope) := s.inline test scope
    let (ss', scope) := inlineAll test ss scope
    (if s'.isEmpty then ss' else s' :: ss', scope)

end

/-- The program with its bindings inlined, starting from nothing bound. -/
def Program.inline (p : Program) : Program :=
  ⟨(Stmt.inlineAll .none p.body .empty).1, p.span⟩

end BranchPaint
