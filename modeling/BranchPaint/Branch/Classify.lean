import BranchPaint.Branch.LineSet
import BranchPaint.Value.Evaluate

/-!
# Classifying branches

A walk through a program, depth first and in order. Each function takes values for its parameters
from the front of those that are left; each branch is decided under the parameters bound so far, and
its line marked. A branch that is taken rules out the whole chain of alternatives behind its `else`,
whatever their own tests say, and in the end a line that is ruled out anywhere is not taken.
-/

namespace BranchPaint

/-- The lines of the branches that were decided. -/
structure Classification where
  taken : LineSet
  notTaken : LineSet

/-- What a single line is. -/
inductive LineState where
  | taken
  | notTaken
  | plain
deriving Repr, DecidableEq

/-- What a line is under a classification. -/
def Classification.lineState (c : Classification) (line : Nat) : LineState :=
  if c.taken.contains line then .taken else if c.notTaken.contains line then .notTaken else .plain

/-- The state of a walk: the values still to be given out, the parameters bound so far, and the
lines marked. -/
structure Walk where
  values : List Expr
  scope : Scope
  taken : LineSet
  notTaken : LineSet

namespace Walk

/-- The start of a walk. -/
def start (values : List Expr) : Walk := ⟨values, .empty, .empty, .empty⟩

/-- Gives out values to parameters, in order. A parameter that comes too late keeps what its name is
bound to, if anything. -/
def bindParams : List String → Walk → Walk
  | [], w => w
  | p :: ps, w =>
    match w.values with
    | v :: vs => bindParams ps { w with values := vs, scope := w.scope.bind p v }
    | [] => bindParams ps w

end Walk

/-- The lines of the branches in a chain of `else if`, starting with this statement. -/
def Stmt.chainLines : Stmt → List Nat
  | .branch _ _ none s => [s.startLine]
  | .branch _ _ (some a) s => s.startLine :: a.chainLines
  | _ => []

/-- The lines that a taken branch rules out: the chain behind its `else`. -/
def ruledOut : Option Stmt → List Nat
  | some a => a.chainLines
  | none => []

/-- Marks the line of a decided branch, and the lines it rules out. -/
def Walk.mark (w : Walk) (line : Nat) (taken : Bool) (alternate : Option Stmt) : Walk :=
  if taken then
    { w with
      taken := w.taken.insert line
      notTaken := w.notTaken.insertAll (ruledOut alternate) }
  else { w with notTaken := w.notTaken.insert line }

mutual

/-- Walks through one statement. -/
def Stmt.walk : Stmt → Walk → Except EvalError Walk
  | .function _ ps body _, w => walkAll body (w.bindParams ps)
  | .branch t c none s, w => do
    let v ← t.evalAt w.scope s.startLine
    c.walk (w.mark s.startLine v.truthy none)
  | .branch t c (some a) s, w => do
    let v ← t.evalAt w.scope s.startLine
    let w ← c.walk (w.mark s.startLine v.truthy (some a))
    a.walk w
  | .whileLoop _ body _, w => body.walk w
  | .forLoop _ _ _ body _, w => body.walk w
  | .block body _, w => walkAll body w
  | .declare _ _ _, w | .ret _ _, w | .expr _ _, w | .breakLoop _, w | .continueLoop _, w
  | .empty _, w => .ok w

/-- Walks through statements in order. -/
def Stmt.walkAll : List Stmt → Walk → Except EvalError Walk
  | [], w => .ok w
  | s :: ss, w => do
    let w ← s.walk w
    walkAll ss w

end

/-- Decides every branch of a program under the given parameter values. -/
def Program.classify (p : Program) (values : List Expr) : Except EvalError Classification := do
  let w ← Stmt.walkAll p.body (.start values)
  pure ⟨w.taken.diff w.notTaken, w.notTaken⟩

end BranchPaint
