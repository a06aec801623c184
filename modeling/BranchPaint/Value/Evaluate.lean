import BranchPaint.Inline.Scope
import BranchPaint.Value.Operator

/-!
# Evaluation

The value of an expression under bound names. Bound expressions are closed: they are evaluated with
nothing bound, so one evaluation over a table of names is all there is, used once for the bound
expressions and once for the expression itself. Calls, steps by one and assignments are refused.
-/

namespace BranchPaint

/-- What cannot be evaluated. -/
inductive Construct where
  | call
  | update
  | assignment
deriving Repr, DecidableEq

/-- The words for it. -/
def Construct.text : Construct → String
  | call => "function call"
  | update => "update expression"
  | assignment => "assignment"

/-- Why an expression has no value. -/
inductive EvalCause where
  /-- The name has no bound value. -/
  | unbound (name : String)
  /-- A member was asked of a value that has none; both by their texts. -/
  | noMember (key object : String)
  /-- The expression contains what cannot be evaluated. -/
  | unsupported (construct : Construct)
deriving Repr, DecidableEq

/-- The words for it. -/
def EvalCause.text : EvalCause → String
  | unbound name => "'" ++ name ++ "' has no bound value"
  | noMember key object => "cannot read property '" ++ key ++ "' of " ++ object
  | unsupported construct => construct.text ++ " cannot be evaluated in a branch condition"

/-- The name's own value where nothing is bound. -/
def builtinName (name : String) : Except EvalCause Value :=
  if name = "undefined" then .ok .undefined
  else if name = "NaN" then .ok (.num (0 / 0))
  else if name = "Infinity" then .ok (.num (1 / 0))
  else .error (.unbound name)

/-- The member of a value, or the reason why there is none. -/
def memberOf (object key : Value) : Except EvalCause Value :=
  match object.member? key with
  | some v => .ok v
  | none => .error (.noMember key.display object.display)

mutual

/-- The value of an expression, given the values of names. The type of a bare name that has no value
is that of `undefined`. -/
def Expr.evalWith (names : String → Except EvalCause Value) : Expr → Except EvalCause Value
  | .bool v _ => .ok (.bool v)
  | .num v _ => .ok (.num v)
  | .str v _ => .ok (.str v)
  | .null _ => .ok .null
  | .list es _ => do
    let vs ← evalAllWith names es
    pure (.list vs)
  | .ident n _ => names n
  | .member o (.ident p _) false _ => do
    let object ← o.evalWith names
    memberOf object (.str p)
  | .member o p _ _ => do
    let object ← o.evalWith names
    let key ← p.evalWith names
    memberOf object key
  | .binary op l r _ => do
    let a ← l.evalWith names
    let b ← r.evalWith names
    pure (Value.binary op a b)
  | .logical .and l r _ => do
    let a ← l.evalWith names
    if a.truthy then r.evalWith names else pure a
  | .logical .or l r _ => do
    let a ← l.evalWith names
    if a.truthy then pure a else r.evalWith names
  | .unary .typeOf (.ident n _) _ =>
    match names n with
    | .ok v => .ok (.str v.typeName)
    | .error _ => .ok (.str "undefined")
  | .unary op a _ => do
    let v ← a.evalWith names
    pure (Value.unary op v)
  | .ternary c t e _ => do
    let v ← c.evalWith names
    if v.truthy then t.evalWith names else e.evalWith names
  | .sequence es _ => do
    let vs ← evalAllWith names es
    pure (vs.getLast?.getD .undefined)
  | .call _ _ _ => .error (.unsupported .call)
  | .update _ _ _ _ => .error (.unsupported .update)
  | .assign _ _ _ _ => .error (.unsupported .assignment)

/-- The values of expressions from left to right, up to the first that has none. -/
def Expr.evalAllWith (names : String → Except EvalCause Value) :
    List Expr → Except EvalCause (List Value)
  | [] => .ok []
  | e :: es => do
    let v ← e.evalWith names
    let vs ← evalAllWith names es
    pure (v :: vs)

end

/-- The value of a name: that of the expression bound to it, evaluated with nothing bound, or its
own. -/
def Scope.value (scope : Scope) (name : String) : Except EvalCause Value :=
  match scope.lookup? name with
  | some e => e.evalWith builtinName
  | none => builtinName name

/-- The value of an expression under a scope. -/
def Expr.eval (e : Expr) (scope : Scope) : Except EvalCause Value := e.evalWith scope.value

/-- A branch that cannot be decided: why, and the line it stands on. -/
structure EvalError where
  line : Nat
  cause : EvalCause
deriving Repr, DecidableEq

/-- The words for it. -/
def EvalError.text (e : EvalError) : String :=
  "line " ++ toString e.line ++ ": " ++ e.cause.text

/-- The value of an expression for the branch on the given line. -/
def Expr.evalAt (e : Expr) (scope : Scope) (line : Nat) : Except EvalError Value :=
  (e.eval scope).mapError fun cause => ⟨line, cause⟩

end BranchPaint
