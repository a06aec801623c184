import BranchPaint.Inline.LoopTest
import BranchPaint.Inline.Scope

/-!
# Inlining in expressions

Every bound name is replaced by what it is bound to, from left to right. An assignment to a name
binds it on the way, so operands further right see the new value; it leaves the value behind, and
the store too if the loop test watches the name. Stores into members stay and bind nothing, and
steps by one are left alone, since their operand has to stay assignable.
-/

namespace BranchPaint

/-- What becomes of an assignment. -/
inductive Assignment where
  /-- The store stays. -/
  | kept (e : Expr)
  /-- The store is gone; its value is `e`. -/
  | absorbed (e : Expr)

/-- The expression that stands for the assignment. -/
def Assignment.expr : Assignment → Expr
  | kept e | absorbed e => e

/-- Binds `name` to the value of an assignment. A compound assignment combines it with what the name
stands for so far, which is the name itself if it is not bound. -/
def Scope.store (scope : Scope) (test : LoopTest) (op : AssignOp) (name : String) (nameSpan : Span)
    (value : Expr) (span : Span) : Assignment × Scope :=
  let bound :=
    match op with
    | .assign => value
    | .compound b => .binary b ((scope.lookup? name).getD (.name name)) value span
  let after := scope.bind name bound
  if test.observes name then (.kept (.assign op (.ident name nameSpan) value span), after)
  else (.absorbed bound, after)

mutual

/-- The expression with its bound names replaced, and the scope behind it. An index into a list that
a name is bound to picks the element; the index is done before the object. -/
def Expr.inline (test : LoopTest) : Expr → Scope → Expr × Scope
  | .ident n s, scope => ((scope.lookup? n).getD (.ident n s), scope)
  | .member o p false s, scope =>
    let (o', scope) := o.inline test scope
    (.member o' p false s, scope)
  | .member o p true s, scope =>
    let (p', scope) := p.inline test scope
    match scope.element? o.text p'.text with
    | some e => (e, scope)
    | none =>
      let (o', scope) := o.inline test scope
      (.member o' p' true s, scope)
  | .binary op l r s, scope =>
    let (l', scope) := l.inline test scope
    let (r', scope) := r.inline test scope
    (.binary op l' r' s, scope)
  | .logical op l r s, scope =>
    let (l', scope) := l.inline test scope
    let (r', scope) := r.inline test scope
    (.logical op l' r' s, scope)
  | .unary op a s, scope =>
    let (a', scope) := a.inline test scope
    (.unary op a' s, scope)
  | .list es s, scope =>
    let (es', scope) := inlineAll test es scope
    (.list es' s, scope)
  | .call f args s, scope =>
    let (f', scope) := f.inline test scope
    let (args', scope) := inlineAll test args scope
    (.call f' args' s, scope)
  | .ternary c t e s, scope =>
    let (c', scope) := c.inline test scope
    let (t', scope) := t.inline test scope
    let (e', scope) := e.inline test scope
    (.ternary c' t' e' s, scope)
  | .sequence es s, scope =>
    let (es', scope) := inlineAll test es scope
    (.sequence es' s, scope)
  | .assign op (.ident n ns) v s, scope =>
    let (v', scope) := v.inline test scope
    let (a, scope) := scope.store test op n ns v' s
    (a.expr, scope)
  | .assign op (.member o p true ms) v s, scope =>
    let (v', scope) := v.inline test scope
    let (p', scope) := p.inline test scope
    (.assign op (.member o p' true ms) v' s, scope)
  | .assign op t v s, scope =>
    let (v', scope) := v.inline test scope
    (.assign op t v' s, scope)
  | .update op b a s, scope => (.update op b a s, scope)
  | .bool v s, scope => (.bool v s, scope)
  | .num v s, scope => (.num v s, scope)
  | .str v s, scope => (.str v s, scope)
  | .null s, scope => (.null s, scope)

/-- The expressions one after the other, each in the scope that the one before leaves. -/
def Expr.inlineAll (test : LoopTest) : List Expr → Scope → List Expr × Scope
  | [], scope => ([], scope)
  | e :: es, scope =>
    let (e', scope) := e.inline test scope
    let (es', scope) := inlineAll test es scope
    (e' :: es', scope)

end

/-- An assignment that stands alone: what becomes of it, and the scope behind it. -/
def Expr.inlineAssignment (test : LoopTest) (op : AssignOp) (target value : Expr) (span : Span)
    (scope : Scope) : Assignment × Scope :=
  match target with
  | .ident n ns =>
    let (v, scope) := value.inline test scope
    scope.store test op n ns v span
  | t =>
    let (e, scope) := (Expr.assign op t value span).inline test scope
    (.kept e, scope)

end BranchPaint
