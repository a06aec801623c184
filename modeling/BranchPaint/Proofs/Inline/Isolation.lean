import BranchPaint.Proofs.Inline.Spans

/-!
# Bindings that last

The branches of an `if`, the rounds of a loop and the bodies of functions work on copies of the
scope, so what they bind is forgotten behind them. What is left of a list of statements, as far as
scopes go, is its straight line (`Stmt.lastingAll`): the tests of its branches stand in their
places, and its loops and functions are gone. Blocks have no scope of their own, so the straight
line goes through them.

Inlining leaves the same scope behind a list as behind its straight line
(`Stmt.scope_inlineAll_lasting`). Hence statements that stand behind two lists with the same
straight line become the same, whatever their branches, loops and functions bind
(`Stmt.inlineAll_isolates_inner_scopes`).
-/

namespace BranchPaint

namespace Stmt

/-! ## Straight lines -/

mutual

/-- What a statement leaves of the straight line that it stands in. -/
def lasting : Stmt → List Stmt
  | .function _ _ _ _ | .whileLoop _ _ _ | .forLoop _ _ _ _ _ => []
  | .branch t _ _ _ => [.expr t t.span]
  | .block body s => [.block (lastingAll body) s]
  | s => [s]

/-- The straight line of a list of statements. -/
def lastingAll : List Stmt → List Stmt
  | [] => []
  | s :: ss => s.lasting ++ lastingAll ss

end

/-- An expression that stands alone leaves the scope that it would leave anywhere. -/
theorem scope_inline_expr (test : LoopTest) (e : Expr) (s : Span) (scope : Scope) :
    ((Stmt.expr e s).inline test scope).2 = (e.inline test scope).2 := by
  cases e with
  | assign op t v as => rw [inline_assign, ← Expr.inlineAssignment_expr]
  | _ => rfl

mutual

/-- What lasts of a statement leaves the scope that the statement leaves. -/
theorem scope_inlineAll_lasting_one (test : LoopTest) : (s : Stmt) → (scope : Scope) →
    (inlineAll test s.lasting scope).2 = (s.inline test scope).2
  | .function _ _ _ _, _ | .whileLoop _ _ _, _ | .forLoop _ _ _ _ _, _ => rfl
  -- only the test works on the scope itself
  | .branch t _ none _, scope | .branch t _ (some _) _, scope =>
    scope_inline_expr test t t.span scope
  | .block body _, scope => scope_inlineAll_lasting test body scope
  | .declare _ _ _, _ | .expr _ _, _ | .ret _ _, _ | .breakLoop _, _ | .continueLoop _, _
  | .empty _, _ => rfl

/-- A list of statements leaves the scope that its straight line leaves. -/
theorem scope_inlineAll_lasting (test : LoopTest) : (ss : List Stmt) → (scope : Scope) →
    (inlineAll test (lastingAll ss) scope).2 = (inlineAll test ss scope).2
  | [], _ => rfl
  | s :: ss, scope => by
    rw [lastingAll, inlineAll_append, scope_inlineAll_lasting_one test s scope]
    exact scope_inlineAll_lasting test ss (s.inline test scope).2

end

/-! ## Two lists -/

/-- Scopes that differ in spans alone make a difference in spans alone. -/
theorem inlineAll_of_eraseSpans (test : LoopTest) (ss : List Stmt) {scope scope' : Scope}
    (h : scope.eraseSpans = scope'.eraseSpans) :
    (inlineAll test ss scope).map eraseSpansAll Scope.eraseSpans =
      (inlineAll test ss scope').map eraseSpansAll Scope.eraseSpans := by
  rw [← inlineAll_eraseSpans, ← inlineAll_eraseSpans, h]

/-- Lists whose straight lines differ in spans alone leave scopes that differ in spans alone. -/
theorem scope_inlineAll_of_eraseSpans (test : LoopTest) {xs ys : List Stmt}
    (h : eraseSpansAll (lastingAll xs) = eraseSpansAll (lastingAll ys)) (scope : Scope) :
    (inlineAll test xs scope).2.eraseSpans = (inlineAll test ys scope).2.eraseSpans := by
  have herased (zs : List Stmt) :
      (inlineAll test (eraseSpansAll (lastingAll zs)) scope.eraseSpans).2 =
      (inlineAll test zs scope).2.eraseSpans := by
    rw [inlineAll_eraseSpans, ← scope_inlineAll_lasting test zs scope]
    rfl
  rw [← herased xs, ← herased ys, h]

/-- Nothing that is bound inside of branches, loops and functions is seen behind them. A list of
statements leaves the scope that its straight line leaves. So if two lists differ only in the
branches of their `if` statements and in their loops and functions, then what stands behind them
becomes the same, and the scope in the end is the same; and if they differ in spans too, then so do
the outcomes, and in nothing else. -/
theorem inlineAll_isolates_inner_scopes (test : LoopTest) (scope : Scope) :
    (∀ ss, (inlineAll test ss scope).2 = (inlineAll test (lastingAll ss) scope).2) ∧
    (∀ xs ys, lastingAll xs = lastingAll ys → ∀ rest, ∃ rest' after,
      inlineAll test (xs ++ rest) scope = ((inlineAll test xs scope).1 ++ rest', after) ∧
      inlineAll test (ys ++ rest) scope = ((inlineAll test ys scope).1 ++ rest', after)) ∧
    (∀ xs ys, eraseSpansAll (lastingAll xs) = eraseSpansAll (lastingAll ys) →
      ∀ rest, ∃ rest₁ rest₂ after₁ after₂,
      inlineAll test (xs ++ rest) scope = ((inlineAll test xs scope).1 ++ rest₁, after₁) ∧
      inlineAll test (ys ++ rest) scope = ((inlineAll test ys scope).1 ++ rest₂, after₂) ∧
      eraseSpansAll rest₁ = eraseSpansAll rest₂ ∧ after₁.eraseSpans = after₂.eraseSpans) := by
  refine ⟨fun ss => (scope_inlineAll_lasting test ss scope).symm, fun xs ys hline rest => ?_,
    fun xs ys hline rest => ?_⟩
  · have hscope : (inlineAll test xs scope).2 = (inlineAll test ys scope).2 := by
      rw [← scope_inlineAll_lasting test xs, ← scope_inlineAll_lasting test ys, hline]
    refine ⟨_, _, inlineAll_append test xs rest scope, ?_⟩
    rw [inlineAll_append, hscope]
  · have hrest := inlineAll_of_eraseSpans test rest (scope_inlineAll_of_eraseSpans test hline scope)
    obtain ⟨hrest, hafter⟩ := Prod.mk.inj hrest
    exact ⟨_, _, _, _, inlineAll_append test xs rest scope, inlineAll_append test ys rest scope,
      hrest, hafter⟩

/-- The texts `{ if (a = x) b = x; } while (b) b = x;` and `function f(a) { b = x; } { if (a = x) ;
else b = y; }`. Behind both, `return [a, b];` becomes `return [x, b];`. -/
theorem inlineAll_isolates_inner_scopes_sample :
    let var (n : String) : Expr := .name n
    let store (n m : String) : Expr := .assign .assign (var n) (var m) .nowhere
    let stmt (n m : String) : Stmt := .expr (store n m) .nowhere
    let xs : List Stmt := [.block [.branch (store "a" "x") (stmt "b" "x") none .nowhere] .nowhere,
      .whileLoop (var "b") (stmt "b" "x") .nowhere]
    let ys : List Stmt := [.function "f" ["a"] [stmt "b" "x"] .nowhere,
      .block [.branch (store "a" "x") (.empty .nowhere) (some (stmt "b" "y")) .nowhere] .nowhere]
    let rest : List Stmt := [.ret (some (.list [var "a", var "b"] .nowhere)) .nowhere]
    let rest' : List Stmt := [.ret (some (.list [var "x", var "b"] .nowhere)) .nowhere]
    lastingAll xs = lastingAll ys ∧
      (inlineAll .none (xs ++ rest) .empty).1 = (inlineAll .none xs .empty).1 ++ rest' ∧
      (inlineAll .none (ys ++ rest) .empty).1 = (inlineAll .none ys .empty).1 ++ rest' := by
  intro var store stmt xs ys rest rest'
  have hline : lastingAll xs = lastingAll ys := rfl
  obtain ⟨out, after, hxs, hys⟩ :=
    (inlineAll_isolates_inner_scopes .none .empty).2.1 xs ys hline rest
  have hfirst : (inlineAll .none (xs ++ rest) .empty).1 = (inlineAll .none xs .empty).1 ++ rest' :=
    rfl
  have hout : out = rest' := List.append_cancel_left ((congrArg Prod.fst hxs).symm.trans hfirst)
  exact ⟨hline, hfirst, by rw [hys, hout]⟩

end Stmt

end BranchPaint
