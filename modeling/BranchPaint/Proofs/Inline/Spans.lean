import BranchPaint.Proofs.Inline.Node

/-!
# Inlining does not look at spans

Spans are copied, merged and carried through scopes while a program is inlined, but none of them
decides anything. Inlining a tree that stands nowhere is the same as inlining the tree and moving
the result nowhere: for expressions (`Expr.inline_eraseSpans`), where the scope moves along, for
statements (`Stmt.inline_eraseSpans`) and for programs (`Program.inline_eraseSpans`). What a loop
test watches is found in its text, and the text does not depend on where the test stands either.
-/

namespace BranchPaint

/-! ## Scopes -/

namespace Scope

/-- The same bindings, standing nowhere. -/
def eraseSpans (scope : Scope) : Scope := ⟨scope.entries.map fun x => (x.1, x.2.eraseSpans)⟩

variable (scope : Scope) (name : String)

/-- Without spans a name is bound to the same, without spans. -/
theorem lookup?_eraseSpans :
    scope.eraseSpans.lookup? name = (scope.lookup? name).map Expr.eraseSpans := by
  obtain ⟨entries⟩ := scope
  unfold lookup? eraseSpans
  induction entries with
  | nil => rfl
  | cons x entries ih =>
    rw [List.map_cons, List.lookup_cons, List.lookup_cons]
    split
    · rfl
    · exact ih

/-- So is what a name is replaced by. -/
theorem getD_eraseSpans (e : Expr) :
    (scope.eraseSpans.lookup? name).getD e.eraseSpans =
      ((scope.lookup? name).getD e).eraseSpans := by
  rw [lookup?_eraseSpans]
  cases scope.lookup? name
  all_goals rfl

/-- The element that an index picks is found by texts alone. -/
theorem element?_eraseSpans (index : String) :
    scope.eraseSpans.element? name index = (scope.element? name index).map Expr.eraseSpans := by
  unfold element?
  rw [lookup?_eraseSpans]
  cases scope.lookup? name with
  | none => rfl
  | some e =>
    cases e with
    | list es s => simp [Expr.eraseSpans, Option.map_bind]
    | _ => rfl

/-- Parameters stand for themselves without spans too. -/
theorem bindOpaque_eraseSpans (names : List String) :
    (scope.bindOpaque names).eraseSpans = scope.eraseSpans.bindOpaque names := by
  induction names generalizing scope with
  | nil => rfl
  | cons n names ih => exact ih (scope.bind n (.name n))

/-- What an assignment binds is the same without spans. -/
theorem stored_eraseSpans (op : AssignOp) (value : Expr) (s : Span) :
    scope.eraseSpans.stored name op value.eraseSpans .nowhere =
      (scope.stored name op value s).eraseSpans := by
  cases op with
  | assign => rfl
  | compound b => exact congrArg (Expr.binary b · _ _) (scope.getD_eraseSpans name (.name name))

end Scope

/-- The same outcome, standing nowhere. -/
def Assignment.eraseSpans : Assignment → Assignment
  | kept e => kept e.eraseSpans
  | absorbed e => absorbed e.eraseSpans

/-- The expression that stands for an assignment is the same without spans. -/
theorem Assignment.expr_eraseSpans (a : Assignment) : a.eraseSpans.expr = a.expr.eraseSpans := by
  cases a
  all_goals rfl

/-- Storing without spans gives the same without spans. -/
theorem Scope.store_eraseSpans (scope : Scope) (test : LoopTest) (op : AssignOp) (name : String)
    (ns : Span) (value : Expr) (s : Span) :
    scope.eraseSpans.store test op name .nowhere value.eraseSpans .nowhere =
      (scope.store test op name ns value s).map Assignment.eraseSpans Scope.eraseSpans := by
  rw [store_eq, store_eq, scope.stored_eraseSpans name op value s]
  split
  all_goals rfl

/-- What a test watches does not depend on where it stands. -/
theorem LoopTest.ofExpr_eraseSpans (e : Expr) : LoopTest.ofExpr e.eraseSpans = .ofExpr e := by
  rw [ofExpr, ofExpr, Expr.text_eraseSpans]

/-! ## Expressions -/

namespace Expr

mutual

/-- Inlining does not look at spans. -/
theorem inline_eraseSpans (test : LoopTest) : (e : Expr) → (scope : Scope) →
    e.eraseSpans.inline test scope.eraseSpans =
      (e.inline test scope).map eraseSpans Scope.eraseSpans
  | .bool _ _, scope | .num _ _, scope | .str _ _, scope | .null _, scope
  | .update _ _ _ _, scope => rfl
  | .ident n s, scope => congrArg (·, scope.eraseSpans) (scope.getD_eraseSpans n (.ident n s))
  | .list es _, scope | .sequence es _, scope => by
    simp only [eraseSpans, inline, inlineAll_eraseSpans test es scope, Prod.map]
  | .member o p false _, scope => by
    simp only [eraseSpans, inline, inline_eraseSpans test o scope, Prod.map]
  | .member o p true _, scope => by
    simp only [eraseSpans, inline, inline_eraseSpans test p scope, Prod.map, text_eraseSpans,
      Scope.element?_eraseSpans]
    cases (p.inline test scope).2.element? o.text (p.inline test scope).1.text with
    | some e => rfl
    | none => simp only [Option.map_none, inline_eraseSpans test o, Prod.map, eraseSpans]
  | .binary _ l r _, scope | .logical _ l r _, scope => by
    simp only [eraseSpans, inline, inline_eraseSpans test l scope,
      inline_eraseSpans test r, Prod.map]
  | .unary _ a _, scope => by
    simp only [eraseSpans, inline, inline_eraseSpans test a scope, Prod.map]
  | .call f args _, scope => by
    simp only [eraseSpans, inline, inline_eraseSpans test f scope,
      inlineAll_eraseSpans test args, Prod.map]
  | .ternary c t e _, scope => by
    simp only [eraseSpans, inline, inline_eraseSpans test c scope, inline_eraseSpans test t,
      inline_eraseSpans test e, Prod.map]
  | .assign op t v s, scope => by
    have hv := inline_eraseSpans test v scope
    cases t with
    | ident n ns =>
      simp only [eraseSpans, inline, hv, Prod.map, Scope.store_eraseSpans _ test op n ns _ s,
        Assignment.expr_eraseSpans]
    | member o p computed ms =>
      cases computed with
      | false => simp only [eraseSpans, inline, hv, Prod.map]
      | true => simp only [eraseSpans, inline, hv, inline_eraseSpans test p, Prod.map]
    | _ => simp only [eraseSpans, inline, hv, Prod.map]

/-- The same for expressions in a row. -/
theorem inlineAll_eraseSpans (test : LoopTest) : (es : List Expr) → (scope : Scope) →
    inlineAll test (eraseSpansAll es) scope.eraseSpans =
      (inlineAll test es scope).map eraseSpansAll Scope.eraseSpans
  | [], scope => rfl
  | e :: es, scope => by
    simp only [eraseSpansAll, inlineAll, inline_eraseSpans test e scope,
      inlineAll_eraseSpans test es, Prod.map]

end

/-- Scopes that differ in spans alone make a difference in spans alone. -/
theorem inline_of_eraseSpans (test : LoopTest) (e : Expr) {scope scope' : Scope}
    (h : scope.eraseSpans = scope'.eraseSpans) :
    (e.inline test scope).map eraseSpans Scope.eraseSpans =
      (e.inline test scope').map eraseSpans Scope.eraseSpans := by
  rw [← inline_eraseSpans, ← inline_eraseSpans, h]

mutual

/-- Spans are erased once and for all. -/
theorem eraseSpans_eraseSpans : (e : Expr) → e.eraseSpans.eraseSpans = e.eraseSpans
  | .list es _ | .sequence es _ => by simp only [eraseSpans, eraseSpansAll_eraseSpansAll es]
  | .call f args _ => by
    simp only [eraseSpans, eraseSpans_eraseSpans f, eraseSpansAll_eraseSpansAll args]
  | .member o p _ _ => by simp only [eraseSpans, eraseSpans_eraseSpans o, eraseSpans_eraseSpans p]
  | .binary _ l r _ | .logical _ l r _ => by
    simp only [eraseSpans, eraseSpans_eraseSpans l, eraseSpans_eraseSpans r]
  | .assign _ t v _ => by simp only [eraseSpans, eraseSpans_eraseSpans t, eraseSpans_eraseSpans v]
  | .unary _ a _ | .update _ _ a _ => by simp only [eraseSpans, eraseSpans_eraseSpans a]
  | .ternary c t e _ => by
    simp only [eraseSpans, eraseSpans_eraseSpans c, eraseSpans_eraseSpans t,
      eraseSpans_eraseSpans e]
  | .bool _ _ | .num _ _ | .str _ _ | .null _ | .ident _ _ => rfl

/-- The same for expressions in a row. -/
theorem eraseSpansAll_eraseSpansAll :
    (es : List Expr) → eraseSpansAll (eraseSpansAll es) = eraseSpansAll es
  | [] => rfl
  | e :: es => by simp only [eraseSpansAll, eraseSpans_eraseSpans e, eraseSpansAll_eraseSpansAll es]

end

end Expr

/-- The same in a scope. -/
theorem Scope.eraseSpans_eraseSpans (scope : Scope) :
    scope.eraseSpans.eraseSpans = scope.eraseSpans := by
  simp [eraseSpans, Expr.eraseSpans_eraseSpans]

/-! ## Statements and programs -/

/-- Declaring without spans gives the same scope without spans. -/
theorem Scope.declareAll_eraseSpans (test : LoopTest) (ds : List Declarator) (scope : Scope) :
    scope.eraseSpans.declareAll test (ds.map Declarator.eraseSpans) =
      (scope.declareAll test ds).eraseSpans := by
  induction ds generalizing scope with
  | nil => rfl
  | cons d ds ih =>
    obtain ⟨name, _ | e, span⟩ := d
    · exact ih (scope.bind name (.name "undefined"))
    · simp only [List.map_cons, Declarator.eraseSpans, Option.map_some, declareAll,
        e.inline_eraseSpans test scope, Prod.map]
      exact ih ((e.inline test scope).2.bind name (e.inline test scope).1)

/-- Whether a statement is empty does not depend on where it stands. -/
theorem Stmt.isEmpty_eraseSpans (s : Stmt) : s.eraseSpans.isEmpty = s.isEmpty := by
  cases s with
  | branch t c a span =>
    cases a
    all_goals rfl
  | _ => rfl

/-- An assignment is inlined without spans as it is with them. -/
theorem Expr.inlineAssignment_eraseSpans (test : LoopTest) (op : AssignOp) (t v : Expr) (s : Span)
    (scope : Scope) :
    inlineAssignment test op t.eraseSpans v.eraseSpans .nowhere scope.eraseSpans =
      (inlineAssignment test op t v s scope).map Assignment.eraseSpans Scope.eraseSpans := by
  have hassign := (assign op t v s).inline_eraseSpans test scope
  cases t with
  | ident n ns =>
    simp only [eraseSpans, inlineAssignment, v.inline_eraseSpans test scope, Prod.map,
      Scope.store_eraseSpans _ test op n ns _ s]
  | _ =>
    simp only [eraseSpans] at hassign ⊢
    simp only [inlineAssignment, hassign, Prod.map, Assignment.eraseSpans]

namespace Stmt

/-- The same for an assignment that stands alone. -/
theorem inline_assign_eraseSpans (test : LoopTest) (op : AssignOp) (t v : Expr) (as s : Span)
    (scope : Scope) :
    (Stmt.expr (.assign op t v as) s).eraseSpans.inline test scope.eraseSpans =
      ((Stmt.expr (.assign op t v as) s).inline test scope).map eraseSpans Scope.eraseSpans := by
  have hassign := Expr.inlineAssignment_eraseSpans test op t v as scope
  simp only [eraseSpans, Expr.eraseSpans, inline_assign, hassign, Prod.map]
  cases (Expr.inlineAssignment test op t v as scope).1
  all_goals rfl

mutual

/-- Inlining in statements does not look at spans. -/
theorem inline_eraseSpans (test : LoopTest) : (s : Stmt) → (scope : Scope) →
    s.eraseSpans.inline test scope.eraseSpans =
      (s.inline test scope).map eraseSpans Scope.eraseSpans
  | .function _ ps body _, scope => by
    simp only [eraseSpans, inline, ← Scope.bindOpaque_eraseSpans, inlineAll_eraseSpans .none body,
      Prod.map]
  | .declare _ ds _, scope => by
    simp only [eraseSpans, inline, Scope.declareAll_eraseSpans, Prod.map]
  | .expr e s, scope => by
    have he := e.inline_eraseSpans test scope
    cases e with
    | assign op t v as => exact inline_assign_eraseSpans test op t v as s scope
    | _ =>
      simp only [eraseSpans, Expr.eraseSpans] at he ⊢; simp only [inline, he, Prod.map, eraseSpans]
  | .whileLoop t body _, scope => by
    simp only [eraseSpans, inline, LoopTest.ofExpr_eraseSpans,
      t.inline_eraseSpans (.ofExpr t) scope, Prod.map, inline_eraseSpans _ body]
  | .branch t c none _, scope => by
    simp only [eraseSpans, inline, t.inline_eraseSpans test scope, Prod.map,
      inline_eraseSpans test c]
  | .branch t c (some a) _, scope => by
    simp only [eraseSpans, inline, t.inline_eraseSpans test scope, Prod.map,
      inline_eraseSpans test c, inline_eraseSpans test a]
  | .ret none _, scope => rfl
  | .ret (some e) _, scope => by
    simp only [eraseSpans, Option.map_some, inline, e.inline_eraseSpans test scope, Prod.map]
  | .block body _, scope => by
    simp only [eraseSpans, inline, inlineAll_eraseSpans test body scope, Prod.map]
  | .forLoop _ _ _ _ _, scope | .breakLoop _, scope | .continueLoop _, scope
  | .empty _, scope => rfl

/-- The same for statements in a row. -/
theorem inlineAll_eraseSpans (test : LoopTest) : (ss : List Stmt) → (scope : Scope) →
    inlineAll test (eraseSpansAll ss) scope.eraseSpans =
      (inlineAll test ss scope).map eraseSpansAll Scope.eraseSpans
  | [], scope => rfl
  | s :: ss, scope => by
    simp only [eraseSpansAll, inlineAll, inline_eraseSpans test s scope,
      inlineAll_eraseSpans test ss, Prod.map, isEmpty_eraseSpans]
    split
    all_goals rfl

end

end Stmt

/-- Inlining in programs does not look at spans. -/
theorem Program.inline_eraseSpans (p : Program) : p.eraseSpans.inline = p.inline.eraseSpans := by
  have hbody := Stmt.inlineAll_eraseSpans .none p.body .empty
  exact congrArg (fun x : List Stmt × Scope => Program.mk x.1 .nowhere) hbody

end BranchPaint
