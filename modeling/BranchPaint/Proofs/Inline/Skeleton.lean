import BranchPaint.Proofs.Inline.Node

/-!
# The statements that inlining leaves

Inlining changes expressions, but of the statements around them it removes a few kinds only
(`Stmt.vanishes`): empty statements, declarations, and assignments to names that the innermost loop
does not watch. What remains of a statement (`Stmt.Remains`) is the same kind of statement in the
same place; lists lose the others, and where a branch or a loop has nothing else for its body, an
empty statement takes its place. Counting loops remain as they are, with all that is in them.

The relation leaves open what becomes of expressions, but for one thing: which stores in the body of
a loop vanish is decided by the test that remains of the loop and not by the one that was written.
-/

namespace BranchPaint

namespace Stmt

/-! ## What remains of a statement -/

/-- Does nothing remain of the statement, if the innermost loop of the same function has the given
test? -/
def vanishes (test : LoopTest) : Stmt → Bool
  | .empty _ | .declare _ _ _ => true
  | .expr (.assign _ (.ident n _) _ _) _ => !test.observes n
  | _ => false

mutual

/-- What remains of a statement, up to expressions. A function is outside of the loops around it,
and a loop takes the place of the loop around it; branches and blocks hand on the test that they
stand under. -/
inductive Remains : LoopTest → Stmt → Stmt → Prop
  | nothing {test : LoopTest} {s : Stmt} (h : s.vanishes test = true) :
      Remains test s (.empty s.span)
  | function {test : LoopTest} {f : String} {ps : List String} {body body' : List Stmt} {s : Span}
      (h : RemainsAll .none body body') : Remains test (.function f ps body s)
      (.function f ps body' s)
  | branch {test : LoopTest} {t t' : Expr} {c c' : Stmt} {s : Span} (hc : Remains test c c') :
      Remains test (.branch t c none s) (.branch t' c' none s)
  | branchElse {test : LoopTest} {t t' : Expr} {c c' a a' : Stmt} {s : Span}
      (hc : Remains test c c') (ha : Remains test a a') : Remains test (.branch t c (some a) s)
      (.branch t' c' (some a') s)
  | whileLoop {test : LoopTest} {t : Expr} {body body' : Stmt} {s : Span} (scope : Scope)
      (h : Remains (.ofExpr (t.inline (.ofExpr t) scope).1) body body') :
      Remains test (.whileLoop t body s) (.whileLoop (t.inline (.ofExpr t) scope).1 body' s)
  | forLoop {test : LoopTest} {i : Option ForInit} {t u : Option Expr} {body : Stmt} {s : Span} :
      Remains test (.forLoop i t u body s) (.forLoop i t u body s)
  | ret {test : LoopTest} {s : Span} : Remains test (.ret none s) (.ret none s)
  | retValue {test : LoopTest} {e e' : Expr} {s : Span} : Remains test (.ret (some e) s)
      (.ret (some e') s)
  | block {test : LoopTest} {body body' : List Stmt} {s : Span} (h : RemainsAll test body body') :
      Remains test (.block body s) (.block body' s)
  /-- An assignment that remains is still an assignment. -/
  | expr {test : LoopTest} {e e' : Expr} {s : Span} (h : (Stmt.expr e s).vanishes test = false)
      (hassign : ∀ op t v as, e = .assign op t v as → ∃ t' v', e' = .assign op t' v' as) :
      Remains test (.expr e s) (.expr e' s)
  | breakLoop {test : LoopTest} {s : Span} : Remains test (.breakLoop s) (.breakLoop s)
  | continueLoop {test : LoopTest} {s : Span} : Remains test (.continueLoop s) (.continueLoop s)

/-- What remains of a list of statements: what remains of those that do not vanish, in the same
order. -/
inductive RemainsAll : LoopTest → List Stmt → List Stmt → Prop
  | nil {test : LoopTest} : RemainsAll test [] []
  | gone {test : LoopTest} {s : Stmt} {ss ss' : List Stmt} (h : s.vanishes test = true)
      (hss : RemainsAll test ss ss') : RemainsAll test (s :: ss) ss'
  | kept {test : LoopTest} {s s' : Stmt} {ss ss' : List Stmt} (h : s.vanishes test = false)
      (hs : Remains test s s') (hss : RemainsAll test ss ss') :
      RemainsAll test (s :: ss) (s' :: ss')

end

/-- What remains is empty if and only if the statement vanishes. -/
theorem Remains.isEmpty_eq {test : LoopTest} {s s' : Stmt} (h : Remains test s s') :
    s'.isEmpty = s.vanishes test := by
  cases h with
  | nothing h => exact h.symm
  | expr h hassign => exact h.symm
  | _ => rfl

/-! ## Inlining -/

/-- A store into anything but a name remains. -/
theorem exists_inline_assign {t : Expr} (ht : ∀ n ns, t ≠ .ident n ns) (test : LoopTest)
    (op : AssignOp) (v : Expr) (as s : Span) (scope : Scope) :
    ∃ t' v', ((Stmt.expr (.assign op t v as) s).inline test scope).1 =
      .expr (.assign op t' v' as) s := by
  cases t with
  | ident n ns => exact absurd rfl (ht n ns)
  | member o p computed ms =>
    cases computed
    all_goals exact ⟨_, _, rfl⟩
  | _ => exact ⟨_, _, rfl⟩

/-- An assignment to anything but a name stays. -/
theorem vanishes_assign {t : Expr} (ht : ∀ n ns, t ≠ .ident n ns) (test : LoopTest) (op : AssignOp)
    (v : Expr) (as s : Span) : (Stmt.expr (.assign op t v as) s).vanishes test = false := by
  cases t with
  | ident n ns => exact absurd rfl (ht n ns)
  | _ => rfl

/-- An assignment that stays. -/
theorem Remains.assign {test : LoopTest} {op : AssignOp} {t v : Expr} {as s : Span}
    (h : (Stmt.expr (.assign op t v as) s).vanishes test = false) (t' v' : Expr) :
    Remains test (.expr (.assign op t v as) s) (.expr (.assign op t' v' as) s) := by
  refine .expr h fun op' t'' v'' as' heq => ?_
  cases heq
  exact ⟨t', v', rfl⟩

/-- What inlining makes of an assignment that stands alone. -/
theorem inline_assign_remains (test : LoopTest) (op : AssignOp) (t v : Expr) (as s : Span)
    (scope : Scope) :
    Remains test (.expr (.assign op t v as) s)
      ((Stmt.expr (.assign op t v as) s).inline test scope).1 := by
  by_cases hname : ∃ n ns, t = .ident n ns
  · obtain ⟨n, ns, rfl⟩ := hname
    rw [inline_assign_name]
    cases hwatched : test.observes n with
    | true => exact .assign (by simp [vanishes, hwatched]) _ _
    | false => exact .nothing (by simp [vanishes, hwatched])
  · have ht : ∀ n ns, t ≠ .ident n ns := fun n ns heq => hname ⟨n, ns, heq⟩
    obtain ⟨t', v', hinline⟩ := exists_inline_assign ht test op v as s scope
    rw [hinline]
    exact .assign (vanishes_assign ht test op v as s) t' v'

mutual

/-- What inlining makes of a statement is what remains of it. -/
theorem inline_remains (test : LoopTest) :
    (s : Stmt) → (scope : Scope) → Remains test s (s.inline test scope).1
  | .function _ ps body _, scope => .function (inlineAll_remains .none body (scope.bindOpaque ps))
  | .declare _ _ _, _ | .empty _, _ => .nothing rfl
  | .expr e s, scope => by
    cases e with
    | assign op t v as => exact inline_assign_remains test op t v as s scope
    | _ => exact .expr rfl fun _ _ _ _ heq => nomatch heq
  | .whileLoop t body _, scope =>
    .whileLoop scope (inline_remains _ body (t.inline (.ofExpr t) scope).2)
  | .branch t c none _, scope => .branch (inline_remains test c (t.inline test scope).2)
  | .branch t c (some a) _, scope =>
    .branchElse (inline_remains test c (t.inline test scope).2)
      (inline_remains test a (t.inline test scope).2)
  | .ret none _, _ => .ret
  | .ret (some _) _, _ => .retValue
  | .block body _, scope => .block (inlineAll_remains test body scope)
  | .forLoop _ _ _ _ _, _ => .forLoop
  | .breakLoop _, _ => .breakLoop
  | .continueLoop _, _ => .continueLoop

/-- The same for statements in a row. -/
theorem inlineAll_remains (test : LoopTest) :
    (ss : List Stmt) → (scope : Scope) → RemainsAll test ss (inlineAll test ss scope).1
  | [], _ => .nil
  | s :: ss, scope => by
    have hs := inline_remains test s scope
    have hss := inlineAll_remains test ss (s.inline test scope).2
    have hempty := hs.isEmpty_eq
    simp only [inlineAll]
    cases hvanishes : s.vanishes test with
    | true =>
      rw [hvanishes] at hempty
      rw [if_pos hempty]
      exact .gone hvanishes hss
    | false =>
      rw [hvanishes] at hempty
      rw [if_neg (by simp [hempty])]
      exact .kept hvanishes hs hss

end

end Stmt

/-- Inlining removes from a program the empty statements, the declarations, and the assignments to
names that the innermost loop of the same function does not watch; where one of these is all that a
branch or a loop has for its body, an empty statement takes its place. Counting loops are left as
they are, and all other statements stay, in order and with their spans. -/
theorem Program.inline_keeps_statements (p : Program) :
    Stmt.RemainsAll .none p.body p.inline.body ∧ p.inline.span = p.span :=
  ⟨Stmt.inlineAll_remains .none p.body .empty, rfl⟩

end BranchPaint
