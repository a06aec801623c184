import BranchPaint.Proofs.Script.Tree

/-!
# What stands inside a program

The statements and expressions that stand anywhere in a program (`Program.HasStmt`,
`Program.HasExpr`). A condition on all nodes of a tree holds of each node that stands inside it
(`Stmt.Forall.of_inside`, `Program.ForallExpr.of_hasExpr`). As everywhere, the name behind a point
is part of its member, and no expression of its own.
-/

namespace BranchPaint

/-- The first expression is the second, or stands somewhere inside it. -/
inductive Expr.Inside : Expr → Expr → Prop
  | self {e : Expr} : Inside e e
  | child {e c d : Expr} (hc : c ∈ e.children) (h : Inside d c) : Inside d e

/-- The first statement is the second, or stands somewhere inside it. -/
inductive Stmt.Inside : Stmt → Stmt → Prop
  | self {s : Stmt} : Inside s s
  | child {s c b : Stmt} (hc : c ∈ s.children) (h : Inside b c) : Inside b s

/-- What holds throughout an expression holds throughout every expression inside it. -/
theorem Expr.Forall.of_inside {P : Expr → Prop} {d e : Expr} (he : e.Forall P) (h : d.Inside e) :
    d.Forall P := by
  induction h with
  | self => exact he
  | child hc _ ih => exact ih (he.inside _ hc)

/-- What holds throughout a statement holds throughout every statement inside it. -/
theorem Stmt.Forall.of_inside {P : Stmt → Prop} {b s : Stmt} (hs : s.Forall P) (h : b.Inside s) :
    b.Forall P := by
  induction h with
  | self => exact hs
  | child hc _ ih => exact ih (hs.inside _ hc)

namespace Program

/-- The statement stands somewhere in the program. -/
def HasStmt (p : Program) (s : Stmt) : Prop := ∃ r ∈ p.body, s.Inside r

/-- The expression stands somewhere in the program. -/
def HasExpr (p : Program) (e : Expr) : Prop := ∃ s, p.HasStmt s ∧ ∃ r ∈ s.exprs, e.Inside r

/-- Each statement of a formed program is formed. -/
theorem Formed.of_hasStmt {p : Program} (hp : p.Formed) {s : Stmt} (h : p.HasStmt s) :
    s.Formed := by
  obtain ⟨r, hr, hinside⟩ := h
  exact ((hp r hr).of_inside hinside).here

/-- What holds of all expressions of a program holds throughout each of them. -/
theorem ForallExpr.of_hasExpr {P : Expr → Prop} {p : Program} (hp : p.ForallExpr P) {e : Expr}
    (h : p.HasExpr e) : e.Forall P := by
  obtain ⟨s, ⟨r, hr, hs⟩, root, hroot, he⟩ := h
  exact (((hp r hr).of_inside hs).here root hroot).of_inside he

end Program

end BranchPaint
