import BranchPaint.Proofs.Script.Map

/-!
# What trees are read back as

The canonical text of a tree stands for the tree itself, with one exception: a number that is too
large has no text of its own and is written as the name `Infinity`. `asRead` is the tree that the
canonical text stands for, moved to `Span.nowhere`. It is `eraseSpans` wherever all numbers are
finite (`Program.asRead_of_finite`).
-/

namespace BranchPaint

/-! ## Trees as their text stands for them -/

mutual

/-- The expression that the text of an expression stands for. -/
def Expr.asRead : Expr → Expr
  | .bool v _ => .bool v .nowhere
  | .num v _ => if v.isFinite then .num v .nowhere else .name "Infinity"
  | .str v _ => .str v .nowhere
  | .null _ => .null .nowhere
  | .list es _ => .list (asReadAll es) .nowhere
  | .ident n _ => .ident n .nowhere
  | .member o p true _ => .member o.asRead p.asRead true .nowhere
  | .member o p false _ => .member o.asRead p.eraseSpans false .nowhere
  | .call f as _ => .call f.asRead (asReadAll as) .nowhere
  | .binary op l r _ => .binary op l.asRead r.asRead .nowhere
  | .logical op l r _ => .logical op l.asRead r.asRead .nowhere
  | .unary op a _ => .unary op a.asRead .nowhere
  | .update op b a _ => .update op b a.asRead .nowhere
  | .assign op t v _ => .assign op t.asRead v.asRead .nowhere
  | .ternary c t e _ => .ternary c.asRead t.asRead e.asRead .nowhere
  | .sequence es _ => .sequence (asReadAll es) .nowhere

/-- The expressions that the texts of expressions stand for. -/
def Expr.asReadAll : List Expr → List Expr
  | [] => []
  | e :: es => e.asRead :: asReadAll es

end

/-- The entry that the text of an entry stands for. -/
def Declarator.asRead (d : Declarator) : Declarator := ⟨d.name, d.init.map Expr.asRead, .nowhere⟩

/-- The clause that the text of a clause stands for. -/
def ForInit.asRead : ForInit → ForInit
  | declare w ds => declare w (ds.map Declarator.asRead)
  | expr e => expr e.asRead

mutual

/-- The statement that the text of a statement stands for. -/
def Stmt.asRead : Stmt → Stmt
  | .function n ps body _ => .function n ps (asReadAll body) .nowhere
  | .declare w ds _ => .declare w (ds.map Declarator.asRead) .nowhere
  | .branch t c none _ => .branch t.asRead c.asRead none .nowhere
  | .branch t c (some a) _ => .branch t.asRead c.asRead (some a.asRead) .nowhere
  | .whileLoop t b _ => .whileLoop t.asRead b.asRead .nowhere
  | .forLoop i t u b _ => .forLoop (i.map ForInit.asRead) (t.map Expr.asRead) (u.map Expr.asRead)
    b.asRead .nowhere
  | .ret v _ => .ret (v.map Expr.asRead) .nowhere
  | .block body _ => .block (asReadAll body) .nowhere
  | .expr e _ => .expr e.asRead .nowhere
  | .breakLoop _ => .breakLoop .nowhere
  | .continueLoop _ => .continueLoop .nowhere
  | .empty _ => .empty .nowhere

/-- The statements that the texts of statements stand for. -/
def Stmt.asReadAll : List Stmt → List Stmt
  | [] => []
  | s :: ss => s.asRead :: asReadAll ss

end

/-- The program that the text of a program stands for. -/
def Program.asRead (p : Program) : Program := ⟨Stmt.asReadAll p.body, .nowhere⟩

/-- Expressions in a row are read one by one. -/
@[simp] theorem Expr.asReadAll_eq (es : List Expr) : asReadAll es = es.map asRead := by
  induction es with
  | nil => rfl
  | cons e es ih => rw [asReadAll, ih, List.map_cons]

/-- Statements in a row are read one by one. -/
@[simp] theorem Stmt.asReadAll_eq (ss : List Stmt) : asReadAll ss = ss.map asRead := by
  induction ss with
  | nil => rfl
  | cons s ss ih => rw [asReadAll, ih, List.map_cons]

/-! ## Trees as they are read are mapped -/

/-- Reading the start of a counting loop again maps its expressions. -/
theorem ForInit.asRead_eq (i : ForInit) : i.asRead = i.mapExprs Expr.asRead := by
  cases i
  all_goals rfl

mutual

/-- Reading a statement again maps its expressions. -/
theorem Stmt.asRead_eq : (s : Stmt) → s.asRead = s.mapExprs Expr.asRead
  | .function _ _ body _ | .block body _ => by rw [asRead, mapExprs, asReadAll_eq_mapExprsAll body]
  | .branch t c none _ => by rw [asRead, mapExprs, asRead_eq c]
  | .branch t c (some a) _ => by rw [asRead, mapExprs, asRead_eq c, asRead_eq a]
  | .whileLoop t body _ => by rw [asRead, mapExprs, asRead_eq body]
  | .forLoop i t u body _ => by rw [asRead, mapExprs, asRead_eq body, funext ForInit.asRead_eq]
  | .declare _ _ _ | .ret _ _ | .expr _ _ | .breakLoop _ | .continueLoop _ | .empty _ => rfl

/-- The same for statements in a row. -/
theorem Stmt.asReadAll_eq_mapExprsAll : (ss : List Stmt) → asReadAll ss = mapExprsAll Expr.asRead ss
  | [] => rfl
  | s :: ss => by rw [asReadAll, mapExprsAll, asRead_eq s, asReadAll_eq_mapExprsAll ss]

end

/-- Reading a program again maps its expressions. -/
theorem Program.asRead_eq (p : Program) : p.asRead = p.mapExprs Expr.asRead := by
  rw [asRead, mapExprs, Stmt.asReadAll_eq_mapExprsAll, Stmt.mapExprsAll_eq]

/-! ## Finite numbers -/

/-- With finite numbers, the text of an expression stands for the expression. -/
theorem Expr.asRead_of_finite {e : Expr} (h : e.Forall FiniteNumber) : e.asRead = e.eraseSpans := by
  induction e using Expr.induction with
  | step e ih =>
  have hin : ∀ c ∈ e.children, c.asRead = c.eraseSpans := fun c hc => ih c hc (h.inside c hc)
  have hhere := h.here
  clear ih h
  cases e with
  | num v s => exact if_pos hhere
  | member o p computed s =>
    cases computed
    all_goals simp_all [asRead, eraseSpans, children]
  | _ => simp_all [asRead, eraseSpans, children]

/-- With finite numbers, the text of a program stands for the program. -/
theorem Program.asRead_of_finite {p : Program} (h : p.ForallExpr Expr.FiniteNumber) :
    p.asRead = p.eraseSpans := by
  have hbody : p.body.map (Stmt.mapExprs Expr.asRead) = p.body.map
      (Stmt.mapExprs Expr.eraseSpans) :=
    List.map_congr_left fun s hs =>
      Stmt.mapExprs_congr ((h s hs).imp fun _ hexprs e he => Expr.asRead_of_finite (hexprs e he))
  rw [asRead_eq, eraseSpans_eq, mapExprs, mapExprs, hbody]

namespace Expr

/-- The operands are read again one by one. -/
theorem children_asRead (e : Expr) : e.asRead.children = e.children.map asRead := by
  cases e with
  | num v s =>
    unfold asRead
    split
    all_goals rfl
  | member o p computed s =>
    cases computed
    all_goals rfl
  | _ => simp [asRead, children]

/-- What is read again has finite numbers only. -/
theorem finiteNumber_asRead (e : Expr) : e.asRead.FiniteNumber := by
  cases e with
  | num v s =>
    unfold asRead
    split
    · assumption
    · trivial
  | member o p computed s =>
    cases computed
    all_goals trivial
  | _ => trivial

/-- What the text of an expression stands for has finite numbers only. -/
theorem finite_asRead (e : Expr) : e.asRead.Forall FiniteNumber := by
  induction e using Expr.induction with
  | step e ih =>
  refine .node e.finiteNumber_asRead ?_
  rw [children_asRead]
  exact List.forall_mem_map.2 ih

/-- Whether a number is finite does not depend on where it stands. -/
theorem finiteNumber_eraseSpans (e : Expr) : e.eraseSpans.FiniteNumber ↔ e.FiniteNumber := by
  cases e
  all_goals rfl

end Expr

/-- What was read from the text of a program has finite numbers only. -/
theorem Program.finite_of_eraseSpans_eq_asRead {p q : Program} (h : q.eraseSpans = p.asRead) :
    q.ForallExpr Expr.FiniteNumber := by
  have hread : q.eraseSpans.ForallExpr Expr.FiniteNumber := by
    rw [h, asRead_eq]
    exact List.forall_mem_map.2 fun s _ =>
      Stmt.forall_mapExprs.2 (.of_all (fun _ e _ => e.finite_asRead) s)
  rw [eraseSpans_eq] at hread
  intro s hs
  refine (Stmt.forall_mapExprs.1 (List.forall_mem_map.1 hread s hs)).imp fun _ hexprs e he => ?_
  exact (Expr.forall_eraseSpans Expr.finiteNumber_eraseSpans e).1 (hexprs e he)

end BranchPaint
