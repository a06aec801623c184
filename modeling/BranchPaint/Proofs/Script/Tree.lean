import BranchPaint.Canonical.Statement
import BranchPaint.Inline.Scope
import BranchPaint.Proofs.Grammar.Lexeme

/-!
# Conditions on all nodes of a tree

The expressions right inside an expression, the statements and expressions right inside a statement,
and what it means for a condition to hold at every node (`Expr.Forall`, `Stmt.Forall`). The name
behind a point is part of its member and no expression of its own.

`Expr.Formed` and `Stmt.Formed` are the conditions that trees read from text satisfy at each node,
as far as their types do not say it already: names are identifiers, sequences have at least two
parts, declarations at least one, and an `else` belongs to the nearest `if` that can have one.
-/

namespace BranchPaint

/-! ## Lists of nodes -/

/-- The spans of expressions in a row are erased one by one. -/
@[simp] theorem Expr.eraseSpansAll_eq (es : List Expr) :
    Expr.eraseSpansAll es = es.map Expr.eraseSpans := by
  induction es with
  | nil => rfl
  | cons e es ih => rw [Expr.eraseSpansAll, ih, List.map_cons]

/-- The spans of statements in a row are erased one by one. -/
@[simp] theorem Stmt.eraseSpansAll_eq (ss : List Stmt) :
    Stmt.eraseSpansAll ss = ss.map Stmt.eraseSpans := by
  induction ss with
  | nil => rfl
  | cons s ss ih => rw [Stmt.eraseSpansAll, ih, List.map_cons]

/-- The texts of items are those of operands. -/
theorem Expr.itemTexts_eq (es : List Expr) :
    Expr.itemTexts es = es.map (Expr.textAt · Precedence.assignment) := by
  induction es with
  | nil => rfl
  | cons e es ih => rw [Expr.itemTexts, ih, List.map_cons, Expr.textAt]

/-! ## Signs in canonical text -/

/-- Behind a unary operator stands a blank or nothing. -/
theorem UnaryOp.gap_cases (op : UnaryOp) (operand : String) :
    op.gap operand = " " ∨ op.gap operand = "" := by
  cases op with
  | typeOf => exact .inl rfl
  | not | bitNot => exact .inr rfl
  | neg | plus =>
    simp only [gap]
    split
    · exact .inl rfl
    · exact .inr rfl

/-! ## Nodes right inside a node -/

/-- The expressions right inside an expression. -/
def Expr.children : Expr → List Expr
  | .list es _ | .sequence es _ => es
  | .member o p computed _ => if computed then [o, p] else [o]
  | .call f args _ => f :: args
  | .binary _ l r _ | .logical _ l r _ | .assign _ l r _ => [l, r]
  | .unary _ a _ | .update _ _ a _ => [a]
  | .ternary c t e _ => [c, t, e]
  | .bool _ _ | .num _ _ | .str _ _ | .null _ | .ident _ _ => []

/-- Operands are smaller than the expression. -/
theorem Expr.sizeOf_children {e c : Expr} (h : c ∈ e.children) : sizeOf c < sizeOf e := by
  cases e with
  | list es _ | sequence es _ =>
    have := List.sizeOf_lt_of_mem (show c ∈ es from h)
    simp
    omega
  | member o p computed _ =>
    have hmem : c = o ∨ c = p := by
      cases computed
      · exact .inl (by simpa [children] using h)
      · simpa [children] using h
    rcases hmem with rfl | rfl
    · simp
      omega
    · simp
      omega
  | call f args _ =>
    rcases List.mem_cons.1 h with rfl | hmem
    · simp
      omega
    · have := List.sizeOf_lt_of_mem hmem
      simp
      omega
  | binary _ l r _ | logical _ l r _ | assign _ l r _ =>
    simp only [children, List.mem_cons, List.not_mem_nil, or_false] at h
    rcases h with rfl | rfl
    · simp
      omega
    · simp
      omega
  | unary _ a _ | update _ _ a _ =>
    simp only [children, List.mem_cons, List.not_mem_nil, or_false] at h
    subst h
    simp
    omega
  | ternary a t b _ =>
    simp only [children, List.mem_cons, List.not_mem_nil, or_false] at h
    rcases h with rfl | rfl | rfl
    · simp
      omega
    · simp
      omega
    · simp
      omega
  | _ => cases h

/-- What carries over from the nodes right inside to each node holds of all expressions. -/
theorem Expr.induction {motive : Expr → Prop} (step : ∀ e, (∀ c ∈ e.children, motive c) → motive e)
    (e : Expr) : motive e :=
  step e fun c h =>
    have := Expr.sizeOf_children h
    Expr.induction step c
termination_by sizeOf e

/-- The condition holds at the expression and everywhere inside it. -/
inductive Expr.Forall (P : Expr → Prop) : Expr → Prop
  | node {e : Expr} (here : P e) (inside : ∀ c ∈ e.children, Expr.Forall P c) : Expr.Forall P e

namespace Expr.Forall

variable {P Q : Expr → Prop} {e : Expr}

/-- What holds throughout holds of the expression itself. -/
theorem here (h : e.Forall P) : P e := by
  cases h with
  | node here inside => exact here

/-- It holds throughout every operand. -/
theorem inside (h : e.Forall P) : ∀ c ∈ e.children, c.Forall P := by
  cases h with
  | node here inside => exact inside

/-- What follows from it at each node holds throughout. -/
theorem imp (h : e.Forall P) (hPQ : ∀ e, P e → Q e) : e.Forall Q := by
  induction h with
  | node here inside ih => exact .node (hPQ _ here) ih

/-- Two such properties hold throughout together. -/
theorem and (hP : e.Forall P) (hQ : e.Forall Q) : e.Forall fun e => P e ∧ Q e := by
  induction hP with
  | node here inside ih => exact .node ⟨here, hQ.here⟩ fun c hc => ih c hc (hQ.inside c hc)

/-- Without operands it need only hold of the expression itself. -/
theorem leaf (h : P e) (hc : e.children = []) : e.Forall P :=
  .node h fun c hmem => by rw [hc] at hmem; cases hmem

end Expr.Forall

/-- A property holds throughout if it holds here and in the operands. -/
theorem Expr.forall_iff {P : Expr → Prop} {e : Expr} :
    e.Forall P ↔ P e ∧ ∀ c ∈ e.children, c.Forall P :=
  ⟨fun h => ⟨h.here, h.inside⟩, fun h => .node h.1 h.2⟩

mutual

/-- Does the test succeed at the expression and everywhere inside it? -/
def Expr.all (test : Expr → Bool) : Expr → Bool
  | .list es s => test (.list es s) && allOf test es
  | .sequence es s => test (.sequence es s) && allOf test es
  | .member o p true s => test (.member o p true s) && (o.all test && p.all test)
  | .member o p false s => test (.member o p false s) && o.all test
  | .call f args s => test (.call f args s) && (f.all test && allOf test args)
  | .binary op l r s => test (.binary op l r s) && (l.all test && r.all test)
  | .logical op l r s => test (.logical op l r s) && (l.all test && r.all test)
  | .assign op t v s => test (.assign op t v s) && (t.all test && v.all test)
  | .unary op a s => test (.unary op a s) && a.all test
  | .update op b a s => test (.update op b a s) && a.all test
  | .ternary c t e s => test (.ternary c t e s) && (c.all test && (t.all test && e.all test))
  | .bool v s => test (.bool v s)
  | .num v s => test (.num v s)
  | .str v s => test (.str v s)
  | .null s => test (.null s)
  | .ident n s => test (.ident n s)

/-- Does the test succeed everywhere inside the expressions? -/
def Expr.allOf (test : Expr → Bool) : List Expr → Bool
  | [] => true
  | e :: es => e.all test && allOf test es

end

/-- Expressions in a row are tested one by one. -/
theorem Expr.allOf_eq (test : Expr → Bool) (es : List Expr) :
    allOf test es = es.all (Expr.all test) := by
  induction es with
  | nil => rfl
  | cons e es ih => rw [allOf, ih, List.all_cons]

/-- An expression is tested here and in its operands. -/
theorem Expr.all_eq (test : Expr → Bool) (e : Expr) :
    e.all test = (test e && e.children.all (Expr.all test)) := by
  cases e with
  | member o p computed s =>
    cases computed
    all_goals simp [Expr.all, children]
  | _ => simp [Expr.all, children, allOf_eq]

/-- The test decides the condition. -/
theorem Expr.all_iff {P : Expr → Prop} [DecidablePred P] {e : Expr} :
    e.all (fun e => decide (P e)) = true ↔ e.Forall P := by
  induction e using Expr.induction with
  | step e ih =>
  rw [all_eq, Bool.and_eq_true, decide_eq_true_iff, List.all_eq_true]
  exact ⟨fun h => .node h.1 fun c hc => (ih c hc).1 (h.2 c hc),
    fun h => ⟨h.here, fun c hc => (ih c hc).2 (h.inside c hc)⟩⟩

instance {P : Expr → Prop} [DecidablePred P] (e : Expr) : Decidable (e.Forall P) :=
  decidable_of_iff _ Expr.all_iff

/-- The expressions right inside a declared name. -/
def Declarator.exprs (d : Declarator) : List Expr := d.init.toList

/-- The expressions right inside the first clause of a counting loop. -/
def ForInit.exprs : ForInit → List Expr
  | declare _ ds => ds.flatMap Declarator.exprs
  | expr e => [e]

/-- The expressions right inside a statement. -/
def Stmt.exprs : Stmt → List Expr
  | .declare _ ds _ => ds.flatMap Declarator.exprs
  | .branch t _ _ _ | .whileLoop t _ _ => [t]
  | .forLoop i t u _ _ => (i.toList.flatMap ForInit.exprs) ++ t.toList ++ u.toList
  | .ret v _ => v.toList
  | .expr e _ => [e]
  | .function _ _ _ _ | .block _ _ | .breakLoop _ | .continueLoop _ | .empty _ => []

/-- The statements right inside a statement. -/
def Stmt.children : Stmt → List Stmt
  | .function _ _ body _ | .block body _ => body
  | .branch _ c a _ => c :: a.toList
  | .whileLoop _ body _ | .forLoop _ _ _ body _ => [body]
  | .declare _ _ _ | .ret _ _ | .expr _ _ | .breakLoop _ | .continueLoop _ | .empty _ => []

/-- The statements inside are smaller than the statement. -/
theorem Stmt.sizeOf_children {s c : Stmt} (h : c ∈ s.children) : sizeOf c < sizeOf s := by
  cases s with
  | function _ _ body _ | block body _ =>
    have := List.sizeOf_lt_of_mem (show c ∈ body from h)
    simp
    omega
  | branch t d a _ =>
    rcases List.mem_cons.1 h with rfl | hmem
    · simp
      omega
    · cases a with
      | none => cases hmem
      | some a =>
        simp only [Option.toList, List.mem_singleton] at hmem
        subst hmem
        simp
        omega
  | whileLoop _ body _ | forLoop _ _ _ body _ =>
    simp only [children, List.mem_singleton] at h
    subst h
    simp
    omega
  | _ => cases h

/-- What carries over from the statements right inside to each statement holds of all statements. -/
theorem Stmt.induction {motive : Stmt → Prop} (step : ∀ s, (∀ c ∈ s.children, motive c) → motive s)
    (s : Stmt) : motive s :=
  step s fun c h =>
    have := Stmt.sizeOf_children h
    Stmt.induction step c
termination_by sizeOf s

/-- The condition holds at the statement and at every statement inside it. -/
inductive Stmt.Forall (P : Stmt → Prop) : Stmt → Prop
  | node {s : Stmt} (here : P s) (inside : ∀ c ∈ s.children, Stmt.Forall P c) : Stmt.Forall P s

namespace Stmt.Forall

variable {P Q : Stmt → Prop} {s : Stmt}

/-- What holds throughout holds of the statement itself. -/
theorem here (h : s.Forall P) : P s := by
  cases h with
  | node here inside => exact here

/-- It holds throughout every statement inside. -/
theorem inside (h : s.Forall P) : ∀ c ∈ s.children, c.Forall P := by
  cases h with
  | node here inside => exact inside

/-- What follows from it at each statement holds throughout. -/
theorem imp (h : s.Forall P) (hPQ : ∀ s, P s → Q s) : s.Forall Q := by
  induction h with
  | node here inside ih => exact .node (hPQ _ here) ih

/-- Two such properties hold throughout together. -/
theorem and (hP : s.Forall P) (hQ : s.Forall Q) : s.Forall fun s => P s ∧ Q s := by
  induction hP with
  | node here inside ih => exact .node ⟨here, hQ.here⟩ fun c hc => ih c hc (hQ.inside c hc)

/-- Without statements inside it need only hold of the statement itself. -/
theorem leaf (h : P s) (hc : s.children = []) : s.Forall P :=
  .node h fun c hmem => by rw [hc] at hmem; cases hmem

end Stmt.Forall

/-- A property holds throughout if it holds here and inside. -/
theorem Stmt.forall_iff {P : Stmt → Prop} {s : Stmt} :
    s.Forall P ↔ P s ∧ ∀ c ∈ s.children, c.Forall P :=
  ⟨fun h => ⟨h.here, h.inside⟩, fun h => .node h.1 h.2⟩

mutual

/-- Does the test succeed at the statement and at every statement inside it? -/
def Stmt.all (test : Stmt → Bool) : Stmt → Bool
  | .function n ps body s => test (.function n ps body s) && allOf test body
  | .block body s => test (.block body s) && allOf test body
  | .branch t c none s => test (.branch t c none s) && c.all test
  | .branch t c (some a) s => test (.branch t c (some a) s) && (c.all test && a.all test)
  | .whileLoop t body s => test (.whileLoop t body s) && body.all test
  | .forLoop i t u body s => test (.forLoop i t u body s) && body.all test
  | .declare w ds s => test (.declare w ds s)
  | .ret v s => test (.ret v s)
  | .expr e s => test (.expr e s)
  | .breakLoop s => test (.breakLoop s)
  | .continueLoop s => test (.continueLoop s)
  | .empty s => test (.empty s)

/-- Does the test succeed at every statement inside the statements? -/
def Stmt.allOf (test : Stmt → Bool) : List Stmt → Bool
  | [] => true
  | s :: ss => s.all test && allOf test ss

end

/-- Statements in a row are tested one by one. -/
theorem Stmt.allOf_eq (test : Stmt → Bool) (ss : List Stmt) :
    allOf test ss = ss.all (Stmt.all test) := by
  induction ss with
  | nil => rfl
  | cons s ss ih => rw [allOf, ih, List.all_cons]

/-- A statement is tested here and inside. -/
theorem Stmt.all_eq (test : Stmt → Bool) (s : Stmt) :
    s.all test = (test s && s.children.all (Stmt.all test)) := by
  cases s with
  | branch t c a span =>
    cases a
    all_goals simp [Stmt.all, children]
  | _ => simp [Stmt.all, children, allOf_eq]

/-- The test finds whether a property holds throughout. -/
theorem Stmt.all_iff {P : Stmt → Prop} [DecidablePred P] {s : Stmt} :
    s.all (fun s => decide (P s)) = true ↔ s.Forall P := by
  induction s using Stmt.induction with
  | step s ih =>
  rw [all_eq, Bool.and_eq_true, decide_eq_true_iff, List.all_eq_true]
  exact ⟨fun h => .node h.1 fun c hc => (ih c hc).1 (h.2 c hc),
    fun h => ⟨h.here, fun c hc => (ih c hc).2 (h.inside c hc)⟩⟩

instance {P : Stmt → Prop} [DecidablePred P] (s : Stmt) : Decidable (s.Forall P) :=
  decidable_of_iff _ Stmt.all_iff

/-- The condition holds at every expression inside the statement. -/
def Stmt.ForallExpr (P : Expr → Prop) (s : Stmt) : Prop :=
  s.Forall fun s => ∀ e ∈ s.exprs, e.Forall P

/-- Two properties of all expressions hold together. -/
theorem Stmt.ForallExpr.and {P Q : Expr → Prop} {s : Stmt} (hP : s.ForallExpr P)
    (hQ : s.ForallExpr Q) : s.ForallExpr fun e => P e ∧ Q e :=
  (Forall.and hP hQ).imp fun _ h e he => (h.1 e he).and (h.2 e he)

/-- The condition holds at every expression of the program. -/
def Program.ForallExpr (P : Expr → Prop) (p : Program) : Prop := ∀ s ∈ p.body, s.ForallExpr P

/-- What follows from a property of expressions holds of all of them too. -/
theorem Program.ForallExpr.imp {P Q : Expr → Prop} {p : Program} (h : p.ForallExpr P)
    (hPQ : ∀ e, P e → Q e) : p.ForallExpr Q :=
  fun s hs => (h s hs).imp fun _ hexprs e he => (hexprs e he).imp hPQ

instance {P : Expr → Prop} [DecidablePred P] (s : Stmt) : Decidable (s.ForallExpr P) :=
  inferInstanceAs (Decidable (s.Forall fun s => ∀ e ∈ s.exprs, e.Forall P))

instance {P : Expr → Prop} [DecidablePred P] (p : Program) : Decidable (p.ForallExpr P) :=
  inferInstanceAs (Decidable (∀ s ∈ p.body, s.ForallExpr P))

/-! ## Conditions that do not look at spans -/

/-- The spans of operands are erased one by one. -/
theorem Expr.children_eraseSpans (e : Expr) :
    e.eraseSpans.children = e.children.map Expr.eraseSpans := by
  cases e with
  | member o p computed s =>
    cases computed
    all_goals rfl
  | _ => simp [eraseSpans, children]

/-- A property that does not depend on spans holds throughout without them too. -/
theorem Expr.forall_eraseSpans {P : Expr → Prop} (hP : ∀ e, P e.eraseSpans ↔ P e) (e : Expr) :
    e.eraseSpans.Forall P ↔ e.Forall P := by
  induction e using Expr.induction with
  | step e ih =>
  constructor
  · intro h
    refine .node ((hP e).1 h.here) fun c hc => (ih c hc).1 (h.inside _ ?_)
    rw [children_eraseSpans]
    exact List.mem_map_of_mem hc
  · intro h
    refine .node ((hP e).2 h.here) fun c hc => ?_
    rw [children_eraseSpans] at hc
    obtain ⟨d, hd, rfl⟩ := List.mem_map.1 hc
    exact (ih d hd).2 (h.inside d hd)

/-- The spans of the statements inside are erased one by one. -/
theorem Stmt.children_eraseSpans (s : Stmt) :
    s.eraseSpans.children = s.children.map Stmt.eraseSpans := by
  cases s with
  | branch t c a span =>
    cases a
    all_goals rfl
  | _ => simp [eraseSpans, children]

/-- The same for properties of statements. -/
theorem Stmt.forall_eraseSpans {P : Stmt → Prop} (hP : ∀ s, P s.eraseSpans ↔ P s) (s : Stmt) :
    s.eraseSpans.Forall P ↔ s.Forall P := by
  induction s using Stmt.induction with
  | step s ih =>
  constructor
  · intro h
    refine .node ((hP s).1 h.here) fun c hc => (ih c hc).1 (h.inside _ ?_)
    rw [children_eraseSpans]
    exact List.mem_map_of_mem hc
  · intro h
    refine .node ((hP s).2 h.here) fun c hc => ?_
    rw [children_eraseSpans] at hc
    obtain ⟨d, hd, rfl⟩ := List.mem_map.1 hc
    exact (ih d hd).2 (h.inside d hd)

/-- What holds throughout statements holds throughout the same statements elsewhere. -/
theorem Stmt.forall_of_eraseSpansAll {P : Stmt → Prop} (hP : ∀ s, P s.eraseSpans ↔ P s)
    {ss ts : List Stmt} (heq : eraseSpansAll ss = eraseSpansAll ts) (h : ∀ s ∈ ss, s.Forall P) :
    ∀ s ∈ ts, s.Forall P := by
  intro t ht
  rw [eraseSpansAll_eq, eraseSpansAll_eq] at heq
  obtain ⟨s, hs, hst⟩ := List.mem_map.1 (heq ▸ List.mem_map_of_mem ht)
  rw [← forall_eraseSpans hP, ← hst, forall_eraseSpans hP]
  exact h s hs

/-! ## Where an expression stands does not change its text -/

namespace Expr

/-- How tightly an expression binds does not depend on spans. -/
theorem precedence_eraseSpans (e : Expr) : e.eraseSpans.precedence = e.precedence := by
  cases e with
  | update op before a s =>
    cases before
    all_goals rfl
  | _ => rfl

/-- Nor does whether an object needs parentheses. -/
theorem needsParensAsObject_eraseSpans (e : Expr) (computed : Bool) :
    e.eraseSpans.needsParensAsObject computed = e.needsParensAsObject computed := by
  have hprec := e.precedence_eraseSpans
  cases e with
  | num v s => rfl
  | _ => simp only [needsParensAsObject, eraseSpans] at hprec ⊢; rw [hprec]

mutual

/-- Nor does the text. -/
theorem text_eraseSpans : (e : Expr) → e.eraseSpans.text = e.text
  | .bool _ _ | .num _ _ | .str _ _ | .null _ | .ident _ _ => rfl
  | .list es _ | .sequence es _ => by simp only [eraseSpans, text, itemTexts_eraseSpans es]
  | .member o p _ _ => by
    simp only [eraseSpans, text, text_eraseSpans o, text_eraseSpans p,
      needsParensAsObject_eraseSpans, precedence_eraseSpans]
  | .call f args _ => by
    simp only [eraseSpans, text, text_eraseSpans f, itemTexts_eraseSpans args,
      precedence_eraseSpans]
  | .binary _ l r _ | .logical _ l r _ | .assign _ l r _ => by
    simp only [eraseSpans, text, text_eraseSpans l, text_eraseSpans r, precedence_eraseSpans]
  | .unary _ a _ | .update _ _ a _ => by
    simp only [eraseSpans, text, text_eraseSpans a, precedence_eraseSpans]
  | .ternary c t e _ => by
    simp only [eraseSpans, text, text_eraseSpans c, text_eraseSpans t, text_eraseSpans e,
      precedence_eraseSpans]

/-- The same for items. -/
theorem itemTexts_eraseSpans : (es : List Expr) → itemTexts (eraseSpansAll es) = itemTexts es
  | [] => rfl
  | e :: es => by
    simp only [eraseSpansAll, itemTexts, text_eraseSpans e, itemTexts_eraseSpans es,
      precedence_eraseSpans]

end

end Expr

/-! ## Branches in the order of the source -/

mutual

/-- The lines on which the branches of a statement start, in the order of the source. -/
def Stmt.branchLines : Stmt → List Nat
  | .function _ _ body _ | .block body _ => branchLinesAll body
  | .branch _ c none s => s.startLine :: c.branchLines
  | .branch _ c (some a) s => s.startLine :: (c.branchLines ++ a.branchLines)
  | .whileLoop _ body _ | .forLoop _ _ _ body _ => body.branchLines
  | .declare _ _ _ | .ret _ _ | .expr _ _ | .breakLoop _ | .continueLoop _ | .empty _ => []

/-- The lines on which the branches of statements start. -/
def Stmt.branchLinesAll : List Stmt → List Nat
  | [] => []
  | s :: ss => s.branchLines ++ branchLinesAll ss

end

/-- The lines on which the branches of a program start, in the order of the source. -/
def Program.branchLines (p : Program) : List Nat := Stmt.branchLinesAll p.body

/-! ## Trees as they are read -/

/-- A compound assignment combines with an arithmetic operator. -/
def AssignOp.Formed (op : AssignOp) : Prop := AssignOp.ofText? op.text = some op

instance (op : AssignOp) : Decidable op.Formed :=
  inferInstanceAs (Decidable (AssignOp.ofText? op.text = some op))

/-- The operators of assignments are these six. -/
theorem AssignOp.Formed.cases {op : AssignOp} (h : op.Formed) :
    op = .assign ∨ op = .compound .add ∨ op = .compound .sub ∨ op = .compound .mul ∨
      op = .compound .div ∨
      op = .compound .rem := by
  cases op with
  | assign => exact .inl rfl
  | compound b =>
    cases b with
    | add | sub | mul | div | rem => decide
    | lt | le | gt | ge | eq | ne | strictEq | strictNe => exact absurd h (by decide)

/-- A number without a sign. -/
def IsUnsigned (x : Float) : Prop :=
  ∃ bits ≤ Double.infinityBits, x = Double.ofMagnitudeBits false bits

/-- What holds at each node of an expression that was read. -/
def Expr.Formed : Expr → Prop
  | .num v _ => IsUnsigned v
  | .ident n _ => IsIdentifier n
  | .member _ p computed _ => computed = false → ∃ name s, p = .ident name s ∧ IsWord name
  | .assign op _ _ _ => op.Formed
  | .sequence es _ => 2 ≤ es.length
  | _ => True

/-- A number of the source is finite. -/
def Expr.FiniteNumber : Expr → Prop
  | .num v _ => v.isFinite
  | _ => True

instance : DecidablePred Expr.FiniteNumber := fun e =>
  match e with
  | .num v _ => inferInstanceAs (Decidable (v.isFinite = true))
  | .bool _ _ | .str _ _ | .null _ | .list _ _ | .ident _ _ | .member _ _ _ _ | .call _ _ _
  | .binary _ _ _ _
  | .logical _ _ _ _ | .unary _ _ _ | .update _ _ _ _ | .assign _ _ _ _ | .ternary _ _ _ _
  | .sequence _ _ =>
    inferInstanceAs (Decidable True)

/-- What holds at each node of an expression that can be read back. -/
def Expr.Readable (e : Expr) : Prop := e.Formed ∧ e.FiniteNumber

/-- A finite number without sign can be written as a literal. -/
theorem isLiteral_of_isUnsigned {x : Float} (h : IsUnsigned x) (hx : x.isFinite) : IsLiteral x := by
  obtain ⟨bits, hle, rfl⟩ := h
  exact ⟨bits, (Double.isFinite_ofMagnitudeBits hle).1 hx, rfl⟩

/-- A number that is too large has a name. -/
theorem numberText_of_isUnsigned {x : Float} (h : IsUnsigned x) (hx : x.isFinite = false) :
    numberText x = "Infinity" := by
  obtain ⟨bits, hle, rfl⟩ := h
  have heq : bits = Double.infinityBits := by
    by_contra hne
    rw [(Double.isFinite_ofMagnitudeBits hle).2 (Nat.lt_of_le_of_ne hle hne)] at hx
    cases hx
  unfold numberText
  rw [Double.isNaN_ofMagnitudeBits hle, Double.magnitudeBits_ofMagnitudeBits hle,
    Double.isNegative_ofMagnitudeBits hle]
  subst heq
  rfl

/-- Can an `else` behind this statement be taken for its own? -/
def Stmt.endsOpen : Stmt → Bool
  | .branch _ _ none _ => true
  | .branch _ _ (some a) _ => a.endsOpen
  | .whileLoop _ body _ | .forLoop _ _ _ body _ => body.endsOpen
  | _ => false

/-- Declared names: at least one, and each an identifier. -/
def FormedNames (ds : List Declarator) : Prop := ds ≠ [] ∧ ∀ d ∈ ds, IsIdentifier d.name

/-- What holds at each statement that was read. -/
def Stmt.Formed : Stmt → Prop
  | .function name params _ _ => IsIdentifier name ∧ ∀ p ∈ params, IsIdentifier p
  | .declare _ ds _ => FormedNames ds
  | .branch _ c a _ => a.isSome → c.endsOpen = false
  | .forLoop (some (.declare _ ds)) _ _ _ _ => FormedNames ds
  | _ => True

/-- What holds of a program that was read. -/
def Program.Formed (p : Program) : Prop := ∀ s ∈ p.body, s.Forall Stmt.Formed

end BranchPaint
