import BranchPaint.Inline.Statement
import BranchPaint.Proofs.Inline.Scope
import BranchPaint.Proofs.Script.Tree

/-!
# Conditions on nodes that inlining keeps

Inlining changes what stands inside a node, but hardly the node itself. So a condition that looks at
nodes only (`Expr.Inlinable`) holds everywhere in the inlined expression if it holds everywhere in
the expression and in what the scope binds (`Expr.inline_forall`), and likewise for statements and
programs. Every expression that inlining puts in place of a name comes out of the scope, and each
step of inlining keeps the condition there (`Scope.Forall`).
-/

namespace BranchPaint

/-- The same node, apart from what stands inside it and from where it stands. -/
inductive Expr.SameNode : Expr → Expr → Prop
  | list {es fs : List Expr} {s s' : Span} (h : fs.length = es.length) :
      SameNode (.list es s) (.list fs s')
  | sequence {es fs : List Expr} {s s' : Span} (h : fs.length = es.length) :
      SameNode (.sequence es s) (.sequence fs s')
  | ident {n : String} {s s' : Span} : SameNode (.ident n s) (.ident n s')
  | dotted {o o' p : Expr} {s s' : Span} : SameNode (.member o p false s) (.member o' p false s')
  | computed {o o' p p' : Expr} {s s' : Span} : SameNode (.member o p true s)
      (.member o' p' true s')
  | call {f f' : Expr} {as as' : List Expr} {s s' : Span} : SameNode (.call f as s)
      (.call f' as' s')
  | binary {op : BinaryOp} {l l' r r' : Expr} {s s' : Span} : SameNode (.binary op l r s)
      (.binary op l' r' s')
  | logical {op : LogicalOp} {l l' r r' : Expr} {s s' : Span} : SameNode (.logical op l r s)
      (.logical op l' r' s')
  | unary {op : UnaryOp} {a a' : Expr} {s s' : Span} : SameNode (.unary op a s) (.unary op a' s')
  | assign {op : AssignOp} {t t' v v' : Expr} {s s' : Span} : SameNode (.assign op t v s)
      (.assign op t' v' s')
  | ternary {c c' t t' e e' : Expr} {s s' : Span} : SameNode (.ternary c t e s)
      (.ternary c' t' e' s')

/-- A condition that looks at nodes only, and that the nodes satisfy which inlining makes: the
operators that compound assignments leave behind, and the name of what is not defined. -/
structure Expr.Inlinable (P : Expr → Prop) : Prop where
  same {e e' : Expr} : Expr.SameNode e e' → P e → P e'
  binary (op : BinaryOp) (l r : Expr) (s : Span) : P (.binary op l r s)
  undefined : P (.name "undefined")

/-- What inlining keeps can be joined. -/
theorem Expr.Inlinable.and {P Q : Expr → Prop} (hP : Inlinable P) (hQ : Inlinable Q) :
    Inlinable fun e => P e ∧ Q e where
  same h he := ⟨hP.same h he.1, hQ.same h he.2⟩
  binary op l r s := ⟨hP.binary op l r s, hQ.binary op l r s⟩
  undefined := ⟨hP.undefined, hQ.undefined⟩

/-- The condition holds everywhere in what is bound. -/
def Scope.Forall (P : Expr → Prop) (scope : Scope) : Prop := ∀ x ∈ scope.entries, x.2.Forall P

/-- A name that is found is among the entries. -/
theorem Scope.mem_entries_of_lookup? {scope : Scope} {n : String} {e : Expr}
    (h : scope.lookup? n = some e) : (n, e) ∈ scope.entries := by
  unfold lookup? at h
  obtain ⟨l, r, heq, -⟩ := List.lookup_eq_some_iff.1 h
  rw [heq]
  exact List.mem_append_right l List.mem_cons_self

namespace Scope.Forall

variable {P : Expr → Prop} {scope : Scope} {name : String} {e : Expr}

/-- In the empty scope nothing is bound. -/
theorem empty : Scope.empty.Forall P := fun _ hx => absurd hx List.not_mem_nil

/-- Binding an expression throughout which the property holds keeps it. -/
theorem bind (h : scope.Forall P) (name : String) (he : e.Forall P) :
    (scope.bind name e).Forall P :=
  List.forall_mem_cons.2 ⟨he, h⟩

/-- The property holds throughout what a name is bound to. -/
theorem lookup? (h : scope.Forall P) (hlookup : scope.lookup? name = some e) : e.Forall P :=
  h (name, e) (mem_entries_of_lookup? hlookup)

/-- It holds throughout what a name is replaced by. -/
theorem getD (h : scope.Forall P) (he : e.Forall P) (name : String) :
    ((scope.lookup? name).getD e).Forall P := by
  cases hlookup : scope.lookup? name with
  | none => exact he
  | some f => exact h.lookup? hlookup

/-- It holds throughout an element that is picked. -/
theorem element? {index : String} (h : scope.Forall P)
    (helement : scope.element? name index = some e) : e.Forall P := by
  obtain ⟨es, s, i, hlookup, -, hi⟩ := element?_eq_some helement
  exact (h.lookup? hlookup).inside e (List.mem_of_getElem? hi)

/-- Parameters may stand for themselves. -/
theorem bindOpaque (h : scope.Forall P) {names : List String} (hnames : ∀ n ∈ names, P (.name n)) :
    (scope.bindOpaque names).Forall P := by
  induction names generalizing scope with
  | nil => exact h
  | cons n names ih =>
    obtain ⟨hn, hnames⟩ := List.forall_mem_cons.1 hnames
    exact ih (h.bind n (.leaf hn rfl)) hnames

/-- It holds throughout what an assignment binds. -/
theorem stored (hP : Expr.Inlinable P) (h : scope.Forall P) {op : AssignOp} {span : Span}
    {value : Expr} (hvalue : value.Forall P) (hname : P (.name name)) :
    (scope.stored name op value span).Forall P := by
  cases op with
  | assign => exact hvalue
  | compound b =>
    exact .node (hP.binary b _ _ span)
      (List.forall_mem_cons.2 ⟨h.getD (.leaf hname rfl) name, List.forall_mem_singleton.2 hvalue⟩)

/-- It holds throughout what becomes of an assignment, and in the scope behind it. -/
theorem store (hP : Expr.Inlinable P) (h : scope.Forall P) {test : LoopTest}
    {op : AssignOp} {nameSpan span : Span} {value : Expr}
    (hvalue : value.Forall P) (hname : (Expr.ident name nameSpan).Forall P)
    (hassign : P (.assign op (.ident name nameSpan) value span)) :
    (scope.store test op name nameSpan value span).1.expr.Forall P ∧
      (scope.store test op name nameSpan value span).2.Forall P := by
  have hstored : (scope.stored name op value span).Forall P :=
    h.stored hP hvalue (hP.same .ident hname.here)
  rw [Scope.store_eq]
  refine ⟨?_, h.bind name hstored⟩
  dsimp only
  split
  · exact .node hassign (List.forall_mem_cons.2 ⟨hname, List.forall_mem_singleton.2 hvalue⟩)
  · exact hstored

end Scope.Forall

namespace Expr

/-- Inlining keeps the number of expressions in a row. -/
@[simp] theorem length_inlineAll (test : LoopTest) (es : List Expr) (scope : Scope) :
    (inlineAll test es scope).1.length = es.length := by
  induction es generalizing scope with
  | nil => rfl
  | cons e es ih => exact congrArg Nat.succ (ih _)

mutual

/-- Inlining keeps conditions on nodes. -/
theorem inline_forall {P : Expr → Prop} (hP : Inlinable P) (test : LoopTest) :
    (e : Expr) → (scope : Scope) →
    e.Forall P → scope.Forall P → (e.inline test scope).1.Forall P ∧
      (e.inline test scope).2.Forall P
  | .ident n s, scope, he, hs => ⟨hs.getD he n, hs⟩
  | .member o p false s, scope, he, hs => by
    obtain ⟨ho, hs⟩ := inline_forall hP test o scope (he.inside o List.mem_cons_self) hs
    exact ⟨.node (hP.same .dotted he.here) (List.forall_mem_singleton.2 ho), hs⟩
  | .member o p true s, scope, he, hs => by
    have hin := he.inside
    obtain ⟨hp, hs⟩ := inline_forall hP test p scope (hin p (by simp [children])) hs
    simp only [inline]
    split
    · rename_i e helement
      exact ⟨hs.element? helement, hs⟩
    · obtain ⟨ho, hs⟩ := inline_forall hP test o _ (hin o List.mem_cons_self) hs
      exact ⟨.node (hP.same .computed he.here) (List.forall_mem_cons.2 ⟨ho,
          List.forall_mem_singleton.2 hp⟩), hs⟩
  | .binary op l r s, scope, he, hs => by
    have hin := he.inside
    obtain ⟨hl, hs⟩ := inline_forall hP test l scope (hin l List.mem_cons_self) hs
    obtain ⟨hr, hs⟩ := inline_forall hP test r _ (hin r (by simp [children])) hs
    exact ⟨.node (hP.same .binary he.here) (List.forall_mem_cons.2 ⟨hl,
        List.forall_mem_singleton.2 hr⟩), hs⟩
  | .logical op l r s, scope, he, hs => by
    have hin := he.inside
    obtain ⟨hl, hs⟩ := inline_forall hP test l scope (hin l List.mem_cons_self) hs
    obtain ⟨hr, hs⟩ := inline_forall hP test r _ (hin r (by simp [children])) hs
    exact ⟨.node (hP.same .logical he.here) (List.forall_mem_cons.2 ⟨hl,
        List.forall_mem_singleton.2 hr⟩), hs⟩
  | .unary op a s, scope, he, hs => by
    obtain ⟨ha, hs⟩ := inline_forall hP test a scope (he.inside a List.mem_cons_self) hs
    exact ⟨.node (hP.same .unary he.here) (List.forall_mem_singleton.2 ha), hs⟩
  | .list es s, scope, he, hs => by
    obtain ⟨hes, hs⟩ := inlineAll_forall hP test es scope he.inside hs
    exact ⟨.node (hP.same (.list (length_inlineAll test es scope)) he.here) hes, hs⟩
  | .call f args s, scope, he, hs => by
    obtain ⟨hf, hargs⟩ := List.forall_mem_cons.1 he.inside
    obtain ⟨hf, hs⟩ := inline_forall hP test f scope hf hs
    obtain ⟨hargs, hs⟩ := inlineAll_forall hP test args _ hargs hs
    exact ⟨.node (hP.same .call he.here) (List.forall_mem_cons.2 ⟨hf, hargs⟩), hs⟩
  | .ternary c t e s, scope, he, hs => by
    have hin := he.inside
    obtain ⟨hc, hs⟩ := inline_forall hP test c scope (hin c List.mem_cons_self) hs
    obtain ⟨ht, hs⟩ := inline_forall hP test t _ (hin t (by simp [children])) hs
    obtain ⟨he', hs⟩ := inline_forall hP test e _ (hin e (by simp [children])) hs
    exact ⟨.node (hP.same .ternary he.here) (List.forall_mem_cons.2 ⟨hc, List.forall_mem_cons.2
      ⟨ht, List.forall_mem_singleton.2 he'⟩⟩), hs⟩
  | .sequence es s, scope, he, hs => by
    obtain ⟨hes, hs⟩ := inlineAll_forall hP test es scope he.inside hs
    exact ⟨.node (hP.same (.sequence (length_inlineAll test es scope)) he.here) hes, hs⟩
  | .assign op t v s, scope, he, hs => by
    have hin := he.inside
    have htarget := hin t List.mem_cons_self
    obtain ⟨hv, hs⟩ := inline_forall hP test v scope (hin v (by simp [children])) hs
    have hkept : (assign op t (v.inline test scope).1 s).Forall P :=
      .node (hP.same .assign he.here)
        (List.forall_mem_cons.2 ⟨htarget, List.forall_mem_singleton.2 hv⟩)
    cases t with
    | ident n ns => exact hs.store hP hv htarget hkept.here
    | member o p computed ms =>
      cases computed with
      | false => exact ⟨hkept, hs⟩
      | true =>
        obtain ⟨hp, hs⟩ := inline_forall hP test p _ (htarget.inside p (by simp [children])) hs
        have hmember : (member o (p.inline test (v.inline test scope).2).1 true ms).Forall P :=
          .node (hP.same .computed htarget.here) (List.forall_mem_cons.2
            ⟨htarget.inside o List.mem_cons_self, List.forall_mem_singleton.2 hp⟩)
        exact ⟨.node (hP.same .assign he.here) (List.forall_mem_cons.2 ⟨hmember,
            List.forall_mem_singleton.2 hv⟩), hs⟩
    | _ => exact ⟨hkept, hs⟩
  | .update op b a s, scope, he, hs => ⟨he, hs⟩
  | .bool v s, scope, he, hs => ⟨he, hs⟩
  | .num v s, scope, he, hs => ⟨he, hs⟩
  | .str v s, scope, he, hs => ⟨he, hs⟩
  | .null s, scope, he, hs => ⟨he, hs⟩

/-- The same for expressions in a row. -/
theorem inlineAll_forall {P : Expr → Prop} (hP : Inlinable P) (test : LoopTest) :
    (es : List Expr) → (scope : Scope) →
    (∀ e ∈ es, e.Forall P) → scope.Forall P →
      (∀ e ∈ (inlineAll test es scope).1, e.Forall P) ∧ (inlineAll test es scope).2.Forall P
  | [], scope, _, hs => ⟨fun e he => absurd he List.not_mem_nil, hs⟩
  | e :: es, scope, hes, hs => by
    obtain ⟨he, hes⟩ := List.forall_mem_cons.1 hes
    obtain ⟨he, hs⟩ := inline_forall hP test e scope he hs
    obtain ⟨hes, hs⟩ := inlineAll_forall hP test es _ hes hs
    exact ⟨List.forall_mem_cons.2 ⟨he, hes⟩, hs⟩

end

/-- An assignment that stands alone is inlined like any other. -/
theorem inlineAssignment_expr (test : LoopTest) (op : AssignOp) (t v : Expr) (s : Span)
    (scope : Scope) :
    ((inlineAssignment test op t v s scope).1.expr, (inlineAssignment test op t v s scope).2) =
      (assign op t v s).inline test scope := by
  cases t
  all_goals rfl

end Expr

/-- Declaring names keeps the property in the scope. -/
theorem Scope.Forall.declareAll {P : Expr → Prop} (hP : Expr.Inlinable P) {scope : Scope}
    (hs : scope.Forall P) (test : LoopTest) {ds : List Declarator}
    (hds : ∀ e ∈ ds.flatMap Declarator.exprs, e.Forall P) :
    (scope.declareAll test ds).Forall P := by
  induction ds generalizing scope with
  | nil => exact hs
  | cons d ds ih =>
    have hmore : ∀ e ∈ ds.flatMap Declarator.exprs, e.Forall P := fun e he => hds e (by simp [he])
    obtain ⟨name, _ | e, span⟩ := d
    · exact ih (hs.bind name (.leaf hP.undefined rfl)) hmore
    · obtain ⟨he, hs⟩ := e.inline_forall hP test scope (hds e (by simp [Declarator.exprs])) hs
      exact ih (hs.bind name he) hmore

/-- An assignment that stands alone: the store, or nothing. -/
theorem Stmt.inline_assign (test : LoopTest) (op : AssignOp) (t v : Expr) (as s : Span)
    (scope : Scope) :
    (Stmt.expr (.assign op t v as) s).inline test scope =
      (match (Expr.inlineAssignment test op t v as scope).1 with
        | .kept e => .expr e s
        | .absorbed _ => .empty s, (Expr.inlineAssignment test op t v as scope).2) := by
  simp only [inline]
  split
  all_goals rename_i h; rw [h]

/-- An assignment to a name, standing alone: it binds the name, and the store stays if the test
watches the name. -/
theorem Stmt.inline_assign_name (test : LoopTest) (op : AssignOp) (n : String) (ns as s : Span)
    (v : Expr) (scope : Scope) :
    (Stmt.expr (.assign op (.ident n ns) v as) s).inline test scope =
      (if test.observes n then .expr (.assign op (.ident n ns) (v.inline test scope).1 as) s
        else .empty s,
        (v.inline test scope).2.bind n
          ((v.inline test scope).2.stored n op (v.inline test scope).1 as)) := by
  rw [inline_assign]
  simp only [Expr.inlineAssignment, Scope.store_eq]
  cases test.observes n
  all_goals rfl

/-- Statements in two rows are inlined one row after the other. -/
theorem Stmt.inlineAll_append (test : LoopTest) (ss ss' : List Stmt) (scope : Scope) :
    inlineAll test (ss ++ ss') scope =
      ((inlineAll test ss scope).1 ++ (inlineAll test ss' (inlineAll test ss scope).2).1,
        (inlineAll test ss' (inlineAll test ss scope).2).2) := by
  induction ss generalizing scope with
  | nil => rfl
  | cons s ss ih =>
    simp only [List.cons_append, inlineAll, ih]
    split
    all_goals rfl

namespace Stmt

/-- The empty statement has no expressions. -/
theorem ForallExpr.empty {P : Expr → Prop} (s : Span) : (Stmt.empty s).ForallExpr P :=
  Forall.leaf (fun _ he => absurd he List.not_mem_nil) rfl

mutual

/-- Inlining keeps conditions on the nodes of expressions throughout a statement. -/
theorem inline_forallExpr {P : Expr → Prop} (hP : Expr.Inlinable P)
    (hnames : ∀ n, IsIdentifier n → P (.name n)) (test : LoopTest) :
    (s : Stmt) → (scope : Scope) → s.Forall Formed → s.ForallExpr P → scope.Forall P →
    (s.inline test scope).1.ForallExpr P ∧ (s.inline test scope).2.Forall P
  | .function n ps body s, scope, hf, h, hs => by
    have hparams : ∀ p ∈ ps, P (.name p) := fun p hp => hnames p (hf.here.2 p hp)
    obtain ⟨hbody, -⟩ := inlineAll_forallExpr hP hnames .none body _ hf.inside h.inside
      (hs.bindOpaque hparams)
    exact ⟨.node (fun e he => absurd he List.not_mem_nil) hbody, hs⟩
  | .declare word ds s, scope, hf, h, hs => ⟨.empty s, hs.declareAll hP test h.here⟩
  | .expr e s, scope, hf, h, hs => by
    obtain ⟨he, hs⟩ := e.inline_forall hP test scope (h.here e List.mem_cons_self) hs
    cases e with
    | assign op t v as =>
      rw [← Expr.inlineAssignment_expr] at he hs
      rw [inline_assign]
      refine ⟨?_, hs⟩
      cases hresult : (Expr.inlineAssignment test op t v as scope).1 with
      | kept e =>
        rw [hresult] at he
        exact Forall.leaf (List.forall_mem_singleton.2 he) rfl
      | absorbed e => exact .empty s
    | _ => exact ⟨Forall.leaf (List.forall_mem_singleton.2 he) rfl, hs⟩
  | .whileLoop t body s, scope, hf, h, hs => by
    obtain ⟨ht, hsin⟩ := t.inline_forall hP (.ofExpr t) scope (h.here t List.mem_cons_self) hs
    obtain ⟨hbody, -⟩ := inline_forallExpr hP hnames (.ofExpr (t.inline (.ofExpr t) scope).1) body _
      (hf.inside body List.mem_cons_self) (h.inside body List.mem_cons_self) hsin
    exact ⟨.node (List.forall_mem_singleton.2 ht) (List.forall_mem_singleton.2 hbody), hs⟩
  | .branch t c none s, scope, hf, h, hs => by
    obtain ⟨ht, hs⟩ := t.inline_forall hP test scope (h.here t List.mem_cons_self) hs
    obtain ⟨hc, -⟩ := inline_forallExpr hP hnames test c _ (hf.inside c List.mem_cons_self)
      (h.inside c List.mem_cons_self) hs
    exact ⟨.node (List.forall_mem_singleton.2 ht) (List.forall_mem_singleton.2 hc), hs⟩
  | .branch t c (some a) s, scope, hf, h, hs => by
    obtain ⟨ht, hs⟩ := t.inline_forall hP test scope (h.here t List.mem_cons_self) hs
    obtain ⟨hc, -⟩ := inline_forallExpr hP hnames test c _ (hf.inside c List.mem_cons_self)
      (h.inside c List.mem_cons_self) hs
    obtain ⟨ha, -⟩ := inline_forallExpr hP hnames test a _ (hf.inside a (by simp [children]))
      (h.inside a (by simp [children])) hs
    exact ⟨.node (List.forall_mem_singleton.2 ht) (List.forall_mem_cons.2 ⟨hc,
        List.forall_mem_singleton.2 ha⟩), hs⟩
  | .ret (some e) s, scope, hf, h, hs => by
    obtain ⟨he, hs⟩ := e.inline_forall hP test scope (h.here e List.mem_cons_self) hs
    exact ⟨Forall.leaf (List.forall_mem_singleton.2 he) rfl, hs⟩
  | .block body s, scope, hf, h, hs => by
    obtain ⟨hbody, hs⟩ := inlineAll_forallExpr hP hnames test body scope hf.inside h.inside hs
    exact ⟨.node (fun e he => absurd he List.not_mem_nil) hbody, hs⟩
  | .ret none s, scope, hf, h, hs | .forLoop i t u body s, scope, hf, h, hs
  | .breakLoop s, scope, hf, h, hs
  | .continueLoop s, scope, hf, h, hs | .empty s, scope, hf, h, hs => ⟨h, hs⟩

/-- The same for statements in a row. -/
theorem inlineAll_forallExpr {P : Expr → Prop} (hP : Expr.Inlinable P)
    (hnames : ∀ n, IsIdentifier n → P (.name n)) (test : LoopTest) :
    (ss : List Stmt) → (scope : Scope) → (∀ s ∈ ss, s.Forall Formed) → (∀ s ∈ ss, s.ForallExpr P) →
    scope.Forall P → (∀ s ∈ (inlineAll test ss scope).1, s.ForallExpr P) ∧
      (inlineAll test ss scope).2.Forall P
  | [], scope, _, _, hs => ⟨fun s h => absurd h List.not_mem_nil, hs⟩
  | s :: ss, scope, hfs, hss, hs => by
    obtain ⟨hf, hfs⟩ := List.forall_mem_cons.1 hfs
    obtain ⟨h, hss⟩ := List.forall_mem_cons.1 hss
    obtain ⟨h, hs⟩ := inline_forallExpr hP hnames test s scope hf h hs
    obtain ⟨hss, hs⟩ := inlineAll_forallExpr hP hnames test ss _ hfs hss hs
    refine ⟨?_, hs⟩
    simp only [inlineAll]
    split
    · exact hss
    · exact List.forall_mem_cons.2 ⟨h, hss⟩

end

end Stmt

/-- Inlining keeps conditions on the nodes of expressions throughout a program. -/
theorem Program.inline_forallExpr {P : Expr → Prop} (hP : Expr.Inlinable P)
    (hnames : ∀ n, IsIdentifier n → P (.name n)) {p : Program} (hformed : p.Formed)
    (h : p.ForallExpr P) : p.inline.ForallExpr P :=
  (Stmt.inlineAll_forallExpr hP hnames .none p.body .empty hformed h .empty).1

end BranchPaint
