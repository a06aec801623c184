import BranchPaint.Proofs.Grammar.Formed
import BranchPaint.Proofs.Inline.Node
import BranchPaint.Proofs.Script.Inside

/-!
# Inlining keeps trees formed

A formed program stays so when its bindings are inlined (`Program.inline_formed`), and so does one
whose numbers are finite (`Program.inline_readable`). For the expressions this is a condition on
nodes. The statements need one more fact: inlining never changes whether a statement ends open
(`Stmt.endsOpen_inline`), so an `else` still belongs to its own branch.

What it comes to for all that stands in a program is `Program.WellFormed`. It holds of every program
that was read, before and after its bindings are inlined (`Program.wellFormed_of_parse`).
-/

namespace BranchPaint

/-- The word `undefined` is an identifier. -/
theorem isIdentifier_undefined : IsIdentifier "undefined" := by decide

/-- Inlining keeps expressions formed. -/
theorem Expr.inlinable_formed : Expr.Inlinable Expr.Formed where
  same h he := by
    cases h with
    | @sequence es fs s s' h =>
      have htwo : 2 ≤ es.length := he
      exact (h ▸ htwo : 2 ≤ fs.length)
    | ident => exact he
    | dotted => exact he
    | computed => exact fun h => (by cases h)
    | assign => exact he
    | _ => trivial
  binary _ _ _ _ := trivial
  undefined := isIdentifier_undefined

/-- Inlining keeps numbers finite. -/
theorem Expr.inlinable_finiteNumber : Expr.Inlinable Expr.FiniteNumber where
  same h _ := by
    cases h
    all_goals trivial
  binary _ _ _ _ := trivial
  undefined := trivial

/-- Inlining keeps expressions readable. -/
theorem Expr.inlinable_readable : Expr.Inlinable Expr.Readable :=
  inlinable_formed.and inlinable_finiteNumber

namespace Stmt

/-- The empty statement is formed. -/
theorem formed_empty (s : Span) : (Stmt.empty s).Forall Formed := .leaf trivial rfl

/-- Inlining does not change whether a statement ends open. -/
theorem endsOpen_inline (test : LoopTest) (s : Stmt) (scope : Scope) :
    (s.inline test scope).1.endsOpen = s.endsOpen := by
  induction s using Stmt.induction generalizing test scope with
  | step s ih =>
  cases s with
  | branch t c a span =>
    cases a with
    | none => rfl
    | some a => exact ih a (by simp [children]) test _
  | whileLoop t body span => exact ih body List.mem_cons_self _ _
  | expr e span =>
    cases e with
    | assign op t v as =>
      rw [inline_assign]
      cases (Expr.inlineAssignment test op t v as scope).1
      all_goals rfl
    | _ => rfl
  | ret v span =>
    cases v
    all_goals rfl
  | _ => rfl

mutual

/-- Inlining keeps a statement formed. -/
theorem inline_formed (test : LoopTest) : (s : Stmt) → (scope : Scope) → s.Forall Formed →
    (s.inline test scope).1.Forall Formed
  | .function n ps body s, scope, h => .node h.here (inlineAll_formed .none body _ h.inside)
  | .declare word ds s, scope, h => formed_empty s
  | .expr e s, scope, h => by
    have hexpr (e : Expr) : (Stmt.expr e s).Forall Formed := .leaf trivial rfl
    cases e with
    | assign op t v as =>
      rw [inline_assign]
      cases (Expr.inlineAssignment test op t v as scope).1 with
      | kept e => exact hexpr e
      | absorbed e => exact formed_empty s
    | _ => exact hexpr _
  | .whileLoop t body s, scope, h =>
    .node trivial
      (List.forall_mem_singleton.2 (inline_formed _ body _ (h.inside body List.mem_cons_self)))
  | .branch t c none s, scope, h =>
    .node (fun h => (by cases h))
      (List.forall_mem_singleton.2 (inline_formed test c _ (h.inside c List.mem_cons_self)))
  | .branch t c (some a) s, scope, h => by
    have hc := inline_formed test c (t.inline test scope).2 (h.inside c List.mem_cons_self)
    have ha := inline_formed test a (t.inline test scope).2 (h.inside a (by simp [children]))
    refine .node (fun _ => ?_) (List.forall_mem_cons.2 ⟨hc, List.forall_mem_singleton.2 ha⟩)
    rw [endsOpen_inline]
    exact h.here rfl
  | .ret (some e) s, scope, h => .leaf trivial rfl
  | .block body s, scope, h => .node trivial (inlineAll_formed test body scope h.inside)
  | .ret none s, scope, h | .forLoop i t u body s, scope, h | .breakLoop s, scope, h
  | .continueLoop s, scope, h
  | .empty s, scope, h => h

/-- Inlining keeps statements in a row formed. -/
theorem inlineAll_formed (test : LoopTest) :
    (ss : List Stmt) → (scope : Scope) → (∀ s ∈ ss, s.Forall Formed) →
    ∀ s ∈ (inlineAll test ss scope).1, s.Forall Formed
  | [], scope, _ => fun s h => absurd h List.not_mem_nil
  | s :: ss, scope, h => by
    obtain ⟨h, hss⟩ := List.forall_mem_cons.1 h
    have h := inline_formed test s scope h
    have hss := inlineAll_formed test ss (s.inline test scope).2 hss
    simp only [inlineAll]
    split
    · exact hss
    · exact List.forall_mem_cons.2 ⟨h, hss⟩

end

end Stmt

/-- Inlining keeps a program and its expressions formed. -/
theorem Program.inline_formed {p : Program} (hp : p.Formed) (he : p.ForallExpr Expr.Formed) :
    p.inline.Formed ∧ p.inline.ForallExpr Expr.Formed :=
  ⟨Stmt.inlineAll_formed .none p.body .empty hp,
    Program.inline_forallExpr Expr.inlinable_formed (fun _ hn => hn) hp he⟩

/-- Inlining keeps a program formed and its expressions readable. -/
theorem Program.inline_readable {p : Program} (hp : p.Formed) (he : p.ForallExpr Expr.Readable) :
    p.inline.Formed ∧ p.inline.ForallExpr Expr.Readable :=
  ⟨Stmt.inlineAll_formed .none p.body .empty hp,
    Program.inline_forallExpr Expr.inlinable_readable (fun _ hn => ⟨hn, trivial⟩) hp he⟩

/-! ## Well-formed programs -/

/-- The second statement is the first, or the one that is still open where the first ends: the last
of a loop is its body, and the last of a branch its alternative. -/
inductive Stmt.LastOpen : Stmt → Stmt → Prop
  | self {s : Stmt} : LastOpen s s
  | whileLoop {t : Expr} {body s : Stmt} {span : Span} (h : LastOpen body s) :
      LastOpen (.whileLoop t body span) s
  | forLoop {i : Option ForInit} {t u : Option Expr} {body s : Stmt} {span : Span}
      (h : LastOpen body s) : LastOpen (.forLoop i t u body span) s
  | alternative {t : Expr} {c a s : Stmt} {span : Span} (h : LastOpen a s) :
      LastOpen (.branch t c (some a) span) s

/-- A statement whose last open part is a branch without an alternative would take an `else` for its
own. -/
theorem Stmt.LastOpen.endsOpen {s b : Stmt} (h : s.LastOpen b) (hb : b.endsOpen = true) :
    s.endsOpen = true := by
  induction h with
  | self => exact hb
  | whileLoop _ ih | forLoop _ ih | alternative _ ih => exact ih hb

/-- The names that a statement declares, if it is a declaration or a loop that starts with one. -/
def Stmt.declared? : Stmt → Option (List Declarator)
  | .declare _ ds _ | .forLoop (some (.declare _ ds)) _ _ _ _ => some ds
  | _ => none

/-- The names that a formed statement declares are formed. -/
theorem Stmt.Formed.declared {s : Stmt} (h : s.Formed) {ds : List Declarator}
    (hds : s.declared? = some ds) : FormedNames ds := by
  unfold declared? at hds
  split at hds
  · cases hds
    exact h
  · cases hds
    exact h
  · cases hds

/-- The operators that an assignment can be compounded with. -/
theorem AssignOp.Formed.compound {op : BinaryOp} (h : (AssignOp.compound op).Formed) :
    op ∈ [.add, .sub, .mul, .div, .rem] := by
  rcases h.cases with h | h | h | h | h | h
  all_goals cases h
  all_goals decide

/-- A number without sign is a number, and not negative. -/
theorem IsUnsigned.not_negative {x : Float} (h : IsUnsigned x) :
    x.isNaN = false ∧ Double.isNegative x = false := by
  obtain ⟨bits, hle, rfl⟩ := h
  exact ⟨Double.isNaN_ofMagnitudeBits hle, Double.isNegative_ofMagnitudeBits hle⟩

/-- What holds of all that stands in a program that was read. -/
structure Program.WellFormed (p : Program) : Prop where
  /-- An `else` belongs to the nearest branch that can have one. -/
  alternatives : ∀ t c a span, p.HasStmt (.branch t c (some a) span) → ∀ t' c' span',
    ¬ c.LastOpen (.branch t' c' none span')
  /-- Behind a point stands a name. -/
  properties : ∀ o q span, p.HasExpr (.member o q false span) →
    ∃ name s, q = .ident name s ∧ IsWord name
  sequences : ∀ es span, p.HasExpr (.sequence es span) → 2 ≤ es.length
  declarations : ∀ s ds, p.HasStmt s → s.declared? = some ds → ds ≠ []
  compounds : ∀ op t v span, p.HasExpr (.assign (.compound op) t v span) →
    op ∈ [.add, .sub, .mul, .div, .rem]
  numbers : ∀ v span, p.HasExpr (.num v span) → v.isNaN = false ∧ Double.isNegative v = false
  names : ∀ n span, p.HasExpr (.ident n span) → IsIdentifier n
  functions : ∀ n params body span, p.HasStmt (.function n params body span) → IsIdentifier n ∧
    ∀ q ∈ params, IsIdentifier q
  declaredNames : ∀ s ds, p.HasStmt s → s.declared? = some ds → ∀ d ∈ ds, IsIdentifier d.name

/-- What is formed at each node is well-formed as a whole. -/
theorem Program.Formed.wellFormed {p : Program} (hp : p.Formed) (he : p.ForallExpr Expr.Formed) :
    p.WellFormed where
  alternatives t c a span h t' c' span' hopen := by
    have hclosed : c.endsOpen = false := hp.of_hasStmt h rfl
    rw [hopen.endsOpen rfl] at hclosed
    cases hclosed
  properties _ _ _ h := (he.of_hasExpr h).here rfl
  sequences _ _ h := (he.of_hasExpr h).here
  declarations _ _ h hds := ((hp.of_hasStmt h).declared hds).1
  compounds _ _ _ _ h := AssignOp.Formed.compound (he.of_hasExpr h).here
  numbers _ _ h := IsUnsigned.not_negative (he.of_hasExpr h).here
  names _ _ h := (he.of_hasExpr h).here
  functions _ _ _ _ h := hp.of_hasStmt h
  declaredNames _ _ h hds := ((hp.of_hasStmt h).declared hds).2

/-- A program that was read is well-formed, and stays so when its bindings are inlined. -/
theorem Program.wellFormed_of_parse {source : String} {p : Program}
    (h : Program.parse source = .ok p) : p.WellFormed ∧ p.inline.WellFormed := by
  obtain ⟨hformed, hexprs⟩ := Program.formed_of_parse h
  obtain ⟨hformed', hexprs'⟩ := Program.inline_formed hformed hexprs
  exact ⟨hformed.wellFormed hexprs, hformed'.wellFormed hexprs'⟩

/-- Branches in branches and loops, where each `else` finds its own. -/
theorem Program.wellFormed_of_parse_nested : ∃ p, Program.parse
      ("function f(a, b) \x7b let c = (a, 1.5).d, e; if (a) while (b) if (c) b -= c; " ++
        "else e = b; else for (var i = 0;;) if (e) i; \x7d") = .ok p ∧
    p.body.length = 1 ∧ p.WellFormed ∧ p.inline.WellFormed := by
  obtain ⟨p, hp, hlength⟩ := Program.exists_parse
    ("function f(a, b) \x7b let c = (a, 1.5).d, e; if (a) while (b) if (c) b -= c; " ++
      "else e = b; else for (var i = 0;;) if (e) i; \x7d")
    (fun p => p.body.length = 1) (by decide +kernel)
  exact ⟨p, hp, hlength, Program.wellFormed_of_parse hp⟩

end BranchPaint
