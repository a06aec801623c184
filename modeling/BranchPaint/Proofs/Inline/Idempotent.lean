import BranchPaint.Proofs.Grammar.Formed
import BranchPaint.Proofs.Inline.Skeleton
import BranchPaint.Proofs.Inline.Spans
import BranchPaint.Proofs.Inline.Unchanged

/-!
# Inlining a second time

What inlining leaves has no declarations and no empty statements in its lists (`Stmt.Settled`),
except inside of counting loops, which are left alone. If no store to a name is left either, where
inlining would come upon it (`Program.storedNames`), then inlining a second time has nothing to bind
but the parameters of functions, and these stand for themselves (`Scope.Opaque`). So it changes
nothing but spans (`Program.inline_twice`).
-/

namespace BranchPaint

/-! ## Stores that inlining comes upon -/

mutual

/-- The names that inlining would store to in a statement, in the order of the text. It does not go
into counting loops. -/
def Stmt.storedNames : Stmt → List String
  | .function _ _ body _ | .block body _ => storedNamesAll body
  | .declare _ ds _ => ds.flatMap fun d => d.init.elim [] Expr.storedNames
  | .branch t c none _ => t.storedNames ++ c.storedNames
  | .branch t c (some a) _ => t.storedNames ++ (c.storedNames ++ a.storedNames)
  | .whileLoop t body _ => t.storedNames ++ body.storedNames
  | .ret e _ => e.elim [] Expr.storedNames
  | .expr e _ => e.storedNames
  | .forLoop _ _ _ _ _ | .breakLoop _ | .continueLoop _ | .empty _ => []

/-- The names that inlining would store to in statements, in the order of the text. -/
def Stmt.storedNamesAll : List Stmt → List String
  | [] => []
  | s :: ss => s.storedNames ++ storedNamesAll ss

end

/-- The names that inlining would store to in a program, in the order of the text. -/
def Program.storedNames (p : Program) : List String := Stmt.storedNamesAll p.body

/-! ## Scopes that bind names to themselves -/

/-- Every name that is bound stands for itself. -/
def Scope.Opaque (scope : Scope) : Prop := ∀ x ∈ scope.entries, x.2 = .name x.1

namespace Scope.Opaque

variable {scope : Scope}

/-- Nothing is bound in the empty scope. -/
theorem empty : Scope.empty.Opaque := fun _ hx => absurd hx List.not_mem_nil

/-- Parameters stand for themselves. -/
theorem bindOpaque (h : scope.Opaque) (names : List String) : (scope.bindOpaque names).Opaque := by
  induction names generalizing scope with
  | nil => exact h
  | cons n names ih => exact ih (List.forall_mem_cons.2 ⟨rfl, h⟩)

/-- A name is bound to itself only. -/
theorem eq_name (h : scope.Opaque) {n : String} {e : Expr} (hlookup : scope.lookup? n = some e) :
    e = .name n :=
  h (n, e) (mem_entries_of_lookup? hlookup)

/-- No name is bound to a list. -/
theorem element?_eq_none (h : scope.Opaque) (name index : String) :
    scope.element? name index = none :=
  Scope.element?_eq_none fun _ _ hlookup => nomatch h.eq_name hlookup

/-- Such a scope leaves every expression alone. -/
theorem leavesAlone (h : scope.Opaque) (e : Expr) : e.Forall scope.LeavesAlone := by
  induction e using Expr.induction with
  | step e ih =>
    refine .node ?_ ih
    cases e with
    | ident n s => exact fun f hlookup => h.eq_name hlookup
    | member o p computed s =>
      cases computed with
      | false => trivial
      | true => exact h.element?_eq_none o.text
    | _ => trivial

end Scope.Opaque

/-! ## What inlining leaves -/

namespace Stmt

/-- No declaration stands in the statement and no empty statement in a list, except inside of
counting loops. -/
inductive Settled : Stmt → Prop
  | function {f : String} {ps : List String} {body : List Stmt} {s : Span} (h : ∀ b ∈ body,
      Settled b) (hempty : ∀ b ∈ body, b.isEmpty = false) : Settled (.function f ps body s)
  | branch {t : Expr} {c : Stmt} {s : Span} (hc : Settled c) : Settled (.branch t c none s)
  | branchElse {t : Expr} {c a : Stmt} {s : Span} (hc : Settled c) (ha : Settled a) :
      Settled (.branch t c (some a) s)
  | whileLoop {t : Expr} {body : Stmt} {s : Span} (h : Settled body) : Settled (.whileLoop t body s)
  | forLoop {i : Option ForInit} {t u : Option Expr} {body : Stmt} {s : Span} :
      Settled (.forLoop i t u body s)
  | ret {e : Option Expr} {s : Span} : Settled (.ret e s)
  | block {body : List Stmt} {s : Span} (h : ∀ b ∈ body, Settled b)
      (hempty : ∀ b ∈ body, b.isEmpty = false) : Settled (.block body s)
  | expr {e : Expr} {s : Span} : Settled (.expr e s)
  | breakLoop {s : Span} : Settled (.breakLoop s)
  | continueLoop {s : Span} : Settled (.continueLoop s)
  | empty {s : Span} : Settled (.empty s)

mutual

/-- What remains of a statement is settled. -/
theorem Remains.settled : {test : LoopTest} → {s s' : Stmt} → Remains test s s' → s'.Settled
  | _, _, _, .nothing _ => .empty
  | _, _, _, .function h => .function (fun b hb => (h.settled b hb).1) fun b hb =>
    (h.settled b hb).2
  | _, _, _, .branch hc => .branch hc.settled
  | _, _, _, .branchElse hc ha => .branchElse hc.settled ha.settled
  | _, _, _, .whileLoop _ h => .whileLoop h.settled
  | _, _, _, .forLoop => .forLoop
  | _, _, _, .ret | _, _, _, .retValue => .ret
  | _, _, _, .block h => .block (fun b hb => (h.settled b hb).1) fun b hb => (h.settled b hb).2
  | _, _, _, .expr _ _ => .expr
  | _, _, _, .breakLoop => .breakLoop
  | _, _, _, .continueLoop => .continueLoop

/-- What remains of a list of statements is settled, and none of it is empty. -/
theorem RemainsAll.settled : {test : LoopTest} → {ss ss' : List Stmt} → RemainsAll test ss ss' →
    ∀ s ∈ ss', s.Settled ∧ s.isEmpty = false
  | _, _, _, .nil => fun _ h => absurd h List.not_mem_nil
  | _, _, _, .gone _ hss => hss.settled
  | _, _, _, .kept hvanishes h hss =>
    List.forall_mem_cons.2 ⟨⟨h.settled, h.isEmpty_eq.trans hvanishes⟩, hss.settled⟩

end

/-! ## Settled statements -/

/-- An expression that stands alone and stores to no name is inlined like any other. -/
theorem inline_expr_of_storedNames {e : Expr} (h : e.storedNames = []) (test : LoopTest) (s : Span)
    (scope : Scope) :
    (Stmt.expr e s).inline test scope =
      (.expr (e.inline test scope).1 s, (e.inline test scope).2) := by
  cases e with
  | assign op t v as =>
    cases t with
    | ident n ns => cases h
    | _ => rfl
  | _ => rfl

mutual

/-- Inlining changes nothing but spans in a settled statement without stores to names. -/
theorem inline_unchanged (test : LoopTest) {scope : Scope} (hscope : scope.Opaque) :
    (s : Stmt) → s.Settled → s.storedNames = [] →
    (s.inline test scope).1.eraseSpans = s.eraseSpans ∧ (s.inline test scope).2 = scope
  | .function _ ps body _, .function hsettled hempty, h => by
    obtain ⟨hbody, -⟩ := inlineAll_unchanged .none (hscope.bindOpaque ps) body hsettled hempty h
    exact ⟨by simp only [inline, eraseSpans, hbody], rfl⟩
  | .expr e s, _, h => by
    obtain ⟨he, hs⟩ := e.inline_unchanged test h (hscope.leavesAlone e)
    rw [inline_expr_of_storedNames h]
    exact ⟨by simp only [eraseSpans, he], hs⟩
  | .whileLoop t body _, .whileLoop hsettled, h => by
    obtain ⟨ht, hbody⟩ := List.append_eq_nil_iff.1 h
    -- what the loop watches does not matter, since nothing is stored
    obtain ⟨ht, hst⟩ := t.inline_unchanged (.ofExpr t) ht (hscope.leavesAlone t)
    obtain ⟨hbody, -⟩ :=
      inline_unchanged (.ofExpr (t.inline (.ofExpr t) scope).1) hscope body hsettled hbody
    exact ⟨by simp only [inline, hst, eraseSpans, ht, hbody], rfl⟩
  | .branch t c none _, .branch hsettled, h => by
    obtain ⟨ht, hc⟩ := List.append_eq_nil_iff.1 h
    obtain ⟨ht, hst⟩ := t.inline_unchanged test ht (hscope.leavesAlone t)
    obtain ⟨hc, -⟩ := inline_unchanged test hscope c hsettled hc
    exact ⟨by simp only [inline, hst, eraseSpans, ht, hc], hst⟩
  | .branch t c (some a) _, .branchElse hsettled hsettled', h => by
    obtain ⟨ht, hsides⟩ := List.append_eq_nil_iff.1 h
    obtain ⟨hc, ha⟩ := List.append_eq_nil_iff.1 hsides
    obtain ⟨ht, hst⟩ := t.inline_unchanged test ht (hscope.leavesAlone t)
    obtain ⟨hc, -⟩ := inline_unchanged test hscope c hsettled hc
    obtain ⟨ha, -⟩ := inline_unchanged test hscope a hsettled' ha
    exact ⟨by simp only [inline, hst, eraseSpans, ht, hc, ha], hst⟩
  | .ret (some e) _, _, h => by
    obtain ⟨he, hs⟩ := e.inline_unchanged test h (hscope.leavesAlone e)
    exact ⟨by simp only [inline, eraseSpans, Option.map_some, he], hs⟩
  | .block body _, .block hsettled hempty, h => by
    obtain ⟨hbody, hs⟩ := inlineAll_unchanged test hscope body hsettled hempty h
    exact ⟨by simp only [inline, eraseSpans, hbody], hs⟩
  | .ret none _, _, _ | .forLoop _ _ _ _ _, _, _ | .breakLoop _, _, _ | .continueLoop _, _, _
  | .empty _, _, _ => ⟨rfl, rfl⟩

/-- The same for statements in a row. -/
theorem inlineAll_unchanged (test : LoopTest) {scope : Scope} (hscope : scope.Opaque) :
    (ss : List Stmt) → (∀ s ∈ ss, s.Settled) →
    (∀ s ∈ ss, s.isEmpty = false) → storedNamesAll ss = [] →
    eraseSpansAll (inlineAll test ss scope).1 = eraseSpansAll ss ∧
      (inlineAll test ss scope).2 = scope
  | [], _, _, _ => ⟨rfl, rfl⟩
  | s :: ss, hsettled, hempty, h => by
    obtain ⟨hs, hss⟩ := List.append_eq_nil_iff.1 h
    obtain ⟨hs, hscopes⟩ := inline_unchanged test hscope s (hsettled s List.mem_cons_self) hs
    obtain ⟨hss, hscopess⟩ :=
      inlineAll_unchanged test hscope ss (fun b hb => hsettled b (List.mem_cons_of_mem s hb))
        (fun b hb => hempty b (List.mem_cons_of_mem s hb)) hss
    -- a statement does not become empty, since it differs from what comes out in spans alone
    have hsame : (s.inline test scope).1.isEmpty = false := by
      rw [← isEmpty_eraseSpans, hs, isEmpty_eraseSpans]
      exact hempty s List.mem_cons_self
    simp only [inlineAll, hscopes, hsame, Bool.false_eq_true, if_false]
    exact ⟨by simp only [eraseSpansAll, hs, hss], hscopess⟩

end

end Stmt

/-- Inlining a second time changes nothing but spans, if no store to a name is left where inlining
would come upon it. -/
theorem Program.inline_twice (p : Program) (h : p.inline.storedNames = []) :
    p.inline.inline.eraseSpans = p.inline.eraseSpans := by
  have hsettled := (Stmt.inlineAll_remains .none p.body .empty).settled
  obtain ⟨hbody, -⟩ := Stmt.inlineAll_unchanged .none .empty p.inline.body
    (fun s hs => (hsettled s hs).1) (fun s hs => (hsettled s hs).2) h
  exact congrArg (Program.mk · .nowhere) hbody

/-- A counting loop that stores to a name, a loop that stores into a member only, and
declarations. -/
theorem Program.inline_twice_loops : ∃ p,
    parse
      ("function f(a) \x7b let k = [a]; for (;;) s = k; " ++
        "while (k[a]) \x7b let j = a; c[j] = a++; \x7d if (k) let m; return k; \x7d") = .ok p ∧
    p.inline.storedNames = [] ∧ p.inline.inline.eraseSpans = p.inline.eraseSpans := by
  obtain ⟨p, hp, h⟩ := exists_parse
    ("function f(a) \x7b let k = [a]; for (;;) s = k; " ++
      "while (k[a]) \x7b let j = a; c[j] = a++; \x7d if (k) let m; return k; \x7d")
    (fun p => p.inline.storedNames = []) (by decide +kernel)
  exact ⟨p, hp, h, inline_twice p h⟩

end BranchPaint
