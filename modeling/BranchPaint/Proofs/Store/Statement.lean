import BranchPaint.Proofs.Store.Expression
import Mathlib

/-!
# Running statements over a store

The meaning of statements, one after the other over a store that holds for the whole function: a
declaration or an assignment changes the store, a branch runs the side that its test selects, a loop
goes round while its test holds, and `return` ends the run. A name that is declared without a value
is undefined. `rounds` bounds how often a loop may go round; there is no outcome if evaluation fails
or the bound is passed. Counting loops, `break` and `continue` are refused, and a function that is
only declared does nothing.

Besides how the run ends, the outcome tells for each branch, in the order of the source, how its
test came out each time it was reached (`RunResult.tests`).
-/

namespace BranchPaint

/-- How a run ends. -/
inductive Flow where
  /-- What follows runs next. -/
  | next
  /-- The function returns a value. -/
  | returned (v : Value)

/-- What a run leaves: how it ends, the store, and the results of the tests of each branch. -/
structure RunResult where
  flow : Flow
  store : Store
  tests : List (List Bool)

/-- The number of branches in a statement. -/
def Stmt.branchCount (s : Stmt) : Nat := s.branchLines.length

/-- The number of branches in statements. -/
def Stmt.branchCountAll (ss : List Stmt) : Nat := (branchLinesAll ss).length

/-- The number of branches in what stands behind `else`, if anything does. -/
def Stmt.branchCountElse : Option Stmt → Nat
  | none => 0
  | some a => a.branchCount

/-- The results of the tests of branches that are not reached. -/
def unreached (count : Nat) : List (List Bool) := List.replicate count []

/-- The store behind declared names. -/
def Store.declareAll : List Declarator → Store → Except EvalCause Store
  | [], σ => .ok σ
  | ⟨name, some e, _⟩ :: ds, σ => do
    let (v, σ) ← e.run σ
    declareAll ds (σ.set name v)
  | ⟨name, none, _⟩ :: ds, σ => declareAll ds (σ.set name .undefined)

/-- Goes round while the test holds, at most the given number of times; `tests` are the results so
far. -/
def Stmt.loop (test : Expr) (body : Store → Option RunResult) :
    Nat → Store → List (List Bool) → Option RunResult
  | 0, σ, tests => do
    let (v, σ) ← (test.run σ).toOption
    if v.truthy then none else some ⟨.next, σ, tests⟩
  | rounds + 1, σ, tests => do
    let (v, σ) ← (test.run σ).toOption
    if v.truthy then
      let out ← body σ
      let tests := List.zipWith (· ++ ·) tests out.tests
      match out.flow with
      | .next => loop test body rounds out.store tests
      | .returned v => some ⟨.returned v, out.store, tests⟩
    else some ⟨.next, σ, tests⟩

mutual

/-- Runs a statement. -/
def Stmt.exec (rounds : Nat) : Stmt → Store → Option RunResult
  | .declare _ ds _, σ => do
    let σ ← (σ.declareAll ds).toOption
    some ⟨.next, σ, []⟩
  | .branch t c a _, σ => do
    let (v, σ) ← (t.run σ).toOption
    if v.truthy then
      let out ← c.exec rounds σ
      some { out with tests := [true] :: (out.tests ++ unreached (branchCountElse a)) }
    else
      let out ← execElse rounds a σ
      some { out with tests := [false] :: (unreached c.branchCount ++ out.tests) }
  | .whileLoop t body _, σ => loop t (body.exec rounds) rounds σ (unreached body.branchCount)
  | .ret none _, σ => some ⟨.returned .undefined, σ, []⟩
  | .ret (some e) _, σ => do
    let (v, σ) ← (e.run σ).toOption
    some ⟨.returned v, σ, []⟩
  | .block body _, σ => execAll rounds body σ
  | .expr e _, σ => do
    let (_, σ) ← (e.run σ).toOption
    some ⟨.next, σ, []⟩
  | .empty _, σ => some ⟨.next, σ, []⟩
  | .function _ _ body _, σ => some ⟨.next, σ, unreached (branchCountAll body)⟩
  | .forLoop _ _ _ _ _, _ | .breakLoop _, _ | .continueLoop _, _ => none

/-- Runs what stands behind `else`, if anything does. -/
def Stmt.execElse (rounds : Nat) : Option Stmt → Store → Option RunResult
  | none, σ => some ⟨.next, σ, []⟩
  | some a, σ => a.exec rounds σ

/-- Runs statements in order, up to the first that returns. -/
def Stmt.execAll (rounds : Nat) : List Stmt → Store → Option RunResult
  | [], σ => some ⟨.next, σ, []⟩
  | s :: ss, σ => do
    let out ← s.exec rounds σ
    match out.flow with
    | .next =>
      let rest ← execAll rounds ss out.store
      some { rest with tests := out.tests ++ rest.tests }
    | .returned v => some ⟨.returned v, out.store, out.tests ++ unreached (branchCountAll ss)⟩

end

attribute [local simp] Stmt.exec Stmt.execElse Stmt.execAll

/-! ## What a run is made of -/

/-- What is left of a result is its value, if it has one. -/
theorem toOption_eq_some {ε α : Type} {x : Except ε α} {a : α} :
    x.toOption = some a ↔ x = .ok a := by
  cases x with
  | error e => exact ⟨fun h => (by cases h), fun h => (by cases h)⟩
  | ok b => exact ⟨fun h => (by cases h; rfl), fun h => (by cases h; rfl)⟩

namespace Stmt

variable {rounds : Nat} {σ : Store} {out : RunResult} {s : Span}

/-- A declaration runs to the store behind its names. -/
theorem exec_declare {word : DeclareWord} {ds : List Declarator} :
    (declare word ds s).exec rounds σ = some out ↔ ∃ τ, σ.declareAll ds = .ok τ ∧
      out = ⟨.next, τ, []⟩ := by
  simp [Option.bind_eq_some_iff, toOption_eq_some, @eq_comm RunResult out]

/-- An expression that stands alone runs to the store behind it. -/
theorem exec_expr {e : Expr} :
    (expr e s).exec rounds σ = some out ↔ ∃ v τ, e.run σ = .ok (v, τ) ∧ out = ⟨.next, τ, []⟩ := by
  simp [Option.bind_eq_some_iff, toOption_eq_some, @eq_comm RunResult out]

/-- A `return` ends the run with the value of its expression. -/
theorem exec_ret {e : Expr} :
    (ret (some e) s).exec rounds σ = some out ↔ ∃ v τ, e.run σ = .ok (v, τ) ∧
      out = ⟨.returned v, τ, []⟩ := by
  simp [Option.bind_eq_some_iff, toOption_eq_some, @eq_comm RunResult out]

/-- A branch runs the side that its test selects. -/
theorem exec_branch {t : Expr} {c : Stmt} {a : Option Stmt} :
    (branch t c a s).exec rounds σ = some out ↔ ∃ v τ, t.run σ = .ok (v, τ) ∧
      if v.truthy then ∃ o, c.exec rounds τ = some o ∧
        out = ⟨o.flow, o.store, [true] :: (o.tests ++ unreached (branchCountElse a))⟩
      else ∃ o, execElse rounds a τ = some o ∧
          out = ⟨o.flow, o.store, [false] :: (unreached c.branchCount ++ o.tests)⟩ := by
  simp only [exec, Option.bind_eq_bind, Option.bind_eq_some_iff, toOption_eq_some, Prod.exists]
  constructor
  · rintro ⟨v, τ, ht, h⟩
    refine ⟨v, τ, ht, ?_⟩
    split at h
    · rename_i htrue
      rw [if_pos htrue]
      obtain ⟨o, ho, heq⟩ := Option.bind_eq_some_iff.1 h
      cases heq
      exact ⟨o, ho, rfl⟩
    · rename_i hfalse
      rw [if_neg hfalse]
      obtain ⟨o, ho, heq⟩ := Option.bind_eq_some_iff.1 h
      cases heq
      exact ⟨o, ho, rfl⟩
  · rintro ⟨v, τ, ht, h⟩
    refine ⟨v, τ, ht, ?_⟩
    split at h
    · rename_i htrue
      obtain ⟨o, ho, rfl⟩ := h
      rw [if_pos htrue, ho]
      rfl
    · rename_i hfalse
      obtain ⟨o, ho, rfl⟩ := h
      rw [if_neg hfalse, ho]
      rfl

/-- Statements run up to the first that returns. -/
theorem execAll_cons {first : Stmt} {rest : List Stmt} :
    execAll rounds (first :: rest) σ = some out ↔ ∃ o, first.exec rounds σ = some o ∧
      ((o.flow = .next ∧ ∃ o', execAll rounds rest o.store = some o' ∧
        out = ⟨o'.flow, o'.store, o.tests ++ o'.tests⟩) ∨
        ∃ v, o.flow = .returned v ∧
          out = ⟨.returned v, o.store, o.tests ++ unreached (branchCountAll rest)⟩) := by
  simp only [execAll, Option.bind_eq_bind, Option.bind_eq_some_iff]
  refine exists_congr fun o => and_congr_right fun _ => ?_
  cases hflow : o.flow with
  | next =>
    simp only [Option.bind_eq_some_iff, true_and, reduceCtorEq, false_and, exists_false, or_false]
    exact exists_congr fun o' => and_congr_right fun _ =>
      ⟨fun h => (by cases h; rfl), fun h => (by rw [h])⟩
  | returned v =>
    simp only [reduceCtorEq, false_and, Flow.returned.injEq, false_or, exists_eq_left']
    exact ⟨fun h => (by cases h; rfl), fun h => (by rw [h])⟩

end Stmt

/-! ## Where a statement stands does not matter -/

/-- Where declared names stand does not matter. -/
theorem Store.declareAll_eraseSpans (ds : List Declarator) (σ : Store) :
    σ.declareAll (ds.map Declarator.eraseSpans) = σ.declareAll ds := by
  induction ds generalizing σ with
  | nil => rfl
  | cons d ds ih =>
    obtain ⟨name, _ | e, span⟩ := d
    · exact ih _
    · simp only [List.map_cons, Declarator.eraseSpans, Option.map_some, declareAll,
        Expr.run_eraseSpans, ih]

namespace Stmt

/-- Where the test of a loop stands does not matter. -/
theorem loop_eraseSpans (test : Expr) (body : Store → Option RunResult) (rounds : Nat) (σ : Store)
    (tests : List (List Bool)) :
    loop test.eraseSpans body rounds σ tests = loop test body rounds σ tests := by
  induction rounds generalizing σ tests with
  | zero => simp only [loop, Expr.run_eraseSpans]
  | succ rounds ih => simp only [loop, Expr.run_eraseSpans, ih]

mutual

/-- Erasing spans keeps the number of branches. -/
theorem branchCount_eraseSpans : (s : Stmt) → s.eraseSpans.branchCount = s.branchCount
  | .function _ _ body _ | .block body _ => branchCountAll_eraseSpans body
  | .branch t c none s => congrArg Nat.succ (branchCount_eraseSpans c)
  | .branch t c (some a) s => by
    have hc := branchCount_eraseSpans c
    have ha := branchCount_eraseSpans a
    unfold branchCount at hc ha ⊢
    simp only [eraseSpans, branchLines, List.length_cons, List.length_append, hc, ha]
  | .whileLoop _ body _ | .forLoop _ _ _ body _ => branchCount_eraseSpans body
  | .declare _ _ _ | .ret _ _ | .expr _ _ | .breakLoop _ | .continueLoop _ | .empty _ => rfl

/-- The same for statements in a row. -/
theorem branchCountAll_eraseSpans :
    (ss : List Stmt) → branchCountAll (eraseSpansAll ss) = branchCountAll ss
  | [] => rfl
  | s :: ss => by
    have hs := branchCount_eraseSpans s
    have hss := branchCountAll_eraseSpans ss
    unfold branchCount at hs
    unfold branchCountAll at hss ⊢
    simp only [eraseSpansAll, branchLinesAll, List.length_append, hs, hss]

end

mutual

/-- Where a statement stands does not matter to its run. -/
theorem exec_eraseSpans (rounds : Nat) :
    (s : Stmt) → (σ : Store) → s.eraseSpans.exec rounds σ = s.exec rounds σ
  | .function _ _ body _, σ => by simp only [eraseSpans, exec, branchCountAll_eraseSpans]
  | .declare _ ds _, σ => by simp only [eraseSpans, exec, Store.declareAll_eraseSpans]
  | .branch t c none _, σ => by
    simp only [eraseSpans, exec, Expr.run_eraseSpans, exec_eraseSpans rounds c,
      branchCount_eraseSpans]
  | .branch t c (some a) _, σ => by
    simp only [eraseSpans, exec, execElse, branchCountElse, Expr.run_eraseSpans,
      exec_eraseSpans rounds c, exec_eraseSpans rounds a, branchCount_eraseSpans]
  | .whileLoop t body _, σ => by
    have hbody : body.eraseSpans.exec rounds = body.exec rounds :=
      funext (exec_eraseSpans rounds body)
    simp only [eraseSpans, exec, hbody, loop_eraseSpans, branchCount_eraseSpans]
  | .ret none _, σ => rfl
  | .ret (some e) _, σ => by simp only [eraseSpans, Option.map_some, exec, Expr.run_eraseSpans]
  | .block body _, σ => execAll_eraseSpans rounds body σ
  | .expr e _, σ => by simp only [eraseSpans, exec, Expr.run_eraseSpans]
  | .empty _, σ | .forLoop _ _ _ _ _, σ | .breakLoop _, σ | .continueLoop _, σ => rfl

/-- The same for statements in a row. -/
theorem execAll_eraseSpans (rounds : Nat) : (ss : List Stmt) → (σ : Store) →
    execAll rounds (eraseSpansAll ss) σ = execAll rounds ss σ
  | [], σ => rfl
  | s :: ss, σ => by
    simp only [eraseSpansAll, execAll, exec_eraseSpans rounds s, execAll_eraseSpans rounds ss,
      branchCountAll_eraseSpans]

end

end Stmt

end BranchPaint
