import BranchPaint.Proofs.Store.Expression

/-!
# Evaluation does not look at spans

The value of an expression, or the reason why it has none, depends on what the expression says and
not on where it stands (`Expr.evalWith_eraseSpans`). Two nodes are evaluated by what stands inside
them and need a word: a name behind a point is a key and not evaluated (`Expr.dottedName?`), and the
type of a bare name is known even if the name has no value.
-/

namespace BranchPaint

namespace Expr

/-- The name behind a point. -/
def dottedName? : (computed : Bool) → Expr → Option String
  | false, .ident n _ => some n
  | _, _ => none

/-- The name behind a dot does not depend on where it stands. -/
theorem dottedName?_eraseSpans (computed : Bool) (p : Expr) :
    dottedName? computed p.eraseSpans = dottedName? computed p := by
  cases computed with
  | true => rfl
  | false =>
    cases p
    all_goals rfl

/-- The key of a member: the name behind a point, or the value of the property. -/
def keyWith (names : String → Except EvalCause Value) (computed : Bool) (p : Expr) :
    Except EvalCause Value :=
  match dottedName? computed p with
  | some n => .ok (.str n)
  | none => p.evalWith names

/-- A member is looked up by its key, in the value of the object. -/
theorem evalWith_member (names : String → Except EvalCause Value) (o p : Expr)
    (computed : Bool) (s : Span) : (member o p computed s).evalWith names = (do
      let object ← o.evalWith names
      let key ← keyWith names computed p
      memberOf object key) := by
  cases computed with
  | true => exact evalWith_computed names o p s
  | false =>
    cases p
    all_goals rfl

mutual

/-- Where an expression stands does not matter. -/
theorem evalWith_eraseSpans (names : String → Except EvalCause Value) : (e : Expr) →
    e.eraseSpans.evalWith names = e.evalWith names
  | .bool _ _ | .num _ _ | .str _ _ | .null _ | .ident _ _ | .call _ _ _ | .update _ _ _ _
  | .assign _ _ _ _ => rfl
  | .list es _ | .sequence es _ => by
    simp only [eraseSpans, evalWith, evalAllWith_eraseSpans names es]
  | .member o p computed _ => by
    have hkey : keyWith names computed p.eraseSpans = keyWith names computed p := by
      simp only [keyWith, dottedName?_eraseSpans, evalWith_eraseSpans names p]
    simp only [eraseSpans, evalWith_member, evalWith_eraseSpans names o, hkey]
  | .binary _ l r _ => by
    simp only [eraseSpans, evalWith, evalWith_eraseSpans names l, evalWith_eraseSpans names r]
  | .logical op l r _ => by
    cases op
    all_goals simp only [eraseSpans, evalWith, evalWith_eraseSpans names l,
      evalWith_eraseSpans names r]
  | .unary op a _ => by
    by_cases hasks : asksTypeOfName op a
    · obtain ⟨rfl, n, ns, rfl⟩ := exists_ident_of_asksTypeOfName hasks
      rfl
    · have hasks' : ¬ asksTypeOfName op a.eraseSpans := by rwa [asksTypeOfName_eraseSpans]
      simp only [eraseSpans, evalWith_unary_of_not hasks, evalWith_unary_of_not hasks',
        evalWith_eraseSpans names a]
  | .ternary c t e _ => by
    simp only [eraseSpans, evalWith, evalWith_eraseSpans names c, evalWith_eraseSpans names t,
      evalWith_eraseSpans names e]

/-- The same for expressions in a row. -/
theorem evalAllWith_eraseSpans (names : String → Except EvalCause Value) : (es : List Expr) →
    evalAllWith names (eraseSpansAll es) = evalAllWith names es
  | [] => rfl
  | e :: es => by
    simp only [eraseSpansAll, evalAllWith, evalWith_eraseSpans names e,
      evalAllWith_eraseSpans names es]

end

/-- Expressions that differ in their spans alone have the same value, or fail alike on the same
line. -/
theorem evalAt_congr {e e' : Expr} (h : e.eraseSpans = e'.eraseSpans) (scope : Scope) (line : Nat) :
    e.evalAt scope line = e'.evalAt scope line := by
  unfold evalAt eval
  rw [← evalWith_eraseSpans _ e, h, evalWith_eraseSpans]

end Expr

end BranchPaint
