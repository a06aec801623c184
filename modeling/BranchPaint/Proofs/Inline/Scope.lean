import BranchPaint.Inline.Expression
import Mathlib

/-!
# What names are bound to

Looking a name up in scopes that were built by binding: the latest binding counts, all other names
are as before. An assignment binds its name to the value that it would store (`Scope.stored`),
whether the store stays or not. An element is picked only where the name is bound to a list.
-/

namespace BranchPaint.Scope

variable (scope : Scope) (name other : String) (e : Expr)

/-- In the empty scope no name is bound. -/
@[simp] theorem lookup?_empty : empty.lookup? name = none := rfl

/-- A name that is bound is found. -/
@[simp] theorem lookup?_bind_self : (scope.bind name e).lookup? name = some e := by
  simp [lookup?, bind]

/-- Binding a name does not change what other names are bound to. -/
theorem lookup?_bind_of_ne {name other : String} (h : other ≠ name) :
    (scope.bind name e).lookup? other = scope.lookup? other := by
  have hne : (other == name) = false := by simpa using h
  simp [lookup?, bind, List.lookup_cons, hne]

/-- The value that an assignment stores. -/
def stored (op : AssignOp) (value : Expr) (span : Span) : Expr :=
  match op with
  | .assign => value
  | .compound b => .binary b ((scope.lookup? name).getD (.name name)) value span

/-- An assignment is kept if the loop watches its name, and binds the name in any case. -/
theorem store_eq (test : LoopTest) (op : AssignOp) (nameSpan : Span) (value : Expr) (span : Span) :
    scope.store test op name nameSpan value span =
      (if test.observes name then .kept (.assign op (.ident name nameSpan) value span)
        else .absorbed (scope.stored name op value span),
            scope.bind name (scope.stored name op value span)) := by
  unfold store stored
  cases op
  all_goals
    dsimp only
    split
    all_goals rfl

/-! ## Elements -/

variable {scope name e} {index : String}

/-- An element that is picked stands in a list that the name is bound to, at the place that the
index names. -/
theorem element?_eq_some (h : scope.element? name index = some e) :
    ∃ es s i, scope.lookup? name = some (.list es s) ∧ indexOfText? index = some i ∧
      es[i]? = some e := by
  unfold element? at h
  split at h
  · rename_i es s hlookup
    obtain ⟨i, hi, he⟩ := Option.bind_eq_some_iff.1 h
    exact ⟨es, s, i, hlookup, hi, he⟩
  · cases h

/-- No element is picked where the name is bound to no list. -/
theorem element?_eq_none (h : ∀ es s, scope.lookup? name ≠ some (.list es s)) :
    scope.element? name index = none := by
  unfold element?
  split
  · rename_i es s hlookup
    exact absurd hlookup (h es s)
  · rfl

end BranchPaint.Scope
