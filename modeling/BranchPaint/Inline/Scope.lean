import BranchPaint.Script.Tree
import BranchPaint.Text.Index

/-!
# Scopes

A scope binds names to expressions. The latest binding of a name is the one that counts. Scopes are
values: a branch or a loop body that works on its own copy leaves the scope around it as it was.
-/

namespace BranchPaint

/-- Names and the expressions they are bound to, latest first. -/
structure Scope where
  entries : List (String × Expr)

namespace Scope

/-- The scope without bindings. -/
def empty : Scope := ⟨[]⟩

instance : Inhabited Scope := ⟨empty⟩

/-- The scope in which `name` is bound to `e`, and all else as before. -/
def bind (scope : Scope) (name : String) (e : Expr) : Scope :=
  ⟨(name, e) :: scope.entries⟩

/-- The expression that a name is bound to. -/
def lookup? (scope : Scope) (name : String) : Option Expr :=
  scope.entries.lookup name

/-- Is the name bound? -/
def isBound (scope : Scope) (name : String) : Bool :=
  (scope.lookup? name).isSome

/-- Binds each name to itself. -/
def bindOpaque (scope : Scope) (names : List String) : Scope :=
  names.foldl (fun s n => s.bind n (.name n)) scope

/-- The element of the list bound to `name` that the text `index` names. -/
def element? (scope : Scope) (name index : String) : Option Expr :=
  match scope.lookup? name with
  | some (.list es _) => (indexOfText? index).bind fun i => es[i]?
  | _ => none

end Scope

end BranchPaint
