import BranchPaint.Proofs.Script.Tree
import Mathlib

/-!
# Names in trees

What is found node by node in an expression (`Expr.collect`): the names that stand in it as
variables (`Expr.mentions`) and the names that its assignments store to (`Expr.assigned`). The name
behind a point is neither. `Stmt.assigned` collects the stores of a whole statement.

`Expr.Pure` expressions store nothing and call nothing.
-/

namespace BranchPaint

namespace Expr

variable {α : Type} (find : Expr → List α)

mutual

/-- What is found at the expression and inside it. -/
def collect : Expr → List α
  | .list es s => find (.list es s) ++ collectAll es
  | .sequence es s => find (.sequence es s) ++ collectAll es
  | .member o p true s => find (.member o p true s) ++ (o.collect ++ p.collect)
  | .member o p false s => find (.member o p false s) ++ o.collect
  | .call f args s => find (.call f args s) ++ (f.collect ++ collectAll args)
  | .binary op l r s => find (.binary op l r s) ++ (l.collect ++ r.collect)
  | .logical op l r s => find (.logical op l r s) ++ (l.collect ++ r.collect)
  | .assign op t v s => find (.assign op t v s) ++ (t.collect ++ v.collect)
  | .unary op a s => find (.unary op a s) ++ a.collect
  | .update op b a s => find (.update op b a s) ++ a.collect
  | .ternary c t e s => find (.ternary c t e s) ++ (c.collect ++ (t.collect ++ e.collect))
  | .bool v s => find (.bool v s)
  | .num v s => find (.num v s)
  | .str v s => find (.str v s)
  | .null s => find (.null s)
  | .ident n s => find (.ident n s)

/-- What is found inside the expressions. -/
def collectAll : List Expr → List α
  | [] => []
  | e :: es => e.collect ++ collectAll es

end

/-- What is found in expressions in a row is found in each, in order. -/
theorem collectAll_eq (es : List Expr) : collectAll find es = es.flatMap (collect find) := by
  induction es with
  | nil => rfl
  | cons e es ih => rw [collectAll, ih, List.flatMap_cons]

/-- What is found in an expression is found at its node or in its operands. -/
theorem collect_eq (e : Expr) : e.collect find = find e ++ e.children.flatMap (collect find) := by
  cases e with
  | member o p computed s =>
    cases computed
    all_goals simp [collect, children]
  | _ => simp [collect, children, collectAll_eq]

variable {find} in
/-- What is found is found at some node. -/
theorem mem_collect {e : Expr} {x : α} :
    x ∈ e.collect find ↔ x ∈ find e ∨ ∃ c ∈ e.children, x ∈ c.collect find := by
  rw [collect_eq, List.mem_append, List.mem_flatMap]

/-! ## Variables and stores -/

/-- The name that an expression is. -/
def ownName : Expr → List String
  | .ident n _ => [n]
  | _ => []

/-- The name that an expression itself stores to. -/
def ownStore : Expr → List String
  | .assign _ (.ident n _) _ _ => [n]
  | _ => []

/-- The names that stand in an expression as variables. -/
def mentions (e : Expr) : List String := e.collect ownName

/-- The names that the assignments in an expression store to. -/
def assigned (e : Expr) : List String := e.collect ownStore

/-- What an operand mentions is mentioned. -/
theorem mem_mentions_of_child {e c : Expr} (hc : c ∈ e.children) {n : String} (h : n ∈ c.mentions) :
    n ∈ e.mentions :=
  mem_collect.2 (.inr ⟨c, hc, h⟩)

/-- What holds of all mentioned names holds of those that an operand mentions. -/
theorem forall_mentions_of_child {S : String → Prop} {e c : Expr} (h : ∀ n ∈ e.mentions, S n)
    (hc : c ∈ e.children) : ∀ n ∈ c.mentions, S n :=
  fun n hn => h n (mem_mentions_of_child hc hn)

/-- What an operand stores to is stored to. -/
theorem mem_assigned_of_child {e c : Expr} (hc : c ∈ e.children) {n : String} (h : n ∈ c.assigned) :
    n ∈ e.assigned :=
  mem_collect.2 (.inr ⟨c, hc, h⟩)

section Assigned

variable (o p l r c t e a f v : Expr) (es args : List Expr) (s ns : Span)

/-- A member behind a dot stores what its object stores. -/
@[simp] theorem assigned_dotted : (member o p false s).assigned = o.assigned := rfl

/-- An indexed member stores what its object stores, and then what its index does. -/
@[simp] theorem assigned_computed : (member o p true s).assigned = o.assigned ++ p.assigned := rfl

/-- The left side stores first, and then the right side. -/
@[simp] theorem assigned_binary (op : BinaryOp) :
    (binary op l r s).assigned = l.assigned ++ r.assigned := rfl

/-- So it is with the sides of a logical operator. -/
@[simp] theorem assigned_logical (op : LogicalOp) :
    (logical op l r s).assigned = l.assigned ++ r.assigned := rfl

/-- An operator stores what its operand stores. -/
@[simp] theorem assigned_unary (op : UnaryOp) : (unary op a s).assigned = a.assigned := rfl

/-- The condition stores first, and then the two choices. -/
@[simp] theorem assigned_ternary :
    (ternary c t e s).assigned = c.assigned ++ (t.assigned ++ e.assigned) := rfl

/-- A list stores what its elements store. -/
@[simp] theorem assigned_list : (list es s).assigned = es.flatMap assigned :=
  collectAll_eq ownStore es

/-- A sequence stores what its parts store. -/
@[simp] theorem assigned_sequence : (sequence es s).assigned = es.flatMap assigned :=
  collectAll_eq ownStore es

/-- A call stores what the called expression stores, and then what its arguments do. -/
@[simp] theorem assigned_call : (call f args s).assigned = f.assigned ++ args.flatMap assigned :=
  congrArg (f.assigned ++ ·) (collectAll_eq ownStore args)

/-- A name stores nothing. -/
@[simp] theorem assigned_ident (n : String) : (ident n s).assigned = [] := rfl

/-- An assignment to a name stores to it, besides what its right side stores. -/
@[simp] theorem assigned_assign (op : AssignOp) (n : String) :
    (assign op (.ident n ns) v s).assigned = n :: v.assigned := rfl

/-- Any assignment stores to its own target, and what both sides store. -/
theorem assigned_store (op : AssignOp) :
    (assign op t v s).assigned = (assign op t v s).ownStore ++ (t.assigned ++ v.assigned) := rfl

end Assigned

/-- A name that is stored to is the target of an assignment, which is the expression itself or
stands further inside. -/
theorem assigned_cases {e : Expr} {n : String} (h : n ∈ e.assigned) :
    (∃ op ns v s, e = .assign op (.ident n ns) v s) ∨ ∃ c ∈ e.children, n ∈ c.assigned := by
  refine (mem_collect.1 h).imp_left fun hown => ?_
  unfold ownStore at hown
  split at hown
  · obtain rfl := List.mem_singleton.1 hown
    exact ⟨_, _, _, _, rfl⟩
  · cases hown

/-- Every name that is stored to is mentioned. -/
theorem mem_mentions_of_mem_assigned {e : Expr} {n : String} (h : n ∈ e.assigned) :
    n ∈ e.mentions := by
  induction e using Expr.induction with
  | step e ih =>
  rcases assigned_cases h with ⟨op, ns, v, s, rfl⟩ | ⟨c, hc, hmem⟩
  · exact mem_mentions_of_child (c := .ident n ns) List.mem_cons_self (List.mem_singleton_self n)
  · exact mem_mentions_of_child hc (ih c hc hmem)

/-- An expression without stores has operands without stores. -/
theorem assigned_eq_nil_of_child {e c : Expr} (h : e.assigned = []) (hc : c ∈ e.children) :
    c.assigned = [] :=
  List.eq_nil_iff_forall_not_mem.2 fun _ hn => List.eq_nil_iff_forall_not_mem.1 h
    _ (mem_assigned_of_child hc hn)

/-! ## Pure expressions -/

/-- Neither a store, a step nor a call. -/
def Pure : Expr → Prop
  | .assign _ _ _ _ | .update _ _ _ _ | .call _ _ _ => False
  | _ => True

instance : DecidablePred Pure := fun e =>
  match e with
  | .assign _ _ _ _ | .update _ _ _ _ | .call _ _ _ => inferInstanceAs (Decidable False)
  | .bool _ _ | .num _ _ | .str _ _ | .null _ | .list _ _ | .ident _ _ | .member _ _ _ _
  | .binary _ _ _ _
  | .logical _ _ _ _ | .unary _ _ _ | .ternary _ _ _ _ | .sequence _ _ =>
    inferInstanceAs (Decidable True)

/-- A pure expression stores nothing. -/
theorem assigned_of_pure {e : Expr} (h : e.Forall Pure) : e.assigned = [] := by
  refine List.eq_nil_iff_forall_not_mem.2 fun n hn => ?_
  induction h with
  | @node e here inside ih =>
    rcases assigned_cases hn with ⟨op, ns, v, s, rfl⟩ | ⟨c, hc, hmem⟩
    · exact here
    · exact ih c hc hmem

end Expr

end BranchPaint
