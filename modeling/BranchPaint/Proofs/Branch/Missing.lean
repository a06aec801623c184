import BranchPaint.Proofs.Branch.Unread
import BranchPaint.Proofs.Grammar.Formed

/-!
# Parameters without a value

When the values run out, the parameters that are left get none. From there on nothing is bound any
more, so throughout the body of its function such a parameter stands for what its name stood for
before. But a name stays bound for the rest of the walk and not only for the body of its function.
So the parameter is unbound if and only if no parameter before it has the same name and a value
(`Program.scope_at_missing`); otherwise a value that was meant for another parameter decides its
branches (`Program.missing_takes_earlier_value`).
-/

namespace BranchPaint

/-! ## Statements on the way of a walk -/

namespace Stmt

/-- What a walk comes upon at a statement itself, before it goes into it. -/
def ownVisits : Stmt → List Visit
  | .function _ ps _ _ => ps.map .param
  | .branch t _ a s => [.branch t s.startLine a]
  | _ => []

/-- Statements in a row are visited in order. -/
theorem visitsAll_append (ss ss' : List Stmt) :
    visitsAll (ss ++ ss') = visitsAll ss ++ visitsAll ss' := by
  induction ss with
  | nil => rfl
  | cons s ss ih => rw [List.cons_append, visitsAll, visitsAll, ih, List.append_assoc]

/-- A statement is visited in front of those inside it. -/
theorem visits_eq (s : Stmt) : s.visits = s.ownVisits ++ visitsAll s.children := by
  cases s with
  | branch t c a s =>
    cases a
    all_goals simp [visits, ownVisits, children, visitsAll]
  | whileLoop | forLoop => simp [visits, ownVisits, children, visitsAll]
  | _ => rfl

/-- On its way through statements, a walk comes to the given one behind the given visits. -/
inductive Meets : List Stmt → List Visit → Stmt → Prop
  | here (left : List Stmt) (s : Stmt) (right : List Stmt) : Meets (left ++ s :: right)
      (visitsAll left) s
  | inside (left : List Stmt) {s t : Stmt} (right : List Stmt) {before : List Visit}
      (h : Meets s.children before t) : Meets (left ++ s :: right)
      (visitsAll left ++ (s.ownVisits ++ before)) t

/-- What a walk comes upon: first what lies before the statement, then what lies in it. -/
theorem Meets.prefix_visits {ss : List Stmt} {before : List Visit} {t : Stmt}
    (h : Meets ss before t) : before ++ t.visits <+: visitsAll ss := by
  induction h with
  | here left s right =>
    rw [visitsAll_append, visitsAll, ← List.append_assoc]
    exact List.prefix_append _ _
  | inside left right h ih =>
    rename_i s t before
    rw [visitsAll_append, visitsAll, visits_eq s, List.append_assoc, List.append_assoc,
      List.append_assoc, List.prefix_append_right_inj, List.prefix_append_right_inj]
    exact ih.trans (List.prefix_append _ _)

/-- Up to a branch that is met, the visits are a first part of all visits. -/
theorem Meets.prefix_branch {ss : List Stmt} {before : List Visit} {t : Expr} {c : Stmt}
    {a : Option Stmt} {s : Span} (h : Meets ss before (.branch t c a s)) :
    before ++ [.branch t s.startLine a] <+: visitsAll ss := by
  refine List.IsPrefix.trans ?_ h.prefix_visits
  rw [visits_eq, List.prefix_append_right_inj]
  exact List.prefix_append _ _

/-- What a walk comes to inside of a statement that it comes to. -/
theorem Meets.trans {ss : List Stmt} {before inside : List Visit} {s t : Stmt}
    (hs : Meets ss before s) (ht : Meets s.children inside t) :
    Meets ss (before ++ (s.ownVisits ++ inside)) t := by
  induction hs with
  | here left s right => exact .inside left right ht
  | inside left right h ih =>
    rw [List.append_assoc, List.append_assoc]
    exact .inside left right (ih ht)

end Stmt

/-! ## Names without a value -/

/-- What is left over does not change pairs. -/
theorem zip_append_of_length_le {α β : Type} {xs : List α} {ys : List β} (h : ys.length ≤ xs.length)
    (more : List α) : (xs ++ more).zip ys = xs.zip ys := by
  induction xs generalizing ys with
  | nil =>
    obtain rfl := List.eq_nil_of_length_eq_zero (Nat.le_zero.1 h)
    simp
  | cons x xs ih =>
    cases ys with
    | nil => rfl
    | cons y ys => exact congrArg ((x, y) :: ·) (ih (Nat.le_of_succ_le_succ h))

/-- Parameters behind the last value bind nothing. -/
theorem Scope.ofParams_append {params : List String} {values : List Expr}
    (h : values.length ≤ params.length) (more : List String) :
    Scope.ofParams (params ++ more) values = Scope.ofParams params values := by
  unfold ofParams
  rw [zip_append_of_length_le h]

/-- A name that is neither bound nor has a value of its own is reported. -/
theorem Expr.evalAt_unbound {scope : Scope} {name : String} (h : scope.lookup? name = none)
    (hname : name ∉ ["undefined", "NaN", "Infinity"]) (s : Span) (line : Nat) :
    (Expr.ident name s).evalAt scope line = .error ⟨line, .unbound name⟩ := by
  simp only [List.mem_cons, List.not_mem_nil, or_false, not_or] at hname
  simp [evalAt, eval, evalWith, Scope.value, h, builtinName, hname, Except.mapError]

/-! ## Walks -/

/-- The state of a walk that has come through the visits. -/
theorem Walk.After.of_foldlM {values : List Expr} {done : List Visit} {w : Walk}
    (h : done.foldlM Walk.step (.start values) = .ok w) : w.After values done := by
  rcases (Walk.After.start values).run done with ⟨w', hrun, hafter⟩ | ⟨_, _, _, _, _, _, hrun, -⟩
  · rw [h] at hrun
    cases hrun
    exact hafter
  · rw [h] at hrun
    cases hrun

/-- A walk that comes to a branch and cannot decide it ends there. -/
theorem Program.classify_of_evalAt_error {p : Program} {values : List Expr}
    {before : List Visit} {t : Expr} {line : Nat} {a : Option Stmt} {w : Walk}
    {err : EvalError} (hpre : before ++ [.branch t line a] <+: p.visits)
    (hw : before.foldlM Walk.step (.start values) = .ok w)
    (herr : t.evalAt w.scope line = .error err) : p.classify values = .error err := by
  obtain ⟨rest, hrest⟩ := hpre
  have hstep : w.step (.branch t line a) = .error err := by
    rw [Walk.step, herr]
    rfl
  have hwalk : p.visits.foldlM Walk.step (.start values) = .error err := by
    rw [← hrest, List.append_assoc, List.foldlM_append, hw]
    change ([Visit.branch t line a] ++ rest).foldlM Walk.step w = _
    rw [List.singleton_append, List.foldlM_cons, hstep]
    rfl
  unfold visits at hwalk
  unfold classify
  rw [Stmt.walkAll_eq, hwalk]
  rfl

/-- A parameter for which there is no value, in the body of its function. At every branch there,
also in functions inside, names stand for what they stood for in front of the parameter. So the
parameter is not bound if and only if no parameter before it has its name and a value; and then a
branch with just this name for its test is not decided, unless the name has a value of its own. -/
theorem Program.scope_at_missing {p : Program} {values : List Expr} {before : List Visit}
    {f : String} {ps : List String} {body : List Stmt} {s : Span}
    (hfunction : Stmt.Meets p.body before (.function f ps body s)) {i : Nat} {name : String}
    (hi : ps[i]? = some name) (hmissing : values.length ≤ (paramsOf before).length + i)
    {inside : List Visit} {t : Expr} {c : Stmt} {a : Option Stmt} {bs : Span}
    (hbranch : Stmt.Meets body inside (.branch t c a bs)) {w : Walk}
    (hw : (before ++ (ps.map Visit.param ++ inside)).foldlM Walk.step (.start values) = .ok w) :
    w.scope = Scope.ofParams (paramsOf before ++ ps.take i) values ∧
    (w.scope.lookup? name = none ↔ name ∉ (paramsOf before ++ ps.take i).take values.length) ∧
    (w.scope.lookup? name = none → name ∉ ["undefined", "NaN", "Infinity"] →
      ∀ ts, t = .ident name ts →
      p.classify values = .error ⟨bs.startLine, .unbound name⟩) := by
  have hlength : i ≤ ps.length := Nat.le_of_lt (List.getElem?_eq_some_iff.1 hi).1
  have hearlier : values.length ≤ (paramsOf before ++ ps.take i).length := by
    rw [List.length_append, List.length_take_of_le hlength]
    exact hmissing
  have hparams : paramsOf (before ++ (ps.map .param ++ inside)) =
      (paramsOf before ++ ps.take i) ++ (ps.drop i ++ paramsOf inside) := by
    rw [paramsOf_append, paramsOf_append, paramsOf_params, List.append_assoc,
      ← List.append_assoc (ps.take i), List.take_append_drop]
  -- the parameters from number `i` on find no value left, here and in functions inside
  have hscope : w.scope = Scope.ofParams (paramsOf before ++ ps.take i) values := by
    rw [(Walk.After.of_foldlM hw).scope, hparams, Scope.ofParams_append hearlier]
  refine ⟨hscope, by rw [hscope, Scope.lookup?_ofParams_eq_none], fun hnone hname ts ht => ?_⟩
  subst ht
  exact classify_of_evalAt_error (hfunction.trans hbranch).prefix_branch hw
    (Expr.evalAt_unbound hnone hname ts bs.startLine)

/-- The function `g(b, a)` has a value for `b` only. The branch on `a` is not decided. -/
theorem Program.scope_at_missing_second :
    let branch : Stmt := .branch (.name "a") (.empty .nowhere) none .nowhere
    let g : Stmt := .function "g" ["b", "a"] [.block [branch] .nowhere] .nowhere
    let p : Program := ⟨[.function "f" ["c"] [] .nowhere, g], .nowhere⟩
    let values : List Expr := [.bool true .nowhere, .bool true .nowhere]
    Stmt.Meets p.body [.param "c"] g ∧ Stmt.Meets [.block [branch] .nowhere] [] branch ∧
      p.classify values = .error ⟨0, .unbound "a"⟩ := by
  intro branch g p values
  have hg : Stmt.Meets p.body [.param "c"] g := .here [.function "f" ["c"] [] .nowhere] g []
  have hbranch : Stmt.Meets [.block [branch] .nowhere] [] branch :=
    .inside [] [] (.here [] branch [])
  have hmissing : values.length ≤ (paramsOf [.param "c"]).length + 1 := by decide
  obtain ⟨-, hnone, hreport⟩ := scope_at_missing hg rfl hmissing hbranch rfl
  exact ⟨hg, hbranch, hreport (hnone.2 (by decide)) (by decide) .nowhere rfl⟩

/-- A value for the parameter of another function decides the branch of a parameter that has none.
The third parameter, `a`, has no value, but the first has the same name. -/
theorem Program.missing_takes_earlier_value : ∃ p,
    parse "function f(a) \x7b \x7d function g(b, a) \x7b if (a) \x7b \x7d \x7d" = .ok p ∧
      p.params = ["a", "b", "a"] ∧
    (p.classify [.bool true .nowhere, .bool true .nowhere]).toOption.map (·.taken.toList) =
      some [0] :=
  exists_parse "function f(a) \x7b \x7d function g(b, a) \x7b if (a) \x7b \x7d \x7d"
    _ (by decide +kernel)

end BranchPaint
