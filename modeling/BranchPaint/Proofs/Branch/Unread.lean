import BranchPaint.Proofs.Branch.Classify
import BranchPaint.Proofs.Inline.Scope
import BranchPaint.Proofs.Value.Evaluate

/-!
# Values that no test reads

The value of a parameter matters only if some test reads the parameter. `Program.classify_unread`
says so of two runs: two lists of values that differ at unread parameters alone lead to the same
classification, or to the same error.

Names are compared whole, and the name behind a point is no variable (`Expr.variableNames`). What is
bound to an unread name may be anything, also an expression that has no value: it is evaluated when
a test reads the name and never before. The two walks go in step (`Walk.InStep`); they may differ in
what unread names are bound to, and in nothing else.
-/

namespace BranchPaint

/-! ## Variables of an expression -/

namespace Expr

mutual

/-- The names that occur in an expression as variables, in order. A name behind a point is a key and
no variable. -/
def variableNames : Expr → List String
  | .ident n _ => [n]
  | .list es _ | .sequence es _ => variableNamesAll es
  | .member o (.ident _ _) false _ => o.variableNames
  | .member o p _ _ => o.variableNames ++ p.variableNames
  | .call f args _ => f.variableNames ++ variableNamesAll args
  | .binary _ l r _ | .logical _ l r _ | .assign _ l r _ => l.variableNames ++ r.variableNames
  | .unary _ a _ | .update _ _ a _ => a.variableNames
  | .ternary c t e _ => c.variableNames ++ (t.variableNames ++ e.variableNames)
  | .bool _ _ | .num _ _ | .str _ _ | .null _ => []

/-- The names that occur in expressions as variables, in order. -/
def variableNamesAll : List Expr → List String
  | [] => []
  | e :: es => e.variableNames ++ variableNamesAll es

end

/-- The key of a member and its object have no other variables than the member. -/
theorem variableNames_member (o p : Expr) (computed : Bool) (s : Span) :
    (member o p computed s).variableNames = o.variableNames ++
      if (dottedName? computed p).isSome then [] else p.variableNames := by
  cases computed with
  | true =>
    cases p
    all_goals rfl
  | false =>
    cases p with
    | ident n ns => exact (List.append_nil _).symm
    | _ => rfl

variable {f g : String → Except EvalCause Value}

/-- The key of a member depends on the variables of a property that is evaluated. -/
theorem keyWith_congr {computed : Bool} {p : Expr}
    (h : (dottedName? computed p).isSome = false → p.evalWith f = p.evalWith g) :
    keyWith f computed p = keyWith g computed p := by
  unfold keyWith
  cases hname : dottedName? computed p with
  | none => exact h (by rw [hname]; rfl)
  | some n => rfl

mutual

/-- The value of an expression depends on what its variables stand for and on no other name. -/
theorem evalWith_congr :
    (e : Expr) → (∀ n ∈ e.variableNames, f n = g n) → e.evalWith f = e.evalWith g
  | .bool _ _, _ | .num _ _, _ | .str _ _, _ | .null _, _ | .call _ _ _, _ | .update _ _ _ _, _
  | .assign _ _ _ _, _ => rfl
  | .ident n _, h => h n (List.mem_singleton_self n)
  | .list es _, h | .sequence es _, h => by simp only [evalWith, evalAllWith_congr es h]
  | .member o p computed _, h => by
    rw [variableNames_member] at h
    have hobject := evalWith_congr o fun n hn => h n (List.mem_append_left _ hn)
    have hkey : keyWith f computed p = keyWith g computed p := keyWith_congr fun hname =>
      evalWith_congr p fun n hn => h n (List.mem_append_right _ (by rw [hname]; exact hn))
    rw [evalWith_member, evalWith_member, hobject, hkey]
  | .binary _ l r _, h => by
    have hl := evalWith_congr l fun n hn => h n (List.mem_append_left _ hn)
    have hr := evalWith_congr r fun n hn => h n (List.mem_append_right _ hn)
    simp only [evalWith, hl, hr]
  | .logical op l r _, h => by
    have hl := evalWith_congr l fun n hn => h n (List.mem_append_left _ hn)
    have hr := evalWith_congr r fun n hn => h n (List.mem_append_right _ hn)
    cases op
    all_goals simp only [evalWith, hl, hr]
  | .unary op a _, h => by
    by_cases hasks : asksTypeOfName op a
    · obtain ⟨rfl, n, ns, rfl⟩ := exists_ident_of_asksTypeOfName hasks
      simp only [evalWith, h n (List.mem_singleton_self n)]
    · simp only [evalWith_unary_of_not hasks, evalWith_congr a h]
  | .ternary c t e _, h => by
    have hc := evalWith_congr c fun n hn => h n (List.mem_append_left _ hn)
    have ht := evalWith_congr t fun n hn =>
      h n (List.mem_append_right _ (List.mem_append_left _ hn))
    have he := evalWith_congr e fun n hn =>
      h n (List.mem_append_right _ (List.mem_append_right _ hn))
    simp only [evalWith, hc, ht, he]

/-- The same for expressions in a row. -/
theorem evalAllWith_congr :
    (es : List Expr) → (∀ n ∈ variableNamesAll es, f n = g n) → evalAllWith f es = evalAllWith g es
  | [], _ => rfl
  | e :: es, h => by
    have he := evalWith_congr e fun n hn => h n (List.mem_append_left _ hn)
    have hes := evalAllWith_congr es fun n hn => h n (List.mem_append_right _ hn)
    simp only [evalAllWith, he, hes]

end

/-- Scopes that bind the variables of a test alike decide it alike. -/
theorem evalAt_of_lookup? {e : Expr} {scope scope' : Scope}
    (h : ∀ n ∈ e.variableNames, scope.lookup? n = scope'.lookup? n) (line : Nat) :
    e.evalAt scope line = e.evalAt scope' line := by
  have hvalue : ∀ n ∈ e.variableNames, scope.value n = scope'.value n := fun n hn => by
    simp only [Scope.value, h n hn]
  unfold evalAt eval
  rw [evalWith_congr e hvalue]

end Expr

/-! ## Two walks in step -/

/-- The test of a branch. -/
def Visit.test? : Visit → Option Expr
  | param _ => none
  | branch t _ _ => some t

/-- The tests of the branches of a program, in the order of visits. -/
def Program.tests (p : Program) : List Expr := p.visits.filterMap Visit.test?

/-- The parameters of the functions of a program, in the order of visits. -/
def Program.params (p : Program) : List String := paramsOf p.visits

/-- As many values on both sides, and the same value wherever a parameter that is read has its
number. -/
structure SameWhereRead (read : String → Prop) (params : List String) (vs vs' : List Expr) :
    Prop where
  length : vs.length = vs'.length
  value {i : Nat} {name : String} : params[i]? = some name → read name → vs[i]? = vs'[i]?

/-- Two walks with the same visits ahead of them: the lines that they have marked are the same,
names that are read are bound alike, and the values still to be given out are the same wherever a
parameter that is read takes one. -/
structure Walk.InStep (read : String → Prop) (ahead : List Visit) (w w' : Walk) : Prop where
  values : SameWhereRead read (paramsOf ahead) w.values w'.values
  scope {name : String} : read name → w.scope.lookup? name = w'.scope.lookup? name
  taken : w.taken = w'.taken
  notTaken : w.notTaken = w'.notTaken

namespace Walk.InStep

variable {read : String → Prop} {ahead : List Visit} {w w' : Walk}

/-- A parameter takes its value on both sides, or on neither. -/
theorem param {name : String} (h : InStep read (.param name :: ahead) w w') :
    InStep read ahead (w.bindParams [name]) (w'.bindParams [name]) := by
  obtain ⟨values, scope, taken, notTaken⟩ := w
  obtain ⟨values', scope', taken', notTaken'⟩ := w'
  obtain ⟨⟨hlength, hvalue⟩, hscope, htaken, hnotTaken⟩ := h
  cases values with
  | nil =>
    obtain rfl : values' = [] := List.length_eq_zero_iff.1 hlength.symm
    exact ⟨⟨rfl, fun _ _ => rfl⟩, hscope, htaken, hnotTaken⟩
  | cons v vs =>
    cases values' with
    | nil => cases hlength
    | cons v' vs' =>
      refine ⟨⟨Nat.succ.inj hlength, fun {i other} hi hread => ?_⟩, fun {other} hread => ?_,
        htaken, hnotTaken⟩
      · exact hvalue (i := i + 1) hi hread
      · change (scope.bind name v).lookup? other = (scope'.bind name v').lookup? other
        by_cases hname : other = name
        · subst hname
          have hsame : some v = some v' := hvalue (i := 0) rfl hread
          rw [Scope.lookup?_bind_self, Scope.lookup?_bind_self, hsame]
        · rw [Scope.lookup?_bind_of_ne _ _ hname, Scope.lookup?_bind_of_ne _ _ hname, hscope hread]

/-- A decided branch marks the same lines on both sides. -/
theorem mark {t : Expr} {line : Nat} {a : Option Stmt}
    (h : InStep read (.branch t line a :: ahead) w w') (taken : Bool) :
    InStep read ahead (w.mark line taken a) (w'.mark line taken a) := by
  obtain ⟨hvalues, hscope, htaken, hnotTaken⟩ := h
  cases taken with
  | true =>
    exact ⟨hvalues, hscope, congrArg (·.insert line) htaken,
      congrArg (·.insertAll (ruledOut a)) hnotTaken⟩
  | false => exact ⟨hvalues, hscope, htaken, congrArg (·.insert line) hnotTaken⟩

/-- What two walks end with: the same error, or marks that are the same. -/
def SameEnd : Except EvalError Walk → Except EvalError Walk → Prop
  | .ok w, .ok w' => w.taken = w'.taken ∧ w.notTaken = w'.notTaken
  | .error e, .error e' => e = e'
  | _, _ => False

/-- Walks in step stay in step through all visits, if the tests ahead read only what is read. -/
theorem run (htests : ∀ t ∈ ahead.filterMap Visit.test?, ∀ n ∈ t.variableNames, read n)
    (h : InStep read ahead w w') :
    SameEnd (ahead.foldlM Walk.step w) (ahead.foldlM Walk.step w') := by
  induction ahead generalizing w w' with
  | nil => exact ⟨h.taken, h.notTaken⟩
  | cons v ahead ih =>
    rw [List.foldlM_cons, List.foldlM_cons]
    cases v with
    | param name => exact ih htests h.param
    | branch t line a =>
      have hlater : ∀ t ∈ ahead.filterMap Visit.test?, ∀ n ∈ t.variableNames, read n :=
        fun t ht => htests t (List.mem_cons_of_mem _ ht)
      have htest : t.evalAt w.scope line = t.evalAt w'.scope line :=
        Expr.evalAt_of_lookup? (fun n hn => h.scope (htests t List.mem_cons_self n hn)) line
      simp only [Walk.step, htest]
      cases t.evalAt w'.scope line with
      | error e => exact rfl
      | ok value => exact ih hlater (h.mark value.truthy)

end Walk.InStep

/-! ## The classification -/

/-- Values of parameters that no test reads do not matter. Two lists of as many values, which differ
at most at the numbers of parameters that occur as a variable in no test of the program, give the
same classification or the same error. -/
theorem Program.classify_unread (p : Program) (values values' : List Expr)
    (hlength : values.length = values'.length) (hunread : ∀ (i : Nat) (name : String),
      p.params[i]? = some name → values[i]? ≠ values'[i]? → ∀ t ∈ p.tests, name ∉ t.variableNames) :
    p.classify values = p.classify values' := by
  have hstart : Walk.InStep (fun n => ∃ t ∈ p.tests, n ∈ t.variableNames) p.visits (.start values)
      (.start values') := by
    refine ⟨⟨hlength, fun {i name} hi hread => ?_⟩, fun _ => rfl, rfl, rfl⟩
    by_contra hdiffer
    obtain ⟨t, ht, hn⟩ := hread
    exact hunread i name hi hdiffer t ht hn
  have hend := hstart.run fun t ht n hn => ⟨t, ht, hn⟩
  unfold classify
  rw [Stmt.walkAll_eq, Stmt.walkAll_eq]
  unfold visits at hend
  revert hend
  cases (Stmt.visitsAll p.body).foldlM Walk.step (.start values) with
  | error e =>
    cases (Stmt.visitsAll p.body).foldlM Walk.step (.start values') with
    | error e' => exact fun h => congrArg Except.error h
    | ok w' => exact fun h => h.elim
  | ok w =>
    cases (Stmt.visitsAll p.body).foldlM Walk.step (.start values') with
    | error e' => exact fun h => h.elim
    | ok w' =>
      intro ⟨htaken, hnotTaken⟩
      change Except.ok _ = Except.ok _
      rw [htaken, hnotTaken]

/-- A function in whose test `ab` is read and `a` is a name behind a point. The first value cannot
be evaluated on one side: it is a call. -/
theorem Program.classify_unread_dotted :
    let test : Expr := .member (.name "ab") (.name "a") false .nowhere
    let p : Program :=
      ⟨[.function "f" ["a", "ab"] [.branch test (.empty .nowhere) none .nowhere] .nowhere],
          .nowhere⟩
    let call : Expr := .call (.name "g") [] .nowhere
    p.params = ["a", "ab"] ∧ p.tests.flatMap Expr.variableNames = ["ab"] ∧
      p.classify [.str "x" .nowhere, .str "y" .nowhere] = p.classify [call, .str "y" .nowhere] := by
  refine ⟨rfl, rfl, Program.classify_unread _ _ _ rfl fun i name hi hdiffer t ht => ?_⟩
  obtain rfl := List.mem_singleton.1 ht
  rcases i with _ | _ | i
  · cases hi
    decide
  · exact absurd rfl hdiffer
  · cases hi

end BranchPaint
