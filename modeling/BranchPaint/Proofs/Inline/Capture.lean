import BranchPaint.Proofs.Inline.Function

/-!
# What function bodies find bound

The body of a function is inlined in the scope around it, with the parameters standing for
themselves. What is bound there to other names was written outside of the function. If it mentions a
name that is a parameter, then inlining makes it mean the parameter (`Program.inline_captures`).

`Program.entered` lists the functions that inlining comes upon, each with the scope in which its
body starts. Where no parameter of a function is mentioned around the function (`Stmt.paramsApart`),
nothing is captured (`Program.captures_none_of_paramsApart`): all that is ever bound mentions only
names that are mentioned around, since inlining makes up no names.
-/

namespace BranchPaint

/-- No expression that is bound to another name mentions a parameter. -/
def CapturesNone (params : List String) (scope : Scope) : Prop :=
  ∀ y e, y ∉ params → scope.lookup? y = some e → ∀ p ∈ params, p ∉ e.mentions

/-! ## Functions that inlining comes upon -/

namespace Stmt

mutual

/-- The functions that inlining comes upon in a statement: their parameters, and the scope in which
their body starts. -/
def entered (test : LoopTest) : Stmt → Scope → List (List String × Scope)
  | .function _ ps body _, scope => (ps, scope.bindOpaque ps) :: enteredAll .none body
    (scope.bindOpaque ps)
  | .whileLoop t body _, scope =>
    let (t', inside) := t.inline (.ofExpr t) scope
    body.entered (.ofExpr t') inside
  | .branch t c none _, scope => c.entered test (t.inline test scope).2
  | .branch t c (some a) _, scope => c.entered test (t.inline test scope).2 ++ a.entered test
    (t.inline test scope).2
  | .block body _, scope => enteredAll test body scope
  | .declare _ _ _, _ | .forLoop _ _ _ _ _, _ | .ret _ _, _ | .expr _ _, _ | .breakLoop _, _
  | .continueLoop _, _ | .empty _, _ => []

/-- The functions that inlining comes upon in statements. -/
def enteredAll (test : LoopTest) : List Stmt → Scope → List (List String × Scope)
  | [], _ => []
  | s :: ss, scope => s.entered test scope ++ enteredAll test ss (s.inline test scope).2

end

mutual

/-- The names that are mentioned in a statement, outside of functions and counting loops. -/
def mentionsAround : Stmt → List String
  | .declare _ ds _ => (ds.flatMap Declarator.exprs).flatMap Expr.mentions
  | .branch t c none _ => t.mentions ++ c.mentionsAround
  | .branch t c (some a) _ => t.mentions ++ (c.mentionsAround ++ a.mentionsAround)
  | .whileLoop t body _ => t.mentions ++ body.mentionsAround
  | .ret v _ => v.toList.flatMap Expr.mentions
  | .block body _ => mentionsAroundAll body
  | .expr e _ => e.mentions
  | .function _ _ _ _ | .forLoop _ _ _ _ _ | .breakLoop _ | .continueLoop _ | .empty _ => []

/-- The names that are mentioned in statements, outside of functions and counting loops. -/
def mentionsAroundAll : List Stmt → List String
  | [] => []
  | s :: ss => s.mentionsAround ++ mentionsAroundAll ss

end

mutual

/-- Is no parameter of a function among the names that are mentioned around the function? Those
around the statement are given. -/
def paramsApart (around : List String) : Stmt → Bool
  | .function _ ps body _ =>
    ps.all (fun p => !around.contains p) &&
      paramsApartAll (ps ++ (mentionsAroundAll body ++ around)) body
  | .branch _ c none _ => c.paramsApart around
  | .branch _ c (some a) _ => c.paramsApart around && a.paramsApart around
  | .whileLoop _ body _ => body.paramsApart around
  | .block body _ => paramsApartAll around body
  | .declare _ _ _ | .forLoop _ _ _ _ _ | .ret _ _ | .expr _ _ | .breakLoop _ | .continueLoop _
  | .empty _ => true

def paramsApartAll (around : List String) : List Stmt → Bool
  | [] => true
  | s :: ss => s.paramsApart around && paramsApartAll around ss

end

end Stmt

/-! ## Inlining makes up no names -/

namespace Expr

/-- If the expression is a name, it is one of those given. -/
def Among (names : List String) (e : Expr) : Prop := ∀ n ∈ e.ownName, n ∈ names

/-- Inlining brings in no names but those that may be bound. -/
theorem inlinable_among {names : List String} (h : "undefined" ∈ names) :
    Inlinable (Among names) where
  same hsame he := by
    cases hsame with
    | ident => exact he
    | _ => exact fun _ hn => absurd hn List.not_mem_nil
  binary _ _ _ _ := fun _ hn => absurd hn List.not_mem_nil
  undefined := List.forall_mem_singleton.2 h

/-- The names that an expression mentions are among those given if this holds at each node. -/
theorem forall_among_iff {names : List String} {e : Expr} :
    e.Forall (Among names) ↔ ∀ n ∈ e.mentions, n ∈ names := by
  induction e using Expr.induction with
  | step e ih =>
  constructor
  · intro h n hn
    rcases mem_collect.1 hn with hown | ⟨c, hc, hmem⟩
    · exact h.here n hown
    · exact (ih c hc).1 (h.inside c hc) n hmem
  · intro h
    exact .node (fun n hn => h n (mem_collect.2 (.inl hn))) fun c hc =>
      (ih c hc).2 (forall_mentions_of_child h hc)

end Expr

namespace Scope

variable {names : List String} {scope : Scope}

/-- More names may be allowed. -/
theorem Forall.mono_among {names' : List String} (h : scope.Forall (Expr.Among names))
    (hsub : names ⊆ names') : scope.Forall (Expr.Among names') :=
  fun x hx => (h x hx).imp fun _ he n hn => hsub (he n hn)

/-- A function whose parameters are not mentioned around it captures nothing. -/
theorem capturesNone_bindOpaque (hs : scope.Forall (Expr.Among names)) {ps : List String}
    (hps : ∀ p ∈ ps, p ∉ names) : CapturesNone ps (scope.bindOpaque ps) := by
  intro y e hy hlookup p hp hmention
  rw [lookup?_bindOpaque, if_neg hy] at hlookup
  exact hps p hp (Expr.forall_among_iff.1 (hs.lookup? hlookup) p hmention)

end Scope

namespace Stmt

mutual

/-- Behind a statement all that is bound mentions only names that are mentioned around. -/
theorem scope_inline_among {names : List String} (hundef : "undefined" ∈ names) (test : LoopTest) :
    (s : Stmt) →
    s.mentionsAround ⊆ names → {scope : Scope} → scope.Forall (Expr.Among names) →
    (s.inline test scope).2.Forall (Expr.Among names)
  | .declare _ ds _, h, scope, hs => by
    refine hs.declareAll (Expr.inlinable_among hundef) test fun e he =>
      Expr.forall_among_iff.2 fun n hn => ?_
    exact h (List.mem_flatMap.2 ⟨e, he, hn⟩)
  | .expr e s, h, scope, hs => by
    have hin := (e.inline_forall (Expr.inlinable_among hundef) test scope
        (Expr.forall_among_iff.2 fun n hn => h hn) hs).2
    cases e with
    | assign op t v as =>
      rw [inline_assign]
      rwa [← Expr.inlineAssignment_expr] at hin
    | _ => exact hin
  | .branch t c none s, h, scope, hs =>
    (t.inline_forall (Expr.inlinable_among hundef) test scope
      (Expr.forall_among_iff.2 fun n hn => h (List.mem_append_left _ hn)) hs).2
  | .branch t c (some a) s, h, scope, hs =>
    (t.inline_forall (Expr.inlinable_among hundef) test scope
      (Expr.forall_among_iff.2 fun n hn => h (List.mem_append_left _ hn)) hs).2
  | .ret (some e) s, h, scope, hs =>
    (e.inline_forall (Expr.inlinable_among hundef) test scope
      (Expr.forall_among_iff.2 fun n hn => h (by simpa [mentionsAround] using hn)) hs).2
  | .block body s, h, scope, hs => scope_inlineAll_among hundef test body h hs
  | .ret none s, h, scope, hs | .function _ _ _ _, h, scope, hs | .whileLoop _ _ _, h, scope, hs
  | .forLoop _ _ _ _ _, h, scope, hs | .breakLoop _, h, scope, hs | .continueLoop _, h, scope, hs
  | .empty _, h, scope, hs => hs

/-- The same for statements in a row. -/
theorem scope_inlineAll_among {names : List String} (hundef : "undefined" ∈ names)
    (test : LoopTest) : (ss : List Stmt) →
    mentionsAroundAll ss ⊆ names → {scope : Scope} → scope.Forall (Expr.Among names) →
    (inlineAll test ss scope).2.Forall (Expr.Among names)
  | [], _, _, hs => hs
  | s :: ss, h, _, hs =>
    scope_inlineAll_among hundef test ss (List.append_subset.1 h).2
      (scope_inline_among hundef test s (List.append_subset.1 h).1 hs)

end

mutual

/-- No function inside a statement captures anything, if its parameters are not mentioned around
it. -/
theorem entered_capturesNone {names : List String} (hundef : "undefined" ∈ names)
    (test : LoopTest) : (s : Stmt) →
    s.mentionsAround ⊆ names → s.paramsApart names = true → {scope : Scope} →
      scope.Forall (Expr.Among names) →
    ∀ x ∈ s.entered test scope, CapturesNone x.1 x.2
  | .function _ ps body _, h, ha, scope, hs => by
    simp only [paramsApart, Bool.and_eq_true, List.all_eq_true, Bool.not_eq_true',
      List.contains_eq_mem, decide_eq_false_iff_not] at ha
    have hsub : names ⊆ ps ++ (mentionsAroundAll body ++ names) := fun n hn => by simp [hn]
    have hinside : (scope.bindOpaque ps).Forall
        (Expr.Among (ps ++ (mentionsAroundAll body ++ names))) :=
      (hs.mono_among hsub).bindOpaque fun p hp => List.forall_mem_singleton.2
        (List.mem_append_left _ hp)
    refine List.forall_mem_cons.2 ⟨Scope.capturesNone_bindOpaque hs ha.1, ?_⟩
    exact enteredAll_capturesNone (hsub hundef) .none body (fun n hn => by simp [hn]) ha.2 hinside
  | .whileLoop t body _, h, ha, scope, hs => by
    have hin := (t.inline_forall (Expr.inlinable_among hundef) (.ofExpr t) scope
      (Expr.forall_among_iff.2 fun n hn => h (List.mem_append_left _ hn)) hs).2
    exact entered_capturesNone hundef _ body (List.append_subset.1 h).2 ha hin
  | .branch t c none _, h, ha, scope, hs => by
    have hin := (t.inline_forall (Expr.inlinable_among hundef) test scope
      (Expr.forall_among_iff.2 fun n hn => h (List.mem_append_left _ hn)) hs).2
    exact entered_capturesNone hundef test c (List.append_subset.1 h).2 ha hin
  | .branch t c (some a) _, h, ha, scope, hs => by
    have hin := (t.inline_forall (Expr.inlinable_among hundef) test scope
      (Expr.forall_among_iff.2 fun n hn => h (List.mem_append_left _ hn)) hs).2
    obtain ⟨hc, hsuba⟩ := List.append_subset.1 (List.append_subset.1 h).2
    obtain ⟨hac, haa⟩ := Bool.and_eq_true_iff.1 ha
    exact List.forall_mem_append.2 ⟨entered_capturesNone hundef test c hc hac hin,
      entered_capturesNone hundef test a hsuba haa hin⟩
  | .block body _, h, ha, scope, hs => enteredAll_capturesNone hundef test body h ha hs
  | .declare _ _ _, h, ha, scope, hs | .forLoop _ _ _ _ _, h, ha, scope, hs
  | .ret _ _, h, ha, scope, hs
  | .expr _ _, h, ha, scope, hs | .breakLoop _, h, ha, scope, hs | .continueLoop _, h, ha, scope, hs
  | .empty _, h, ha, scope, hs => fun _ hx => absurd hx List.not_mem_nil

/-- The same for statements in a row. -/
theorem enteredAll_capturesNone {names : List String} (hundef : "undefined" ∈ names)
    (test : LoopTest) : (ss : List Stmt) →
    mentionsAroundAll ss ⊆ names → paramsApartAll names ss = true → {scope : Scope} →
      scope.Forall (Expr.Among names) →
    ∀ x ∈ enteredAll test ss scope, CapturesNone x.1 x.2
  | [], _, _, _, _ => fun _ hx => absurd hx List.not_mem_nil
  | s :: ss, h, ha, _, hs => by
    obtain ⟨hsub, hsubs⟩ := List.append_subset.1 h
    obtain ⟨ha, has⟩ := Bool.and_eq_true_iff.1 ha
    exact List.forall_mem_append.2 ⟨entered_capturesNone hundef test s hsub ha hs,
      enteredAll_capturesNone hundef test ss hsubs has (scope_inline_among hundef test s hsub hs)⟩

end

end Stmt

/-! ## Programs -/

namespace Program

/-- The functions that inlining comes upon in a program. -/
def entered (p : Program) : List (List String × Scope) := Stmt.enteredAll .none p.body .empty

/-- If no parameter of a function is mentioned around the function or named `undefined`, then no
function captures anything: where its body starts, what is bound to other names mentions none of its
parameters. -/
theorem captures_none_of_paramsApart {p : Program}
    (h : Stmt.paramsApartAll ("undefined" :: Stmt.mentionsAroundAll p.body) p.body = true) :
    ∀ x ∈ p.entered, CapturesNone x.1 x.2 :=
  Stmt.enteredAll_capturesNone List.mem_cons_self .none p.body
    (fun _ hn => List.mem_cons_of_mem _ hn) h .empty

/-- The text `let y = z; function f(x) { let w = y + x; function g(v) { return w; } }`: in `f` the
name `y` is bound, and in `g` the name `w` too. -/
theorem captures_none_nested :
    let var (n : String) : Expr := .ident n .nowhere
    let inner : Stmt := .function "g" ["v"] [.ret (some (var "w")) .nowhere] .nowhere
    let outer : Stmt := .function "f" ["x"]
      [.declare .letWord
          [⟨"w", some (.binary .add (var "y") (var "x") .nowhere), .nowhere⟩] .nowhere,
        inner] .nowhere
    let p : Program :=
      ⟨[.declare .letWord [⟨"y", some (var "z"), .nowhere⟩] .nowhere, outer], .nowhere⟩
    p.entered.map Prod.fst = [["x"], ["v"]] ∧ ∀ x ∈ p.entered, CapturesNone x.1 x.2 :=
  ⟨rfl, captures_none_of_paramsApart (by decide)⟩

/-- The text `let y = x; function f(x) { return y; }`: in `f` the name `y` is bound to a parameter,
and the inlined function returns its own parameter. -/
theorem inline_captures :
    let var (n : String) : Expr := .ident n .nowhere
    let p : Program := ⟨[.declare .letWord [⟨"y", some (var "x"), .nowhere⟩] .nowhere,
      .function "f" ["x"] [.ret (some (var "y")) .nowhere] .nowhere], .nowhere⟩
    (∃ x ∈ p.entered, ¬ CapturesNone x.1 x.2) ∧
      p.inline = ⟨[.function "f" ["x"] [.ret (some (var "x")) .nowhere] .nowhere], .nowhere⟩ := by
  refine ⟨⟨_, List.mem_singleton_self _, fun h => ?_⟩, rfl⟩
  exact h "y" (.ident "x" .nowhere) (by decide) rfl "x" (by decide) (by decide)

end Program

end BranchPaint
