import BranchPaint.Proofs.Inline.Function

/-!
# Names that inlining removes

Once a name is declared, inlining replaces it wherever it goes, so that the declaration can be
dropped. It does not go everywhere: the operand of a step by one and the object of a store into a
member have to stay assignable, and are left as they are (`Expr.untouched`). So a declared name may
outlive its declaration (`Program.inline_leaves_stepped`), but only in those parts of the source
(`Program.inline_removes_declared`).

The invariant is about scopes: what is bound holds the name in untouched parts only, and the name
itself is bound behind its declaration (`Scope.Rid`). Loops are left out here, since stores that a
loop test watches stay in its body.
-/

namespace BranchPaint

/-! ## Parts that inlining goes into -/

namespace Expr

/-- The parts of an expression that inlining leaves as they are. -/
def untouched : Expr → List Expr
  | .update _ _ a _ => [a]
  | .assign _ (.ident _ _) _ _ => []
  | .assign _ (.member o _ true _) _ _ => [o]
  | .assign _ t _ _ => [t]
  | _ => []

/-- The parts of an expression that inlining goes into. -/
def reached : Expr → List Expr
  | .update _ _ _ _ => []
  | .assign _ (.ident m s) v _ => [.ident m s, v]
  | .assign _ (.member _ p true _) v _ => [p, v]
  | .assign _ _ v _ => [v]
  | e => e.children

/-- A name stands in an expression where it stands in one of these parts. -/
theorem mem_mentions_iff {n : String} {e : Expr} :
    n ∈ e.mentions ↔ n ∈ e.ownName ∨ (∃ u ∈ e.untouched, n ∈ u.mentions) ∨
      ∃ c ∈ e.reached, n ∈ c.mentions := by
  cases e with
  | assign op t v s =>
    cases t with
    | member o p computed s =>
      cases computed
      all_goals simp [mentions, collect, untouched, reached, ownName]
    | _ => simp [mentions, collect, untouched, reached, ownName, or_assoc]
  | update op before a s => simp [mentions, collect, untouched, reached, ownName]
  | member o p computed s =>
    cases computed
    all_goals simp [mentions, collect, untouched, reached, children, ownName]
  | _ => simp [mentions, collect, collectAll_eq, untouched, reached, children, ownName]

/-- The name stands in the expression at most inside of untouched parts, and these have the property
`U`. -/
inductive Rid (n : String) (U : Expr → Prop) : Expr → Prop
  | node {e : Expr} (here : n ∉ e.ownName) (left : ∀ u ∈ e.untouched, U u)
      (inside : ∀ c ∈ e.reached, Rid n U c) : Rid n U e

variable {n : String} {U : Expr → Prop}

namespace Rid

/-- An expression is rid of the name if all that inlining reaches in it is. -/
theorem of_reached {e : Expr} (hown : e.ownName = []) (hleft : e.untouched = [])
    (h : ∀ c ∈ e.reached, c.Rid n U) : e.Rid n U :=
  .node (by simp [hown]) (by simp [hleft]) h

/-- All that inlining reaches in such an expression is rid of the name. -/
theorem inside {e : Expr} (h : e.Rid n U) : ∀ c ∈ e.reached, c.Rid n U := by
  cases h with
  | node _ _ inside => exact inside

/-- Another name is rid of the name. -/
theorem ident {m : String} (h : n ≠ m) (s : Span) : (ident m s).Rid n U :=
  .node (by simpa [ownName] using h) (fun _ hu => absurd hu List.not_mem_nil) fun _ hc =>
    absurd hc List.not_mem_nil

/-- If no untouched part mentions the name, nothing does. -/
theorem not_mem_mentions {e : Expr} (h : e.Rid n U) (hU : ∀ u, U u → n ∉ u.mentions) :
    n ∉ e.mentions := by
  induction h with
  | node here left inside ih =>
    rw [mem_mentions_iff]
    rintro (hown | ⟨u, hu, hmem⟩ | ⟨c, hc, hmem⟩)
    · exact here hown
    · exact hU u (left u hu) hmem
    · exact ih c hc hmem

end Rid

/-- What is asked of the nodes of an expression before inlining: the name does not stand there
unless `B`, and untouched parts have the property `U`. -/
def Ridable (n : String) (U : Expr → Prop) (B : Prop) (e : Expr) :
    Prop := (n ∈ e.ownName → B) ∧ ∀ u ∈ e.untouched, U u

end Expr

/-! ## Scopes -/

/-- What is bound holds the name at most in untouched parts, and the name itself is bound if `B`. -/
structure Scope.Rid (n : String) (U : Expr → Prop) (B : Prop) (scope : Scope) : Prop where
  bound : B → (scope.lookup? n).isSome
  values : ∀ x ∈ scope.entries, x.2.Rid n U

variable {n : String} {U : Expr → Prop} {B : Prop}

namespace Scope.Rid

variable {scope : Scope} {name : String} {e : Expr}

/-- Binding what is rid of the name keeps the scope so. -/
theorem bind (hs : scope.Rid n U B) (name : String) (he : e.Rid n U) :
    (scope.bind name e).Rid n U B where
  bound hB := by
    by_cases hname : n = name
    · subst hname
      simp
    · rw [lookup?_bind_of_ne _ _ hname]
      exact hs.bound hB
  values := List.forall_mem_cons.2 ⟨he, hs.values⟩

/-- From here on the name is bound. -/
theorem bind_self (hs : scope.Rid n U B) (he : e.Rid n U) : (scope.bind n e).Rid n U True :=
  ⟨fun _ => by simp, (hs.bind n he).values⟩

/-- What a name is bound to is rid of the name. -/
theorem lookup? (hs : scope.Rid n U B) (h : scope.lookup? name = some e) : e.Rid n U :=
  hs.values (name, e) (mem_entries_of_lookup? h)

/-- So is what a name is replaced by. -/
theorem getD (hs : scope.Rid n U B) (hname : n = name → B) (s : Span) :
    ((scope.lookup? name).getD (.ident name s)).Rid n U := by
  cases hlookup : scope.lookup? name with
  | some e => exact hs.lookup? hlookup
  | none =>
    refine .ident (fun heq => ?_) s
    have hbound := hs.bound (hname heq)
    rw [heq, hlookup] at hbound
    cases hbound

/-- So is an element that is picked. -/
theorem element? {index : String} (hs : scope.Rid n U B) (h : scope.element? name index = some e) :
    e.Rid n U := by
  obtain ⟨es, s, i, hlookup, -, hi⟩ := element?_eq_some h
  exact (hs.lookup? hlookup).inside e (List.mem_of_getElem? hi)

/-- Other parameters may stand for themselves. -/
theorem bindOpaque (hs : scope.Rid n U B) {names : List String} (hnames : n ∉ names) :
    (scope.bindOpaque names).Rid n U B := by
  induction names generalizing scope with
  | nil => exact hs
  | cons m names ih =>
    obtain ⟨hm, hnames⟩ := not_or.1 (mt List.mem_cons.2 hnames)
    exact ih (hs.bind m (.ident hm .nowhere)) hnames

/-- So is what an assignment binds. -/
theorem stored (hs : scope.Rid n U B) (hname : n = name → B) (op : AssignOp) {value : Expr}
    (hvalue : value.Rid n U) (s : Span) : (scope.stored name op value s).Rid n U := by
  cases op with
  | assign => exact hvalue
  | compound b =>
    exact .of_reached rfl rfl
      (List.forall_mem_cons.2 ⟨hs.getD hname .nowhere, List.forall_mem_singleton.2 hvalue⟩)

end Scope.Rid

/-! ## Expressions -/

namespace Expr

mutual

/-- Inlining removes a bound name from an expression, but for untouched parts. -/
theorem inline_rid : (e : Expr) → e.Forall (Ridable n U B) → {scope : Scope} → scope.Rid n U B →
    (e.inline .none scope).1.Rid n U ∧ (e.inline .none scope).2.Rid n U B
  | .ident m s, he, scope, hs => ⟨hs.getD (fun h => he.here.1 (List.mem_singleton.2 h)) s, hs⟩
  | .member o p false s, he, scope, hs => by
    obtain ⟨ho, hs⟩ := inline_rid o (he.inside o List.mem_cons_self) hs
    exact ⟨.of_reached rfl rfl (List.forall_mem_singleton.2 ho), hs⟩
  | .member o p true s, he, scope, hs => by
    have hin := he.inside
    obtain ⟨hp, hs⟩ := inline_rid p (hin p (by simp [children])) hs
    simp only [inline]
    split
    · rename_i e helement
      exact ⟨hs.element? helement, hs⟩
    · obtain ⟨ho, hs⟩ := inline_rid o (hin o List.mem_cons_self) hs
      exact ⟨.of_reached rfl rfl (List.forall_mem_cons.2 ⟨ho, List.forall_mem_singleton.2 hp⟩), hs⟩
  | .binary op l r s, he, scope, hs | .logical op l r s, he, scope, hs => by
    obtain ⟨hl, hr⟩ := List.forall_mem_cons.1 he.inside
    obtain ⟨hl, hs⟩ := inline_rid l hl hs
    obtain ⟨hr, hs⟩ := inline_rid r (List.forall_mem_singleton.1 hr) hs
    exact ⟨.of_reached rfl rfl (List.forall_mem_cons.2 ⟨hl, List.forall_mem_singleton.2 hr⟩), hs⟩
  | .unary op a s, he, scope, hs => by
    obtain ⟨ha, hs⟩ := inline_rid a (he.inside a List.mem_cons_self) hs
    exact ⟨.of_reached rfl rfl (List.forall_mem_singleton.2 ha), hs⟩
  | .list es s, he, scope, hs | .sequence es s, he, scope, hs => by
    obtain ⟨hes, hs⟩ := inlineAll_rid es he.inside hs
    exact ⟨.of_reached rfl rfl hes, hs⟩
  | .call f args s, he, scope, hs => by
    obtain ⟨hf, hargs⟩ := List.forall_mem_cons.1 he.inside
    obtain ⟨hf, hs⟩ := inline_rid f hf hs
    obtain ⟨hargs, hs⟩ := inlineAll_rid args hargs hs
    exact ⟨.of_reached rfl rfl (List.forall_mem_cons.2 ⟨hf, hargs⟩), hs⟩
  | .ternary c t e s, he, scope, hs => by
    obtain ⟨hc, hsides⟩ := List.forall_mem_cons.1 he.inside
    obtain ⟨ht, he⟩ := List.forall_mem_cons.1 hsides
    obtain ⟨hc, hs⟩ := inline_rid c hc hs
    obtain ⟨ht, hs⟩ := inline_rid t ht hs
    obtain ⟨he, hs⟩ := inline_rid e (List.forall_mem_singleton.1 he) hs
    exact ⟨.of_reached rfl rfl (List.forall_mem_cons.2 ⟨hc,
        List.forall_mem_cons.2 ⟨ht, List.forall_mem_singleton.2 he⟩⟩), hs⟩
  | .assign op t v s, he, scope, hs => by
    obtain ⟨ht, hv⟩ := List.forall_mem_cons.1 he.inside
    obtain ⟨hv, hs⟩ := inline_rid v (List.forall_mem_singleton.1 hv) hs
    cases t with
    | ident m ms =>
      -- outside of loops the store is gone, and the value that is left is the one that is bound
      have hstored := hs.stored (fun h => ht.here.1 (List.mem_singleton.2 h)) op hv s
      simp only [inline, Scope.store_eq]
      exact ⟨hstored, hs.bind m hstored⟩
    | member o p computed ms =>
      cases computed with
      | false => exact ⟨.node List.not_mem_nil he.here.2 (List.forall_mem_singleton.2 hv), hs⟩
      | true =>
        obtain ⟨hp, hs⟩ := inline_rid p (ht.inside p (by simp [children])) hs
        exact ⟨.node List.not_mem_nil he.here.2 (List.forall_mem_cons.2 ⟨hp,
            List.forall_mem_singleton.2 hv⟩), hs⟩
    | _ => exact ⟨.node List.not_mem_nil he.here.2 (List.forall_mem_singleton.2 hv), hs⟩
  | .update op b a s, he, scope, hs =>
    ⟨.node List.not_mem_nil he.here.2 fun _ hc => absurd hc List.not_mem_nil, hs⟩
  | .bool _ _, he, scope, hs | .num _ _, he, scope, hs | .str _ _, he, scope, hs
  | .null _, he, scope, hs =>
    ⟨.of_reached rfl rfl fun _ hc => absurd hc List.not_mem_nil, hs⟩

/-- The same for expressions in a row. -/
theorem inlineAll_rid :
    (es : List Expr) → (∀ e ∈ es, e.Forall (Ridable n U B)) → {scope : Scope} → scope.Rid n U B →
    (∀ e ∈ (inlineAll .none es scope).1, e.Rid n U) ∧ (inlineAll .none es scope).2.Rid n U B
  | [], _, scope, hs => ⟨fun e he => absurd he List.not_mem_nil, hs⟩
  | e :: es, hes, scope, hs => by
    obtain ⟨he, hes⟩ := List.forall_mem_cons.1 hes
    obtain ⟨he, hs⟩ := inline_rid e he hs
    obtain ⟨hes, hs⟩ := inlineAll_rid es hes hs
    exact ⟨List.forall_mem_cons.2 ⟨he, hes⟩, hs⟩

end

end Expr

/-! ## Statements -/

namespace Stmt

/-- Is this a loop? -/
def isLoop : Stmt → Bool
  | .whileLoop _ _ _ | .forLoop _ _ _ _ _ => true
  | _ => false

/-- The parameters of a function. -/
def params : Stmt → List String
  | .function _ ps _ _ => ps
  | _ => []

/-- The names that a statement itself declares. -/
def declarators : Stmt → List Declarator
  | .declare _ ds _ => ds
  | .forLoop (some (.declare _ ds)) _ _ _ _ => ds
  | _ => []

/-- Neither a declaration nor a function with such a parameter; the name stands in the expressions
of the statement at most inside of untouched parts, and these have the property `U`. -/
structure Rid (n : String) (U : Expr → Prop) (s : Stmt) : Prop where
  params : n ∉ s.params
  declarators : s.declarators = []
  exprs : ∀ e ∈ s.exprs, e.Rid n U

/-- No loop, and no function with such a parameter. If the name is `undefined`, all that is declared
has a first value. -/
structure Straight (n : String) (s : Stmt) : Prop where
  isLoop : s.isLoop = false
  params : n ∉ s.params
  undefined : n = "undefined" → ∀ d ∈ s.declarators, d.init.isSome

instance : DecidablePred (Straight n) := fun s =>
  decidable_of_iff (s.isLoop = false ∧ n ∉ s.params ∧ (n = "undefined" → ∀ d ∈ s.declarators,
      d.init.isSome)) ⟨fun h => ⟨h.1, h.2.1, h.2.2⟩, fun h => ⟨h.isLoop, h.params, h.undefined⟩⟩

/-- What is asked of a statement before inlining. -/
structure Ridable (n : String) (U : Expr → Prop) (B : Prop) (s : Stmt) :
    Prop extends Straight n s where
  exprs : ∀ e ∈ s.exprs, e.Forall (Expr.Ridable n U B)

/-- The empty statement is rid of the name. -/
theorem rid_empty (s : Span) : (Stmt.empty s).Forall (Rid n U) :=
  .leaf ⟨List.not_mem_nil, rfl, fun _ he => absurd he List.not_mem_nil⟩ rfl

end Stmt

/-- Declaring names keeps the scope rid of the name. -/
theorem Scope.Rid.declareAll {ds : List Declarator} (hundef : n = "undefined" → ∀ d ∈ ds,
      d.init.isSome) (hds : ∀ e ∈ ds.flatMap Declarator.exprs, e.Forall (Expr.Ridable n U B))
    {scope : Scope} (hs : scope.Rid n U B) : (scope.declareAll .none ds).Rid n U B := by
  induction ds generalizing scope with
  | nil => exact hs
  | cons d ds ih =>
    have hundefs : n = "undefined" → ∀ d ∈ ds, d.init.isSome :=
      fun h d hd => hundef h d (List.mem_cons_of_mem _ hd)
    rw [List.flatMap_cons, List.forall_mem_append] at hds
    obtain ⟨name, _ | e, span⟩ := d
    · have hne : n ≠ "undefined" := fun h => nomatch hundef h _ List.mem_cons_self
      exact ih hundefs hds.2 (hs.bind name (.ident hne .nowhere))
    · obtain ⟨he, hs⟩ := e.inline_rid (hds.1 e List.mem_cons_self) hs
      exact ih hundefs hds.2 (hs.bind name he)

namespace Stmt

mutual

/-- Inlining removes a bound name from a statement without loops, but for untouched parts. -/
theorem inline_rid : (s : Stmt) → s.Forall (Ridable n U B) → {scope : Scope} → scope.Rid n U B →
    (s.inline .none scope).1.Forall (Rid n U) ∧ (s.inline .none scope).2.Rid n U B
  | .function f ps body s, h, scope, hs => by
    obtain ⟨hbody, -⟩ := inlineAll_rid body h.inside (hs.bindOpaque h.here.params)
    exact ⟨.node ⟨h.here.params, rfl, fun _ he => absurd he List.not_mem_nil⟩ hbody, hs⟩
  | .declare word ds s, h, scope, hs => ⟨rid_empty s, hs.declareAll h.here.undefined h.here.exprs⟩
  | .expr e s, h, scope, hs => by
    obtain ⟨he, hs⟩ := e.inline_rid (h.here.exprs e List.mem_cons_self) hs
    cases e with
    | assign op t v as =>
      rw [← Expr.inlineAssignment_expr] at he hs
      rw [inline_assign]
      refine ⟨?_, hs⟩
      cases hresult : (Expr.inlineAssignment .none op t v as scope).1 with
      | kept e =>
        rw [hresult] at he
        exact .leaf ⟨List.not_mem_nil, rfl, List.forall_mem_singleton.2 he⟩ rfl
      | absorbed e => exact rid_empty s
    | _ => exact ⟨.leaf ⟨List.not_mem_nil, rfl, List.forall_mem_singleton.2 he⟩ rfl, hs⟩
  | .branch t c none s, h, scope, hs => by
    obtain ⟨ht, hs⟩ := t.inline_rid (h.here.exprs t List.mem_cons_self) hs
    obtain ⟨hc, -⟩ := inline_rid c (h.inside c List.mem_cons_self) hs
    exact ⟨.node ⟨List.not_mem_nil, rfl,
        List.forall_mem_singleton.2 ht⟩ (List.forall_mem_singleton.2 hc), hs⟩
  | .branch t c (some a) s, h, scope, hs => by
    obtain ⟨ht, hs⟩ := t.inline_rid (h.here.exprs t List.mem_cons_self) hs
    obtain ⟨hc, -⟩ := inline_rid c (h.inside c List.mem_cons_self) hs
    obtain ⟨ha, -⟩ := inline_rid a (h.inside a (by simp [children])) hs
    exact ⟨.node ⟨List.not_mem_nil, rfl, List.forall_mem_singleton.2 ht⟩
      (List.forall_mem_cons.2 ⟨hc, List.forall_mem_singleton.2 ha⟩), hs⟩
  | .ret (some e) s, h, scope, hs => by
    obtain ⟨he, hs⟩ := e.inline_rid (h.here.exprs e List.mem_cons_self) hs
    exact ⟨.leaf ⟨List.not_mem_nil, rfl, List.forall_mem_singleton.2 he⟩ rfl, hs⟩
  | .block body s, h, scope, hs => by
    obtain ⟨hbody, hs⟩ := inlineAll_rid body h.inside hs
    exact ⟨.node ⟨List.not_mem_nil, rfl, fun _ he => absurd he List.not_mem_nil⟩ hbody, hs⟩
  | .whileLoop _ _ _, h, scope, hs | .forLoop _ _ _ _ _, h, scope, hs => nomatch h.here.isLoop
  | .ret none s, h, scope, hs | .breakLoop s, h, scope, hs | .continueLoop s, h, scope, hs
  | .empty s, h, scope, hs =>
    ⟨.leaf ⟨List.not_mem_nil, rfl, fun _ he => absurd he List.not_mem_nil⟩ rfl, hs⟩

/-- The same for statements in a row. -/
theorem inlineAll_rid :
    (ss : List Stmt) → (∀ s ∈ ss, s.Forall (Ridable n U B)) → {scope : Scope} → scope.Rid n U B →
    (∀ s ∈ (inlineAll .none ss scope).1, s.Forall (Rid n U)) ∧
      (inlineAll .none ss scope).2.Rid n U B
  | [], _, scope, hs => ⟨fun _ h => absurd h List.not_mem_nil, hs⟩
  | s :: ss, hss, scope, hs => by
    obtain ⟨h, hss⟩ := List.forall_mem_cons.1 hss
    obtain ⟨h, hs⟩ := inline_rid s h hs
    obtain ⟨hss, hs⟩ := inlineAll_rid ss hss hs
    refine ⟨?_, hs⟩
    simp only [inlineAll]
    split
    · exact hss
    · exact List.forall_mem_cons.2 ⟨h, hss⟩

end

end Stmt

/-! ## Functions -/

/-- Names are declared one after the other. -/
theorem Scope.declareAll_append (test : LoopTest) (ds ds' : List Declarator) (scope : Scope) :
    scope.declareAll test (ds ++ ds') = (scope.declareAll test ds).declareAll test ds' := by
  induction ds generalizing scope with
  | nil => rfl
  | cons d ds ih =>
    obtain ⟨name, _ | e, span⟩ := d
    all_goals exact ih _

/-- Where the name is declared it becomes bound, if neither what was declared before nor its own
first value mentions it. -/
theorem Scope.Rid.declare {ds ds' : List Declarator} {init : Option Expr} {span : Span}
    (hundef : n = "undefined" → ∀ d ∈ ds ++ ⟨n, init, span⟩ :: ds', d.init.isSome)
    (hfirst : ∀ e ∈ ds.flatMap Declarator.exprs ++ init.toList, e.Forall (Expr.Ridable n U False))
    (hrest : ∀ e ∈ ds'.flatMap Declarator.exprs, e.Forall (Expr.Ridable n U True)) {scope : Scope}
    (hs : scope.Rid n U False) :
    (scope.declareAll .none (ds ++ ⟨n, init, span⟩ :: ds')).Rid n U True := by
  obtain ⟨hds, hinit⟩ := List.forall_mem_append.1 hfirst
  have hundefs : n = "undefined" → ∀ d ∈ ds', d.init.isSome :=
    fun h d hd => hundef h d (by simp [hd])
  rw [declareAll_append]
  have hs := hs.declareAll (fun h d hd => hundef h d (by simp [hd])) hds
  cases init with
  | none =>
    have hne : n ≠ "undefined" := fun h => nomatch hundef h ⟨n, none, span⟩ (by simp)
    exact (hs.bind_self (.ident hne .nowhere)).declareAll hundefs hrest
  | some e =>
    obtain ⟨he, hs⟩ := e.inline_rid (hinit e List.mem_cons_self) hs
    exact (hs.bind_self he).declareAll hundefs hrest

/-- Not bound before its declaration, the name is bound ever after. -/
theorem Stmt.inlineAll_declared (word : DeclareWord) (sw : Span) {before after : List Stmt}
    {ds ds' : List Declarator} {init : Option Expr} {sd : Span}
    (hbefore : ∀ s ∈ before, s.Forall (Ridable n U False))
    (hundef : n = "undefined" → ∀ d ∈ ds ++ ⟨n, init, sd⟩ :: ds', d.init.isSome)
    (hfirst : ∀ e ∈ ds.flatMap Declarator.exprs ++ init.toList, e.Forall (Expr.Ridable n U False))
    (hrest : ∀ e ∈ ds'.flatMap Declarator.exprs, e.Forall (Expr.Ridable n U True))
    (hafter : ∀ s ∈ after, s.Forall (Ridable n U True)) {scope : Scope} (hs : scope.Rid n U False) :
    ∀ s ∈ (inlineAll .none (before ++ .declare word (ds ++ ⟨n, init, sd⟩ :: ds') sw :: after)
      scope).1, s.Forall (Rid n U) := by
  obtain ⟨hbefore, hs⟩ := inlineAll_rid before hbefore hs
  obtain ⟨hafter, -⟩ := inlineAll_rid after hafter (hs.declare hundef hfirst hrest)
  rw [inlineAll_append]
  exact List.forall_mem_append.2 ⟨hbefore, hafter⟩

/-- An expression can be rid of the name if it does not mention it, or the name is bound. -/
theorem Expr.forall_ridable {e : Expr} (hU : e.Forall fun e => ∀ u ∈ e.untouched, U u)
    (hn : n ∈ e.mentions → B) : e.Forall (Ridable n U B) := by
  induction hU with
  | node here inside ih =>
    exact .node ⟨fun hown => hn (mem_collect.2 (.inl hown)), here⟩ fun c hc => ih c hc fun hmem =>
      hn (mem_mentions_of_child hc hmem)

/-- So can a statement. -/
theorem Stmt.forall_ridable {s : Stmt} (h : s.Forall (Straight n))
    (hU : s.ForallExpr fun e => ∀ u ∈ e.untouched, U u)
    (hn : s.Forall fun s => ∀ e ∈ s.exprs, n ∈ e.mentions → B) : s.Forall (Ridable n U B) := by
  refine ((h.and hU).and hn).imp fun s ⟨⟨h, hU⟩, hn⟩ => ⟨h, fun e he => ?_⟩
  exact Expr.forall_ridable (hU e he) (hn e he)

/-- Inlining removes a declared name from a function without loops, but for untouched parts. The
name is declared in the body of the function and is no parameter, neither of this function nor of
one inside. Before its declaration it is not mentioned, nor in its first value. Then it stands in
the inlined function at most inside of untouched parts, and these are as they were in the source:
what holds of all untouched parts there holds of them. So if none of them mentions the name there,
then it is gone. -/
theorem Program.inline_removes_declared {p : Program} {f : String} {params : List String}
    {before after : List Stmt} {word : DeclareWord} {ds ds' : List Declarator}
    {init : Option Expr} {sd sw s s' : Span}
    (hp : p = ⟨[.function f params
      (before ++ .declare word (ds ++ ⟨n, init, sd⟩ :: ds') sw :: after) s], s'⟩)
    (hstraight : ∀ s ∈ p.body, s.Forall (Stmt.Straight n))
    (hbefore : ∀ s ∈ before, s.Forall fun s => ∀ e ∈ s.exprs, n ∉ e.mentions)
    (hfirst : ∀ e ∈ ds.flatMap Declarator.exprs ++ init.toList, n ∉ e.mentions)
    (hU : p.ForallExpr fun e => ∀ u ∈ e.untouched, U u) :
    ∃ body', p.inline = ⟨[.function f params body' s], s'⟩ ∧
      (∀ s ∈ body', s.Forall (Stmt.Rid n U)) ∧
      ((∀ u, U u → n ∉ u.mentions) → ∀ s ∈ body', s.Forall fun s => ∀ e ∈ s.exprs,
        n ∉ e.mentions) := by
  subst hp
  have hfunction := List.forall_mem_singleton.1 hstraight
  obtain ⟨hbefore', hinside⟩ := List.forall_mem_append.1 hfunction.inside
  obtain ⟨hdeclare, hafter⟩ := List.forall_mem_cons.1 hinside
  obtain ⟨hUbefore, hUinside⟩ := List.forall_mem_append.1 (List.forall_mem_singleton.1 hU).inside
  obtain ⟨hUdeclare, hUafter⟩ := List.forall_mem_cons.1 hUinside
  have hUexprs := hUdeclare.here
  simp only [Stmt.exprs, List.flatMap_append, List.flatMap_cons, List.forall_mem_append] at hUexprs
  obtain ⟨hUds, hUinit, hUds'⟩ := hUexprs
  have hs : (Scope.empty.bindOpaque params).Rid n U False :=
    Scope.Rid.bindOpaque ⟨False.elim, fun _ hx => absurd hx List.not_mem_nil⟩ hfunction.here.params
  have hrid := Stmt.inlineAll_declared word sw (fun s h => Stmt.forall_ridable
      (hbefore' s h) (hUbefore s h) (hbefore s h)) hdeclare.here.undefined
    (fun e he => Expr.forall_ridable (List.forall_mem_append.2 ⟨hUds, hUinit⟩ e he) (hfirst e he))
    (fun e he => Expr.forall_ridable (hUds' e he) fun _ => trivial) (fun s h => Stmt.forall_ridable
      (hafter s h) (hUafter s h) ((hUafter s h).imp fun _ _ _ _ _ => trivial)) hs
  refine ⟨_, inline_function f params _ s s', hrid,
    fun hnone s h => (hrid s h).imp fun _ hs e he => ?_⟩
  exact (hs.exprs e he).not_mem_mentions hnone

/-- The text `function f(a) { let k = a, n = [k, a]; if (n[k]) n = n + k; b[n] = n; k++; function
g(c) { return n; } }`: the name `n` is gone. -/
theorem Program.inline_removes_declared_sample :
    let var (m : String) : Expr := .ident m .nowhere
    let item (o p : String) : Expr := .member (var o) (var p) true .nowhere
    let after : List Stmt := [ .branch (item "n" "k") (.expr (.assign .assign (var "n")
        (.binary .add (var "n") (var "k") .nowhere) .nowhere) .nowhere) none .nowhere,
        .expr (.assign .assign (item "b" "n") (var "n") .nowhere) .nowhere,
        .expr (.update .increment false (var "k") .nowhere) .nowhere,
        .function "g" ["c"] [.ret (some (var "n")) .nowhere] .nowhere]
    let p : Program :=
      ⟨[.function "f" ["a"] ([] ++ .declare .letWord ([⟨"k", some (var "a"), .nowhere⟩] ++ ⟨"n",
          some (.list [var "k", var "a"] .nowhere), .nowhere⟩ :: []) .nowhere :: after) .nowhere],
          .nowhere⟩
    ∃ body', p.inline = ⟨[.function "f" ["a"] body' .nowhere], .nowhere⟩ ∧
      ∀ s ∈ body', s.Forall fun s => ∀ e ∈ s.exprs, "n" ∉ e.mentions := by
  intro var item after p
  obtain ⟨body', hbody', -, hgone⟩ := inline_removes_declared (U := fun u => "n" ∉ u.mentions) (p :=
      p) rfl (by decide) (by decide) (by decide) (by decide)
  exact ⟨body', hbody', hgone fun _ h => h⟩

/-- What is stepped by one or stored into stays, and so does its name. A name that is declared
without a value becomes `undefined`, even if this is declared too. -/
theorem Program.inline_leaves_stepped : ∃ p q,
    parse "function f(a) \x7b let n = a; n++; n[0] = 1; return n; \x7d" = .ok p ∧
    p.inline.text 4 = "function f(a) \x7b\n    n++;\n    n[0] = 1;\n    return a;\n\x7d" ∧
    parse "function f() \x7b let undefined = 1; let m; return m; \x7d" = .ok q ∧
    q.inline.text 4 = "function f() \x7b\n    return undefined;\n\x7d" := by
  obtain ⟨p, hp, hleft⟩ := exists_parse
    "function f(a) \x7b let n = a; n++; n[0] = 1; return n; \x7d"
    (fun p =>
      p.inline.text 4 = "function f(a) \x7b\n    n++;\n    n[0] = 1;\n    return a;\n\x7d")
    (by decide +kernel)
  obtain ⟨q, hq, hleft'⟩ :=
    exists_parse "function f() \x7b let undefined = 1; let m; return m; \x7d" (fun q =>
        q.inline.text 4 = "function f() \x7b\n    return undefined;\n\x7d") (by decide +kernel)
  exact ⟨p, q, hp, hleft, hq, hleft'⟩

end BranchPaint
