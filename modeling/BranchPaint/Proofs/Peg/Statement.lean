import BranchPaint.Proofs.Peg.Expression

/-!
# Statements in two stages

The table reads what the rules of statements read, and of the nodes that it leaves the second stage
builds the same statement (`reads_statement`). The second stage drops the words that open statements
and takes the other parts in the order in which they stand; where a part may be missing it goes by
the names of the nodes.
-/

namespace BranchPaint.Peg

open Rule Grammar

/-! ## What is built of a node

The second stage on a node whose parts are known. -/

section builder

variable {x y z w v : Node Name} {xs ys : List (Node Name)} {span : Span}

/-- A statement is built from the node inside it. -/
theorem buildStmt_statement (hx : x.name = .statement) (hparts : x.inner = [y]) :
    buildStmt x = buildStmt y := by
  rw [buildStmt, hx]
  dsimp only
  split
  all_goals
    rename_i hinner
    rw [hparts] at hinner
    cases hinner
  rfl

/-- A declaration is built from its names. -/
theorem buildStmt_declare (hx : x.name = .declareStmt) (hparts : x.inner = [y]) {word : DeclareWord}
    {ds : List Declarator} (hy : buildDeclaration y = .ok (word, ds)) :
    buildStmt x = .ok (.declare word ds x.span) := by
  rw [buildStmt, hx]
  dsimp only
  rw [hparts]
  dsimp only
  rw [hy]
  rfl

/-- A branch is built from its test and its side. -/
theorem buildStmt_branch (hx : x.name = .ifStmt) (hparts : x.significant = [y, z]) {t : Expr}
    {c : Stmt} (hy : buildExpr y = .ok t) (hz : buildStmt z = .ok c) :
    buildStmt x = .ok (.branch t c none x.span) := by
  rw [buildStmt, hx]
  dsimp only
  split
  all_goals
    rename_i hinner
    rw [hparts] at hinner
    cases hinner
  rw [hy, hz]
  rfl

/-- With `else` it is built from both sides. -/
theorem buildStmt_branch_else (hx : x.name = .ifStmt) (hparts : x.significant = [y, z, w])
    (hclause : w.significant = [v]) {t : Expr} {c a : Stmt} (hy : buildExpr y = .ok t)
    (hz : buildStmt z = .ok c) (hv : buildStmt v = .ok a) :
    buildStmt x = .ok (.branch t c (some a) x.span) := by
  rw [buildStmt, hx]
  dsimp only
  split
  all_goals
    rename_i hinner
    rw [hparts] at hinner
    cases hinner
  rw [hy, hz]
  simp only [bind, Except.bind]
  split
  all_goals
    rename_i hinner
    rw [hclause] at hinner
    cases hinner
  rw [hv]
  rfl

/-- A loop is built from its test and its body. -/
theorem buildStmt_while (hx : x.name = .whileStmt) (hparts : x.significant = [y, z]) {t : Expr}
    {b : Stmt} (hy : buildExpr y = .ok t) (hz : buildStmt z = .ok b) :
    buildStmt x = .ok (.whileLoop t b x.span) := by
  rw [buildStmt, hx]
  dsimp only
  split
  all_goals
    rename_i hinner
    rw [hparts] at hinner
    cases hinner
  rw [hy, hz]
  rfl

/-- A counting loop is built from its clauses and its body. -/
theorem buildStmt_for (hx : x.name = .forStmt) {parts : ForParts} {body : Stmt}
    (hparts : buildFor x.span {} x.significant = .ok parts) (hbody : parts.body = some body) :
    buildStmt x = .ok (.forLoop parts.init parts.test parts.update body x.span) := by
  rw [buildStmt, hx]
  dsimp only
  rw [hparts]
  simp only [bind, Except.bind, hbody]
  rfl

/-- A `return` is built from its expression, if there is one. -/
theorem buildStmt_return (hx : x.name = .returnStmt) {value : Option Expr}
    (hparts : (value = none ∧ x.significant = []) ∨ ∃ e, value = some e ∧ x.significant = [y] ∧
      buildExpr y = .ok e) : buildStmt x = .ok (.ret value x.span) := by
  rw [buildStmt, hx]
  dsimp only
  rcases hparts with ⟨rfl, hparts⟩ | ⟨e, rfl, hparts, hy⟩
  · rw [hparts]
  · rw [hparts]
    dsimp only
    rw [hy]
    rfl

/-- A `break` is built from nothing. -/
theorem buildStmt_break (hx : x.name = .breakStmt) : buildStmt x = .ok (.breakLoop x.span) := by
  rw [buildStmt, hx]

/-- So is a `continue`. -/
theorem buildStmt_continue (hx : x.name = .continueStmt) :
    buildStmt x = .ok (.continueLoop x.span) := by rw [buildStmt, hx]

/-- So is the empty statement. -/
theorem buildStmt_empty (hx : x.name = .emptyStmt) : buildStmt x = .ok (.empty x.span) := by
  rw [buildStmt, hx]

/-- A block is built from its statements. -/
theorem buildStmt_block (hx : x.name = .block) {body : List Stmt}
    (hparts : buildStmts x.inner = .ok body) : buildStmt x = .ok (.block body x.span) := by
  rw [buildStmt, hx]
  dsimp only
  rw [hparts]
  rfl

/-- An expression that stands alone is built from it. -/
theorem buildStmt_expr (hx : x.name = .exprStmt) (hparts : x.inner = [y]) {e : Expr}
    (hy : buildExpr y = .ok e) : buildStmt x = .ok (.expr e x.span) := by
  rw [buildStmt, hx]
  dsimp only
  rw [hparts]
  dsimp only
  rw [hy]
  rfl

/-! ### Parts of functions and loops -/

/-- A function has no further parts. -/
theorem buildFunction_nil (parts : FunctionParts) : buildFunction span parts [] = .ok parts := by
  rw [buildFunction]

/-- An identifier is its name. -/
theorem buildFunction_name (hx : x.name = .identifier) (parts : FunctionParts) :
    buildFunction span parts (x :: xs) =
      buildFunction span { parts with name := some x.text } xs := by
  rw [buildFunction, hx]

/-- A list of parameters gives these. -/
theorem buildFunction_params (hx : x.name = .paramList) (parts : FunctionParts) :
    buildFunction span parts (x :: xs) =
      buildFunction span { parts with params := x.inner.map Node.text } xs := by
  rw [buildFunction, hx]

/-- A block is its body. -/
theorem buildFunction_body (hx : x.name = .block) {body : List Stmt}
    (hbody : buildStmts x.inner = .ok body) (parts : FunctionParts) :
    buildFunction span parts (x :: xs) =
      buildFunction span { parts with body := some body } xs := by
  rw [buildFunction, hx]
  dsimp only
  rw [hbody]
  rfl

/-- A function is built from its name, its parameters, if there are any, and its body. -/
theorem buildStmt_function {text : String} {params : List String} {body : List Stmt}
    (hx : x.name = .functionWord) (hy : y.name = .identifier)
    (hparams : (params = [] ∧ xs = []) ∨
      ∃ z, xs = [z] ∧ z.name = .paramList ∧ z.inner.map Node.text = params)
    (hw : w.name = .block) (hbody : buildStmts w.inner = .ok body) :
    buildStmt (.mk .functionDecl text span ([x] ++ ([y] ++ (xs ++ [w])))) =
      .ok (.function y.text params body span) := by
  have hfound : buildFunction span {}
      (Node.significant (.mk .functionDecl text span ([x] ++ ([y] ++ (xs ++ [w]))))) =
      .ok ⟨some y.text, params, some body⟩ := by
    rcases hparams with ⟨rfl, rfl⟩ | ⟨z, rfl, hz, rfl⟩
    · have hparts : Node.significant (.mk .functionDecl text span [x, y, w]) = [y, w] := by
        simp [Node.significant, Node.inner, hx, hy, hw, Name.opensStatement]
      change buildFunction span {} (Node.significant (.mk .functionDecl text span [x, y, w])) = _
      rw [hparts, buildFunction_name hy, buildFunction_body hw hbody, buildFunction_nil]
    · have hparts : Node.significant (.mk .functionDecl text span [x, y, z, w]) = [y, z, w] := by
        simp [Node.significant, Node.inner, hx, hy, hz, hw, Name.opensStatement]
      change buildFunction span {} (Node.significant (.mk .functionDecl text span [x, y, z, w])) = _
      rw [hparts, buildFunction_name hy, buildFunction_params hz, buildFunction_body hw hbody,
        buildFunction_nil]
  rw [buildStmt]
  change (buildFunction span {} _ >>= _) = _
  rw [hfound]
  rfl

/-- A counting loop has no further parts. -/
theorem buildFor_nil (parts : ForParts) : buildFor span parts [] = .ok parts := by rw [buildFor]

/-- The first clause starts it. -/
theorem buildFor_init (hx : x.name = .forInit) {init : ForInit}
    (hinit : buildForInit span x = .ok init) (parts : ForParts) :
    buildFor span parts (x :: xs) = buildFor span { parts with init := some init } xs := by
  rw [buildFor, hx]
  dsimp only
  rw [hinit]
  rfl

/-- The second clause tests. -/
theorem buildFor_test (hx : x.name = .forTest) {e : Expr}
    (he : buildClause "for condition" span x = .ok e) (parts : ForParts) :
    buildFor span parts (x :: xs) = buildFor span { parts with test := some e } xs := by
  rw [buildFor, hx]
  dsimp only
  rw [he]
  rfl

/-- The third clause goes on. -/
theorem buildFor_update (hx : x.name = .forUpdate) {e : Expr}
    (he : buildClause "for update" span x = .ok e) (parts : ForParts) :
    buildFor span parts (x :: xs) = buildFor span { parts with update := some e } xs := by
  rw [buildFor, hx]
  dsimp only
  rw [he]
  rfl

/-- A statement is its body. -/
theorem buildFor_body (hx : x.name = .statement) {body : Stmt} (hbody : buildStmt x = .ok body)
    (parts : ForParts) :
    buildFor span parts (x :: xs) = buildFor span { parts with body := some body } xs := by
  rw [buildFor, hx]
  dsimp only
  rw [hbody]
  rfl

end builder

/-! ## Declarations -/

variable {bound n : Nat}

/-- A name that is declared, with or without a value, is matched and built as the rule reads it. -/
theorem reads_declarator (hn : bound ≤ n) :
    Reads bound (.call .declarator) (declarator n) fun d _ xs =>
      Gives buildDeclarator .declarator d xs := by
  have hinit : Reads bound (.inOrder [.text "=", .call .assignmentExpr])
      (do literal "="; blanks; assignment n) fun e _ xs =>
      Builds buildExpr e xs :=
    .skip ((reads_inner hn).assignment.imp fun _ _ _ he => he.builds)
  refine .node rfl (.made (fun v span => ⟨v.1, v.2, span⟩) (fun _ _ => rfl) ?_)
  refine (Reads.token rfl lexes_identifier).seq fun name _ xs hname =>
    hinit.opt.map fun init _ ys hys => ⟨(name, init), rfl, ?_⟩
  obtain ⟨nametext, rfl, rfl⟩ := hname
  intro span text
  cases init with
  | none =>
    obtain rfl := hys
    rfl
  | some e =>
    obtain ⟨y, rfl, hy⟩ := hys
    simp only [buildDeclarator, Node.inner, List.singleton_append, hy]
    rfl

/-- Nodes that stand for declarators are built to these. -/
theorem mapM_of_laid {ds : List Declarator} {xs : List (Node Name)}
    (h : Laid (Gives buildDeclarator .declarator) ds xs) : xs.mapM buildDeclarator = .ok ds := by
  induction h with
  | nil => rfl
  | cons fit rest ih =>
    obtain ⟨text, span, ys, rfl, hbuild⟩ := fit
    rw [List.singleton_append, List.mapM_cons, hbuild, ih]
    rfl

/-- A word of declarations and the names behind it are matched and built as the rule reads them. -/
theorem reads_declaration (hn : bound ≤ n) :
    Reads bound (.call .declaration) (declaration n) fun v _ xs =>
      Gives buildDeclaration .declaration v xs := by
  refine .node rfl (.anywhere ?_)
  refine (Reads.token rfl lexes_declareWord).seq fun word _ xs hword =>
    ((reads_declarator hn).commas hn).map fun v _ ys hys => ?_
  obtain ⟨d, ds⟩ := v
  obtain ⟨wordtext, rfl, hmeans⟩ := hword
  refine ⟨_, rfl, fun span text => ?_⟩
  simp only [buildDeclaration, Node.inner, List.singleton_append, Node.text, hmeans,
    mapM_of_laid hys]
  rfl

/-! ## Statements -/

/-- The table reads the statements that the rule reads. -/
def ReadsStmt (bound : Nat) (rule : Rule Stmt) : Prop :=
  Reads bound (.call .statement) rule fun st _ xs => Gives buildStmt .statement st xs

variable {inner : Rule Stmt}

/-- Nodes that stand for statements are built to these. -/
theorem buildStmts_of_laid {body : List Stmt} {xs : List (Node Name)}
    (h : Laid (Gives buildStmt .statement) body xs) : buildStmts xs = .ok body := by
  induction h with
  | nil => rw [buildStmts]
  | cons fit rest ih =>
    obtain ⟨text, span, ys, rfl, hbuild⟩ := fit
    rw [List.singleton_append, buildStmts, hbuild, ih]
    rfl

/-- A semicolon that may be missing, at the end. -/
theorem reads_semicolon {α : Type} {fits : α → List (Node Name) → Prop} {v : α} (h : fits v []) :
    Reads bound (.opt (.text ";")) (optional (literal ";") >>= fun _ => pure v) fun v _ xs =>
      fits v xs := by
  refine (Reads.optional_literal ";").map fun _ _ xs hxs => ⟨v, rfl, ?_⟩
  subst hxs
  exact h

/-- A semicolon may be missing in front of what follows. -/
theorem semicolon_bind {α : Type} (f : Unit → Rule α) :
    (semicolon >>= f) = blanks >>= fun _ => optional (literal ";") >>= fun _ => f () := by
  simp only [semicolon, Rule.bind_assoc, Rule.pure_bind]

/-- A test stands in parentheses in front of what follows. -/
theorem test_bind {α : Type} (f : Expr → Rule α) : (test n >>= f) =
    blanks >>= fun _ => literal "(" >>= fun _ => blanks >>= fun _ => expression n >>= fun e =>
      blanks >>= fun _ => literal ")" >>= fun _ => blanks >>= fun _ => f e := by
  simp only [test, Rule.bind_assoc, Rule.pure_bind]

/-- A test in parentheses and what follows it are matched and built as the rule reads them. -/
theorem reads_test {α : Type} {q : Pattern Name} {f : Expr → Rule α}
    {fits : α → List (Node Name) → Prop} (hn : bound ≤ n) (h : ∀ e xs,
      Gives buildExpr .expression e xs → Reads bound q (f e) fun v _ ys => fits v (xs ++ ys)) :
    Reads bound (.inOrder [.text "(", .call .expression, .text ")", q])
      (literal "(" >>= fun _ => blanks >>= fun _ =>
      expression n >>= fun e => blanks >>= fun _ => literal ")" >>= fun _ => blanks >>= fun _ =>
          f e) fun v _ xs => fits v xs :=
  .skip (Reads.seq (reads_expression hn) fun e _ xs he => .skip (h e xs he))

/-- Statements in braces are matched and built as the rule reads them. -/
theorem reads_braces (h : ReadsStmt bound inner) (hn : bound ≤ n) :
    Reads (bound + 1) (.call .block) (braces n inner) fun body span xs =>
      ∃ text ys, xs = [.mk .block text span ys] ∧ buildStmts ys = .ok body := by
  have hparts : Reads (bound + 1) (Name.pattern .block) (do
      literal "\x7b"; blanks; let body ← many inner n; blanks; literal "\x7d"; pure body)
          fun body _ xs =>
      buildStmts xs = .ok body := by
    refine .mark (by decide) ((Reads.star rfl h hn).seq fun body _ xs hxs => .close ?_)
    rw [List.append_nil]
    exact buildStmts_of_laid hxs
  exact Reads.call rfl hparts

/-- Parameters with commas between them are matched and built as the rule reads them. -/
theorem reads_paramList (hn : bound ≤ n) :
    Reads bound (.call .paramList) (paramList n) fun ps _ xs =>
    ∃ text span ys, xs = [.mk .paramList text span ys] ∧ ys.map Node.text = ps := by
  have hname : Reads bound (.call .identifier) (token Lexer.identifier) fun name _ xs =>
      ∃ y : Node Name, xs = [y] ∧ y.text = name := by
    refine (Reads.token rfl lexes_identifier).imp fun name span xs hname => ?_
    obtain ⟨text, rfl, rfl⟩ := hname
    exact ⟨_, rfl, rfl⟩
  have htexts {ps : List String} {xs : List (Node Name)}
      (h : Laid (fun name xs => ∃ y : Node Name, xs = [y] ∧ y.text = name) ps xs) :
      xs.map Node.text = ps := by
    induction h with
    | nil => rfl
    | cons fit rest ih =>
      obtain ⟨y, rfl, rfl⟩ := fit
      rw [List.singleton_append, List.map_cons, ih]
  have hparts : Reads bound (Name.pattern .paramList)
      (do let x ← commaList n (token Lexer.identifier); pure (x.1 :: x.2))
      fun ps _ xs => xs.map Node.text = ps :=
    (hname.commas hn).map fun v _ xs hxs => ⟨_, rfl, htexts hxs⟩
  refine (Reads.call rfl hparts).imp fun ps span xs hxs => ?_
  obtain ⟨text, ys, rfl, hys⟩ := hxs
  exact ⟨text, span, ys, rfl, hys⟩

/-- A function is matched and built as the rule reads it. -/
theorem reads_functionRule (h : ReadsStmt bound inner) (hn : bound < n) :
    Reads (bound + 1) (.call .functionDecl) (functionRule n inner) fun st _ xs =>
      Builds buildStmt st xs := by
  refine .builds rfl (fun v span => .function v.1 v.2.1 v.2.2 span) (fun _ _ => rfl) ?_
  refine (Reads.token rfl (lexes_keyword rfl (by decide))).seq_strict rfl fun _ _ xs hword => ?_
  refine (Reads.token rfl lexes_identifier).seq fun name _ ys hname => .skip ?_
  refine (reads_paramList (Nat.le_of_lt hn)).opt.seq fun params _ zs hparams => .skip ?_
  refine ((reads_braces h (Nat.le_of_lt hn)).weaken (Nat.le_succ _)).map fun body _ ws hbody => ?_
  refine ⟨(name, params.getD [], body), rfl, ?_⟩
  obtain ⟨wordtext, rfl, -⟩ := hword
  obtain ⟨nametext, rfl, rfl⟩ := hname
  obtain ⟨bodytext, bs, rfl, hbs⟩ := hbody
  intro span text
  cases params with
  | none =>
    obtain rfl := hparams
    exact buildStmt_function rfl rfl (.inl ⟨rfl, rfl⟩) rfl hbs
  | some ps =>
    obtain ⟨paramstext, paramsspan, names, rfl, hnames⟩ := hparams
    exact buildStmt_function rfl rfl (.inr ⟨_, rfl, rfl, hnames⟩) rfl hbs

/-- A declaration is matched and built as the rule reads it. -/
theorem reads_declareRule (hn : bound ≤ n) :
    Reads bound (.call .declareStmt) (declareRule n) fun st _ xs => Builds buildStmt st xs := by
  refine .builds rfl (fun v span => .declare v.1 v.2 span) (fun _ _ => rfl) ?_
  simp only [semicolon_bind]
  refine (reads_declaration hn).seq fun v _ xs hv => reads_semicolon ?_
  obtain ⟨_, _, ys, rfl, hbuild⟩ := hv
  exact fun span text => buildStmt_declare rfl rfl hbuild

/-- What stands behind `else` is matched and built as the rule reads it. -/
theorem reads_elseClause (h : ReadsStmt bound inner) :
    Reads (bound + 1) (.call .elseClause) (elseClause inner) fun a _ xs =>
      ∃ text span ys z, xs = [.mk .elseClause text span ys] ∧
      Node.significant (.mk .elseClause text span ys) = [z] ∧ buildStmt z = .ok a := by
  have hparts : Reads (bound + 1) (Name.pattern .elseClause)
      (do token (Lexer.keyword "else"); blanks; inner) fun a _ xs =>
      ∀ text span, ∃ z, Node.significant (.mk .elseClause text span xs) = [z] ∧
          buildStmt z = .ok a := by
    refine (Reads.token rfl (lexes_keyword rfl (by decide))).seq_strict rfl fun _ _ xs hword => ?_
    refine h.imp fun a _ ys ha text span => ?_
    obtain ⟨_, rfl, -⟩ := hword
    obtain ⟨_, _, zs, rfl, hbuild⟩ := ha
    exact ⟨_, rfl, hbuild⟩
  refine (Reads.call rfl hparts).imp fun a span xs ha => ?_
  obtain ⟨text, ys, rfl, hys⟩ := ha
  obtain ⟨z, hz, hbuild⟩ := hys text span
  exact ⟨text, span, ys, z, rfl, hz, hbuild⟩

/-- A branch is matched and built as the rule reads it. -/
theorem reads_branchRule (h : ReadsStmt bound inner) (hn : bound < n) :
    Reads (bound + 1) (.call .ifStmt) (branchRule n inner) fun st _ xs =>
      Builds buildStmt st xs := by
  refine .builds rfl (fun v span => .branch v.1 v.2.1 v.2.2 span) (fun _ _ => rfl) ?_
  simp only [test_bind]
  refine (Reads.token rfl (lexes_keyword rfl (by decide))).seq_strict rfl fun _ _ xs hword => ?_
  refine reads_test (Nat.le_of_lt hn) fun t ys ht => Reads.seq h fun c _ zs hc => ?_
  refine ((reads_elseClause h).weaken (Nat.le_succ _)).opt.map fun a _ ws ha => ⟨(t, c, a), rfl, ?_⟩
  obtain ⟨wordtext, rfl, -⟩ := hword
  obtain ⟨_, _, ys, rfl, hy⟩ := ht
  obtain ⟨_, _, zs, rfl, hz⟩ := hc
  intro span text
  cases a with
  | none =>
    obtain rfl := ha
    exact buildStmt_branch rfl rfl hy hz
  | some a =>
    obtain ⟨_, _, ws, v, rfl, hclause, hv⟩ := ha
    exact buildStmt_branch_else rfl rfl hclause hy hz hv

/-- A loop is matched and built as the rule reads it. -/
theorem reads_whileRule (h : ReadsStmt bound inner) (hn : bound < n) :
    Reads (bound + 1) (.call .whileStmt) (whileRule n inner) fun st _ xs =>
      Builds buildStmt st xs := by
  refine .builds rfl (fun v span => .whileLoop v.1 v.2 span) (fun _ _ => rfl) ?_
  simp only [test_bind]
  refine (Reads.token rfl (lexes_keyword rfl (by decide))).seq_strict rfl fun _ _ xs hword => ?_
  refine reads_test (Nat.le_of_lt hn) fun t ys ht => Reads.map h fun b _ zs hb => ⟨(t, b), rfl, ?_⟩
  obtain ⟨wordtext, rfl, -⟩ := hword
  obtain ⟨_, _, ys, rfl, hy⟩ := ht
  obtain ⟨_, _, zs, rfl, hz⟩ := hb
  exact fun span text => buildStmt_while rfl rfl hy hz

/-! ### Counting loops -/

/-- One node of the rule `x`, of which a clause of a loop is built, whatever the loop spans. -/
def Clause {α : Type} (x : Name) (build : Span → Node Name → Except BuildError α) (v : α)
    (xs : List (Node Name)) : Prop :=
  ∃ y, xs = [y] ∧ y.name = x ∧ ∀ span, build span y = .ok v

/-- The start of a counting loop is matched and built as the rule reads it. -/
theorem reads_forInit (hn : bound ≤ n) :
    Reads bound (.call .forInit) (forInit n) fun v _ xs => Clause .forInit buildForInit v xs := by
  have hparts : Reads bound (Name.pattern .forInit)
      (orElse (do let x ← declaration n; pure (ForInit.declare x.1 x.2))
        (do let e ← expression n; pure (ForInit.expr e)))
      fun v _ xs => ∀ text span span',
        buildForInit span' (.mk .forInit text span xs) = .ok v := by
    refine ((reads_declaration hn).map fun v _ xs hv => ?_).or
      (Reads.map (reads_expression hn) fun e _ xs he => ?_)
    · obtain ⟨word, ds⟩ := v
      obtain ⟨_, _, ys, rfl, hbuild⟩ := hv
      refine ⟨_, rfl, fun text span span' => ?_⟩
      simp only [buildForInit, Node.inner, Node.name, hbuild]
      rfl
    · obtain ⟨_, _, ys, rfl, hbuild⟩ := he
      refine ⟨_, rfl, fun text span span' => ?_⟩
      simp only [buildForInit, Node.inner, Node.name, hbuild]
      rfl
  refine (Reads.call rfl hparts).imp fun v span xs hv => ?_
  obtain ⟨text, ys, rfl, hbuild⟩ := hv
  exact ⟨_, rfl, rfl, hbuild text span⟩

/-- The test and the step of a counting loop are matched and built as the rule reads them. -/
theorem reads_clause {x : Name} (hkind : x.kind = .plain) (hpattern : x.pattern = .call .expression)
    (what : String) (hn : bound ≤ n) :
    Reads bound (.call x) (reporting (expression n)) fun e _ xs =>
      Clause x (buildClause what) e xs := by
  have hparts : Reads bound x.pattern (expression n) fun e _ xs => ∃ y, xs = [y] ∧
      buildExpr y = .ok e := by
    rw [hpattern]
    exact Reads.imp (reads_expression hn) fun _ _ _ he => he.builds
  refine (Reads.call hkind hparts).imp fun e span xs he => ?_
  obtain ⟨text, _, rfl, y, rfl, hy⟩ := he
  exact ⟨_, rfl, rfl, fun span => hy⟩

/-- The nodes of clauses are not dropped. -/
theorem significant_clause {α : Type} {x : Name} {build : Span → Node Name → Except BuildError α}
    {o : Option α} {span : Span} {xs : List (Node Name)} (hx : x.opensStatement = false)
    (h : Maybe (fun v _ xs => Clause x build v xs) o span xs) :
    xs.filter (fun y => !y.name.opensStatement) = xs := by
  cases o with
  | none =>
    obtain rfl := h
    rfl
  | some v =>
    obtain ⟨y, rfl, hy, -⟩ := h
    simp [hy, hx]

/-- The parts of a loop, each of the first three of which may be missing. -/
theorem buildStmt_forLoop {x : Node Name} {as bs cs ds : List (Node Name)}
    {text : String} {span span₁ span₂ span₃ : Span} {init : Option ForInit}
    {test update : Option Expr} {body : Stmt} (hx : x.name = .forWord)
    (hinit : Maybe (fun v _ xs => Clause .forInit buildForInit v xs) init span₁ as)
    (htest : Maybe (fun e _ xs => Clause .forTest (buildClause "for condition") e xs) test span₂ bs)
    (hupdate : Maybe (fun e _ xs => Clause .forUpdate (buildClause "for update") e xs)
      update span₃ cs) (hbody : Gives buildStmt .statement body ds) :
    buildStmt (.mk .forStmt text span ([x] ++ (as ++ (bs ++ (cs ++ ds))))) =
      .ok (.forLoop init test update body span) := by
  have hparts : Node.significant (.mk .forStmt text span ([x] ++ (as ++ (bs ++ (cs ++ ds))))) =
      as ++ (bs ++ (cs ++ ds)) := by
    obtain ⟨_, _, ys, rfl, -⟩ := hbody
    have hword : [x].filter (fun y => !y.name.opensStatement) = [] := by
      simp [hx, Name.opensStatement]
    simp only [Node.significant, Node.inner, List.filter_append, hword,
      significant_clause rfl hinit, significant_clause rfl htest, significant_clause rfl hupdate]
    rfl
  have hfirst : buildFor span {} (as ++ (bs ++ (cs ++ ds))) =
      buildFor span ⟨init, none, none, none⟩ (bs ++ (cs ++ ds)) := by
    cases init with
    | none =>
      obtain rfl := hinit
      rfl
    | some v =>
      obtain ⟨y, rfl, hy, hbuild⟩ := hinit
      exact buildFor_init hy (hbuild span) {}
  have hsecond : buildFor span ⟨init, none, none, none⟩ (bs ++ (cs ++ ds)) =
      buildFor span ⟨init, test, none, none⟩ (cs ++ ds) := by
    cases test with
    | none =>
      obtain rfl := htest
      rfl
    | some e =>
      obtain ⟨y, rfl, hy, hbuild⟩ := htest
      exact buildFor_test hy (hbuild span) ⟨init, none, none, none⟩
  have hthird : buildFor span ⟨init, test, none, none⟩ (cs ++ ds) =
      buildFor span ⟨init, test, update, none⟩ ds := by
    cases update with
    | none =>
      obtain rfl := hupdate
      rfl
    | some e =>
      obtain ⟨y, rfl, hy, hbuild⟩ := hupdate
      exact buildFor_update hy (hbuild span) ⟨init, test, none, none⟩
  have hlast : buildFor span ⟨init, test, update, none⟩ ds =
      .ok ⟨init, test, update, some body⟩ := by
    obtain ⟨_, _, ys, rfl, hbuild⟩ := hbody
    rw [buildFor_body rfl hbuild, buildFor_nil]
  have hfound : buildFor span {}
      (Node.significant (.mk .forStmt text span ([x] ++ (as ++ (bs ++ (cs ++ ds)))))) =
      .ok ⟨init, test, update, some body⟩ := by rw [hparts, hfirst, hsecond, hthird, hlast]
  exact buildStmt_for (x := .mk .forStmt text span _) rfl hfound rfl

/-- A counting loop is matched and built as the rule reads it. -/
theorem reads_forRule (h : ReadsStmt bound inner) (hn : bound < n) :
    Reads (bound + 1) (.call .forStmt) (forRule n inner) fun st _ xs => Builds buildStmt st xs := by
  refine .builds rfl (fun v span => .forLoop v.1 v.2.1 v.2.2.1 v.2.2.2 span) (fun _ _ => rfl) ?_
  refine (Reads.token rfl (lexes_keyword rfl (by decide))).seq_strict rfl fun _ _ xs hword =>
    .skip ?_
  refine (reads_forInit (Nat.le_of_lt hn)).opt.seq fun init _ as hinit => .skip ?_
  refine (reads_clause rfl rfl "for condition" (Nat.le_of_lt hn)).opt.seq fun test _ bs htest =>
    .skip ?_
  refine (reads_clause rfl rfl "for update" (Nat.le_of_lt hn)).opt.seq fun update _ cs hupdate =>
    .skip ?_
  refine Reads.map h fun body _ ds hbody => ⟨(init, test, update, body), rfl, ?_⟩
  obtain ⟨wordtext, rfl, -⟩ := hword
  exact fun span text => buildStmt_forLoop rfl hinit htest hupdate hbody

/-! ### The other statements -/

/-- A `return` is matched and built as the rule reads it. -/
theorem reads_returnRule (hn : bound ≤ n) :
    Reads bound (.call .returnStmt) (returnRule n) fun st _ xs => Builds buildStmt st xs := by
  refine .builds rfl .ret (fun _ _ => rfl) ?_
  simp only [semicolon_bind]
  refine (Reads.token rfl (lexes_keyword rfl (by decide))).seq fun _ _ xs hword => ?_
  refine (Reads.opt (reads_expression hn)).seq fun value _ ys hvalue => reads_semicolon ?_
  obtain ⟨wordtext, rfl, -⟩ := hword
  intro span text
  cases value with
  | none =>
    obtain rfl := hvalue
    exact buildStmt_return (y := .mk .returnWord wordtext span []) rfl (.inl ⟨rfl, rfl⟩)
  | some e =>
    obtain ⟨_, _, zs, rfl, hbuild⟩ := hvalue
    exact buildStmt_return rfl (.inr ⟨e, rfl, rfl, hbuild⟩)

/-- A statement that is a single word is matched and built as the rule reads it. -/
theorem reads_wordRule {x y : Name} {word : String} {make : Span → Stmt} (hx : x.kind = .plain)
    (hpattern : x.pattern = .inOrder [.call y, .opt (.text ";")]) (hy : y.kind = .atomic)
    (hword : y.pattern = .words [word]) (hw : IsWord word)
    (hbuild : ∀ z : Node Name, z.name = x → buildStmt z = .ok (make z.span)) :
    Reads bound (.call x) (wordRule word make) fun st _ xs => Builds buildStmt st xs := by
  refine .builds hx (fun _ span => make span) (fun _ _ => rfl) ?_
  rw [hpattern]
  refine (Reads.token hy (lexes_keyword hword hw)).seq fun _ _ xs _ => reads_semicolon ?_
  exact fun span text => hbuild _ rfl

/-- A block is matched and built as the rule reads it. -/
theorem reads_blockRule (h : ReadsStmt bound inner) (hn : bound ≤ n) :
    Reads (bound + 1) (.call .block) (blockRule n inner) fun st _ xs => Builds buildStmt st xs := by
  refine (reads_braces h hn).spanned.map fun v span xs hv => ?_
  obtain ⟨body, span'⟩ := v
  obtain ⟨rfl, text, ys, rfl, hbuild⟩ := hv
  exact ⟨_, rfl, _, rfl, buildStmt_block rfl hbuild⟩

/-- The empty statement is matched and built as the rule reads it. -/
theorem reads_emptyRule :
    Reads bound (.call .emptyStmt) emptyRule fun st _ xs => Builds buildStmt st xs := by
  refine .builds rfl (fun _ span => .empty span) (fun _ _ => rfl) ?_
  exact (Reads.literal ";").imp fun _ _ _ _ span text => buildStmt_empty rfl

/-- An expression that stands alone is matched and built as the rule reads it. -/
theorem reads_exprRule (hn : bound ≤ n) :
    Reads bound (.call .exprStmt) (exprRule n) fun st _ xs => Builds buildStmt st xs := by
  refine .builds rfl .expr (fun _ _ => rfl) ?_
  simp only [semicolon_bind]
  refine Reads.seq (reads_expression hn) fun e _ xs he => reads_semicolon ?_
  obtain ⟨_, _, ys, rfl, hbuild⟩ := he
  exact fun span text => buildStmt_expr rfl rfl hbuild

/-- All statements are matched and built as the rule reads them. -/
theorem reads_statementRule (h : ReadsStmt bound inner) (hn : bound < n) :
    ReadsStmt (bound + 1) (statementRule n inner) := by
  have hwords := (reads_wordRule rfl rfl rfl rfl (by decide) fun _ => buildStmt_break).firstOf_cons
    ((reads_wordRule rfl rfl rfl rfl (by decide) fun _ => buildStmt_continue).firstOf_cons
      ((reads_blockRule h (Nat.le_of_lt hn)).firstOf_cons
      (reads_emptyRule.firstOf_cons (reads_exprRule hn).firstOf_last)))
  have hloops := (reads_branchRule h hn).firstOf_cons ((reads_whileRule h hn).firstOf_cons
    ((reads_forRule h hn).firstOf_cons ((reads_returnRule hn).firstOf_cons hwords)))
  have hchoice :=
    (reads_functionRule h hn).firstOf_cons ((reads_declareRule hn).firstOf_cons hloops)
  refine Reads.node rfl (hchoice.imp fun st span xs hst text => ?_)
  obtain ⟨y, rfl, hy⟩ := hst
  rw [buildStmt_statement rfl rfl]
  exact hy

/-- With fuel above the length of the text, the rule of statements reads what the table reads. -/
theorem reads_statement (hn : bound ≤ n) : ReadsStmt bound (statement n) := by
  induction bound generalizing n with
  | zero => exact fun s hs => absurd hs (Nat.not_lt_zero _)
  | succ bound ih =>
    obtain ⟨n, rfl⟩ := Nat.exists_eq_add_of_lt hn
    simp only [statement_succ]
    exact reads_statementRule (ih (Nat.le_add_right bound n)) (by omega)

end BranchPaint.Peg
