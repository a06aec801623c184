import BranchPaint.Proofs.Peg.Script
import BranchPaint.Script.Tree

/-!
# From nodes to syntax trees

The second stage of reading a program in two stages. Nodes follow the grammar rule by rule; syntax
trees are made of them by taking the parts that a rule leaves, one after the other. A part that is
missing, a rule that has no place there, and text that stands for no operator or number are errors
of this stage, with a message and the place.
-/

namespace BranchPaint.Peg

/-- A text that matched, but of which no tree could be built. -/
structure BuildError where
  message : String
  span : Option Span

/-- Why a text could not be read in two stages. -/
inductive StageError where
  /-- It does not match; the furthest place, in bytes, at which a rule gave up. -/
  | syntaxAt (offset : Nat)
  /-- It matches, but no tree can be built. -/
  | build (e : BuildError)

/-- A part that should be there. -/
def expected (what : String) (span : Span) : BuildError := ⟨"Expected " ++ what, some span⟩

/-- The words that open statements. They leave nodes of their own, which no tree is made of. -/
def Name.opensStatement : Name → Bool
  | .functionWord | .ifWord | .elseWord | .whileWord | .forWord | .returnWord | .breakWord
  | .continueWord => true
  | _ => false

/-- The nodes of the parts, without the words that open statements. -/
def Node.significant (x : Node Name) : List (Node Name) :=
  x.inner.filter fun y => !y.name.opensStatement

/-! ## Expressions -/

/-- The number that the text of a literal stands for. -/
def buildNumber (text : String) (span : Span) : Except BuildError Expr :=
  match Decimal.readFloat? text with
  | some v => .ok (.num v span)
  | none =>
    let cause := if text.isEmpty then "cannot parse float from empty string"
      else "invalid float literal"
    .error ⟨"Failed to parse number '" ++ text ++ "': " ++ cause, some span⟩

/-- The text that stands between quotes, with what backslashes stand for. -/
def unescaped : List Char → List Char
  | [] => []
  | '\\' :: c :: r => Quoted.unescape c :: unescaped r
  | ['\\'] => []
  | c :: r => c :: unescaped r

/-- Two operands joined by the operator that a node stands for. -/
def buildJoin (left right : Expr) (op : Node Name) : Except BuildError Expr :=
  let span := left.span.merge right.span
  match op.name with
  | .orOp => .ok (.logical .or left right span)
  | .andOp => .ok (.logical .and left right span)
  | _ =>
    match BinaryOp.ofText? op.text with
    | some b => .ok (.binary b left right span)
    | none => .error ⟨"Unknown operator '" ++ op.text ++ "'", some op.span⟩

/-- The step by one that is written `text`. -/
def updateOpOf (text : String) : UpdateOp := if text = "--" then .decrement else .increment

mutual

/-- The expression that a node stands for. -/
def buildExpr : Node Name → Except BuildError Expr
  | .mk .expression _ span parts => do
    match ← buildExprs parts with
    | [e] => pure e
    | es => pure (.sequence es span)
  | .mk .assignmentExpr _ span parts =>
    match parts with
    | [] => .error (expected "expression" span)
    | [first] => buildExpr first
    | first :: op :: rest => do
      match AssignOp.ofText? op.text with
      | none => .error ⟨"Unknown assignment operator '" ++ op.text ++ "'", some op.span⟩
      | some o =>
        let target ← buildExpr first
        match rest with
        | [] => .error (expected "assigned value" span)
        | value :: _ =>
          let v ← buildExpr value
          pure (.assign o target v span)
  | .mk .conditionalExpr _ span parts =>
    match parts with
    | [] => .error (expected "condition" span)
    | [condition] => buildExpr condition
    | condition :: consequent :: rest => do
      let c ← buildExpr condition
      let t ← buildExpr consequent
      match rest with
      | [] => .error (expected "alternate" span)
      | alternate :: _ =>
        let e ← buildExpr alternate
        pure (.ternary c t e span)
  | .mk .logicalOrExpr _ span parts | .mk .logicalAndExpr _ span parts
  | .mk .equalityExpr _ span parts
  | .mk .relationalExpr _ span parts | .mk .additiveExpr _ span parts
  | .mk .multiplicativeExpr _ span parts =>
    match parts with
    | [] => .error (expected "operand" span)
    | first :: rest => do
      let left ← buildExpr first
      buildChain span left rest
  | .mk .unaryExpr _ span parts =>
    match parts with
    | [] => .error (expected "unary operand" span)
    | first :: rest =>
      match first.name with
      | .unaryOp =>
        match UnaryOp.ofText? first.text with
        | none => .error ⟨"Unknown unary operator '" ++ first.text ++ "'", some span⟩
        | some op =>
          match rest with
          | [] => .error (expected "unary operand" span)
          | arg :: _ => do
            let a ← buildExpr arg
            pure (.unary op a span)
      | _ => buildExpr first
  | .mk .updateExpr _ span parts =>
    match parts with
    | [] => .error (expected "update operand" span)
    | first :: rest =>
      match first.name with
      | .updateOp =>
        match rest with
        | [] => .error (expected "update operand" span)
        | arg :: _ => do
          let a ← buildExpr arg
          pure (.update (updateOpOf first.text) true a span)
      | _ => do
        let a ← buildExpr first
        match rest with
        | [] => pure a
        | op :: _ => pure (.update (updateOpOf op.text) false a span)
  | .mk .postfixExpr _ span parts =>
    match parts with
    | [] => .error (expected "primary expression" span)
    | first :: rest => do
      let e ← buildExpr first
      buildSuffixes e rest
  | .mk .identifier text span _ => .ok (.ident text span)
  | .mk .number text span _ => buildNumber text span
  | .mk .string _ span parts =>
    let raw := match parts with
      | [] => ""
      | body :: _ => body.text
    .ok (.str (String.ofList (unescaped raw.toList)) span)
  | .mk .boolean text span _ => .ok (.bool (text = "true") span)
  | .mk .nullLiteral _ span _ => .ok (.null span)
  | .mk .arrayLiteral _ span parts => do
    let es ← buildExprs parts
    pure (.list es span)
  | .mk name _ span _ => .error ⟨"Unexpected expression rule: " ++ name.text, some span⟩

/-- The expressions that nodes stand for, in order. -/
def buildExprs : List (Node Name) → Except BuildError (List Expr)
  | [] => .ok []
  | x :: xs => do
    let e ← buildExpr x
    let es ← buildExprs xs
    pure (e :: es)

/-- An operand, joined with the operators and operands behind it from left to right. -/
def buildChain (span : Span) (left : Expr) : List (Node Name) → Except BuildError Expr
  | [] => .ok left
  | [_] => .error (expected "right operand after operator" span)
  | op :: right :: rest => do
    let r ← buildExpr right
    let joined ← buildJoin left r op
    buildChain span joined rest

/-- An expression with the suffixes behind it. -/
def buildSuffixes (e : Expr) : List (Node Name) → Except BuildError Expr
  | [] => .ok e
  | .mk .memberAccess _ span parts :: rest =>
    match parts with
    | [] => .error (expected "property name" span)
    | p :: _ => buildSuffixes (.member e (.ident p.text p.span) false (e.span.merge span)) rest
  | .mk .indexAccess _ span parts :: rest =>
    match parts with
    | [] => .error (expected "index" span)
    | index :: _ => do
      let i ← buildExpr index
      buildSuffixes (.member e i true (e.span.merge span)) rest
  | .mk .callArgs _ span parts :: rest => do
    let args ← buildExprs parts
    buildSuffixes (.call e args (e.span.merge span)) rest
  | .mk name _ span _ :: _ => .error ⟨"Unexpected postfix rule: " ++ name.text, some span⟩

end

/-! ## Statements -/

/-- A declared name, with or without a first value. -/
def buildDeclarator (x : Node Name) : Except BuildError Declarator :=
  match x.inner with
  | [] => .error (expected "declared name" x.span)
  | [name] => .ok ⟨name.text, none, x.span⟩
  | name :: init :: _ => do
    let e ← buildExpr init
    pure ⟨name.text, some e, x.span⟩

/-- A declaring word and the names behind it. -/
def buildDeclaration (x : Node Name) : Except BuildError (DeclareWord × List Declarator) :=
  match x.inner with
  | [] => .error (expected "declaration keyword" x.span)
  | word :: declarators => do
    match DeclareWord.ofText? word.text with
    | none => .error ⟨"Expected 'let', 'const' or 'var', got: " ++ word.text, some word.span⟩
    | some w =>
      let ds ← declarators.mapM buildDeclarator
      pure (w, ds)

/-- The first clause of a counting loop. -/
def buildForInit (span : Span) (x : Node Name) : Except BuildError ForInit :=
  match x.inner with
  | [] => .error (expected "for initializer" span)
  | clause :: _ =>
    match clause.name with
    | .declaration => do
      let (w, ds) ← buildDeclaration clause
      pure (.declare w ds)
    | _ => do
      let e ← buildExpr clause
      pure (.expr e)

/-- The expression in a clause of a counting loop. -/
def buildClause (what : String) (span : Span) (x : Node Name) : Except BuildError Expr :=
  match x.inner with
  | [] => .error (expected what span)
  | e :: _ => buildExpr e

/-- What has been found of a function. -/
structure FunctionParts where
  name : Option String := none
  params : List String := []
  body : Option (List Stmt) := none

/-- What has been found of a counting loop. -/
structure ForParts where
  init : Option ForInit := none
  test : Option Expr := none
  update : Option Expr := none
  body : Option Stmt := none

/-- The nodes inside are smaller than the node. -/
theorem Node.sizeOf_inner (x : Node Name) : sizeOf x.inner < sizeOf x := by
  obtain ⟨name, text, span, parts⟩ := x
  simp only [inner, mk.sizeOf_spec]
  omega

/-- So are those of them that matter. -/
theorem Node.sizeOf_significant (x : Node Name) : sizeOf x.significant < sizeOf x := by
  have hfilter : ∀ xs : List (Node Name), sizeOf (xs.filter fun y => !y.name.opensStatement) ≤
      sizeOf xs := by
    intro xs
    induction xs with
    | nil => exact Nat.le_refl _
    | cons y ys ih =>
      rw [List.filter_cons]
      split
      · simp only [List.cons.sizeOf_spec]
        omega
      · simp only [List.cons.sizeOf_spec]
        omega
  exact Nat.lt_of_le_of_lt (hfilter x.inner) x.sizeOf_inner

/-- Each node inside is smaller than the node. -/
theorem Node.sizeOf_lt_of_mem_inner {x y : Node Name} (h : y ∈ x.inner) : sizeOf y < sizeOf x :=
  Nat.lt_trans (List.sizeOf_lt_of_mem h) x.sizeOf_inner

/-- So is each of them that matters. -/
theorem Node.sizeOf_lt_of_mem_significant {x y : Node Name} (h : y ∈ x.significant) :
    sizeOf y < sizeOf x :=
  sizeOf_lt_of_mem_inner (List.mem_of_mem_filter h)

mutual

/-- The statement that a node stands for. -/
def buildStmt (x : Node Name) : Except BuildError Stmt :=
  match x.name with
  | .statement =>
    match _h : x.inner with
    | [] => .error (expected "statement" x.span)
    | y :: _ => buildStmt y
  | .functionDecl => do
    let parts ← buildFunction x.span {} x.significant
    match parts.name with
    | none => .error ⟨"Function declaration without a name", some x.span⟩
    | some name => pure (.function name parts.params (parts.body.getD []) x.span)
  | .declareStmt =>
    match x.inner with
    | [] => .error (expected "declaration" x.span)
    | d :: _ => do
      let (w, ds) ← buildDeclaration d
      pure (.declare w ds x.span)
  | .ifStmt =>
    match _h : x.significant with
    | [] => .error (expected "if condition" x.span)
    | [test] => do
      let _ ← buildExpr test
      .error (expected "if consequent" x.span)
    | [test, consequent] => do
      let t ← buildExpr test
      let c ← buildStmt consequent
      pure (.branch t c none x.span)
    | test :: consequent :: clause :: _ => do
      let t ← buildExpr test
      let c ← buildStmt consequent
      match _hclause : clause.significant with
      | [] => .error (expected "else branch" x.span)
      | alternate :: _ =>
        let a ← buildStmt alternate
        pure (.branch t c (some a) x.span)
  | .whileStmt =>
    match _h : x.significant with
    | [] => .error (expected "while condition" x.span)
    | [test] => do
      let _ ← buildExpr test
      .error (expected "while body" x.span)
    | test :: body :: _ => do
      let t ← buildExpr test
      let b ← buildStmt body
      pure (.whileLoop t b x.span)
  | .forStmt => do
    let parts ← buildFor x.span {} x.significant
    match parts.body with
    | none => .error ⟨"Missing for body", some x.span⟩
    | some body => pure (.forLoop parts.init parts.test parts.update body x.span)
  | .returnStmt =>
    match x.significant with
    | [] => .ok (.ret none x.span)
    | value :: _ => do
      let v ← buildExpr value
      pure (.ret (some v) x.span)
  | .breakStmt => .ok (.breakLoop x.span)
  | .continueStmt => .ok (.continueLoop x.span)
  | .block => do
    let body ← buildStmts x.inner
    pure (.block body x.span)
  | .emptyStmt => .ok (.empty x.span)
  | .exprStmt =>
    match x.inner with
    | [] => .error (expected "expression" x.span)
    | e :: _ => do
      let e ← buildExpr e
      pure (.expr e x.span)
  | name => .error ⟨"Unexpected statement rule: " ++ name.text, some x.span⟩
termination_by sizeOf x
decreasing_by
  · exact Node.sizeOf_lt_of_mem_inner (_h ▸ List.mem_cons_self)
  · exact x.sizeOf_significant
  · exact Node.sizeOf_lt_of_mem_significant (by simp [_h])
  · exact Node.sizeOf_lt_of_mem_significant (by simp [_h])
  · have hclause : clause ∈ x.significant := by simp [_h]
    have halternate : alternate ∈ clause.significant := by simp [_hclause]
    exact Nat.lt_trans (Node.sizeOf_lt_of_mem_significant halternate)
      (Node.sizeOf_lt_of_mem_significant hclause)
  · exact Node.sizeOf_lt_of_mem_significant (by simp [_h])
  · exact x.sizeOf_significant
  · exact x.sizeOf_inner

/-- The statements that nodes stand for, in order. -/
def buildStmts (xs : List (Node Name)) : Except BuildError (List Stmt) :=
  match xs with
  | [] => .ok []
  | x :: xs => do
    let s ← buildStmt x
    let ss ← buildStmts xs
    pure (s :: ss)
termination_by sizeOf xs

/-- The parts of a function, in any order; the last of a kind counts. -/
def buildFunction (span : Span) (parts : FunctionParts) (xs : List (Node Name)) :
    Except BuildError FunctionParts :=
  match xs with
  | [] => .ok parts
  | x :: xs =>
    match x.name with
    | .identifier => buildFunction span { parts with name := some x.text } xs
    | .paramList => buildFunction span { parts with params := x.inner.map Node.text } xs
    | .block => do
      let body ← buildStmts x.inner
      buildFunction span { parts with body := some body } xs
    | name => .error ⟨"Unexpected function content: " ++ name.text, some span⟩
termination_by sizeOf xs
decreasing_by
  all_goals
    have := x.sizeOf_inner
    simp only [List.cons.sizeOf_spec]
    omega

/-- The parts of a counting loop, in any order; the last of a kind counts. -/
def buildFor (span : Span) (parts : ForParts) (xs : List (Node Name)) :
    Except BuildError ForParts :=
  match xs with
  | [] => .ok parts
  | x :: xs =>
    match x.name with
    | .forInit => do
      let init ← buildForInit span x
      buildFor span { parts with init := some init } xs
    | .forTest => do
      let e ← buildClause "for condition" span x
      buildFor span { parts with test := some e } xs
    | .forUpdate => do
      let e ← buildClause "for update" span x
      buildFor span { parts with update := some e } xs
    | _ => do
      let body ← buildStmt x
      buildFor span { parts with body := some body } xs
termination_by sizeOf xs

end

/-! ## Programs -/

/-- The program that a node stands for. -/
def buildProgram (x : Node Name) : Except BuildError Program := do
  let body ← buildStmts (x.inner.filter fun y => y.name ≠ .endOfText)
  pure ⟨body, x.span⟩

end BranchPaint.Peg
