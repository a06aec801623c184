import BranchPaint.Proofs.Grammar.Progress
import BranchPaint.Proofs.Peg.Reading

/-!
# Expressions in two stages

The table reads what the rules of expressions read, and of the nodes that it leaves the second stage
builds the same expression (`reads_inner`, `reads_expression`). In particular the second stage never
finds a part missing, a rule that has no place, or a text that stands for nothing: for each rule the
nodes that its pattern leaves are those that are taken there.

The induction is that of the grammar itself. The rules further in have to agree on shorter texts
only, because every step inwards stands behind something that was read.
-/

namespace BranchPaint.Peg

open Rule Grammar

/-! ## Nodes that stand for expressions -/

/-- The rule `x` of the table reads the expressions that the rule reads. -/
def ReadsExpr (bound : Nat) (x : Name) (rule : Rule Expr) : Prop :=
  Reads bound (.call x) rule fun e _ xs => Gives buildExpr x e xs

variable {bound n : Nat}

/-- Nodes that stand for expressions in a row are built to these. -/
theorem buildExprs_of_laid {es : List Expr} {xs : List (Node Name)}
    (h : Laid (Gives buildExpr .assignmentExpr) es xs) : buildExprs xs = .ok es := by
  induction h with
  | nil => rfl
  | cons fit rest ih =>
    obtain ⟨text, span, ys, rfl, hbuild⟩ := fit
    rw [List.singleton_append, buildExprs, hbuild, ih]
    rfl

/-! ## Sequences and lists -/

/-- Expressions with commas between them are matched and built as the rule reads them. -/
theorem reads_sequence {rule : Rule Expr} (h : ReadsExpr bound .assignmentExpr rule)
    (hn : bound ≤ n) : ReadsExpr bound .expression (sequence n rule) := by
  refine .node rfl (.made (fun v span => if v.2.isEmpty then v.1 else .sequence (v.1 :: v.2) span)
    (fun _ _ => rfl) ?_)
  refine (Reads.commas h hn).imp fun v _ xs hlaid span text => ?_
  obtain ⟨e, es⟩ := v
  rw [buildExpr, buildExprs_of_laid hlaid]
  cases es with
  | nil => rfl
  | cons f es => rfl

/-- Items of a list or arguments of a call, if there are any, are matched and built as the rule
reads them. -/
theorem reads_items {rule : Rule Expr} (h : ReadsExpr bound .assignmentExpr rule) (hn : bound ≤ n) :
    Reads bound (.opt (.commas (.call .assignmentExpr))) (items n rule) fun es _ xs =>
      Laid (Gives buildExpr .assignmentExpr) es xs := by
  refine (Reads.commas h hn).opt.map fun v span xs hv => ?_
  rcases v with _ | ⟨e, es⟩
  · obtain rfl := hv
    exact ⟨_, rfl, .nil⟩
  · exact ⟨_, rfl, hv⟩

/-- The inner rules read what the table reads. -/
structure ReadsInner (bound : Nat) (inner : Inner) : Prop where
  unary : ReadsExpr bound .unaryExpr inner.unary
  assignment : ReadsExpr bound .assignmentExpr inner.assignment

section expressions

variable {inner : Inner} {operand first : Rule Expr}

/-- A list in brackets is matched and built as the rule reads it. -/
theorem reads_listLiteral (h : ReadsInner bound inner) (hn : bound ≤ n) :
    ReadsExpr (bound + 1) .arrayLiteral (listLiteral n inner) := by
  refine .node rfl (.made .list (fun _ _ => rfl) ?_)
  refine .mark (by decide) ((reads_items h.assignment hn).seq fun es _ xs hxs => ?_)
  refine (Reads.optional_literal ",").seq fun _ _ ys hys => .close fun span text => ?_
  subst hys
  rw [List.append_nil, List.append_nil, buildExpr, buildExprs_of_laid hxs]
  rfl

/-- An expression in parentheses is matched and built as the rule reads it. -/
theorem reads_parenthesized (h : ReadsInner bound inner) (hn : bound ≤ n) :
    Reads (bound + 1) (.inOrder [.text "(", .call .expression, .text ")"]) (parenthesized n inner)
      fun e _ xs => Builds buildExpr e xs := by
  refine .mark (by decide) ((reads_sequence h.assignment hn).seq fun e _ xs hxs => .close ?_)
  simpa using hxs.builds

/-! ## Primaries and suffixes -/

/-- A token as an expression is matched and built as the rule reads it. -/
theorem reads_leaf {α : Type} {x : Name} {lex : Lexer α} {means : α → String → Prop}
    {make : α → Span → Expr} (hx : x.kind = .atomic) (h : Lexes x lex means)
    (hbuild : ∀ a text span, means a text → buildExpr (.mk x text span []) = .ok (make a span)) :
    Reads bound (.call x) (leaf lex make) fun e _ xs => Builds buildExpr e xs := by
  refine (Reads.token hx h).spanned.map fun v span xs hv => ?_
  obtain ⟨a, span'⟩ := v
  obtain ⟨rfl, text, rfl, hmeans⟩ := hv
  exact ⟨_, rfl, _, rfl, hbuild a text _ hmeans⟩

/-- The expressions without operators are matched and built as the rule reads them. -/
theorem reads_primary (h : ReadsInner bound inner) (hn : bound ≤ n) :
    Reads (bound + 1) Name.primary (primary n inner) fun e _ xs => Builds buildExpr e xs := by
  refine .firstOf_cons (reads_leaf rfl lexes_number ?_) (.firstOf_cons ?_ (.firstOf_cons (reads_leaf
      rfl lexes_boolean ?_) (.firstOf_cons (reads_leaf rfl (lexes_keyword rfl (by decide)) ?_)
      (.firstOf_cons ((reads_listLiteral h hn).imp ?_) (.firstOf_cons
      (reads_leaf rfl lexes_identifier ?_) (.firstOf_last (reads_parenthesized h hn)))))))
  · intro v text span hmeans
    rw [buildExpr, buildNumber, hmeans]
  · refine Reads.quoted.spanned.map fun v span xs hv => ?_
    obtain ⟨a, span'⟩ := v
    obtain ⟨rfl, text, body, rfl, rfl⟩ := hv
    exact ⟨_, rfl, _, rfl, rfl⟩
  · rintro b text span rfl
    rfl
  · intro u text span _
    rfl
  · exact fun _ _ _ hxs => hxs.builds
  · rintro w text span rfl
    rfl

/-- One node, which is taken for the suffix. -/
def Attaches (v : Suffix × Span) (xs : List (Node Name)) : Prop :=
  ∃ y, xs = [y] ∧ ∀ e rest, buildSuffixes e (y :: rest) = buildSuffixes (attach e v) rest

/-- Nodes that stand for suffixes are attached one by one. -/
theorem buildSuffixes_of_laid {vs : List (Suffix × Span)} {xs : List (Node Name)}
    (h : Laid Attaches vs xs) (e : Expr) : buildSuffixes e xs = .ok (vs.foldl attach e) := by
  induction h generalizing e with
  | nil => rfl
  | cons fit rest ih =>
    obtain ⟨y, rfl, hattach⟩ := fit
    rw [List.singleton_append, hattach, ih, List.foldl_cons]

/-- A member behind a dot is matched and built as the rule reads it. -/
theorem reads_propertySuffix :
    Reads bound (.call .memberAccess) propertySuffix fun v span xs => Attaches (v, span) xs := by
  have hparts : Reads bound (Name.pattern .memberAccess) (do
      literal "."; blanks; let x ← spanned (token Lexer.word); pure (Suffix.property x.1 x.2))
          fun v _ xs =>
      ∃ name y, v = .property name y.span ∧ xs = [y] ∧ y.text = name := by
    refine .skip ((Reads.token rfl lexes_propertyName).spanned.map fun v span xs hv => ?_)
    obtain ⟨name, span'⟩ := v
    obtain ⟨rfl, text, rfl, rfl⟩ := hv
    exact ⟨_, rfl, _, _, rfl, rfl, rfl⟩
  refine (Reads.call rfl hparts).imp fun v span xs hv => ?_
  obtain ⟨text, ys, rfl, name, y, rfl, rfl, rfl⟩ := hv
  exact ⟨_, rfl, fun e rest => rfl⟩

/-- An index in brackets is matched and built as the rule reads it. -/
theorem reads_indexSuffix (h : ReadsInner bound inner) (hn : bound ≤ n) :
    Reads (bound + 1) (.call .indexAccess) (indexSuffix n inner) fun v span xs =>
      Attaches (v, span) xs := by
  have hparts : Reads (bound + 1) (Name.pattern .indexAccess) (do
      literal "["; blanks; let e ← sequence n inner.assignment; blanks; literal "]"; pure
          (Suffix.index e)) fun v _ xs =>
      ∃ e, v = .index e ∧ Builds buildExpr e xs := by
    refine .mark (by decide)
      ((reads_sequence h.assignment hn).seq fun e _ xs hxs => .close ⟨e, rfl, ?_⟩)
    simpa using hxs.builds
  refine (Reads.call rfl hparts).imp fun v span xs hv => ?_
  obtain ⟨text, ys, rfl, i, rfl, y, rfl, hbuild⟩ := hv
  refine ⟨_, rfl, fun e rest => ?_⟩
  rw [buildSuffixes, hbuild]
  rfl

/-- The arguments of a call are matched and built as the rule reads them. -/
theorem reads_callSuffix (h : ReadsInner bound inner) (hn : bound ≤ n) :
    Reads (bound + 1) (.call .callArgs) (callSuffix n inner) fun v span xs =>
      Attaches (v, span) xs := by
  have hparts : Reads (bound + 1) (Name.pattern .callArgs) (do
      literal "("; blanks; let args ← items n inner.assignment; blanks; literal ")"; pure
          (Suffix.call args)) fun v _ xs =>
      ∃ args, v = .call args ∧ Laid (Gives buildExpr .assignmentExpr) args xs := by
    refine .mark (by decide) ((reads_items h.assignment hn).seq fun args _ xs hxs => .close
      ⟨args, rfl, ?_⟩)
    simpa using hxs
  refine (Reads.call rfl hparts).imp fun v span xs hv => ?_
  obtain ⟨text, ys, rfl, args, rfl, hlaid⟩ := hv
  refine ⟨_, rfl, fun e rest => ?_⟩
  rw [buildSuffixes, buildExprs_of_laid hlaid]
  rfl

/-- A primary expression with its suffixes is matched and built as the rule reads it. -/
theorem reads_suffixed (h : ReadsInner bound inner) (hn : bound < n) :
    ReadsExpr (bound + 1) .postfixExpr (suffixed n inner) := by
  have hsuffix :
      Reads (bound + 1) (.oneOf [.call .memberAccess, .call .indexAccess, .call .callArgs])
      (spanned (firstOf [propertySuffix, indexSuffix n inner, callSuffix n inner])) fun v _ xs =>
      Attaches v xs := by
    have hchoice := reads_propertySuffix.firstOf_cons ((reads_indexSuffix h
        (Nat.le_of_lt hn)).firstOf_cons (reads_callSuffix h (Nat.le_of_lt hn)).firstOf_last)
    refine hchoice.spanned.imp fun v span xs hv => ?_
    obtain ⟨rfl, hattach⟩ := hv
    exact hattach
  refine .node rfl (.anywhere ?_)
  refine (reads_primary h (Nat.le_of_lt hn)).seq fun e _ xs hxs =>
    (hsuffix.star rfl hn).map fun vs _ ys hys => ?_
  obtain ⟨y, rfl, hbuild⟩ := hxs
  refine ⟨_, rfl, fun span text => ?_⟩
  rw [List.singleton_append, buildExpr, hbuild]
  exact buildSuffixes_of_laid hys e

/-! ## Operators -/

/-- A step by one in front of its operand is matched and built as the rule reads it. -/
theorem reads_updateBefore (h : ReadsInner bound inner) :
    Reads (bound + 1) (.inOrder [.call .updateOp, .call .unaryExpr]) (updateBefore inner)
      (Inside buildExpr .updateExpr) := by
  refine .made (fun v span => .update v.1 true v.2 span) (fun _ _ => rfl) ?_
  refine (Reads.token rfl lexes_updateOp).seq_strict rfl fun op _ xs hop =>
    h.unary.map fun e _ ys he => ⟨(op, e), rfl, ?_⟩
  obtain ⟨optext, rfl, rfl⟩ := hop
  obtain ⟨y, rfl, hbuild⟩ := he.builds
  intro span text
  simp only [List.singleton_append, buildExpr, Node.name, hbuild]
  rfl

/-- An operand with or without a step by one behind it is matched and built as the rule reads it. -/
theorem reads_updateAfter (hoperand : ReadsExpr bound .postfixExpr operand) :
    Reads bound (.inOrder [.call .postfixExpr, .opt (.call .updateOp)]) (updateAfter operand)
      (Inside buildExpr .updateExpr) := by
  refine .made (fun v span => v.2.elim v.1 fun op => .update op false v.1 span) ?_ ?_
  · rintro ⟨e, _ | op⟩ span
    · rfl
    · rfl
  · refine Reads.seq hoperand fun e _ xs he => (Reads.token rfl lexes_updateOp).opt.map
      fun op _ ys hop => ⟨(e, op), rfl, ?_⟩
    obtain ⟨_, _, zs, rfl, hbuild⟩ := he
    intro span text
    cases op with
    | none =>
      obtain rfl := hop
      simp only [List.append_nil, buildExpr, Node.name, hbuild]
      rfl
    | some op =>
      obtain ⟨optext, rfl, rfl⟩ := hop
      simp only [List.singleton_append, buildExpr, Node.name, hbuild]
      rfl

/-- An operator in front of its operand is matched and built as the rule reads it. -/
theorem reads_unaryApplied (h : ReadsInner bound inner) :
    Reads (bound + 1) (.inOrder [.call .unaryOp, .call .unaryExpr]) (unaryApplied inner)
      (Inside buildExpr .unaryExpr) := by
  refine .made (fun v span => .unary v.1 v.2 span) (fun _ _ => rfl) ?_
  refine (Reads.token rfl lexes_unaryOp).seq_strict rfl fun op _ xs hop =>
    h.unary.map fun e _ ys he => ⟨(op, e), rfl, ?_⟩
  obtain ⟨optext, rfl, hmeans⟩ := hop
  obtain ⟨y, rfl, hbuild⟩ := he.builds
  intro span text
  simp only [List.singleton_append, buildExpr, Node.name, Node.text, hmeans, hbuild]
  rfl

/-- The expressions with operators on one side are matched and built as the rule reads them. -/
theorem reads_unaryRule (h : ReadsInner bound inner)
    (hoperand : ReadsExpr (bound + 1) .postfixExpr operand) :
    ReadsExpr (bound + 1) .unaryExpr (unaryRule inner operand) := by
  have hupdate : ReadsExpr (bound + 1) .updateExpr
      (reporting (orElse (updateBefore inner) (updateAfter operand))) :=
    .node rfl ((reads_updateBefore h).or (reads_updateAfter hoperand))
  refine .node rfl ((reads_unaryApplied h).or (hupdate.imp fun e span xs he text => ?_))
  obtain ⟨_, _, ys, rfl, hbuild⟩ := he
  simp only [buildExpr, Node.name, hbuild]

/-- One node of an operator and one of an operand. -/
def JoinedBy (x : Name) (v : Connective × Expr) (xs : List (Node Name)) : Prop :=
  ∃ text span y, xs = [.mk x text span [], y] ∧ Joins x v.1 text ∧ buildExpr y = .ok v.2

/-- Nodes that stand for operands behind connectives are joined one by one. -/
theorem buildChain_of_laid {x : Name} {vs : List (Connective × Expr)} {xs : List (Node Name)}
    (h : Laid (JoinedBy x) vs xs) (span : Span) (e : Expr) :
    buildChain span e xs = .ok (vs.foldl join e) := by
  induction h generalizing e with
  | nil => rfl
  | @cons v vs xs ys fit rest ih =>
    obtain ⟨text, opspan, y, rfl, hjoins, hbuild⟩ := fit
    have hjoin := hjoins e v.2 opspan
    simp only [List.cons_append, List.nil_append, buildChain, hbuild]
    change (buildJoin e v.2 _ >>= fun joined => buildChain span joined ys) = _
    rw [hjoin]
    exact ih (join e v)

/-- A level of connectives above tighter ones is matched and built as the rule reads it. -/
theorem reads_level {x y op : Name} {level : List (Symbol Connective)}
    {tighter : List (List (Symbol Connective))} (hkind : x.kind = .plain)
    (hpattern : x.pattern = Name.chainOf y op) (hop : op.kind = .atomic)
    (hlevel : LexesLevel op level) (hempty : op.isEmpty = false) (hbuild : ∀ text span z zs,
      buildExpr (.mk x text span (z :: zs)) = (buildExpr z >>= fun left => buildChain span left zs))
    (hfirst : ReadsExpr bound y (chain n operand tighter first))
    (hoperand : ReadsExpr bound y (chain n operand tighter operand)) (hn : bound ≤ n) :
    ReadsExpr bound x (chain n operand (level :: tighter) first) := by
  have hround : Reads bound (.inOrder [.call op, .call y]) (do
      let c ← token (Lexer.symbol level); blanks; let e ← chain n operand tighter operand; pure
          (c, e)) fun v _ xs =>
      JoinedBy op v xs := by
    refine (Reads.token hop hlevel).seq fun c span xs hc => Reads.map hoperand fun e _ ys he =>
      ⟨(c, e), rfl, ?_⟩
    obtain ⟨text, rfl, hjoins⟩ := hc
    obtain ⟨z, rfl, hz⟩ := he.builds
    exact ⟨_, _, _, rfl, hjoins, hz⟩
  refine .node hkind (.anywhere ?_)
  rw [hpattern]
  have hnull : (Pattern.inOrder [.call op, .call y]).nullable Name.isEmpty = false := by
    simp [Pattern.nullable, Pattern.inOrder, hempty]
  refine Reads.seq hfirst fun e _ xs he => (hround.star hnull hn).map fun vs _ ys hys => ?_
  obtain ⟨z, rfl, hz⟩ := he.builds
  refine ⟨_, rfl, fun span text => ?_⟩
  rw [List.singleton_append, hbuild, hz]
  exact buildChain_of_laid hys span e

/-- The levels of connectives, from the loosest on, are matched and built as the rule reads them. -/
theorem reads_chain (hfirst : ReadsExpr bound .unaryExpr first)
    (hoperand : ReadsExpr bound .unaryExpr operand) (hn : bound ≤ n) :
    ReadsExpr bound .logicalOrExpr (chain n operand connectiveLevels first) := by
  have hproduct {f : Rule Expr} (hf : ReadsExpr bound .unaryExpr f) :
      ReadsExpr bound .multiplicativeExpr (chain n operand [factorSymbols] f) :=
    reads_level rfl rfl rfl lexes_multiplicative rfl (fun _ _ _ _ => rfl) hf hoperand hn
  have hsum {f : Rule Expr} (hf : ReadsExpr bound .unaryExpr f) :
      ReadsExpr bound .additiveExpr (chain n operand _ f) :=
    reads_level rfl rfl rfl lexes_additive rfl (fun _ _ _ _ => rfl) (hproduct hf)
      (hproduct hoperand) hn
  have horder {f : Rule Expr} (hf : ReadsExpr bound .unaryExpr f) :
      ReadsExpr bound .relationalExpr (chain n operand _ f) :=
    reads_level rfl rfl rfl lexes_relational rfl (fun _ _ _ _ => rfl) (hsum hf) (hsum hoperand) hn
  have hequality {f : Rule Expr} (hf : ReadsExpr bound .unaryExpr f) :
      ReadsExpr bound .equalityExpr (chain n operand _ f) :=
    reads_level rfl rfl rfl lexes_equality rfl (fun _ _ _ _ => rfl) (horder hf) (horder hoperand) hn
  have hand {f : Rule Expr} (hf : ReadsExpr bound .unaryExpr f) :
      ReadsExpr bound .logicalAndExpr (chain n operand _ f) :=
    reads_level rfl rfl rfl lexes_and rfl (fun _ _ _ _ => rfl) (hequality hf)
      (hequality hoperand) hn
  exact reads_level rfl rfl rfl lexes_or rfl (fun _ _ _ _ => rfl) (hand hfirst) (hand hoperand) hn

/-- A condition with or without its two choices is matched and built as the rule reads it. -/
theorem reads_conditional (h : ReadsInner bound inner)
    (hoperand : ReadsExpr (bound + 1) .unaryExpr operand) (hn : bound < n) :
    ReadsExpr (bound + 1) .conditionalExpr (conditional n inner operand operand) := by
  refine .node rfl (.made (fun v span => v.2.elim v.1 fun b => .ternary v.1 b.1 b.2 span) ?_ ?_)
  · rintro ⟨c, _ | ⟨t, e⟩⟩ span
    · rfl
    · rfl
  · have hbranches : Reads bound
        (.inOrder [.text "?", .call .assignmentExpr, .text ":", .call .assignmentExpr])
        (do literal "?"; blanks; let t ← inner.assignment; blanks
            literal ":"; blanks; let e ← inner.assignment; pure (t, e))
        fun v _ xs => ∃ y z, xs = [y, z] ∧ buildExpr y = .ok v.1 ∧ buildExpr z = .ok v.2 := by
      refine .skip (Reads.seq h.assignment fun t _ xs ht => .skip
        (h.assignment.map fun e _ ys he => ⟨(t, e), rfl, ?_⟩))
      obtain ⟨y, rfl, hy⟩ := ht.builds
      obtain ⟨z, rfl, hz⟩ := he.builds
      exact ⟨y, z, rfl, hy, hz⟩
    refine Reads.seq_strict rfl (reads_chain hoperand hoperand hn) fun c _ xs hc => ?_
    refine hbranches.opt.map fun b _ ys hb => ⟨(c, b), rfl, ?_⟩
    obtain ⟨z, rfl, hz⟩ := hc.builds
    intro span text
    cases b with
    | none =>
      obtain rfl := hb
      rw [List.append_nil, buildExpr, hz]
      rfl
    | some b =>
      obtain ⟨y, z', rfl, hy, hz'⟩ := hb
      simp only [List.singleton_append, buildExpr, hz, hy, hz']
      rfl

/-- An assignment is matched and built as the rule reads it. -/
theorem reads_store (h : ReadsInner bound inner)
    (hoperand : ReadsExpr (bound + 1) .postfixExpr operand) :
    Reads (bound + 1) (.inOrder [.call .postfixExpr, .call .assignOp, .call .assignmentExpr])
      (store inner operand) (Inside buildExpr .assignmentExpr) := by
  refine .made (fun v span => .assign v.2.1 v.1 v.2.2 span) (fun _ _ => rfl) ?_
  refine Reads.seq_strict rfl hoperand fun target _ xs htarget => ?_
  refine (Reads.token rfl lexes_assignOp).seq fun op _ ys hop => ?_
  refine h.assignment.map fun value _ zs hvalue => ⟨(target, op, value), rfl, ?_⟩
  obtain ⟨x, rfl, hx⟩ := htarget.builds
  obtain ⟨optext, rfl, hmeans⟩ := hop
  obtain ⟨z, rfl, hz⟩ := hvalue.builds
  intro span text
  simp only [List.cons_append, List.nil_append, buildExpr, Node.text, hmeans, hx, hz]
  rfl

/-- An assignment or a conditional expression is matched and built as the rule reads it. -/
theorem reads_assignmentRule (h : ReadsInner bound inner) (hn : bound < n) :
    ReadsExpr (bound + 1) .assignmentExpr (assignmentRule n inner) := by
  have hsuffixed := reads_suffixed h hn
  have hconditional := reads_conditional h (reads_unaryRule h hsuffixed) hn
  have hrule : assignmentRule n inner = reporting (orElse (store inner (suffixed n inner))
      (conditional n inner (unaryRule inner (suffixed n inner))
        (unaryRule inner (suffixed n inner)))) :=
    funext (assignmentRule_eq n inner)
  rw [hrule]
  refine .node rfl ((reads_store h hsuffixed).or (hconditional.imp fun e span xs he text => ?_))
  obtain ⟨y, rfl, hy⟩ := he.builds
  rw [buildExpr, hy]

/-! ## The circle -/

/-- With fuel above the length of the text, the rules of expressions read what the table reads. -/
theorem reads_inner (hn : bound ≤ n) : ReadsInner bound ⟨unary n, assignment n⟩ := by
  induction bound generalizing n with
  | zero =>
    exact ⟨fun s hs => absurd hs (Nat.not_lt_zero _), fun s hs => absurd hs (Nat.not_lt_zero _)⟩
  | succ bound ih =>
    obtain ⟨n, rfl⟩ := Nat.exists_eq_add_of_lt hn
    have further := ih (Nat.le_add_right bound n)
    refine ⟨?_, ?_⟩
    · simp only [unary_succ]
      exact reads_unaryRule further (reads_suffixed further (by omega))
    · simp only [assignment_succ]
      exact reads_assignmentRule further (by omega)

/-- All expressions are matched and built as the rule reads them. -/
theorem reads_expression (hn : bound ≤ n) : ReadsExpr bound .expression (expression n) :=
  reads_sequence (reads_inner hn).assignment hn

end expressions

end BranchPaint.Peg
