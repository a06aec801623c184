import BranchPaint.Proofs.Grammar.Formed
import BranchPaint.Proofs.Script.Outline

/-!
# Spans of what was read

All spans of a program that was read are right (`Program.outline_right`).

The rules are followed with one notion. `Rule.Lays xs p out` says: if nodes with the outlines `xs`
have been read up to where `p` starts, then after `p` gave `a` the nodes read so far have the
outlines `out a`, all of them standing one behind the other in the text. Lexers, blanks and fixed
texts add nothing; `spanned` wraps what was read into a node. Where a rule leaves a span out, the
nodes inside stand for the node (`Outline.Run.unwrap`), and where it joins two parts behind one
another, they are merged (`Outline.Run.merge`). Parentheses leave no node, so a node may start
behind the place where its rule did; the order of what was read is all that counts.
-/

namespace BranchPaint

/-! ## Rules lay out what they read -/

/-- The nodes stand one behind the other, from the place `i` up to the cursor. -/
def Cursor.Done (text : List Char) (i : Nat) (xs : List Outline) (s : Cursor) : Prop :=
  ∃ j, s.At text j ∧ Outline.Run text xs i j

/-- Behind nodes with the outlines `xs`, the rule reads on, and gives `a` behind nodes with the
outlines `out a`. -/
def Rule.Lays {α : Type} (xs : List Outline) (p : Rule α) (out : α → List Outline) : Prop :=
  ∀ ⦃text i s⦄, Cursor.Done text i xs s → (p s).Gives fun a t => t.Done text i (out a)

/-- The rule adds no nodes. -/
abbrev Rule.Silent {α : Type} (p : Rule α) : Prop := Rule.Lays [] p fun _ => []

namespace Rule.Lays

variable {α β : Type} {xs : List Outline} {p q : Rule α} {out : α → List Outline}
  {out' : β → List Outline}

/-- A value may be given if its outlines run where those so far do. -/
theorem pure_of {a : α} (h : ∀ ⦃text i j⦄, Outline.Run text xs i j → Outline.Run text (out a) i j) :
    Lays xs (Pure.pure a : Rule α) out := by
  intro text i s ⟨j, hs, hrun⟩
  exact .pure ⟨j, hs, h hrun⟩

/-- A value may be given if its outlines are those so far. -/
theorem pure {a : α} (h : xs = out a) : Lays xs (Pure.pure a : Rule α) out :=
  pure_of fun _ _ _ hrun => h ▸ hrun

/-- A refusal lays nothing. -/
theorem fail : Lays xs (Rule.fail : Rule α) out := fun _ _ _ _ => .fail

/-- What a rule adds, it adds behind anything. -/
theorem frame (h : Lays [] p out) : Lays xs p fun a => xs ++ out a := by
  intro text i s ⟨j, hs, hxs⟩
  refine (h ⟨j, hs, Nat.le_refl j⟩).imp fun a t ⟨k, ht, hout⟩ => ?_
  exact ⟨k, ht, hxs.append hout⟩

/-- A step that adds nodes lays them behind those that are laid. -/
theorem read {f : α → Rule β} (hp : Lays [] p out) (hf : ∀ a, Lays (xs ++ out a) (f a) out') :
    Lays xs (p >>= f) out' :=
  fun _ _ _ hs => .bind (hp.frame hs) fun a _ ht => hf a ht

/-- A silent step adds none. -/
theorem skip {f : α → Rule β} (hp : Silent p) (hf : ∀ a, Lays xs (f a) out') :
    Lays xs (p >>= f) out' :=
  hp.read fun a => (List.append_nil xs).symm ▸ hf a

/-- A rule that only leads on is silent. -/
theorem of_leads (h : ∀ s a t, (p s).result = some (a, t) → s.Leads t) : Silent p := by
  intro text i s ⟨j, hs, hij⟩ a t ht
  obtain ⟨k, hjk, ht⟩ := hs.leads (h s a t ht)
  exact ⟨k, ht, Nat.le_trans hij hjk⟩

/-- Blanks are silent. -/
theorem blanks : Silent Rule.blanks := of_leads fun s a t h => by
  cases h
  exact .skipBlanks s

/-- A fixed text is silent. -/
theorem literal (w : String) : Silent (Rule.literal w) := of_leads fun s a t h => by
  obtain ⟨u, hu, heq⟩ := Option.map_eq_some_iff.1 h
  cases heq
  exact .literal? hu

/-- A token is silent. -/
theorem token {lex : Lexer α} (h : lex.Moves) :
    Silent (Rule.token lex) := of_leads fun s a t ht => by
  rw [result_token] at ht
  exact h s a t ht

/-- Reporting lays what the rule lays. -/
theorem reporting (h : Lays xs p out) : Lays xs (Rule.reporting p) out :=
  fun _ _ _ hs => .reporting (h hs)

/-- Of two rules each lays its outlines. -/
theorem orElse (hp : Lays xs p out) (hq : Lays xs q out) : Lays xs (Rule.orElse p q) out :=
  fun _ _ _ hs => .orElse (hp hs) (hq hs)

/-- Of several rules each lays its outlines. -/
theorem firstOf {ps : List (Rule α)} (h : ∀ p ∈ ps, Lays xs p out) :
    Lays xs (Rule.firstOf ps) out :=
  fun _ _ _ hs => .firstOf fun p hp => h p hp hs

/-- An optional part lays its outlines, if it is there. -/
theorem optional (h : Lays [] p out) : Lays [] (Rule.optional p) fun o => o.toList.flatMap out := by
  intro text i s hs
  refine .optional (fun _ => hs) ((h hs).imp fun a t ht => ?_)
  simpa using ht

/-- An optional part is silent if it is silent where it is there. -/
theorem optional_silent (h : Silent p) : Silent (Rule.optional p) := by
  intro text i s hs
  exact .optional (fun _ => hs) (h hs)

/-- A repetition lays the outlines of all its parts, in order. -/
theorem many (out : α → List Outline) (h : Lays [] p out) (n : Nat) :
    Lays [] (Rule.many p n) fun as => as.flatMap out := by
  intro text i s hs
  induction n generalizing i s with
  | zero =>
    intro as t ht
    cases ht
    exact hs
  | succ n ih =>
    intro as t ht
    obtain ⟨j, hblanks⟩ := blanks hs () s.skipBlanks rfl
    cases hp : (p s.skipBlanks).result with
    | none =>
      rw [result_many_of_none _ hp] at ht
      cases ht
      exact hs
    | some x =>
      rw [result_many_of_some n hp] at ht
      obtain ⟨⟨bs, u⟩, hu, hb⟩ := Option.map_eq_some_iff.1 ht
      cases hb
      obtain ⟨k, hk, hfirst⟩ := h ⟨j, hblanks⟩ x.1 x.2 hp
      obtain ⟨l, hl, hrest⟩ := ih ⟨k, hk, Nat.le_refl k⟩ bs u hu
      exact ⟨l, hl, hfirst.append hrest⟩

/-- So do parts with commas between them. -/
theorem commaList (h : Lays [] p out) (n : Nat) :
    Lays [] (Rule.commaList n p) fun x => (x.1 :: x.2).flatMap out := by
  have hmore : Lays [] (do Rule.literal ","; Rule.blanks; p) out :=
    (literal ",").skip fun _ => blanks.skip fun _ => h
  exact h.read fun a => blanks.skip fun _ => (hmore.many out n).read fun as => pure rfl

/-- A node is laid around its parts, marked by what was read. -/
theorem marked (mark : α → Mark) (out : α → List Outline)
    (h : ∀ ⦃text i s⦄, Cursor.At text i s → (p s).Gives fun a t =>
      ∃ j, t.At text j ∧ Outline.Run text (out a) i j ∧ (mark a).Stands text i j) :
    Lays [] (Rule.spanned p) fun x => [.node x.2 (mark x.1) (out x.1)] := by
  intro text i s ⟨j, hs, hij⟩ x t ht
  rw [result_spanned] at ht
  obtain ⟨⟨a, u⟩, hu, heq⟩ := Option.map_eq_some_iff.1 ht
  cases heq
  obtain ⟨k, hk, hrun, hstands⟩ := h hs a u hu
  have hspan : Span.between s.pos u.pos = stretch text j k := by rw [hs.pos, hk.pos, stretch]
  exact ⟨k, hk, j, k, hij, ⟨hrun.le, hk.le, hspan, hstands, hrun⟩, Nat.le_refl k⟩

/-- A node without a mark is laid around its parts. -/
theorem spanned (out : α → List Outline) (h : Lays [] p out) :
    Lays [] (Rule.spanned p) fun x => [.node x.2 .plain (out x.1)] := by
  refine marked (fun _ => .plain) out fun text i s hs => (h ⟨i, hs, Nat.le_refl i⟩).imp
    fun a t ⟨j, ht, hrun⟩ => ?_
  exact ⟨j, ht, hrun, Mark.stands_plain _ _ _⟩

/-- A token that stands where it was read. -/
theorem markedToken {lex : Lexer α} (mark : α → Mark) (hno : ∀ a, mark a ≠ .branch) (h : lex.Moves)
    (hmark : ∀ {s a t read}, lex s = some (a, t) → s.rest = read ++ t.rest → (mark a).Fits read) :
    Lays [] (Rule.spanned (Rule.token lex)) fun x => [.node x.2 (mark x.1) []] := by
  refine marked mark (fun _ => []) fun text i s hs => .token fun a t ht => ?_
  obtain ⟨j, hij, hj⟩ := hs.leads (h s a t ht)
  exact ⟨j, hj, hij, hmark ht (hs.rest_eq hj hij), fun hbranch => absurd hbranch (hno a)⟩

end Rule.Lays

namespace Grammar

open Rule

/-! ## Expressions -/

/-- The rule lays out the expression that it reads. -/
abbrev LaysExpr (p : Rule Expr) : Prop := Lays [] p fun e => [e.outline]

/-- The inner rules lay out the expressions that they read. -/
structure LaysInner (inner : Inner) : Prop where
  unary : LaysExpr inner.unary
  assignment : LaysExpr inner.assignment

section expressions

variable {n : Nat} {inner : Inner} {operand first : Rule Expr}

/-- Expressions with commas between them are laid out where they are read. -/
theorem lays_sequence {rule : Rule Expr} (h : LaysExpr rule) : LaysExpr (sequence n rule) := by
  refine .reporting (.read (.spanned _ (.commaList h n)) fun x => ?_)
  obtain ⟨⟨e, _ | ⟨f, es⟩⟩, span⟩ := x
  · exact .pure_of fun _ _ _ hrun => hrun.unwrap
  · exact .pure (by simp [Expr.outline_sequence, List.map_eq_flatMap])

/-- Items of a list or arguments of a call are laid out where they are read. -/
theorem lays_items {rule : Rule Expr} (h : LaysExpr rule) :
    Lays [] (items n rule) fun es => es.map Expr.outline := by
  refine .read (.optional (.commaList h n)) fun o => ?_
  rcases o with _ | ⟨e, es⟩
  · exact .pure rfl
  · exact .pure (by simp [List.map_eq_flatMap])

/-- A list in brackets is laid out where it is read. -/
theorem lays_listLiteral (h : LaysInner inner) : LaysExpr (listLiteral n inner) := by
  refine .reporting (.read (.spanned (fun es => es.map Expr.outline) ?_) fun x => .pure ?_)
  · refine .skip (.literal _) fun _ => .skip .blanks fun _ =>
      .read (lays_items h.assignment) fun es => ?_
    refine .skip .blanks fun _ => ?_
    exact .skip (.optional_silent (.literal _)) fun _ => .skip .blanks fun _ =>
      .skip (.literal _) fun _ => .pure rfl
  · simp [Expr.outline_list]

/-- An expression in parentheses, without the parentheses, is laid out where it is read. -/
theorem lays_parenthesized (h : LaysInner inner) : LaysExpr (parenthesized n inner) := by
  refine .skip (.literal _) fun _ => .skip .blanks fun _ =>
    .read (lays_sequence h.assignment) fun e => ?_
  exact .skip .blanks fun _ => .skip (.literal _) fun _ => .pure rfl

/-- A leaf is laid on its token. -/
theorem lays_leaf {α : Type} {lex : Lexer α} {make : α → Span → Expr} (h : lex.Moves)
    (hmake : ∀ a span, (make a span).outline = .node span .plain []) :
    LaysExpr (leaf lex make) := by
  refine .read (.markedToken (fun _ => .plain) (fun _ => nofun) h fun _ _ => trivial) fun x =>
    .pure ?_
  rw [hmake]
  rfl

/-- A word stands where it was read. -/
theorem fits_of_word {s t : Cursor} {w : String} {read : List Char} (h : Lexer.word s = some (w, t))
    (hread : s.rest = read ++ t.rest) : (Mark.name w).Fits read := by
  rw [(Lexer.word_inv h).2] at hread
  exact (List.append_cancel_right hread).symm

/-- The expressions without operators are laid out where they are read. -/
theorem lays_primary (h : LaysInner inner) : LaysExpr (primary n inner) := by
  refine .firstOf fun p hp => ?_
  simp only [List.mem_cons, List.not_mem_nil, or_false] at hp
  rcases hp with rfl | rfl | rfl | rfl | rfl | rfl | rfl
  · exact lays_leaf Lexer.passes_number.moves fun _ _ => rfl
  · exact lays_leaf Quoted.passes_scan?.moves fun _ _ => rfl
  · exact lays_leaf Lexer.passes_boolean.moves fun _ _ => rfl
  · exact lays_leaf (Lexer.passes_keyword _).moves fun _ _ => rfl
  · exact lays_listLiteral h
  · refine .read (.markedToken .name (fun _ => nofun) Lexer.passes_identifier.moves fun h => ?_)
      fun x => .pure rfl
    exact fits_of_word (Lexer.word_of_identifier h)
  · exact lays_parenthesized h

/-- The outlines in a suffix. -/
def Suffix.outlines : Suffix → List Outline
  | .property name span => [.node span (.name name) []]
  | .index e => [e.outline]
  | .call args => args.map Expr.outline

/-- A suffix of any kind is laid out where it is read. -/
theorem lays_suffix (h : LaysInner inner) :
    Lays [] (firstOf [propertySuffix, indexSuffix n inner, callSuffix n inner])
      Suffix.outlines := by
  refine .firstOf fun p hp => ?_
  simp only [List.mem_cons, List.not_mem_nil, or_false] at hp
  rcases hp with rfl | rfl | rfl
  · refine .reporting (.skip (.literal _) fun _ => .skip .blanks fun _ => ?_)
    exact .read (.markedToken .name (fun _ => nofun) Lexer.passes_word.moves fits_of_word) fun x =>
      .pure rfl
  · refine .reporting (.skip (.literal _) fun _ => .skip .blanks fun _ => .read
      (lays_sequence h.assignment) fun e => ?_)
    exact .skip .blanks fun _ => .skip (.literal _) fun _ => .pure rfl
  · refine .reporting (.skip (.literal _) fun _ => .skip .blanks fun _ => .read
      (lays_items h.assignment) fun es => ?_)
    exact .skip .blanks fun _ => .skip (.literal _) fun _ => .pure rfl

/-- A suffix reaches from the start of the expression to its own end. -/
theorem outline_attach (e : Expr) (x : Suffix × Span) :
    (attach e x).outline = .node (e.outline.span.merge x.2) .plain (e.outline :: x.1.outlines) := by
  obtain ⟨name | i | args, span⟩ := x
  all_goals rw [Expr.span_outline]
  · rfl
  · rfl
  · exact Expr.outline_call e args _

/-- A connective reaches from the start of its left side to the end of its right side. -/
theorem outline_join (e : Expr) (x : Connective × Expr) :
    (join e x).outline = .node (e.outline.span.merge x.2.outline.span) .plain
      [e.outline, x.2.outline] := by
  obtain ⟨op | op, f⟩ := x
  all_goals
    rw [Expr.span_outline, Expr.span_outline]
    rfl

/-- Parts behind an expression are merged with it, one after the other. -/
theorem run_foldl {β : Type} {part : β → Outline} {extend : Expr → β → Expr}
    (h : ∀ {text e x os i j}, Outline.Run text (e.outline :: part x :: os) i j →
      Outline.Run text ((extend e x).outline :: os) i j) {text : List Char} {e : Expr} {xs : List β}
    {i j : Nat} (hrun : Outline.Run text (e.outline :: xs.map part) i j) :
    Outline.Run text [(xs.foldl extend e).outline] i j := by
  induction xs generalizing e with
  | nil => exact hrun
  | cons x xs ih => exact ih (h hrun)

/-- A primary expression with its suffixes is laid out where it is read. -/
theorem lays_suffixed (h : LaysInner inner) : LaysExpr (suffixed n inner) := by
  refine .reporting (.read (lays_primary h) fun e => .skip .blanks fun _ => ?_)
  refine .read (.many _ (.spanned _ (lays_suffix h)) n) fun xs => .pure_of fun text i j hrun => ?_
  rw [← List.map_eq_flatMap] at hrun
  refine run_foldl (fun {text e x os i j} hrun => ?_) hrun
  rw [outline_attach]
  exact hrun.merge fun ho => ho.2.2.2.2

/-- The expressions with operators on one side are laid out where they are read. -/
theorem lays_unaryRule (h : LaysInner inner) (hoperand : LaysExpr operand) :
    LaysExpr (unaryRule inner operand) := by
  refine .reporting (.orElse ?_ (.reporting (.orElse ?_ ?_)))
  · refine .read (.spanned (fun x => [x.2.outline]) ?_) fun x => .pure rfl
    exact .skip (.token Lexer.passes_unaryOp.moves) fun _ => .skip .blanks fun _ =>
      .read h.unary fun e => .pure rfl
  · refine .read (.spanned (fun x => [x.2.outline]) ?_) fun x => .pure rfl
    exact .skip (.token (Lexer.moves_symbol _)) fun _ => .skip .blanks fun _ =>
      .read h.unary fun e => .pure rfl
  · refine .read (.spanned (fun x => [x.1.outline]) ?_) fun x => ?_
    · exact .read hoperand fun e => .skip .blanks fun _ =>
        .skip (.optional_silent (.token (Lexer.moves_symbol _))) fun _ => .pure rfl
    · obtain ⟨⟨e, _ | op⟩, span⟩ := x
      · exact .pure_of fun _ _ _ hrun => hrun.unwrap
      · exact .pure rfl

/-- A chain of connectives is laid out where it is read. -/
theorem lays_chain (hoperand : LaysExpr operand) (levels : List (List (Symbol Connective)))
    {first : Rule Expr} (hfirst : LaysExpr first) : LaysExpr (chain n operand levels first) := by
  induction levels generalizing first with
  | nil => exact hfirst
  | cons level tighter ih =>
    refine .reporting (.read (ih hfirst) fun e => .skip .blanks fun _ => ?_)
    refine .read (.many (fun x => [x.2.outline]) ?_ n) fun xs => .pure_of fun text i j hrun => ?_
    · exact .skip (.token (Lexer.moves_symbol _)) fun _ => .skip .blanks fun _ =>
        .read (ih hoperand) fun e => .pure rfl
    · rw [← List.map_eq_flatMap] at hrun
      refine run_foldl (fun {text e x os i j} hrun => ?_) hrun
      rw [outline_join]
      exact hrun.merge fun ho => ⟨_, _, Nat.le_refl _, ho, Nat.le_refl _⟩

/-- A condition with or without its two choices is laid out where it is read. -/
theorem lays_conditional (h : LaysInner inner) (hoperand : LaysExpr operand)
    (hfirst : LaysExpr first) : LaysExpr (conditional n inner operand first) := by
  refine .reporting (.read (.spanned (fun x => x.1.outline ::
    x.2.toList.flatMap fun y => [y.1.outline, y.2.outline]) ?_) fun x => ?_)
  · refine .read (lays_chain hoperand _ hfirst) fun c => .skip .blanks fun _ =>
      .read (.optional ?_) fun o => .pure rfl
    refine .skip (.literal _) fun _ => .skip .blanks fun _ => .read h.assignment fun t =>
      .skip .blanks fun _ => ?_
    exact .skip (.literal _) fun _ => .skip .blanks fun _ => .read h.assignment fun e => .pure rfl
  · obtain ⟨⟨c, _ | ⟨t, e⟩⟩, span⟩ := x
    · exact .pure_of fun _ _ _ hrun => hrun.unwrap
    · exact .pure rfl

/-- An assignment is laid out where it is read. -/
theorem lays_store (h : LaysInner inner) (hoperand : LaysExpr operand) :
    LaysExpr (store inner operand) := by
  refine .read (.spanned (fun x => [x.1.outline, x.2.2.outline]) ?_) fun x => .pure rfl
  refine .read hoperand fun t => .skip .blanks fun _ =>
    .skip (.token (Lexer.moves_symbol _)) fun op => ?_
  refine .skip .blanks fun _ => ?_
  exact .read h.assignment fun v => .pure rfl

/-- An assignment or a conditional expression is laid out where it is read. -/
theorem lays_assignmentRule (h : LaysInner inner) : LaysExpr (assignmentRule n inner) := by
  intro text i s hs
  rw [assignmentRule_eq]
  have hunary := lays_unaryRule h (lays_suffixed (n := n) h)
  exact Lays.reporting (.orElse (lays_store h (lays_suffixed h)) (lays_conditional h hunary hunary))
    hs

/-- The rules for operands lay expressions with any fuel. -/
theorem laysInner (n : Nat) : LaysInner ⟨unary n, assignment n⟩ := by
  induction n with
  | zero =>
    exact ⟨fun _ _ _ _ => by simp only [unary]; exact .fail,
      fun _ _ _ _ => by simp only [assignment]; exact .fail⟩
  | succ n ih =>
    refine ⟨?_, ?_⟩
    · simp only [unary_succ]
      exact lays_unaryRule ih (lays_suffixed ih)
    · simp only [assignment_succ]
      exact lays_assignmentRule ih

/-- Every expression is laid out where it was read. -/
theorem lays_expression (n : Nat) : LaysExpr (expression n) :=
  lays_sequence (laysInner n).assignment

end expressions

/-! ## Statements -/

/-- The rule lays out the statement that it reads. -/
abbrev LaysStmt (p : Rule Stmt) : Prop := Lays [] p fun s => [s.outline]

section statements

variable {n : Nat} {statement : Rule Stmt}

/-- A name that is declared, with or without a value, is laid out where it is read. -/
theorem lays_declarator : Lays [] (declarator n) fun d => [d.outline] := by
  refine .reporting (.read (.spanned (fun x => x.2.toList.flatMap fun e => [e.outline]) ?_)
    fun x => .pure ?_)
  · refine .skip (.token Lexer.passes_identifier.moves) fun _ => .skip .blanks fun _ => ?_
    refine .read (.optional ?_) fun o => .pure rfl
    exact .skip (.literal _) fun _ => .skip .blanks fun _ => (laysInner n).assignment
  · simp [Declarator.outline, List.map_eq_flatMap]

/-- The names behind a word of declarations are laid out where they are read. -/
theorem lays_declaration : Lays [] (declaration n) fun x => x.2.map Declarator.outline := by
  refine .reporting (.skip (.token Lexer.passes_declareWord.moves) fun _ =>
    .skip .blanks fun _ => ?_)
  exact .read (.commaList lays_declarator n) fun x => .pure (by simp [List.map_eq_flatMap])

/-- A semicolon is silent. -/
theorem silent_semicolon : Silent semicolon :=
  .skip .blanks fun _ => .skip (.optional_silent (.literal _)) fun _ => .pure rfl

/-- A test in parentheses, without the parentheses, is laid out where it is read. -/
theorem lays_test : LaysExpr (test n) := by
  refine .skip .blanks fun _ => .skip (.literal _) fun _ => .skip .blanks fun _ =>
    .read (lays_expression n) fun e => ?_
  exact .skip .blanks fun _ => .skip (.literal _) fun _ => .skip .blanks fun _ => .pure rfl

/-- Statements in braces, without the braces, are laid out where they are read. -/
theorem lays_braces (h : LaysStmt statement) : Lays [] (braces n statement) Stmt.outlines := by
  refine .reporting (.skip (.literal _) fun _ => .skip .blanks fun _ => .read (.many _ h n)
    fun body => ?_)
  exact .skip .blanks fun _ => .skip (.literal _) fun _ =>
    .pure (by simp [Stmt.outlines_eq, List.map_eq_flatMap])

/-- Parameters are silent. -/
theorem silent_paramList : Silent (paramList n) := by
  refine .reporting (.read (.commaList (.token Lexer.passes_identifier.moves) n) fun x => .pure ?_)
  simp

/-- A function is laid out where it is read. -/
theorem lays_functionRule (h : LaysStmt statement) : LaysStmt (functionRule n statement) := by
  refine .reporting (.read (.spanned (fun x => Stmt.outlines x.2.2) ?_) fun x => .pure rfl)
  refine .skip (.token (Lexer.passes_keyword _).moves) fun _ => .skip .blanks fun _ => ?_
  refine .skip (.token Lexer.passes_identifier.moves) fun _ => .skip .blanks fun _ =>
    .skip (.literal _) fun _ => ?_
  refine .skip .blanks fun _ => .skip (.optional_silent silent_paramList) fun _ => ?_
  refine .skip .blanks fun _ => .skip (.literal _) fun _ => .skip .blanks fun _ => ?_
  exact .read (lays_braces h) fun body => .pure rfl

/-- A declaration is laid out where it is read. -/
theorem lays_declareRule : LaysStmt (declareRule n) := by
  refine .reporting (.read (.spanned (fun x => x.2.map Declarator.outline) ?_) fun x => .pure rfl)
  exact .read lays_declaration fun d => .skip silent_semicolon fun _ => .pure rfl

/-- What stands behind `else`, without the word, is laid out where it is read. -/
theorem lays_elseClause (h : LaysStmt statement) : LaysStmt (elseClause statement) :=
  .reporting (.skip (.token (Lexer.passes_keyword _).moves) fun _ => .skip .blanks fun _ => h)

/-- What starts with the word `if` stands as the mark of a branch says. -/
theorem stands_branch {α : Type} {f : Unit → Rule α} {out : α → List Outline}
    (hf : Lays [] (f ()) out) ⦃text : List Char⦄ ⦃i : Nat⦄ ⦃s : Cursor⦄ (hs : s.At text i) :
    ((token (Lexer.keyword "if") >>= f) s).Gives fun a t =>
      ∃ j, t.At text j ∧ Outline.Run text (out a) i j ∧ Mark.branch.Stands text i j := by
  refine .bind (.token fun _ u hu => hu) fun _ u hu => ?_
  have hword := Lexer.word_of_keyword hu
  obtain ⟨k, hik, hk⟩ := hs.leads ((Lexer.passes_keyword _).moves s () u hu)
  have hends := Lexer.endsWord_of_word hword
  refine (hf ⟨k, hk, Nat.le_refl k⟩).imp fun a t ⟨j, ht, hrun⟩ =>
    ⟨j, ht, hrun.weaken_left hik, ⟨slice text k j, ?_, ?_⟩, fun _ => ⟨u.rest, ?_, hends⟩⟩
  · have hrest := hs.rest_eq ht (Nat.le_trans hik hrun.le)
    rw [(Lexer.word_inv hword).2, hk.rest_eq ht hrun.le, ← List.append_assoc] at hrest
    exact (List.append_cancel_right hrest).symm
  · rw [hk.rest_eq ht hrun.le] at hends
    exact hends.of_append
  · rw [← hs.rest]
    exact (Lexer.word_inv hword).2

/-- A branch is laid out where it is read. -/
theorem lays_branchRule (h : LaysStmt statement) : LaysStmt (branchRule n statement) := by
  refine .reporting (.read (.marked (fun _ => .branch) (fun x => x.1.outline :: x.2.1.outline ::
      x.2.2.toList.map Stmt.outline) (stands_branch ?_)) fun x => ?_)
  · refine .read lays_test fun t => .read h fun c => .skip .blanks fun _ => ?_
    refine .read (.optional (lays_elseClause h)) fun a => .pure ?_
    simp [List.map_eq_flatMap]
  · obtain ⟨⟨t, c, _ | a⟩, span⟩ := x
    all_goals exact .pure rfl

/-- A loop is laid out where it is read. -/
theorem lays_whileRule (h : LaysStmt statement) : LaysStmt (whileRule n statement) := by
  refine .reporting (.read (.spanned (fun x => [x.1.outline, x.2.outline]) ?_) fun x => .pure rfl)
  exact .skip (.token (Lexer.passes_keyword _).moves) fun _ => .read lays_test fun t =>
    .read h fun body => .pure rfl

/-- The start of a counting loop is laid out where it is read. -/
theorem lays_forInit : Lays [] (forInit n) ForInit.outlines :=
  .reporting (.orElse (.read lays_declaration fun _ => .pure rfl)
    (.read (lays_expression n) fun _ => .pure rfl))

/-- A counting loop is laid out where it is read. -/
theorem lays_forRule (h : LaysStmt statement) : LaysStmt (forRule n statement) := by
  refine .reporting (.read (.spanned (fun x => x.1.toList.flatMap ForInit.outlines ++
      (x.2.1.toList.flatMap fun e => [e.outline]) ++
      (x.2.2.1.toList.flatMap fun e => [e.outline]) ++ [x.2.2.2.outline]) ?_) fun x => .pure ?_)
  · refine .skip (.token (Lexer.passes_keyword _).moves) fun _ => .skip .blanks fun _ => ?_
    refine .skip (.literal _) fun _ => .skip .blanks fun _ =>
      .read (.optional lays_forInit) fun i => ?_
    refine .skip .blanks fun _ => .skip (.literal _) fun _ => .skip .blanks fun _ => ?_
    refine .read (.optional (.reporting (lays_expression n))) fun t => ?_
    refine .skip .blanks fun _ => .skip (.literal _) fun _ => .skip .blanks fun _ => ?_
    refine .read (.optional (.reporting (lays_expression n))) fun u => ?_
    refine .skip .blanks fun _ => .skip (.literal _) fun _ => .skip .blanks fun _ => ?_
    exact .read h fun body => .pure rfl
  · simp only [← List.map_eq_flatMap]
    rfl

/-- A `return` is laid out where it is read. -/
theorem lays_returnRule : LaysStmt (returnRule n) := by
  refine .reporting (.read (.spanned (fun o => o.toList.flatMap fun e => [e.outline]) ?_)
    fun x => .pure ?_)
  · refine .skip (.token (Lexer.passes_keyword _).moves) fun _ => .skip .blanks fun _ => ?_
    exact .read (.optional (lays_expression n)) fun o => .skip silent_semicolon fun _ => .pure rfl
  · simp only [← List.map_eq_flatMap]
    rfl

/-- A statement of one word is laid on that word. -/
theorem lays_wordRule (word : String) {make : Span → Stmt}
    (hmake : ∀ span, (make span).outline = .node span .plain []) :
    LaysStmt (wordRule word make) := by
  refine .reporting (.read (.spanned (fun _ => []) ?_) fun x => .pure ?_)
  · exact .skip (.token (Lexer.passes_keyword _).moves) fun _ => silent_semicolon
  · rw [hmake]
    rfl

/-- A block is laid out where it is read. -/
theorem lays_blockRule (h : LaysStmt statement) : LaysStmt (blockRule n statement) :=
  .read (.spanned _ (lays_braces h)) fun _ => .pure rfl

/-- The empty statement is laid out where it is read. -/
theorem lays_emptyRule : LaysStmt emptyRule :=
  .reporting (.read (.spanned _ (.literal _)) fun _ => .pure rfl)

/-- An expression that stands alone is laid out where it is read. -/
theorem lays_exprRule : LaysStmt (exprRule n) := by
  refine .reporting (.read (.spanned (fun e => [e.outline]) ?_) fun x => .pure rfl)
  exact .read (lays_expression n) fun e => .skip silent_semicolon fun _ => .pure rfl

/-- All statements are laid out where they are read. -/
theorem lays_statementRule (h : LaysStmt statement) : LaysStmt (statementRule n statement) := by
  refine .reporting (.firstOf fun p hp => ?_)
  simp only [List.mem_cons, List.not_mem_nil, or_false] at hp
  rcases hp with rfl | rfl | rfl | rfl | rfl | rfl | rfl | rfl | rfl | rfl | rfl
  · exact lays_functionRule h
  · exact lays_declareRule
  · exact lays_branchRule h
  · exact lays_whileRule h
  · exact lays_forRule h
  · exact lays_returnRule
  · exact lays_wordRule "break" fun _ => rfl
  · exact lays_wordRule "continue" fun _ => rfl
  · exact lays_blockRule h
  · exact lays_emptyRule
  · exact lays_exprRule

end statements

/-- Every statement is laid out where it was read. -/
theorem lays_statement (n : Nat) : LaysStmt (statement n) := by
  induction n with
  | zero =>
    intro _ _ _ _
    simp only [statement]
    exact .fail
  | succ n ih =>
    rw [statement_succ]
    exact lays_statementRule ih

/-- The end of the text is silent. -/
theorem silent_endOfText : Silent endOfText := .token fun s a t h => by
  split at h
  · cases h
    exact .refl s
  · cases h

/-- A program is laid on the whole text. -/
theorem lays_program (n : Nat) : Lays [] (program n) fun p => [p.outline] := by
  refine .reporting (.read (.spanned Stmt.outlines ?_) fun x => .pure rfl)
  refine .skip .blanks fun _ => .read (.many _ (lays_statement n) n) fun body => ?_
  exact .skip .blanks fun _ => .skip silent_endOfText fun _ =>
    .pure (by simp [Stmt.outlines_eq, List.map_eq_flatMap])

end Grammar

/-! ## Programs -/

/-- All spans of a program that was read are right. -/
theorem Program.outline_right {text : String} {p : Program} (h : Program.parse text = .ok p) :
    p.outline.Right text := by
  obtain ⟨t, ht⟩ := Program.parse_eq_ok_iff.1 h
  obtain ⟨j, -, i, k, -, hlaid, -⟩ :=
    Grammar.lays_program _ ⟨0, Cursor.at_ofString text, Nat.le_refl 0⟩ p t ht
  exact hlaid.right

/-- Parentheses that leave no node, a comment, a line that ends with two characters, and characters
of more than one byte. -/
theorem Program.outline_right_sample : ∃ p,
    Program.parse
      ("/* \u00e9 */\r\nif ((a + b).c[1] && f(x, y) ) " ++
        "\x7b let s = '\u20ac', t; \x7d else for (;;) ;") = .ok p ∧
    p.body.map (fun s => (s.span.start, s.span.startLine, s.span.startColumn)) = [(10, 1, 0)] ∧
    p.outline.Right
      ("/* \u00e9 */\r\nif ((a + b).c[1] && f(x, y) ) " ++
        "\x7b let s = '\u20ac', t; \x7d else for (;;) ;") := by
  obtain ⟨p, hp, hstart⟩ := Program.exists_parse
    ("/* \u00e9 */\r\nif ((a + b).c[1] && f(x, y) ) " ++
      "\x7b let s = '\u20ac', t; \x7d else for (;;) ;")
    (fun p => p.body.map (fun s => (s.span.start, s.span.startLine, s.span.startColumn)) =
      [(10, 1, 0)]) (by decide +kernel)
  exact ⟨p, hp, hstart, Program.outline_right hp⟩

end BranchPaint
