import BranchPaint.Proofs.Grammar.Head
import BranchPaint.Proofs.Script.Tree

/-!
# Trees that were read are formed

Every program that `Program.parse` accepts is formed (`Program.formed_of_parse`), and so are its
expressions.

`Reply.Gives` says what holds of whatever a reply gives, and of the text behind it. Each way of
combining rules hands it on, so a rule is followed line by line. For expressions this is an
induction on fuel. For statements the fuel is gone (`statementFull`), and one step of reading is
inverted (`Stmt.ReadStep`): what was read right inside was read by the same rule. The induction is
then on the tree.

The condition on `else` is the only one that looks at the text behind a statement. A statement that
ends open was read where the clause of an alternative could not be read (`elseClause_of_endsOpen`);
so nothing that ends open stands in front of an `else`.
-/

namespace BranchPaint

/-- What holds of the value that a reply gives, and of the text behind it. -/
def Reply.Gives {α : Type} (P : α → Cursor → Prop) (reply : Reply α) : Prop :=
  ∀ a t, reply.result = some (a, t) → P a t

namespace Reply.Gives

open Rule

variable {α β : Type} {P : α → Cursor → Prop} {Q : β → Cursor → Prop} {p q : Rule α} {s : Cursor}

/-- Less may be said of what is read. -/
theorem imp {P' : α → Cursor → Prop} {reply : Reply α} (h : reply.Gives P)
    (hP : ∀ a t, P a t → P' a t) : reply.Gives P' := fun a t ht => hP a t (h a t ht)

/-- Nothing need be said of it. -/
theorem any : (p s).Gives fun _ _ => True := fun _ _ _ => trivial

/-- A value is given as it is. -/
theorem pure {a : α} (h : P a s) : ((Pure.pure a : Rule α) s).Gives P := by
  intro b t ht
  rw [result_pure] at ht
  cases ht
  exact h

/-- A refusal gives nothing. -/
theorem fail : ((Rule.fail : Rule α) s).Gives P := fun _ _ h => by cases h

/-- Whatever the first rule gives, and from where it stopped, what the second gives counts. -/
theorem bind {f : α → Rule β} (hp : (p s).Gives P) (hf : ∀ a t, P a t → (f a t).Gives Q) :
    ((p >>= f) s).Gives Q := by
  intro b u hu
  rw [result_bind] at hu
  obtain ⟨⟨a, t⟩, ht, hu⟩ := Option.bind_eq_some_iff.1 hu
  exact hf a t (hp a t ht) b u hu

/-- What is said of the second rule is said of both in a row, whatever the first gives. -/
theorem andThen {f : α → Rule β} (hf : ∀ a t, (f a t).Gives Q) : ((p >>= f) s).Gives Q :=
  bind any fun a t _ => hf a t

/-- Reporting does not change what is given. -/
theorem reporting (h : (p s).Gives P) : (Rule.reporting p s).Gives P := by
  intro a t ht
  rw [result_reporting] at ht
  exact h a t ht

/-- What is said with every span is said with that of the rule. -/
theorem spanned {P : α × Span → Cursor → Prop} (h : (p s).Gives fun a t => ∀ span, P (a, span) t) :
    (Rule.spanned p s).Gives P := by
  intro a t ht
  rw [result_spanned] at ht
  obtain ⟨⟨b, u⟩, hu, hb⟩ := Option.map_eq_some_iff.1 ht
  cases hb
  exact h b u hu _

/-- Of two rules each gives it. -/
theorem orElse (hp : (p s).Gives P) (hq : (q s).Gives P) : (Rule.orElse p q s).Gives P := by
  intro a t ht
  rw [result_orElse] at ht
  rcases Option.or_eq_some_iff.1 ht with h | ⟨-, h⟩
  · exact hp a t h
  · exact hq a t h

/-- Of several rules each gives it. -/
theorem firstOf {ps : List (Rule α)} (h : ∀ p ∈ ps, (p s).Gives P) :
    (Rule.firstOf ps s).Gives P := by
  induction ps with
  | nil => exact fail
  | cons p ps ih =>
    exact orElse (h p List.mem_cons_self) (ih fun q hq => h q (List.mem_cons_of_mem _ hq))

/-- It is said with and without the part. -/
theorem optional {P : Option α → Cursor → Prop} (hnone : (p s).result = none → P none s)
    (hsome : (p s).Gives fun a t => P (some a) t) : (Rule.optional p s).Gives P := by
  intro a t ht
  rw [result_optional] at ht
  cases hp : (p s).result with
  | none =>
    rw [hp] at ht
    cases ht
    exact hnone hp
  | some x =>
    rw [hp] at ht
    cases ht
    exact hsome x.1 x.2 hp

/-- It is said of what the lexer finds. -/
theorem token {lex : Lexer α} (h : ∀ a t, lex s = some (a, t) → P a t) :
    (Rule.token lex s).Gives P := by
  intro a t ht
  rw [result_token] at ht
  exact h a t ht

/-- It is said of each part that is repeated. -/
theorem many {R : α → Prop} (h : ∀ s, (p s).Gives fun a _ => R a) (n : Nat) (s : Cursor) :
    (Rule.many p n s).Gives fun as _ => ∀ a ∈ as, R a := by
  induction n generalizing s with
  | zero =>
    intro as t ht
    cases ht
    exact fun a ha => absurd ha List.not_mem_nil
  | succ n ih =>
    intro as t ht
    cases hp : (p s.skipBlanks).result with
    | none =>
      rw [result_many_of_none _ hp] at ht
      cases ht
      exact fun a ha => absurd ha List.not_mem_nil
    | some x =>
      rw [result_many_of_some n hp] at ht
      obtain ⟨⟨bs, u⟩, hu, hb⟩ := Option.map_eq_some_iff.1 ht
      cases hb
      intro a ha
      rcases List.mem_cons.1 ha with rfl | ha
      · exact h _ _ _ hp
      · exact ih x.2 bs u hu a ha

/-- It is said of each part between commas. -/
theorem commaList {R : α → Prop} (h : ∀ s, (p s).Gives fun a _ => R a) (n : Nat) (s : Cursor) :
    (Rule.commaList n p s).Gives fun x _ => ∀ a ∈ x.1 :: x.2, R a := by
  refine bind (h s) fun a t ha => andThen fun _ t => bind (many (R := R) ?_ n t) fun as u has =>
    pure ?_
  · exact fun s => andThen fun _ t => andThen fun _ u => h u
  · exact List.forall_mem_cons.2 ⟨ha, has⟩

end Reply.Gives

namespace Grammar

open Rule Reply

/-! ## Expressions -/

/-- A number that was read has no sign. -/
theorem isUnsigned_of_number {s t : Cursor} {x : Float} (h : Lexer.number s = some (x, t)) :
    IsUnsigned x := by
  obtain ⟨⟨d, u⟩, -, hu⟩ := Option.map_eq_some_iff.1 h
  cases hu
  exact ⟨d.nearestBits, d.nearestBits_le, rfl⟩

/-- The sign of an assignment is formed. -/
theorem formed_of_assignSymbol {s t : Cursor} {op : AssignOp}
    (h : Lexer.symbol assignSymbols s = some (op, t)) : op.Formed := by
  obtain ⟨y, hy, rfl, -, -⟩ := Lexer.symbol_inv h
  exact (by decide : ∀ y ∈ assignSymbols, y.meaning.Formed) y hy

/-- An expression that is formed at every node. -/
abbrev IsFormed (e : Expr) : Prop := e.Forall Expr.Formed

/-- The inner rules give formed expressions only. -/
structure FormedInner (inner : Inner) : Prop where
  unary : ∀ s, (inner.unary s).Gives fun e _ => IsFormed e
  assignment : ∀ s, (inner.assignment s).Gives fun e _ => IsFormed e

section expressions

variable {n : Nat} {inner : Inner} {operand first : Rule Expr} {s : Cursor}

/-- Expressions with commas between them are read formed. -/
theorem formed_sequence {rule : Rule Expr} (h : ∀ s, (rule s).Gives fun e _ => IsFormed e)
    (s : Cursor) : (sequence n rule s).Gives fun e _ => IsFormed e := by
  refine .reporting (.bind (.spanned ((Gives.commaList h n s).imp ?_)) fun x t hx => .pure hx)
  rintro ⟨e, es⟩ t hes span
  cases es with
  | nil => exact hes e List.mem_cons_self
  | cons f es => exact .node (by simp [Expr.Formed]) hes

/-- Items of a list or arguments of a call are read formed. -/
theorem formed_items {rule : Rule Expr} (h : ∀ s, (rule s).Gives fun e _ => IsFormed e)
    (s : Cursor) : (items n rule s).Gives fun es _ => ∀ e ∈ es, IsFormed e := by
  refine .bind (.optional (P := fun o _ => ∀ x ∈ o, ∀ e ∈ x.1 :: x.2, IsFormed e) ?_ ?_) ?_
  · exact fun _ x hx => by cases hx
  · exact (Gives.commaList h n s).imp fun x t hx y hy => by cases hy; exact hx
  · rintro (_ | ⟨e, es⟩) t ho
    · exact .pure fun e he => absurd he List.not_mem_nil
    · exact .pure (ho _ rfl)

/-- A leaf is formed if all that is made of its token is. -/
theorem formed_leaf {α : Type} {lex : Lexer α} {make : α → Span → Expr}
    (h : ∀ s a t span, lex s = some (a, t) → IsFormed (make a span)) (s : Cursor) :
    (leaf lex make s).Gives fun e _ => IsFormed e :=
  .bind (P := fun x _ => IsFormed (make x.1 x.2))
    (.spanned (.token fun a t ht span => h s a t span ht)) fun _ _ hx => .pure hx

/-- An expression without operands is formed if its node is. -/
theorem formed_of_leaf {e : Expr} (hin : e.children = []) (he : e.Formed) : IsFormed e :=
  .node he fun c hc => by rw [hin] at hc; cases hc

/-- A list in brackets is read formed. -/
theorem formed_listLiteral (h : FormedInner inner) (s : Cursor) :
    (listLiteral n inner s).Gives fun e _ => IsFormed e := by
  refine .reporting (.bind (.spanned (P := fun x _ => ∀ e ∈ x.1, IsFormed e) ?_) fun x t hx => .pure
    (.node trivial hx))
  refine .andThen fun _ t => .andThen fun _ t => .bind (formed_items h.assignment t) fun es t hes =>
    ?_
  exact .andThen fun _ t => .andThen fun _ t => .andThen fun _ t => .andThen fun _ t =>
    .pure fun _ => hes

/-- An expression in parentheses is read formed. -/
theorem formed_parenthesized (h : FormedInner inner) (s : Cursor) :
    (parenthesized n inner s).Gives fun e _ => IsFormed e := by
  refine .andThen fun _ t => .andThen fun _ t => .bind (formed_sequence h.assignment t)
    fun e t he => ?_
  exact .andThen fun _ t => .andThen fun _ t => .pure he

/-- The expressions without operators are read formed. -/
theorem formed_primary (h : FormedInner inner) (s : Cursor) :
    (primary n inner s).Gives fun e _ => IsFormed e := by
  refine .firstOf fun p hp => ?_
  simp only [List.mem_cons, List.not_mem_nil, or_false] at hp
  rcases hp with rfl | rfl | rfl | rfl | rfl | rfl | rfl
  · exact formed_leaf (fun s a t span ht => formed_of_leaf (e :=
        .num a span) rfl (isUnsigned_of_number ht)) s
  · exact formed_leaf (fun s a t span ht => formed_of_leaf (e := .str a span) rfl trivial) s
  · exact formed_leaf (fun s a t span ht => formed_of_leaf (e := .bool a span) rfl trivial) s
  · exact formed_leaf (fun s a t span ht => formed_of_leaf (e := .null span) rfl trivial) s
  · exact formed_listLiteral h s
  · exact formed_leaf (fun s a t span ht => formed_of_leaf (e :=
        .ident a span) rfl (Lexer.isIdentifier_of_identifier ht)) s
  · exact formed_parenthesized h s

/-- A suffix that makes formed expressions of formed expressions. -/
def Suffix.Formed : Suffix → Prop
  | .property name _ => IsWord name
  | .index e => IsFormed e
  | .call args => ∀ e ∈ args, IsFormed e

/-- A suffix of any kind is read formed. -/
theorem formed_suffix (h : FormedInner inner) (s : Cursor) :
    (firstOf [propertySuffix, indexSuffix n inner, callSuffix n inner] s).Gives fun x _ =>
      x.Formed := by
  refine .firstOf fun p hp => ?_
  simp only [List.mem_cons, List.not_mem_nil, or_false] at hp
  rcases hp with rfl | rfl | rfl
  · refine .reporting (.andThen fun _ t => .andThen fun _ t => ?_)
    refine .bind (.spanned (P := fun x _ => IsWord x.1)
      (.token fun a t ht _ => (Lexer.word_inv ht).1)) fun x t hx => ?_
    exact .pure hx
  · refine .reporting (.andThen fun _ t => .andThen fun _ t => .bind
      (formed_sequence h.assignment t) fun e t he => ?_)
    exact .andThen fun _ t => .andThen fun _ t => .pure he
  · refine .reporting (.andThen fun _ t => .andThen fun _ t => .bind (formed_items h.assignment t)
      fun es t hes => ?_)
    exact .andThen fun _ t => .andThen fun _ t => .pure hes

/-- Attaching a formed suffix keeps an expression formed. -/
theorem formed_attach {e : Expr} (he : IsFormed e) {x : Suffix × Span} (hx : x.1.Formed) :
    IsFormed (attach e x) := by
  obtain ⟨x, span⟩ := x
  cases x with
  | property name nameSpan =>
    refine .node (fun _ => ⟨name, nameSpan, rfl, hx⟩) fun c hc => ?_
    rw [List.mem_singleton.1 (show c ∈ [e] from hc)]
    exact he
  | index i =>
    exact .node (fun h => by cases h) (List.forall_mem_cons.2 ⟨he, List.forall_mem_singleton.2 hx⟩)
  | call args => exact .node trivial (List.forall_mem_cons.2 ⟨he, hx⟩)

/-- A primary expression with its suffixes is read formed. -/
theorem formed_suffixed (h : FormedInner inner) (s : Cursor) :
    (suffixed n inner s).Gives fun e _ => IsFormed e := by
  refine .reporting (.bind (formed_primary h s) fun e t he => .andThen fun _ t => ?_)
  refine .bind (.many (R := fun x => x.1.Formed)
    (fun s => .spanned ((formed_suffix h s).imp fun _ _ hx _ => hx)) n t) fun xs u hxs => .pure ?_
  induction xs generalizing e with
  | nil => exact he
  | cons x xs ih =>
    exact ih (attach e x) (formed_attach he (hxs x List.mem_cons_self)) fun y hy =>
      hxs y (List.mem_cons_of_mem _ hy)

/-- The expressions with operators on one side are read formed. -/
theorem formed_unaryRule (h : FormedInner inner)
    (hoperand : (operand s).Gives fun e _ => IsFormed e) :
    (unaryRule inner operand s).Gives fun e _ => IsFormed e := by
  refine .reporting (.orElse ?_ (.reporting (.orElse ?_ ?_)))
  · refine .bind (.spanned (P := fun x _ => IsFormed x.1.2) ?_) fun x t hx =>
      .pure (.node trivial (List.forall_mem_singleton.2 hx))
    exact .andThen fun _ t => .andThen fun _ t => .bind (h.unary t) fun e t he => .pure fun _ => he
  · refine .bind (.spanned (P := fun x _ => IsFormed x.1.2) ?_) fun x t hx =>
      .pure (.node trivial (List.forall_mem_singleton.2 hx))
    exact .andThen fun _ t => .andThen fun _ t => .bind (h.unary t) fun e t he => .pure fun _ => he
  · refine .bind (.spanned (P := fun x _ => IsFormed x.1.1) ?_) fun x t hx => ?_
    · exact .bind hoperand fun e t he => .andThen fun _ t => .andThen fun _ t => .pure fun _ => he
    · obtain ⟨⟨e, _ | op⟩, span⟩ := x
      · exact .pure hx
      · exact .pure (.node trivial (List.forall_mem_singleton.2 hx))

/-- Joining formed operands keeps an expression formed. -/
theorem formed_join {e : Expr} (he : IsFormed e) {x : Connective × Expr} (hx : IsFormed x.2) :
    IsFormed (join e x) := by
  obtain ⟨op | op, f⟩ := x
  · exact .node trivial (List.forall_mem_cons.2 ⟨he, List.forall_mem_singleton.2 hx⟩)
  · exact .node trivial (List.forall_mem_cons.2 ⟨he, List.forall_mem_singleton.2 hx⟩)

/-- A chain of connectives is read formed. -/
theorem formed_chain (hoperand : ∀ s, (operand s).Gives fun e _ => IsFormed e)
    (levels : List (List (Symbol Connective))) {first : Rule Expr} {s : Cursor}
    (hfirst : (first s).Gives fun e _ => IsFormed e) :
    (chain n operand levels first s).Gives fun e _ => IsFormed e := by
  induction levels generalizing first s with
  | nil => exact hfirst
  | cons level tighter ih =>
    refine .reporting (.bind (ih hfirst) fun e t he => .andThen fun _ t => ?_)
    refine .bind (.many (R := fun x => IsFormed x.2) (fun s => ?_) n t) fun xs u hxs => .pure ?_
    · exact .andThen fun _ t => .andThen fun _ t => .bind (ih (hoperand t)) fun e t he => .pure he
    · clear t u
      induction xs generalizing e with
      | nil => exact he
      | cons x xs ih =>
        exact ih (join e x) (formed_join he (hxs x List.mem_cons_self)) fun y hy =>
          hxs y (List.mem_cons_of_mem _ hy)

/-- A condition with or without its two choices is read formed. -/
theorem formed_conditional (h : FormedInner inner)
    (hoperand : ∀ s, (operand s).Gives fun e _ => IsFormed e)
    (hfirst : (first s).Gives fun e _ => IsFormed e) :
    (conditional n inner operand first s).Gives fun e _ => IsFormed e := by
  refine .reporting (.bind (.spanned (P := fun x _ => IsFormed x.1.1 ∧ ∀ y ∈ x.1.2, IsFormed y.1 ∧
      IsFormed y.2) ?_) fun x t hx => ?_)
  · refine .bind (formed_chain hoperand _ hfirst) fun c t hc => .andThen fun _ t => ?_
    refine .bind (.optional (P := fun o _ => ∀ y ∈ o, IsFormed y.1 ∧ IsFormed y.2) ?_ ?_)
        fun o t ho =>
      .pure fun _ => ⟨hc, ho⟩
    · exact fun _ y hy => by cases hy
    · refine .andThen fun _ t => .andThen fun _ t => .bind (h.assignment t) fun a t ha => ?_
      refine .andThen fun _ t => .andThen fun _ t => .andThen fun _ t =>
        .bind (h.assignment t) fun b t hb => ?_
      exact .pure fun y hy => by cases hy; exact ⟨ha, hb⟩
  · obtain ⟨⟨c, _ | ⟨a, b⟩⟩, span⟩ := x
    · exact .pure hx.1
    · obtain ⟨ha, hb⟩ := hx.2 _ rfl
      exact .pure (.node trivial (List.forall_mem_cons.2 ⟨hx.1, List.forall_mem_cons.2
        ⟨ha, List.forall_mem_singleton.2 hb⟩⟩))

/-- An assignment is read formed. -/
theorem formed_store (h : FormedInner inner) (hoperand : (operand s).Gives fun e _ => IsFormed e) :
    (store inner operand s).Gives fun e _ => IsFormed e := by
  refine .bind (.spanned (P := fun x _ => IsFormed x.1.1 ∧ x.1.2.1.Formed ∧ IsFormed x.1.2.2) ?_)
    fun x t hx => .pure ?_
  · refine .bind hoperand fun e t he => .andThen fun _ t => ?_
    refine .bind (.token fun op u hop => formed_of_assignSymbol hop) fun op t hop =>
      .andThen fun _ t => ?_
    exact .bind (h.assignment t) fun v t hv => .pure fun _ => ⟨he, hop, hv⟩
  · exact .node hx.2.1 (List.forall_mem_cons.2 ⟨hx.1, List.forall_mem_singleton.2 hx.2.2⟩)

/-- An assignment or a conditional expression is read formed. -/
theorem formed_assignmentRule (h : FormedInner inner) (s : Cursor) :
    (assignmentRule n inner s).Gives fun e _ => IsFormed e := by
  rw [assignmentRule_eq]
  have hunary : ∀ s, (unaryRule inner (suffixed n inner) s).Gives fun e _ => IsFormed e :=
    fun s => formed_unaryRule h (formed_suffixed h s)
  exact .reporting
    (.orElse (formed_store h (formed_suffixed h s)) (formed_conditional h hunary (hunary s)))

/-- The rules for operands give formed expressions with any fuel. -/
theorem formedInner (n : Nat) : FormedInner ⟨unary n, assignment n⟩ := by
  induction n with
  | zero =>
    exact ⟨fun s => by simp only [unary]; exact .fail,
      fun s => by simp only [assignment]; exact .fail⟩
  | succ n ih =>
    refine ⟨fun s => ?_, fun s => ?_⟩
    · simp only [unary_succ]
      exact formed_unaryRule ih (formed_suffixed ih s)
    · simp only [assignment_succ]
      exact formed_assignmentRule ih s

/-- Every expression that was read is formed. -/
theorem formed_expression (n : Nat) (s : Cursor) : (expression n s).Gives fun e _ => IsFormed e :=
  formed_sequence (formedInner n).assignment s

end expressions

/-! ## Parts of statements -/

section parts

variable {n : Nat}

/-- A name that is declared, with or without a value, is read formed. -/
theorem formed_declarator (s : Cursor) :
    (declarator n s).Gives fun d _ => IsIdentifier d.name ∧ ∀ e ∈ d.init, IsFormed e := by
  refine .reporting (.bind (.spanned (P := fun x _ => IsIdentifier x.1.1 ∧ ∀ e ∈ x.1.2, IsFormed e)
      ?_) fun x t hx => .pure hx)
  refine .bind (.token fun a t ht => Lexer.isIdentifier_of_identifier ht) fun name t hname =>
    .andThen fun _ t => ?_
  refine .bind (.optional (P := fun o _ => ∀ e ∈ o, IsFormed e) ?_ ?_) fun o t ho =>
    .pure fun _ => ⟨hname, ho⟩
  · exact fun _ e he => by cases he
  · refine .andThen fun _ t => .andThen fun _ t => ((formedInner n).assignment t).imp
      fun e u he f hf => ?_
    cases hf
    exact he

/-- A word of declarations and the names behind it are read formed. -/
theorem formed_declaration (s : Cursor) :
    (declaration n s).Gives fun x _ => FormedNames x.2 ∧ ∀ e ∈ x.2.flatMap Declarator.exprs,
      IsFormed e := by
  refine .reporting (.andThen fun word t => .andThen fun _ t => ?_)
  refine .bind (Gives.commaList formed_declarator n t) fun x u hx =>
    .pure ⟨⟨by simp, fun d hd => (hx d hd).1⟩, ?_⟩
  intro e he
  obtain ⟨d, hd, hde⟩ := List.mem_flatMap.1 he
  exact (hx d hd).2 e (Option.mem_toList.1 hde)

/-- A test in parentheses is read formed. -/
theorem formed_test (s : Cursor) : (test n s).Gives fun e _ => IsFormed e := by
  refine .andThen fun _ t => .andThen fun _ t => .andThen fun _ t =>
    .bind (formed_expression n t) fun e t he => ?_
  exact .andThen fun _ t => .andThen fun _ t => .andThen fun _ t => .pure he

/-- A clause of a counting loop, if there is one, is read formed. -/
theorem formed_clause (s : Cursor) :
    (optional (expression n) s).Gives fun o _ => ∀ e ∈ o, IsFormed e := by
  refine .optional (fun _ e he => by cases he) ((formed_expression n s).imp fun e t he f hf => ?_)
  cases hf
  exact he

/-- The start of a counting loop is read formed. -/
theorem formed_forInit (s : Cursor) : (forInit n s).Gives fun i _ =>
    (∀ w ds, i = .declare w ds → FormedNames ds) ∧ ∀ e ∈ i.exprs, IsFormed e := by
  refine .reporting (.orElse (.bind (formed_declaration s) fun x t hx => .pure ⟨?_, hx.2⟩)
    (.bind (formed_expression n s) fun e t he => .pure ⟨?_, List.forall_mem_singleton.2 he⟩))
  · rintro w ds ⟨⟩
    exact hx.1
  · rintro w ds ⟨⟩

/-- Parameters with commas between them are read formed. -/
theorem formed_paramList (s : Cursor) :
    (paramList n s).Gives fun ps _ => ∀ p ∈ ps, IsIdentifier p :=
  .reporting (.bind (.commaList (fun _ => .token fun _ _ ht => Lexer.isIdentifier_of_identifier ht)
      n s) fun _ _ hx => .pure hx)

end parts

/-! ## Statements -/

/-- The statement was read, up to the given text. -/
def ReadTo (s : Stmt) (t : Cursor) : Prop := ∃ u, (statementFull u).result = some (s, t)

/-- What a statement that was read up to `t` says about what is right inside. -/
def ReadStep (s : Stmt) (t : Cursor) : Prop :=
  match s with
  | .function name ps body _ => IsIdentifier name ∧ (∀ p ∈ ps, IsIdentifier p) ∧ ∀ c ∈ body,
    ∃ u, ReadTo c u
  | .declare _ ds _ => FormedNames ds ∧ ∀ e ∈ ds.flatMap Declarator.exprs, IsFormed e
  | .branch e c none _ =>
    IsFormed e ∧ (∃ u, ReadTo c u) ∧ t.skipBlanks = t ∧ (elseClause statementFull t).result = none
  | .branch e c (some a) _ =>
    IsFormed e ∧ (∃ u, ReadTo c u ∧ (elseClause statementFull u.skipBlanks).result ≠ none) ∧
      ReadTo a t
  | .whileLoop e body _ => IsFormed e ∧ ReadTo body t
  | .forLoop i e u body _ => (∀ w ds, i = some (.declare w ds) → FormedNames ds) ∧
    (∀ f ∈ i.toList.flatMap ForInit.exprs ++ e.toList ++ u.toList, IsFormed f) ∧ ReadTo body t
  | .ret v _ => ∀ e ∈ v, IsFormed e
  | .block body _ => ∀ c ∈ body, ∃ u, ReadTo c u
  | .expr e _ => IsFormed e
  | .breakLoop _ | .continueLoop _ | .empty _ => True

section steps

variable {n : Nat} {s : Cursor}

/-- The statement that is read stops where reading it stops. -/
theorem gives_readTo (s : Cursor) : (statementFull s).Gives ReadTo := fun _ _ h => ⟨s, h⟩

/-- Statements in braces were read one by one. -/
theorem readStep_braces (s : Cursor) :
    (braces n statementFull s).Gives fun body _ => ∀ c ∈ body, ∃ u, ReadTo c u := by
  refine .reporting (.andThen fun _ t => .andThen fun _ t => ?_)
  refine .bind (.many (R := fun c => ∃ u, ReadTo c u)
    (fun s => (gives_readTo s).imp fun c u h => ⟨u, h⟩) n t) fun body t hbody => ?_
  exact .andThen fun _ t => .andThen fun _ t => .pure hbody

/-- A function was read from what is right inside. -/
theorem readStep_functionRule : (functionRule n statementFull s).Gives ReadStep := by
  refine .reporting (.bind (.spanned (P :=
      fun x t => ReadStep (.function x.1.1 x.1.2.1 x.1.2.2 x.2) t) ?_) fun x t hx => .pure hx)
  refine .andThen fun _ t => .andThen fun _ t => ?_
  refine .bind (.token fun a t ht => Lexer.isIdentifier_of_identifier ht) fun name t hname => ?_
  refine .andThen fun _ t => .andThen fun _ t => .andThen fun _ t => ?_
  refine .bind (.optional (P := fun o _ => ∀ p ∈ o.getD [], IsIdentifier p) ?_ (formed_paramList t))
    fun ps t hps => ?_
  · exact fun _ p hp => absurd hp List.not_mem_nil
  · refine .andThen fun _ t => .andThen fun _ t => .andThen fun _ t =>
      .bind (readStep_braces t) fun body t hbody => ?_
    exact .pure fun _ => ⟨hname, hps, hbody⟩

/-- A declaration was read from what is right inside. -/
theorem readStep_declareRule : (declareRule n s).Gives ReadStep := by
  refine .reporting (.bind (.spanned (P := fun x t => ReadStep (.declare x.1.1 x.1.2 x.2) t) ?_)
    fun x t hx => .pure hx)
  exact .bind (formed_declaration s) fun x t hx => .andThen fun _ t => .pure fun _ => hx

/-- What stands behind `else` was read as a statement. -/
theorem gives_elseClause (s : Cursor) : (elseClause statementFull s).Gives ReadTo :=
  .reporting (.andThen fun _ _ => .andThen fun _ t => gives_readTo t)

/-- A branch was read from what is right inside. -/
theorem readStep_branchRule : (branchRule n statementFull s).Gives ReadStep := by
  refine .reporting (.bind (.spanned (P :=
      fun x t => ReadStep (.branch x.1.1 x.1.2.1 x.1.2.2 x.2) t) ?_) fun x t hx => .pure hx)
  refine .andThen fun _ t => .bind (formed_test t) fun e t he =>
    .bind (gives_readTo t) fun c u hc => ?_
  refine .bind (P := fun _ v => v = u.skipBlanks) (fun _ v hv => by cases hv; rfl) fun _ v hv => ?_
  subst hv
  refine .bind (.optional (P := fun a t => ∀ span, ReadStep (.branch e c a span) t) ?_ ?_)
    fun a t ha => .pure ha
  · exact fun hnone _ => ⟨he, ⟨u, hc⟩, Cursor.skipBlanks_skipBlanks u, hnone⟩
  · intro a t ht _
    exact ⟨he, ⟨u, hc, by rw [ht]; exact Option.some_ne_none _⟩, gives_elseClause _ a t ht⟩

/-- A loop was read from what is right inside. -/
theorem readStep_whileRule : (whileRule n statementFull s).Gives ReadStep := by
  refine .reporting (.bind (.spanned (P := fun x t => ReadStep (.whileLoop x.1.1 x.1.2 x.2) t) ?_)
    fun x t hx => .pure hx)
  refine .andThen fun _ t => .bind (formed_test t) fun e t he =>
    .bind (gives_readTo t) fun c u hc => ?_
  exact .pure fun _ => ⟨he, hc⟩

/-- A clause that is reported, if there is one, is read formed. -/
theorem formed_reportedClause (s : Cursor) :
    (optional (reporting (expression n)) s).Gives fun o _ => ∀ e ∈ o, IsFormed e := by
  refine .optional (fun _ e he => by cases he)
    (.reporting ((formed_expression n s).imp fun e t he f hf => ?_))
  cases hf
  exact he

/-- A counting loop was read from what is right inside. -/
theorem readStep_forRule : (forRule n statementFull s).Gives ReadStep := by
  refine .reporting (.bind (.spanned (P := fun x t => ReadStep
      (.forLoop x.1.1 x.1.2.1 x.1.2.2.1 x.1.2.2.2 x.2) t) ?_) fun x t hx => .pure hx)
  refine .andThen fun _ t => .andThen fun _ t => .andThen fun _ t => .andThen fun _ t => ?_
  refine .bind (.optional (P := fun i _ => (∀ w ds, i = some (.declare w ds) → FormedNames ds) ∧
      ∀ f ∈ i.toList.flatMap ForInit.exprs, IsFormed f) ?_ ((formed_forInit t).imp ?_))
    fun i t hi => ?_
  · exact fun _ => ⟨fun w ds h => (by cases h), fun f hf => absurd hf List.not_mem_nil⟩
  · rintro i u ⟨hnames, hexprs⟩
    refine ⟨fun w ds h => hnames w ds (Option.some.inj h), fun f hf => hexprs f ?_⟩
    simpa using hf
  refine .andThen fun _ t => .andThen fun _ t => .andThen fun _ t => .bind (formed_reportedClause t)
    fun e t he => ?_
  refine .andThen fun _ t => .andThen fun _ t => .andThen fun _ t => .bind (formed_reportedClause t)
    fun u t hu => ?_
  refine .andThen fun _ t => .andThen fun _ t => .andThen fun _ t =>
    .bind (gives_readTo t) fun body t hbody => ?_
  refine .pure fun _ => ⟨hi.1, fun f hf => ?_, hbody⟩
  simp only [List.mem_append, Option.mem_toList] at hf
  rcases hf with (hf | hf) | hf
  · exact hi.2 f hf
  · exact he f hf
  · exact hu f hf

/-- A `return` was read from what is right inside. -/
theorem readStep_returnRule : (returnRule n s).Gives ReadStep := by
  refine .reporting (.bind (.spanned (P := fun x t => ReadStep (.ret x.1 x.2) t) ?_)
    fun x t hx => .pure hx)
  refine .andThen fun _ t => .andThen fun _ t => .bind (formed_clause t) fun o t ho => ?_
  exact .andThen fun _ t => .pure fun _ => ho

/-- An expression that stands alone was read from what is right inside. -/
theorem readStep_exprRule : (exprRule n s).Gives ReadStep := by
  refine .reporting (.bind (.spanned (P := fun x t => ReadStep (.expr x.1 x.2) t) ?_)
    fun x t hx => .pure hx)
  exact .bind (formed_expression n s) fun e t he => .andThen fun _ t => .pure fun _ => he

/-- A statement that was read was read by one of the rules for statements. -/
theorem readStep_of_readTo {c : Stmt} {t : Cursor} (h : ReadTo c t) : ReadStep c t := by
  obtain ⟨u, hu⟩ := h
  rw [statementFull_eq (Nat.lt_succ_self u.rest.length)] at hu
  refine Gives.reporting (.firstOf fun rule hrule => ?_) c t hu
  simp only [List.mem_cons, List.not_mem_nil, or_false] at hrule
  rcases hrule with rfl | rfl | rfl | rfl | rfl | rfl | rfl | rfl | rfl | rfl | rfl
  · exact readStep_functionRule
  · exact readStep_declareRule
  · exact readStep_branchRule
  · exact readStep_whileRule
  · exact readStep_forRule
  · exact readStep_returnRule
  · exact .reporting (.andThen fun _ _ => .pure trivial)
  · exact .reporting (.andThen fun _ _ => .pure trivial)
  · exact .bind (.spanned ((readStep_braces u).imp fun body _ hbody span => hbody)) fun x _ hx =>
      .pure hx
  · exact .reporting (.andThen fun _ _ => .pure trivial)
  · exact readStep_exprRule

end steps

/-- Where a statement that ends open was read, no alternative follows. -/
theorem elseClause_of_endsOpen {s : Stmt} (hopen : s.endsOpen = true) {t : Cursor}
    (h : ReadTo s t) : (elseClause statementFull t.skipBlanks).result = none := by
  induction s using Stmt.induction generalizing t with
  | step s ih =>
  have hstep := readStep_of_readTo h
  cases s with
  | branch e c a span =>
    cases a with
    | none =>
      obtain ⟨-, -, hskip, hnone⟩ := hstep
      rw [hskip]
      exact hnone
    | some a => exact ih a (by simp [Stmt.children]) hopen hstep.2.2
  | whileLoop e body span => exact ih body List.mem_cons_self hopen hstep.2
  | forLoop i e u body span => exact ih body List.mem_cons_self hopen hstep.2.2
  | _ => cases hopen

/-- Every statement that was read is formed, and so are its expressions. -/
theorem formed_of_readTo {s : Stmt} {t : Cursor} (h : ReadTo s t) :
    s.Forall Stmt.Formed ∧ s.ForallExpr Expr.Formed := by
  induction s using Stmt.induction generalizing t with
  | step s ih =>
  have hstep := readStep_of_readTo h
  suffices hlocal : s.Formed ∧ (∀ e ∈ s.exprs, IsFormed e) ∧ ∀ c ∈ s.children, ∃ u, ReadTo c u by
    obtain ⟨hhere, hexprs, hin⟩ := hlocal
    refine ⟨.node hhere fun c hc => ?_, .node hexprs fun c hc => ?_⟩
    all_goals obtain ⟨u, hu⟩ := hin c hc
    · exact (ih c hc hu).1
    · exact (ih c hc hu).2
  cases s with
  | function name ps body span =>
    exact ⟨⟨hstep.1, hstep.2.1⟩, fun e he => absurd he List.not_mem_nil, hstep.2.2⟩
  | declare word ds span => exact ⟨hstep.1, hstep.2, fun c hc => absurd hc List.not_mem_nil⟩
  | branch e c a span =>
    cases a with
    | none =>
      obtain ⟨he, hc, -, -⟩ := hstep
      exact ⟨fun h => (by cases h), List.forall_mem_singleton.2 he, List.forall_mem_singleton.2 hc⟩
    | some a =>
      obtain ⟨he, ⟨u, hc, helse⟩, ha⟩ := hstep
      refine ⟨fun _ => ?_, List.forall_mem_singleton.2 he, List.forall_mem_cons.2 ⟨⟨u, hc⟩, ?_⟩⟩
      · cases hopen : c.endsOpen with
        | false => rfl
        | true => exact absurd (elseClause_of_endsOpen hopen hc) helse
      · exact List.forall_mem_singleton.2 ⟨t, ha⟩
  | whileLoop e body span =>
    exact ⟨trivial, List.forall_mem_singleton.2 hstep.1, List.forall_mem_singleton.2 ⟨t, hstep.2⟩⟩
  | forLoop i e u body span =>
    refine ⟨?_, hstep.2.1, List.forall_mem_singleton.2 ⟨t, hstep.2.2⟩⟩
    match i, hstep.1 with
    | none, _ => exact trivial
    | some (.declare w ds), hnames => exact hnames w ds rfl
    | some (.expr e), _ => exact trivial
  | ret v span =>
    exact ⟨trivial, fun e he => hstep e (Option.mem_toList.1 he),
      fun c hc => absurd hc List.not_mem_nil⟩
  | block body span => exact ⟨trivial, fun e he => absurd he List.not_mem_nil, hstep⟩
  | expr e span =>
    exact ⟨trivial, List.forall_mem_singleton.2 hstep, fun c hc => absurd hc List.not_mem_nil⟩
  | breakLoop span | continueLoop span | empty span =>
    exact ⟨trivial, fun e he => absurd he List.not_mem_nil, fun c hc => absurd hc List.not_mem_nil⟩

end Grammar

/-! ## Programs -/

open Rule Reply Grammar

/-- A text is read as a program exactly if its rule reads it. -/
theorem Program.parse_eq_ok_iff {text : String} {p : Program} : Program.parse text = .ok p ↔
    ∃ c, (program ((Cursor.ofString text).rest.length + 1) (.ofString text)).result =
      some (p, c) := by
  unfold Program.parse
  dsimp only
  generalize program ((Cursor.ofString text).rest.length + 1) (.ofString text) = reply
  obtain ⟨r, _ | ⟨q, c⟩⟩ := reply
  · simp
  · simp only [Except.ok.injEq, Option.some.injEq, Prod.mk.injEq]
    exact ⟨fun h => ⟨c, h, rfl⟩, fun ⟨d, h, _⟩ => h⟩

/-- What passes a check is there. -/
theorem exists_ok_of_any {ε α : Type} {x : Except ε α} {check : α → Bool}
    (h : x.toOption.any check = true) : ∃ a, x = .ok a ∧ check a = true := by
  cases x with
  | error e => cases h
  | ok a => exact ⟨a, rfl, h⟩

/-- A text that passes a check is read as a program that has what was checked. -/
theorem Program.exists_parse (source : String) (P : Program → Prop) [DecidablePred P]
    (h : (Program.parse source).toOption.any (fun p => decide (P p)) = true) :
    ∃ p, Program.parse source = .ok p ∧ P p := by
  obtain ⟨p, hp, hP⟩ := exists_ok_of_any h
  exact ⟨p, hp, of_decide_eq_true hP⟩

/-- Every program that was read is formed, and so are its expressions. -/
theorem Program.formed_of_parse {text : String} {p : Program} (h : Program.parse text = .ok p) :
    p.Formed ∧ p.ForallExpr Expr.Formed := by
  obtain ⟨c, hc⟩ := Program.parse_eq_ok_iff.1 h
  generalize hn : (Cursor.ofString text).rest.length + 1 = n at hc
  have hbody : (program n (.ofString text)).Gives fun p _ => ∀ s ∈ p.body, ∃ t, ReadTo s t := by
    refine .reporting (.bind (.spanned (P := fun x _ => ∀ s ∈ x.1, ∃ t, ReadTo s t) ?_)
      fun x t hx => .pure hx)
    refine .bind (P := fun _ t => t.rest.length < n) (fun _ t ht => ?_) fun _ t ht => ?_
    · cases ht
      exact Nat.lt_of_le_of_lt (Cursor.length_skipBlanks_le _) (by omega)
    · refine .bind (P := fun body _ => ∀ s ∈ body, ∃ t, ReadTo s t) ?_ fun body t hbody =>
        .andThen fun _ t => .andThen fun _ t => .pure fun _ => hbody
      rw [(Agree.many (agree_statementFull (Nat.le_refl n)) (Nat.le_refl n) (Nat.le_refl n) t ht).1]
      exact .many (fun s => (gives_readTo s).imp fun c u h => ⟨u, h⟩) n t
  have hread := hbody p c hc
  refine ⟨fun s hs => ?_, fun s hs => ?_⟩
  all_goals obtain ⟨t, ht⟩ := hread s hs
  · exact (formed_of_readTo ht).1
  · exact (formed_of_readTo ht).2

end BranchPaint
