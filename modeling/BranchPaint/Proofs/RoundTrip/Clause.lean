import BranchPaint.Proofs.RoundTrip.Expression

/-!
# The parts of statements

What starts a statement, and how the parts of its first line are read back: tests in parentheses,
optional clauses, declared names and parameters.

A statement that starts with no word of its own, no brace and no semicolon (`PlainHead`) is an
expression. Wherever an expression can be read the head is plain (`plainHead_of_expression`), since
no expression starts with a word that starts statements.
-/

namespace BranchPaint

open Rule Grammar

/-- The characters of a declared name. -/
def Declarator.chars (d : Declarator) : List Char := d.text.toList

namespace Grammar

/-! ## Heads of statements -/

section heads

variable {n : Nat} {inner : Rule Stmt} {s t : Cursor} {w : String}

/-- No function is read without its keyword. -/
theorem functionRule_of_keyword (h : Lexer.keyword "function" s = none) :
    (functionRule n inner s).result = none := by
  simp [functionRule, h]

/-- No names are declared without a word of declarations. -/
theorem declaration_of_declareWord (h : Lexer.declareWord s = none) :
    (declaration n s).result = none := by
  simp [declaration, h]

/-- So no declaration is read. -/
theorem declareRule_of_declareWord (h : Lexer.declareWord s = none) :
    (declareRule n s).result = none := by
  simp [declareRule, declaration_of_declareWord h]

/-- No branch is read without its keyword. -/
theorem branchRule_of_keyword (h : Lexer.keyword "if" s = none) :
    (branchRule n inner s).result = none := by
  simp [branchRule, h]

/-- No loop is read without its keyword. -/
theorem whileRule_of_keyword (h : Lexer.keyword "while" s = none) :
    (whileRule n inner s).result = none := by
  simp [whileRule, h]

/-- No counting loop is read without its keyword. -/
theorem forRule_of_keyword (h : Lexer.keyword "for" s = none) :
    (forRule n inner s).result = none := by
  simp [forRule, h]

/-- No `return` is read without its keyword. -/
theorem returnRule_of_keyword (h : Lexer.keyword "return" s = none) :
    (returnRule n s).result = none := by
  simp [returnRule, h]

/-- No statement of one word is read without that word. -/
theorem wordRule_of_keyword {make : Span → Stmt} (h : Lexer.keyword w s = none) :
    (wordRule w make s).result = none := by
  simp [wordRule, h]

/-- No block is read without its brace. -/
theorem blockRule_of_literal? (h : s.literal? ['{'] = none) :
    (blockRule n inner s).result = none := by
  simp [blockRule, braces, h]

/-- No empty statement is read without its semicolon. -/
theorem emptyRule_of_literal? (h : s.literal? [';'] = none) : (emptyRule s).result = none := by
  simp [emptyRule, h]

/-- The words that start statements. -/
def headWords : List String := ["function", "if", "while", "for", "return", "break", "continue"]

/-- A text with which no statement but an expression can start. -/
structure PlainHead (s : Cursor) : Prop where
  keyword : ∀ w ∈ headWords, Lexer.keyword w s = none
  declareWord : Lexer.declareWord s = none
  brace : s.literal? ['{'] = none
  semicolon : s.literal? [';'] = none

/-- At a plain head a statement is an expression. -/
theorem PlainHead.statementFull (h : PlainHead s) (hn : s.rest.length < n) :
    (statementFull s).result = (exprRule n s).result := by
  rw [statementFull_eq hn]
  simp only [statementRule, result_reporting, result_firstOf_cons, result_firstOf_nil,
    functionRule_of_keyword (h.keyword _ (by decide)), declareRule_of_declareWord h.declareWord,
    branchRule_of_keyword (h.keyword _ (by decide)), whileRule_of_keyword (h.keyword _ (by decide)),
    forRule_of_keyword (h.keyword _ (by decide)), returnRule_of_keyword (h.keyword _ (by decide)),
    wordRule_of_keyword (h.keyword "break" (by decide)),
    wordRule_of_keyword (h.keyword "continue" (by decide)), blockRule_of_literal? h.brace,
    emptyRule_of_literal? h.semicolon, Option.none_or, Option.or_none]

/-- Another word is no keyword. -/
theorem keyword_of_ne (hw : Lexer.word s = some (w, t)) {k : String} (hk : w ≠ k) :
    Lexer.keyword k s = none := by
  simp [Lexer.keyword, hw, hk]

/-- Another word is none of declarations. -/
theorem declareWord_of_ne (hw : Lexer.word s = some (w, t)) (h : w ∉ ["let", "const", "var"]) :
    Lexer.declareWord s = none := by
  simp only [List.mem_cons, List.not_mem_nil, or_false, not_or] at h
  have hnone : DeclareWord.ofText? w = none := by
    unfold DeclareWord.ofText?
    split
    · exact absurd rfl h.1
    · exact absurd rfl h.2.1
    · exact absurd rfl h.2.2
    · rfl
  simp [Lexer.declareWord, hw, hnone]

/-- A word is neither a brace nor a semicolon. -/
theorem literal?_of_word (hw : Lexer.word s = some (w, t)) {c : Char} (hc : isWordStart c = false) :
    s.literal? [c] = none := by
  obtain ⟨⟨d, ds, hd, hstart, -⟩, htext⟩ := Lexer.word_inv hw
  obtain ⟨r, p⟩ := s
  rw [hd, List.cons_append] at htext
  change r = _ at htext
  subst htext
  exact Cursor.literal?_cons_of_ne (ne_of_class hstart hc) _ _ _

/-- Any other word is a plain head. -/
theorem plainHead_of_word (hw : Lexer.word s = some (w, t)) (hhead : w ∉ headWords)
    (hdeclare : w ∉ ["let", "const", "var"]) : PlainHead s where
  keyword k hk := keyword_of_ne hw fun h => hhead (h ▸ hk)
  declareWord := declareWord_of_ne hw hdeclare
  brace := literal?_of_word hw (by decide)
  semicolon := literal?_of_word hw (by decide)

/-- So is a token that is no word, no brace and no semicolon. -/
theorem plainHead_of_noWord (hw : Lexer.word s = none) (hbrace : s.literal? ['{'] = none)
    (hsemicolon : s.literal? [';'] = none) : PlainHead s :=
  ⟨fun k _ => Lexer.keyword_of_word hw k, Lexer.declareWord_of_word hw, hbrace, hsemicolon⟩

/-! ## Expressions in statements -/

/-- With enough fuel expressions are read as at the lowest level. -/
theorem expression_eq (hn : s.rest.length < n) : expression n s = levelRule n 0 s :=
  (agree_sequence (agree_fullInner (Nat.le_refl n)).assignment (Nat.le_refl n)
    (Nat.le_refl n) s hn).1

/-- With enough fuel assignments are read as they are in full. -/
theorem assignment_eq (hn : s.rest.length < n) : assignment n s = assignmentFull s :=
  ((agree_fullInner (Nat.le_refl n)).assignment s hn).1

/-- Where no expression is read, none is read with enough fuel. -/
theorem expression_of_noExpr (h : NoExpr s) (hn : s.rest.length < n) :
    (expression n s).result = none := by
  rw [expression_eq hn]
  exact h.sequence

/-- Where an expression can be read, no other statement starts. -/
theorem plainHead_of_expression {x : Expr × Cursor} (hn : s.rest.length < n)
    (h : (expression n s).result = some x) : PlainHead s := by
  have hsome : ¬ NoExpr s := fun hno => by
    rw [expression_of_noExpr hno hn] at h
    cases h
  have hpeek : s.peek startsExpr = true := by
    cases hp : s.peek startsExpr with
    | true => rfl
    | false => exact absurd (noExpr_of_peek hp) hsome
  cases hw : Lexer.word s with
  | none =>
    have hmark : ∀ c, startsExpr c = false → s.literal? [c] = none := fun c hc =>
      Cursor.literal?_of_peek (peek_not hpeek) (by rw [hc]; rfl) []
    exact plainHead_of_noWord hw (hmark _ (by decide)) (hmark _ (by decide))
  | some wt =>
    obtain ⟨w, t⟩ := wt
    have hother : w ∉ statementWords := fun hmem => hsome (noExpr_of_word hw hmem)
    refine plainHead_of_word hw (fun hmem => hother ?_) (fun hmem => hother ?_)
    · exact (by decide : ∀ w ∈ headWords, w ∈ statementWords) w hmem
    · exact (by decide : ∀ w ∈ ["let", "const", "var"], w ∈ statementWords) w hmem

/-- What a statement can start with. -/
def startsStmt (c : Char) : Bool := startsExpr c || c = '{' || c = ';'

/-- No statement starts with another character. -/
theorem statementFull_of_peek (h : s.peek startsStmt = false) :
    (statementFull s).result = none := by
  have hno : NoExpr s := noExpr_of_peek (Cursor.peek_mono h fun c hc => by simp [startsStmt, hc])
  have hword : Lexer.word s = none := by
    refine Lexer.word_of_peek (Cursor.peek_mono h fun c hc => ?_)
    simp [startsStmt, startsOperand_startsExpr c (isWordStart_startsOperand c hc)]
  have hplain : PlainHead s := plainHead_of_noWord hword (Cursor.literal?_of_peek h (by decide) [])
    (Cursor.literal?_of_peek h (by decide) [])
  have hn : s.rest.length < s.rest.length + 1 := Nat.lt_succ_self _
  rw [hplain.statementFull hn]
  simp only [exprRule, result_reporting, result_bind, result_spanned, expression_of_noExpr hno hn,
    Option.bind_none, Option.map_none]

/-- No statement starts with `else`. -/
theorem statementFull_of_else (hw : Lexer.word s = some ("else", t)) :
    (statementFull s).result = none := by
  have hplain : PlainHead s := plainHead_of_word hw (by decide) (by decide)
  have hn : s.rest.length < s.rest.length + 1 := Nat.lt_succ_self _
  rw [hplain.statementFull hn]
  simp only [exprRule, result_reporting, result_bind, result_spanned,
    expression_of_noExpr (noExpr_of_word hw (by decide)) hn, Option.bind_none, Option.map_none]

/-- A statement that was read starts at a token. -/
theorem atToken_of_statement {cs : List Char} {p : Position} {x : Stmt × Cursor}
    (h : (statementFull ⟨cs, p⟩).result = some x) : AtToken cs := by
  cases hpeek : (⟨cs, p⟩ : Cursor).peek startsStmt with
  | false =>
    rw [statementFull_of_peek hpeek] at h
    cases h
  | true =>
    cases cs with
    | nil => simp at hpeek
    | cons c r =>
      rw [Cursor.peek_cons, startsStmt] at hpeek
      simp only [Bool.or_eq_true, decide_eq_true_eq] at hpeek
      rcases hpeek with (hc | rfl) | rfl
      · exact atToken_of_startsExpr hc r
      · exact atToken_cons (by decide) (by decide) r
      · exact atToken_cons (by decide) (by decide) r

end heads

/-! ## Tests and clauses -/

section clauses

variable {n : Nat} {e : Expr} {mark : Char} {r : List Char}

/-- An expression in front of a closing mark. -/
theorem expression_reads (he : e.Forall Expr.Formed) (hmark : mark ∈ [')', ';'])
    (hn : (e.chars ++ mark :: r).length < n) :
    AtToken (e.chars ++ mark :: r) ∧ ∀ p, ∃ e' c, (expression n ⟨e.chars ++ mark :: r, p⟩).result =
      some (e', c) ∧
      e'.eraseSpans = e.asRead ∧ c.skipBlanks = ⟨mark :: r, p.advance e.chars⟩ := by
  have hend : mark ∈ endMarks ∧ mark ≠ ',' := by
    simp only [List.mem_cons, List.not_mem_nil, or_false] at hmark
    rcases hmark with rfl | rfl
    all_goals decide
  have hread := e.readsAs_charsAt he (Nat.zero_le 11) (by decide) n (mark :: r)
  rw [Expr.charsAt_of_le (Nat.zero_le _)] at hread
  have hreads := hread hn (stops_mark_cons r hend.1 fun h => absurd h hend.2)
  refine ⟨hreads.atToken, fun p => ?_⟩
  obtain ⟨e', c, hresult, he', hc⟩ := hreads p
  refine ⟨e', c, by rw [expression_eq hn, hresult], he', ?_⟩
  rw [hc]
  exact Cursor.skipBlanks_of_atToken (atToken_mark hend.1 r) _

/-- A test in parentheses is read back. -/
theorem test_reads (he : e.Forall Expr.Formed) (hn : (e.chars ++ ')' :: r).length < n)
    (p : Position) :
    ∃ e', (test n ⟨' ' :: '(' :: (e.chars ++ ')' :: r), p⟩).result =
        some (e', (⟨r, p.advance (' ' :: '(' :: (e.chars ++ [')']))⟩ : Cursor).skipBlanks) ∧
      e'.eraseSpans = e.asRead := by
  obtain ⟨htoken, hread⟩ := expression_reads he (by decide) hn
  obtain ⟨e', c, hresult, he', hc⟩ := hread ((p.next ' ').next '(')
  refine ⟨e', ?_, he'⟩
  have hopen : AtToken ('(' :: (e.chars ++ ')' :: r)) := atToken_cons (by decide) (by decide) _
  simp only [test, result_bind, result_blanks,
    Cursor.skipBlanks_cons_blank (by decide : isBlankChar ' '), Cursor.skipBlanks_of_atToken hopen,
    Option.bind_some, result_literal, show "(".toList = ['('] from rfl,
    show ")".toList = [')'] from rfl, Cursor.literal?_cons_self, Cursor.literal?_nil,
    Option.map_some, Cursor.skipBlanks_of_atToken htoken, hresult, hc, result_pure]
  simp [Position.advance_append]

/-- The characters of an optional clause. -/
def clauseChars (o : Option Expr) : List Char := (clauseText o).toList

/-- A clause that is missing has no text. -/
@[simp] theorem clauseChars_none : clauseChars none = [] := rfl

/-- A clause stands behind a blank. -/
@[simp] theorem clauseChars_some (e : Expr) : clauseChars (some e) = ' ' :: e.chars := by
  simp [clauseChars, clauseText, Expr.chars]

/-- A clause is read back, if there is one. -/
theorem clause_reads {o : Option Expr} (ho : ∀ e ∈ o, e.Forall Expr.Formed)
    (hmark : mark ∈ [')', ';']) (hn : (clauseChars o ++ mark :: r).length < n) (p : Position) :
    ∃ o' c, (optional (expression n) (⟨clauseChars o ++ mark :: r, p⟩ : Cursor).skipBlanks).result =
      some (o', c) ∧
      o'.map Expr.eraseSpans = o.map Expr.asRead ∧
        c.skipBlanks = ⟨mark :: r, p.advance (clauseChars o)⟩ := by
  have hend : mark ∈ endMarks := by
    simp only [List.mem_cons, List.not_mem_nil, or_false] at hmark
    rcases hmark with rfl | rfl
    all_goals decide
  cases o with
  | none =>
    have hskip := Cursor.skipBlanks_of_atToken (atToken_mark hend r) p
    refine ⟨none, ⟨mark :: r, p⟩, ?_, rfl, hskip⟩
    rw [clauseChars_none, List.nil_append, hskip]
    exact result_optional_of_none (expression_of_noExpr (noExpr_mark hend r p) hn)
  | some e =>
    rw [clauseChars_some, List.cons_append] at hn ⊢
    obtain ⟨htoken, hread⟩ := expression_reads (ho e rfl) hmark (Nat.lt_of_succ_lt hn)
    obtain ⟨e', c, hresult, he', hc⟩ := hread (p.next ' ')
    refine ⟨some e', c, ?_, by rw [Option.map_some, Option.map_some, he'], hc⟩
    rw [Cursor.skipBlanks_cons_blank (by decide), Cursor.skipBlanks_of_atToken htoken]
    exact result_optional_of_some hresult

/-- Reporting does not change what is read. -/
theorem result_optional_reporting {α : Type} (p : Rule α) (s : Cursor) :
    (optional (reporting p) s).result = (optional p s).result := by
  rw [result_optional, result_optional, result_reporting]

/-- A semicolon is read. -/
theorem semicolon_reads {c : Cursor} {q : Position} (hc : c.skipBlanks = ⟨';' :: r, q⟩) :
    (semicolon c).result = some ((), ⟨r, q.next ';'⟩) := by
  have hread : (literal ";" ⟨';' :: r, q⟩).result = some ((), ⟨r, q.next ';'⟩) := by
    simp [Cursor.literal?]
  simp only [semicolon, result_bind, result_blanks, Option.bind_some, hc,
    result_optional_of_some hread, result_pure]

end clauses

/-! ## Declared names and parameters -/

section names

variable {n : Nat} {r : List Char}

/-- A comma, or the given mark. -/
def ListMark (mark : Char) (rest : List Char) : Prop := ∃ c r, rest = c :: r ∧ (c = ',' ∨ c = mark)

/-- In front of a mark of lists an expression stops. -/
theorem ListMark.stops {mark : Char} (hmark : mark ∈ [')', ';']) {rest : List Char}
    (h : ListMark mark rest) :
    Stops 1 rest ∧ EndsWord rest ∧ AtToken rest ∧ rest.head? ≠ some '=' := by
  obtain ⟨c, r, rfl, hc⟩ := h
  have hend : c ∈ endMarks ∧ c ≠ '=' := by
    simp only [List.mem_cons, List.not_mem_nil, or_false] at hmark
    rcases hmark with rfl | rfl
    all_goals
      rcases hc with rfl | rfl
      all_goals decide
  refine ⟨stops_mark_cons r hend.1 fun _ => Nat.le_refl 1,
    endsWord_cons (endMarks_class hend.1).2.2.1 r, atToken_mark hend.1 r, ?_⟩
  simpa using hend.2

/-- An identifier starts a token. -/
theorem atToken_identifier {name : String} (h : IsIdentifier name) (rest : List Char) :
    AtToken (name.toList ++ rest) := by
  obtain ⟨c, cs, hc, hstart, -⟩ := h.1
  rw [hc]
  exact atToken_of_startsExpr (startsOperand_startsExpr c (isWordStart_startsOperand c hstart)) _

/-- A parameter is read back. -/
theorem readsItem_param {name : String} (h : IsIdentifier name) (n : Nat) :
    ReadsItem (token Lexer.identifier) String.toList id id (ListMark ')') n name := by
  intro rest hrest hn
  refine ⟨atToken_identifier h rest, fun q => ⟨name, ⟨rest, q.advance name.toList⟩, ?_,
      rfl, .refl _⟩⟩
  rw [result_token, Lexer.identifier_append h (hrest.stops (by decide)).2.1]

/-- A declarator is read back. -/
theorem readsItem_declarator {d : Declarator} (hname : IsIdentifier d.name)
    (hinit : ∀ e ∈ d.init, e.Forall Expr.Formed) (n : Nat) :
    ReadsItem (declarator n) Declarator.chars Declarator.eraseSpans Declarator.asRead
      (ListMark ';') n d := by
  intro rest hrest hn
  obtain ⟨hstop, hword, htoken, hequals⟩ := hrest.stops (by decide)
  obtain ⟨name, init, span⟩ := d
  cases init with
  | none =>
    have hchars : Declarator.chars ⟨name, none, span⟩ = name.toList := rfl
    rw [hchars] at hn ⊢
    refine ⟨atToken_identifier hname rest, fun q => ?_⟩
    have hnone : ((do literal "="; blanks; assignment n : Rule Expr) ⟨rest,
          q.advance name.toList⟩).result = none := by
      cases rest with
      | nil => simp
      | cons c r =>
        have hc : c ≠ '=' := by simpa using hequals
        simp [Cursor.literal?_cons_of_ne hc]
    refine ⟨⟨name, none, .between q (q.advance name.toList)⟩, ⟨rest, q.advance name.toList⟩,
      ?_, rfl, .refl _⟩
    simp only [declarator, result_reporting, result_bind, result_spanned, result_token,
      Lexer.identifier_append hname hword, Option.bind_some, result_blanks,
      Cursor.skipBlanks_of_atToken htoken, result_optional_of_none hnone, result_pure,
      Option.map_some]
  | some e =>
    have hchars : Declarator.chars ⟨name, some e, span⟩ = name.toList ++ ' ' :: '=' :: ' ' ::
        e.charsAt 1 := by
      simp [Declarator.chars, Declarator.text, Expr.charsAt, Precedence.assignment]
    have htext : Declarator.chars ⟨name, some e, span⟩ ++ rest =
        name.toList ++ ' ' :: '=' :: ' ' :: (e.charsAt 1 ++ rest) := by
      rw [hchars]
      simp
    rw [htext] at hn ⊢
    refine ⟨atToken_identifier hname _, fun q => ?_⟩
    have hlen : (e.charsAt 1 ++ rest).length < n := by
      simp only [List.length_append, List.length_cons] at hn ⊢
      omega
    have hread :=
      e.readsAs_charsAt (hinit e rfl) (show 1 ≤ 11 by decide) (by decide) n rest hlen hstop
    obtain ⟨e', c, hresult, he', hc⟩ :=
      hread ((((q.advance name.toList).next ' ').next '=').next ' ')
    have hequal : AtToken ('=' :: ' ' :: (e.charsAt 1 ++ rest)) :=
      atToken_cons (by decide) (by decide) _
    have hsome : ((do literal "="; blanks; assignment n : Rule Expr) ⟨'=' :: ' ' :: (e.charsAt 1 ++
          rest), (q.advance name.toList).next ' '⟩).result = some (e', c) := by
      simp only [levelRule] at hresult
      simp only [result_bind, result_literal, show "=".toList = ['='] from rfl,
        Cursor.literal?_cons_self, Cursor.literal?_nil, Option.map_some, Option.bind_some,
        result_blanks, Cursor.skipBlanks_cons_blank (by decide : isBlankChar ' '),
        Cursor.skipBlanks_of_atToken hread.atToken]
      rw [assignment_eq hlen, hresult]
    refine ⟨⟨name, some e', .between q c.pos⟩, c, ?_, ?_, ?_⟩
    · simp only [declarator, result_reporting, result_bind, result_spanned, result_token,
        Lexer.identifier_append hname (endsWord_cons (by decide : isWordChar ' ' = false) _),
        Option.bind_some, result_blanks, Cursor.skipBlanks_cons_blank (by decide : isBlankChar ' '),
        Cursor.skipBlanks_of_atToken hequal, result_optional_of_some hsome, result_pure,
        Option.map_some]
    · simp [Declarator.eraseSpans, Declarator.asRead, he']
    · simpa [hchars, Position.advance_append] using hc

/-- A word of declarations is found again from its text. -/
theorem isWord_declareWord (w : DeclareWord) :
    IsWord w.text ∧ DeclareWord.ofText? w.text = some w := by
  cases w
  · exact ⟨by decide, rfl⟩
  · exact ⟨by decide, rfl⟩
  · exact ⟨by decide, rfl⟩

/-- The characters of a declaration. -/
def declarationChars (word : DeclareWord) (ds : List Declarator) : List Char :=
  (declarationText word ds).toList

/-- A declaration is its word and the declarators with commas between them. -/
theorem declarationChars_eq (word : DeclareWord) (ds : List Declarator) : declarationChars word ds =
    word.text.toList ++ ' ' :: (", ".intercalate (ds.map Declarator.text)).toList := by
  simp [declarationChars, declarationText]

/-- A declaration is read back. -/
theorem declaration_reads {word : DeclareWord} {ds : List Declarator} (hds : FormedNames ds)
    (hinit : ∀ e ∈ ds.flatMap Declarator.exprs, e.Forall Expr.Formed)
    (hn : (declarationChars word ds ++ ';' :: r).length < n) (p : Position) :
    ∃ ds' c, (declaration n ⟨declarationChars word ds ++ ';' :: r, p⟩).result =
      some ((word, ds'), c) ∧
      ds'.map Declarator.eraseSpans = ds.map Declarator.asRead ∧
      c.skipBlanks = ⟨';' :: r, p.advance (declarationChars word ds)⟩ := by
  obtain ⟨d, ds, rfl⟩ := List.exists_cons_of_ne_nil hds.1
  have hchars : declarationChars word (d :: ds) =
      word.text.toList ++ ' ' :: (d.chars ++ tailText Declarator.chars ds) := by
    rw [declarationChars_eq, List.map_cons, toList_intercalate]
    simp [tailText, List.flatMap_map, Declarator.chars]
  have htext : declarationChars word (d :: ds) ++ ';' :: r =
      word.text.toList ++ ' ' :: (d.chars ++ tailText Declarator.chars ds ++ ';' :: r) := by
    rw [hchars]
    simp
  have hlen : (d.chars ++ tailText Declarator.chars ds ++ ';' :: r).length < n := by
    rw [htext] at hn
    simp only [List.length_append, List.length_cons] at hn ⊢
    omega
  have hread : ∀ x ∈ d :: ds,
      ReadsItem (declarator n) Declarator.chars Declarator.eraseSpans Declarator.asRead
        (ListMark ';') n x := by
    refine fun x hx => readsItem_declarator (hds.2 x hx) (fun e he => hinit e ?_) n
    exact List.mem_flatMap.2 ⟨x, hx, Option.mem_toList.2 he⟩
  have hmark : ListMark ';' (';' :: r) := ⟨';', r, rfl, .inr rfl⟩
  have hsemi : AtToken (';' :: r) := atToken_mark (by decide) r
  have hcomma : (nextToken (';' :: r)).head? ≠ some ',' := by
    rw [nextToken_of_atToken hsemi]
    simp
  obtain ⟨d', ds', c, hresult, hd, hds', hc⟩ := commaList_reads (fun r => ⟨',', r, rfl, .inl rfl⟩)
    hmark hcomma hread hlen ((p.advance word.text.toList).next ' ')
  have htoken := (hread d List.mem_cons_self (tailText Declarator.chars ds ++ ';' :: r) (ok_tailText
      (fun r => ⟨',', r, rfl, .inl rfl⟩) hmark ds) (by rw [← List.append_assoc]; exact hlen)).1
  rw [← List.append_assoc] at htoken
  obtain ⟨hword, hof⟩ := isWord_declareWord word
  refine ⟨d' :: ds', c, ?_, by rw [List.map_cons, List.map_cons, hd, hds'], ?_⟩
  · rw [htext]
    simp only [declaration, result_reporting, result_bind, result_token,
      Lexer.declareWord_append hword (endsWord_cons (by decide : isWordChar ' ' = false) _),
      hof, Option.map_some, Option.bind_some, result_blanks,
      Cursor.skipBlanks_cons_blank (by decide : isBlankChar ' '),
      Cursor.skipBlanks_of_atToken htoken, hresult, result_pure]
  · rw [hc, Cursor.skipBlanks_of_atToken hsemi, hchars]
    simp [Position.advance_append]

/-- The characters of parameters. -/
def paramsChars (ps : List String) : List Char := (", ".intercalate ps).toList

/-- Parameters are read back, if there are any. -/
theorem params_reads {ps : List String} (hps : ∀ p ∈ ps, IsIdentifier p)
    (hn : (paramsChars ps ++ ')' :: r).length < n) :
    AtToken (paramsChars ps ++ ')' :: r) ∧ ∀ p, ∃ ps' c,
      (optional (paramList n) ⟨paramsChars ps ++ ')' :: r, p⟩).result = some (ps', c) ∧
        ps'.getD [] = ps ∧
      c.skipBlanks = ⟨')' :: r, p.advance (paramsChars ps)⟩ := by
  have hclose : AtToken (')' :: r) := atToken_mark (by decide) r
  cases ps with
  | nil =>
    refine ⟨hclose, fun p => ⟨none, ⟨')' :: r, p⟩, ?_, rfl, Cursor.skipBlanks_of_atToken hclose p⟩⟩
    have hword : Lexer.word ⟨')' :: r, p⟩ = none := Lexer.word_of_head (by decide) _ _
    refine result_optional_of_none ?_
    change (paramList n ⟨')' :: r, p⟩).result = none
    simp [paramList, commaList, Lexer.identifier_of_word hword]
  | cons a as =>
    have hchars : paramsChars (a :: as) = a.toList ++ tailText String.toList as :=
      toList_intercalate a as
    rw [hchars] at hn ⊢
    have hread : ∀ x ∈ a :: as, ReadsItem (token Lexer.identifier) String.toList id id
        (ListMark ')') n x :=
      fun x hx => readsItem_param (hps x hx) n
    have hcomma : (nextToken (')' :: r)).head? ≠ some ',' := by
      rw [nextToken_of_atToken hclose]
      simp
    refine ⟨by rw [List.append_assoc]; exact atToken_identifier (hps a List.mem_cons_self) _,
      fun p => ?_⟩
    obtain ⟨a', as', c, hresult, ha, has, hc⟩ := commaList_reads (fun r => ⟨',', r, rfl, .inl rfl⟩)
      ⟨')', r, rfl, .inr rfl⟩ hcomma hread hn p
    refine ⟨some (a' :: as'), c, ?_, ?_, ?_⟩
    · refine result_optional_of_some ?_
      simp only [paramList, result_reporting, result_bind, hresult, Option.bind_some, result_pure]
    · rw [List.map_id, List.map_id] at has
      rw [Option.getD_some, has]
      exact congrArg (· :: as) ha
    · rw [hc, Cursor.skipBlanks_of_atToken hclose]

end names

end Grammar

end BranchPaint
