import BranchPaint.Proofs.Grammar.Formed
import BranchPaint.Proofs.RoundTrip.Layout

/-!
# Statements and programs read back from their canonical text

The text of a formed program, at any width of indentation, is read as the program that it stands
for, with the branches on the lines that the layout gives them (`Program.parse_text_asRead`). Where
all numbers are finite this is the program itself (`Program.parse_text`).

A body stands behind its header after a gap: nothing, a blank, or a line feed and the indentation.
The gap is skipped before the body is read, so one lemma (`Stmt.ReadsBack.behind`) serves the bodies
of branches and loops and the alternatives of branches. The one condition on what follows a
statement is about `else`: a statement whose last branch has no alternative must not be followed by
one (`Stmt.Follows`).
-/

namespace BranchPaint

open Rule Grammar

/-- A blank is no part of a word. -/
theorem isWordChar_of_blank {c : Char} (h : isBlankChar c) : isWordChar c = false := by
  simp only [isBlankChar, Bool.or_eq_true, decide_eq_true_eq] at h
  rcases h with ((rfl | rfl) | rfl) | rfl
  all_goals decide

/-- Behind a gap, skipping blanks comes to the token. -/
theorem skipBlanks_gap_append {gap r : List Char} (hgap : ∀ c ∈ gap, isBlankChar c) (hr : AtToken r)
    (p : Position) : (⟨gap ++ r, p⟩ : Cursor).skipBlanks = ⟨r, p.advance gap⟩ := by
  rw [Cursor.skipBlanks_append hgap, Cursor.skipBlanks_of_atToken hr]

/-! ## Reading back -/

/-- The next token is not `else`. -/
def NoElse (rest : List Char) : Prop := ∀ q, Lexer.keyword "else" ⟨nextToken rest, q⟩ = none

/-- What may follow the statement. -/
def Stmt.Follows (s : Stmt) (rest : List Char) : Prop := s.endsOpen = true → NoElse rest

/-- From `start`, the statement is read up to `stop`, with its branches where they are when it
starts on `line`. -/
def Stmt.ReadAt (s : Stmt) (start stop : Cursor) (line : Nat) : Prop :=
  ∃ s' c, (statementFull start).result = some (s', c) ∧ s'.eraseSpans = s.asRead ∧
    c.SameToken stop ∧ s'.branchLines = s.linesFrom line

/-- The text of the statement, in front of what may follow it, is read as the statement. -/
def Stmt.ReadsText (s : Stmt) : Prop :=
  ∀ width level rest, s.Follows rest → ∀ p,
    s.ReadAt ⟨s.chars width level ++ rest, p⟩ ⟨rest, p.advance (s.chars width level)⟩ p.line

/-- The text of the statement is read as the statement and takes the lines that its shape asks
for. -/
structure Stmt.ReadsBack (s : Stmt) : Prop where
  reads : s.ReadsText
  height : ∀ width level, (s.chars width level).count '\n' = s.height

namespace Stmt.ReadsBack

variable {s : Stmt} {width level : Nat} {rest gap : List Char}

/-- A statement that is read back starts with a token. -/
theorem atToken (h : s.ReadsBack) (width level : Nat) (hrest : s.Follows rest) :
    AtToken (s.chars width level ++ rest) := by
  obtain ⟨s', c, hread, -, -, -⟩ := h.reads width level rest hrest .start
  exact atToken_of_statement hread

/-- Its text is not empty. -/
theorem chars_ne_nil (h : s.ReadsBack) (width level : Nat) : s.chars width level ≠ [] := by
  intro hnil
  have hrest : s.Follows [] := fun _ q => by
    rw [nextToken_of_atToken atToken_nil]
    exact Lexer.keyword_of_word (Lexer.word_nil q) _
  obtain ⟨s', c, hread, -, -, -⟩ := h.reads width level [] hrest .start
  rw [hnil, List.append_nil, statementFull_of_peek (Cursor.peek_nil _ _)] at hread
  cases hread

/-- No statement can be taken for an alternative. -/
theorem noElse (h : s.ReadsBack) (hrest : s.Follows rest) (hgap : ∀ c ∈ gap, isBlankChar c) :
    NoElse (gap ++ (s.chars width level ++ rest)) := by
  intro q
  have hnext : nextToken (gap ++ (s.chars width level ++ rest)) = s.chars width level ++ rest := by
    rw [nextToken, skipBlanks_gap_append hgap (h.atToken width level hrest)]
  rw [hnext]
  obtain ⟨s', c, hread, -, -, -⟩ := h.reads width level rest hrest q
  cases hk : Lexer.word ⟨s.chars width level ++ rest, q⟩ with
  | none => exact Lexer.keyword_of_word hk _
  | some wt =>
    obtain ⟨w, t⟩ := wt
    refine keyword_of_ne hk fun hw => ?_
    rw [hw] at hk
    rw [statementFull_of_else hk] at hread
    cases hread

/-- A gap in front of the statement is skipped. -/
theorem behind (h : s.ReadsBack) (hgap : ∀ c ∈ gap, isBlankChar c) (hrest : s.Follows rest)
    (p : Position) :
    s.ReadAt (⟨gap ++ (s.chars width level ++ rest), p⟩ : Cursor).skipBlanks
      ⟨rest, p.advance (gap ++ s.chars width level)⟩ (p.line + gap.count '\n') := by
  rw [skipBlanks_gap_append hgap (h.atToken width level hrest), Position.advance_append,
    ← Position.advance_line]
  exact h.reads width level rest hrest (p.advance gap)

/-- A body is read behind its header. -/
theorem body (h : s.ReadsBack) (width level : Nat) (hrest : s.Follows rest) (p : Position) :
    s.ReadAt (⟨s.bodyChars width level ++ rest, p⟩ : Cursor).skipBlanks
      ⟨rest, p.advance (s.bodyChars width level)⟩ (p.line + s.drop) := by
  rw [bodyChars, List.append_assoc, ← s.count_gap width level]
  exact h.behind (blank_gap width level s) hrest p

/-- An alternative is read behind `else`. -/
theorem alternative (h : s.ReadsBack) (width level : Nat) (hrest : s.Follows rest) (p : Position) :
    s.ReadAt (⟨s.elseChars width level ++ rest, p⟩ : Cursor).skipBlanks
      ⟨rest, p.advance (s.elseChars width level)⟩ (p.line + s.elseDrop) := by
  rw [elseChars, List.append_assoc, ← s.count_elseGap width level]
  exact h.behind (blank_elseGap width level s) hrest p

end Stmt.ReadsBack

/-! ## Lists of statements -/

section lists

variable {ss : List Stmt} {rest : List Char}

/-- Nothing that follows can be taken for a statement or an alternative. -/
def EndsStatements (rest : List Char) : Prop :=
  NoElse rest ∧ ∀ q, (statementFull ⟨nextToken rest, q⟩).result = none

/-- Statements end where none can start. -/
theorem endsStatements_of_peek (h : ∀ q, (⟨nextToken rest, q⟩ : Cursor).peek startsStmt = false) :
    EndsStatements rest := by
  refine ⟨fun q => ?_, fun q => statementFull_of_peek (h q)⟩
  refine Lexer.keyword_of_word (Lexer.word_of_peek (Cursor.peek_mono (h q) fun c hc => ?_)) _
  simp [startsStmt, startsOperand_startsExpr c (isWordStart_startsOperand c hc)]

/-- They end with the text. -/
theorem endsStatements_nil : EndsStatements [] :=
  endsStatements_of_peek fun q => by
    rw [nextToken_of_atToken atToken_nil, Cursor.peek_nil]

/-- They end at a closing brace. -/
theorem endsStatements_brace {gap : List Char} (hgap : ∀ c ∈ gap, isBlankChar c) (r : List Char) :
    EndsStatements (gap ++ '}' :: r) :=
  endsStatements_of_peek fun q => by
    rw [nextToken, skipBlanks_gap_append hgap (atToken_cons (by decide) (by decide) r),
      Cursor.peek_cons]
    decide

/-- No statement in a row starts with `else`. -/
theorem noElse_lines (hss : ∀ s ∈ ss, s.ReadsBack) (width level : Nat)
    (hrest : EndsStatements rest) : NoElse (linesChars width level ss ++ rest) := by
  induction ss with
  | nil => exact hrest.1
  | cons s ss ih =>
    have hfurther := ih fun t ht => hss t (List.mem_cons_of_mem _ ht)
    rw [linesChars_cons, List.append_assoc, List.append_assoc]
    exact (hss s List.mem_cons_self).noElse (fun _ => hfurther) (blank_newLine width level)

/-- Statements on lines of their own are read one by one. -/
theorem lines_read (hss : ∀ s ∈ ss, s.ReadsBack) (width level : Nat) (hrest : EndsStatements rest)
    {m : Nat} (hm : (linesChars width level ss ++ rest).length < m) {c : Cursor} {q : Position}
    (hc : c.SameToken ⟨linesChars width level ss ++ rest, q⟩) :
    ∃ ss' d, (many statementFull m c).result = some (ss', d) ∧
      ss'.map Stmt.eraseSpans = ss.map Stmt.asRead ∧
      d.SameToken ⟨rest, q.advance (linesChars width level ss)⟩ ∧
      Stmt.branchLinesAll ss' = Stmt.linesFromAll (q.line + 1) ss := by
  induction ss generalizing m c q with
  | nil =>
    refine ⟨[], c, result_many_of_none m ?_, rfl, hc, rfl⟩
    obtain ⟨q', hq'⟩ := hc.eq_next
    rw [hq']
    exact hrest.2 q'
  | cons s ss ih =>
    have hin : ∀ t ∈ ss, t.ReadsBack := fun t ht => hss t (List.mem_cons_of_mem _ ht)
    have hfollows : s.Follows (linesChars width level ss ++ rest) :=
      fun _ => noElse_lines hin width level hrest
    have htext : linesChars width level (s :: ss) ++ rest =
        newLine width level ++ (s.chars width level ++ (linesChars width level ss ++ rest)) := by
      rw [linesChars_cons]
      simp
    rw [htext] at hm hc
    obtain ⟨s', d, hread, herase, hd, hlines⟩ :=
      (hss s List.mem_cons_self).behind (blank_newLine width level) hfollows q
    obtain ⟨m, rfl⟩ : ∃ k, m = k + 1 := ⟨m - 1, by omega⟩
    have hlen : (linesChars width level ss ++ rest).length < m := by
      simp only [newLine, List.length_append, List.length_cons] at hm ⊢
      omega
    obtain ⟨ss', e, hmany, hsame, he, hmore⟩ := ih hin hlen hd
    refine ⟨s' :: ss', e, ?_, by rw [List.map_cons, List.map_cons, herase, hsame], ?_, ?_⟩
    · rw [← hc] at hread
      rw [result_many_of_some m hread, hmany]
      rfl
    · rw [linesChars_cons, ← List.append_assoc, Position.advance_append]
      exact he
    · have hnext : (q.advance (newLine width level ++ s.chars width level)).line + 1 =
          q.line + 1 + (s.height + 1) := by
        rw [Position.advance_line, List.count_append, count_newLine,
          (hss s List.mem_cons_self).height]
        omega
      rw [Stmt.branchLinesAll, hlines, hmore, hnext, count_newLine]
      rfl

/-- Statements in braces are read back if each of them is. -/
theorem braces_read (hss : ∀ s ∈ ss, s.ReadsBack) (width level : Nat) {n : Nat}
    (hn : (bracesChars width level ss ++ rest).length < n) (p : Position) :
    ∃ ss', (braces n statementFull ⟨bracesChars width level ss ++ rest, p⟩).result =
        some (ss', ⟨rest, p.advance (bracesChars width level ss)⟩) ∧
      ss'.map Stmt.eraseSpans = ss.map Stmt.asRead ∧
      Stmt.branchLinesAll ss' = Stmt.linesFromAll (p.line + 1) ss := by
  have htext : bracesChars width level ss ++ rest =
      '{' :: (linesChars width (level + 1) ss ++ (newLine width level ++ '}' :: rest)) := by
    simp [bracesChars]
  have hend := endsStatements_brace (blank_newLine width level) rest
  have hlen : (linesChars width (level + 1) ss ++ (newLine width level ++ '}' :: rest)).length <
      n := by
    rw [htext, List.length_cons] at hn
    omega
  obtain ⟨ss', d, hmany, herase, hd, hlines⟩ := lines_read hss width (level + 1) hend hlen
    (Cursor.SameToken.refl ⟨_, p.next '{'⟩).skipBlanks_left
  have hd' : d.skipBlanks = ⟨'}' :: rest,
      ((p.next '{').advance (linesChars width (level + 1) ss)).advance (newLine width level)⟩ := by
    rw [hd]
    exact skipBlanks_gap_append (blank_newLine width level) (atToken_cons (by decide) (by decide) _)
      _
  refine ⟨ss', ?_, herase, ?_⟩
  · rw [htext]
    simp only [braces, result_reporting, result_bind, result_literal,
      show "\x7b".toList = ['{'] from rfl, show "\x7d".toList = ['}'] from rfl,
      Cursor.literal?_cons_self, Cursor.literal?_nil,
      Option.map_some, Option.bind_some, result_blanks, hmany, hd', result_pure]
    simp [bracesChars, Position.advance_append]
  · rw [hlines, Position.next_line (by decide)]

end lists

/-! ## Words at the head of a statement -/

section words

variable {n : Nat} {s t : Cursor} {w : String} {r : List Char}

/-- The words at the head of statements are words. -/
theorem isWord_headWord (hw : w ∈ headWords) : IsWord w := by
  simp only [headWords, List.mem_cons, List.not_mem_nil, or_false] at hw
  rcases hw with rfl | rfl | rfl | rfl | rfl | rfl | rfl
  all_goals decide

/-- Such a word is read back. -/
theorem headWord_append (hw : w ∈ headWords) (hr : EndsWord r) (p : Position) :
    Lexer.word ⟨w.toList ++ r, p⟩ = some (w, ⟨r, p.advance w.toList⟩) :=
  Lexer.word_append (isWord_headWord hw) hr p

/-- It is read as the keyword that it is. -/
theorem keyword_self (hw : Lexer.word s = some (w, t)) : Lexer.keyword w s = some ((), t) := by
  simp [Lexer.keyword, hw]

/-- The rule for the statements that start with a word. -/
def wordRules (n : Nat) : String → Rule Stmt
  | "function" => functionRule n statementFull
  | "let" | "const" | "var" => declareRule n
  | "if" => branchRule n statementFull
  | "while" => whileRule n statementFull
  | "for" => forRule n statementFull
  | "return" => returnRule n
  | "break" => wordRule "break" .breakLoop
  | "continue" => wordRule "continue" .continueLoop
  | _ => fail

/-- The alternatives are tried in order, but only one of them starts with the word. -/
theorem statementFull_of_word (hw : Lexer.word s = some (w, t))
    (hmem : w ∈ headWords ++ ["let", "const", "var"]) (hn : s.rest.length < n) :
    (statementFull s).result = (wordRules n w s).result := by
  have hstatement : w ∈ statementWords :=
    (by decide : ∀ w ∈ headWords ++ ["let", "const", "var"], w ∈ statementWords) w hmem
  have hexpr : (exprRule n s).result = none := by
    simp only [exprRule, result_reporting, result_bind, result_spanned,
      expression_of_noExpr (noExpr_of_word hw hstatement) hn, Option.bind_none, Option.map_none]
  have hfunction : w ≠ "function" → (functionRule n statementFull s).result = none := fun h =>
    functionRule_of_keyword (keyword_of_ne hw h)
  have hdeclare : w ∉ ["let", "const", "var"] → (declareRule n s).result = none := fun h =>
    declareRule_of_declareWord (declareWord_of_ne hw h)
  have hif : w ≠ "if" → (branchRule n statementFull s).result = none := fun h =>
    branchRule_of_keyword (keyword_of_ne hw h)
  have hwhile : w ≠ "while" → (whileRule n statementFull s).result = none := fun h =>
    whileRule_of_keyword (keyword_of_ne hw h)
  have hfor : w ≠ "for" → (forRule n statementFull s).result = none :=
    fun h => forRule_of_keyword (keyword_of_ne hw h)
  have hreturn : w ≠ "return" → (returnRule n s).result = none :=
    fun h => returnRule_of_keyword (keyword_of_ne hw h)
  have hsingle : ∀ k make, w ≠ k → (wordRule k make s).result = none := fun k make h =>
    wordRule_of_keyword (keyword_of_ne hw h)
  rw [statementFull_eq hn]
  simp only [statementRule, result_reporting, result_firstOf_cons, result_firstOf_nil,
    blockRule_of_literal? (literal?_of_word hw (by decide)),
    emptyRule_of_literal? (literal?_of_word hw (by decide)), hexpr, Option.or_none]
  simp only [headWords, List.cons_append, List.nil_append, List.mem_cons, List.not_mem_nil,
    or_false] at hmem
  rcases hmem with rfl | rfl | rfl | rfl | rfl | rfl | rfl | rfl | rfl | rfl
  all_goals simp (disch := decide) only [wordRules, hfunction, hdeclare, hif, hwhile, hfor, hreturn,
    hsingle, Option.none_or, Option.or_none]

end words

/-- A word ends in front of a blank. -/
theorem endsWord_of_blank {gap : List Char} (hgap : ∀ c ∈ gap, isBlankChar c) (hne : gap ≠ [])
    (r : List Char) : EndsWord (gap ++ r) := by
  obtain ⟨c, cs, rfl⟩ := List.exists_cons_of_ne_nil hne
  exact endsWord_cons (isWordChar_of_blank (hgap c List.mem_cons_self)) _

/-- A word ends in front of `else`. -/
theorem endsWord_elseChars (width level : Nat) (a : Stmt) (rest : List Char) :
    EndsWord (a.elseChars width level ++ rest) := by
  cases a with
  | empty s =>
    have hchars : (Stmt.empty s).elseChars width level = [';'] := by
      simp [Stmt.elseChars, Stmt.elseGap, Stmt.isBranch, Stmt.gap, Stmt.chars, Stmt.text_empty]
    rw [hchars]
    exact endsWord_cons (by decide) _
  | _ =>
    rw [Stmt.elseChars, List.append_assoc]
    refine endsWord_of_blank (blank_elseGap width level _) ?_ _
    simp [Stmt.elseGap, Stmt.isBranch, Stmt.gap, newLine]

/-! ## One kind of statement after the other -/

namespace Stmt

section simple

/-- A declaration is read back. -/
theorem readsText_declare {word : DeclareWord} {ds : List Declarator} (hds : FormedNames ds)
    (hinit : ∀ e ∈ ds.flatMap Declarator.exprs, e.Forall Expr.Formed) (span : Span) :
    (declare word ds span).ReadsText := by
  intro width level rest _ p
  have htext : (declare word ds span).chars width level ++ rest = declarationChars word ds ++
      ';' :: rest := by
    simp [chars_declare]
  rw [htext, chars_declare]
  obtain ⟨n, hn⟩ : ∃ n, (declarationChars word ds ++ ';' :: rest).length < n :=
    ⟨_, Nat.lt_succ_self _⟩
  obtain ⟨ds', c, hread, hsame, hc⟩ := declaration_reads hds hinit hn p
  have hrule : (declareRule n ⟨declarationChars word ds ++ ';' :: rest, p⟩).result =
      some (declare word ds' (.between p ((p.advance (declarationChars word ds)).next ';')),
        ⟨rest, (p.advance (declarationChars word ds)).next ';'⟩) := by
    simp only [declareRule, result_reporting, result_bind, result_spanned, hread, Option.bind_some,
      semicolon_reads hc, result_pure, Option.map_some]
  obtain ⟨t, hword⟩ : ∃ t, Lexer.word ⟨declarationChars word ds ++ ';' :: rest, p⟩ =
      some (word.text, t) := by
    rw [declarationChars_eq, List.append_assoc]
    exact ⟨_, Lexer.word_append (isWord_declareWord word).1 (endsWord_cons (by decide) _) p⟩
  have hwords : word.text ∈ headWords ++ ["let", "const", "var"] ∧
      wordRules n word.text = declareRule n := by
    cases word
    all_goals exact ⟨by decide, rfl⟩
  rw [← hwords.2] at hrule
  refine ⟨_, _, (statementFull_of_word hword hwords.1 hn).trans hrule,
    by simp [eraseSpans, asRead, hsame], ?_, rfl⟩
  rw [Position.advance_append]
  exact .refl _

/-- An expression that stands alone is read back. -/
theorem readsText_expr {e : Expr} (he : e.Forall Expr.Formed) (span : Span) :
    (expr e span).ReadsText := by
  intro width level rest _ p
  have htext : (expr e span).chars width level ++ rest = e.chars ++ ';' :: rest := by
    simp [chars_expr]
  rw [htext, chars_expr]
  obtain ⟨n, hn⟩ : ∃ n, (e.chars ++ ';' :: rest).length < n := ⟨_, Nat.lt_succ_self _⟩
  obtain ⟨-, hread⟩ := expression_reads he (by decide) hn
  obtain ⟨e', c, hresult, he', hc⟩ := hread p
  refine ⟨.expr e' (.between p ((p.advance e.chars).next ';')),
    ⟨rest, (p.advance e.chars).next ';'⟩, ?_, by simp [eraseSpans, asRead, he'], ?_, rfl⟩
  · rw [(plainHead_of_expression hn hresult).statementFull hn]
    simp only [exprRule, result_reporting, result_bind, result_spanned, hresult, Option.bind_some,
      semicolon_reads hc, result_pure, Option.map_some]
  · rw [Position.advance_append]
    exact .refl _

/-- The empty statement is read back. -/
theorem readsText_empty (span : Span) : (empty span).ReadsText := by
  intro width level rest _ p
  have hword : Lexer.word ⟨';' :: rest, p⟩ = none := Lexer.word_of_head (by decide) _ _
  have hbrace : (⟨';' :: rest, p⟩ : Cursor).literal? ['{'] = none :=
    Cursor.literal?_cons_of_ne (by decide) _ _ _
  have hrule : (emptyRule ⟨';' :: rest, p⟩).result = some (.empty (.between p (p.next ';')),
      ⟨rest, p.next ';'⟩) := by
    simp [emptyRule, Cursor.literal?]
  rw [chars_empty, List.singleton_append]
  refine ⟨.empty (.between p (p.next ';')), ⟨rest, p.next ';'⟩, ?_, rfl, .refl _, rfl⟩
  rw [statementFull_eq (Nat.lt_succ_self _)]
  simp only [statementRule, result_reporting, result_firstOf_cons,
    functionRule_of_keyword (Lexer.keyword_of_word hword _),
    declareRule_of_declareWord (Lexer.declareWord_of_word hword),
    branchRule_of_keyword (Lexer.keyword_of_word hword _),
    whileRule_of_keyword (Lexer.keyword_of_word hword _),
    forRule_of_keyword (Lexer.keyword_of_word hword _),
    returnRule_of_keyword (Lexer.keyword_of_word hword _),
    wordRule_of_keyword (Lexer.keyword_of_word hword _), blockRule_of_literal? hbrace, hrule,
    Option.none_or, Option.some_or]

/-- A `return` is read back. -/
theorem readsText_ret {value : Option Expr} (hvalue : ∀ e ∈ value, e.Forall Expr.Formed)
    (span : Span) : (ret value span).ReadsText := by
  intro width level rest _ p
  have htext : (ret value span).chars width level ++ rest = "return".toList ++
      (clauseChars value ++ ';' :: rest) := by
    simp [chars_ret]
  rw [htext, chars_ret]
  have hends : EndsWord (clauseChars value ++ ';' :: rest) := by
    cases value with
    | none => exact endsWord_cons (by decide) _
    | some e =>
      rw [clauseChars_some]
      exact endsWord_cons (by decide) _
  have hword := headWord_append (by decide : "return" ∈ headWords) hends p
  obtain ⟨n, hn⟩ : ∃ n, ("return".toList ++ (clauseChars value ++ ';' :: rest)).length < n :=
    ⟨_, Nat.lt_succ_self _⟩
  have hlen : (clauseChars value ++ ';' :: rest).length < n := by
    rw [List.length_append] at hn
    omega
  obtain ⟨value', c, hread, hsame, hc⟩ :=
    clause_reads hvalue (by decide) hlen (p.advance "return".toList)
  have hrule : (returnRule n ⟨"return".toList ++ (clauseChars value ++ ';' :: rest), p⟩).result =
      some (ret value'
        (.between p (((p.advance "return".toList).advance (clauseChars value)).next ';')),
        ⟨rest, ((p.advance "return".toList).advance (clauseChars value)).next ';'⟩) := by
    simp only [returnRule, result_reporting, result_bind, result_spanned, result_token,
      keyword_self hword, Option.bind_some, result_blanks, hread, semicolon_reads hc, result_pure,
      Option.map_some]
  refine ⟨_, _, (statementFull_of_word hword (by decide) hn).trans hrule,
    by simp [eraseSpans, asRead, hsame], ?_, rfl⟩
  rw [Position.advance_append, Position.advance_append]
  exact .refl _

/-- A statement that is a single word. -/
theorem readsText_word {w : String} (hw : w ∈ ["break", "continue"]) {make : Span → Stmt}
    (hmake : ∀ width level span, (make span).text width level = w ++ ";")
    (herase : ∀ span span', (make span).eraseSpans = (make span').asRead)
    (hlines : ∀ line span span', (make span).branchLines = (make span').linesFrom line)
    (hrule : ∀ n, wordRules n w = wordRule w make) (span : Span) : (make span).ReadsText := by
  intro width level rest _ p
  have hhead : w ∈ headWords := (by decide : ∀ w ∈ ["break", "continue"], w ∈ headWords) w hw
  have hchars : (make span).chars width level = w.toList ++ [';'] := by simp [chars, hmake]
  have htext : (make span).chars width level ++ rest = w.toList ++ ';' :: rest := by
    rw [hchars]
    simp
  rw [htext, hchars]
  have hword := headWord_append hhead (endsWord_cons (by decide : isWordChar ';' = false) rest) p
  have hsemi : (⟨';' :: rest, p.advance w.toList⟩ : Cursor).skipBlanks =
      ⟨';' :: rest, p.advance w.toList⟩ :=
    Cursor.skipBlanks_of_atToken (atToken_mark (by decide) rest) _
  refine ⟨make (.between p ((p.advance w.toList).next ';')), ⟨rest, (p.advance w.toList).next ';'⟩,
    ?_, herase _ _, ?_, hlines _ _ _⟩
  · rw [statementFull_of_word hword (List.mem_append_left _ hhead) (Nat.lt_succ_self _), hrule]
    simp only [wordRule, result_reporting, result_bind, result_spanned, result_token,
      keyword_self hword, Option.bind_some, semicolon_reads hsemi, result_pure, Option.map_some]
  · rw [Position.advance_append]
    exact .refl _

/-- A `break` is read back. -/
theorem readsText_breakLoop (span : Span) : (breakLoop span).ReadsText :=
  readsText_word (by decide : "break" ∈ _) (fun _ _ _ => rfl) (fun _ _ => rfl) (fun _ _ _ => rfl)
    (fun _ => rfl) span

/-- A `continue` is read back. -/
theorem readsText_continueLoop (span : Span) : (continueLoop span).ReadsText :=
  readsText_word (by decide : "continue" ∈ _) (fun _ _ _ => rfl) (fun _ _ => rfl) (fun _ _ _ => rfl)
    (fun _ => rfl) span

end simple

section compound

variable {body : Stmt} {ss : List Stmt} {test : Expr}

/-- A block is read back if its statements are. -/
theorem readsText_block (hss : ∀ s ∈ ss, s.ReadsBack) (span : Span) :
    (block ss span).ReadsText := by
  intro width level rest _ p
  rw [chars_block]
  obtain ⟨n, hn⟩ : ∃ n, (bracesChars width level ss ++ rest).length < n := ⟨_, Nat.lt_succ_self _⟩
  obtain ⟨ss', hread, hsame, hlines⟩ := braces_read hss width level hn p
  have hword : Lexer.word ⟨bracesChars width level ss ++ rest, p⟩ = none :=
    Lexer.word_of_head (by decide) _ _
  have hrule : (blockRule n statementFull ⟨bracesChars width level ss ++ rest, p⟩).result =
      some (.block ss' (.between p (p.advance (bracesChars width level ss))),
        ⟨rest, p.advance (bracesChars width level ss)⟩) := by
    simp only [blockRule, result_bind, result_spanned, hread, Option.map_some,
      Option.bind_some, result_pure]
  refine ⟨.block ss' (.between p (p.advance (bracesChars width level ss))), _, ?_,
    by simp [eraseSpans, asRead, hsame], .refl _, hlines⟩
  rw [statementFull_eq hn]
  simp only [statementRule, result_reporting, result_firstOf_cons,
    functionRule_of_keyword (Lexer.keyword_of_word hword _),
    declareRule_of_declareWord (Lexer.declareWord_of_word hword),
    branchRule_of_keyword (Lexer.keyword_of_word hword _),
    whileRule_of_keyword (Lexer.keyword_of_word hword _),
    forRule_of_keyword (Lexer.keyword_of_word hword _),
    returnRule_of_keyword (Lexer.keyword_of_word hword _),
    wordRule_of_keyword (Lexer.keyword_of_word hword _), hrule, Option.none_or, Option.some_or]

/-- A function is read back if the statements of its body are. -/
theorem readsText_function {name : String} {params : List String} (hname : IsIdentifier name)
    (hparams : ∀ p ∈ params, IsIdentifier p) (hss : ∀ s ∈ ss, s.ReadsBack) (span : Span) :
    (function name params ss span).ReadsText := by
  intro width level rest _ p
  have htext : (function name params ss span).chars width level ++ rest =
      "function".toList ++ ' ' :: (name.toList ++ '(' ::
      (paramsChars params ++ ')' :: ' ' :: (bracesChars width level ss ++ rest))) := by
    simp [chars_function]
  rw [htext, chars_function]
  obtain ⟨n, hn⟩ : ∃ n, ("function".toList ++ ' ' :: (name.toList ++ '(' :: (paramsChars params ++
      ')' :: ' ' :: (bracesChars width level ss ++ rest)))).length < n := ⟨_, Nat.lt_succ_self _⟩
  have hlenParams :
      (paramsChars params ++ ')' :: ' ' :: (bracesChars width level ss ++ rest)).length < n := by
    simp only [List.length_append, List.length_cons] at hn ⊢
    omega
  have hlenBody : (bracesChars width level ss ++ rest).length < n := by
    simp only [List.length_append, List.length_cons] at hn ⊢
    omega
  have hword := headWord_append (by decide : "function" ∈ headWords)
    (endsWord_cons (by decide : isWordChar ' ' = false) (name.toList ++
      '(' :: (paramsChars params ++ ')' :: ' ' :: (bracesChars width level ss ++ rest)))) p
  obtain ⟨htoken, hreadParams⟩ := params_reads hparams hlenParams
  obtain ⟨params', c, hresult, hsameParams, hc⟩ :=
    hreadParams ((((p.advance "function".toList).next ' ').advance name.toList).next '(')
  obtain ⟨q, hq⟩ : ∃ q, q =
      ((((((p.advance "function".toList).next ' ').advance name.toList).next '(').advance
        (paramsChars params)).next ')').next ' ' := ⟨_, rfl⟩
  obtain ⟨ss', hread, hsame, hlines⟩ := braces_read hss width level hlenBody q
  have hopen : ∀ r, AtToken ('(' :: r) := fun r => atToken_cons (by decide) (by decide) r
  have hbrace : ∀ r, AtToken (bracesChars width level ss ++ r) :=
    fun r => atToken_cons (by decide) (by decide) _
  have hrule : (functionRule n statementFull
      ⟨"function".toList ++ ' ' :: (name.toList ++ '(' :: (paramsChars params ++
      ')' :: ' ' :: (bracesChars width level ss ++ rest))), p⟩).result =
      some (.function name params ss' (.between p (q.advance (bracesChars width level ss))),
        ⟨rest, q.advance (bracesChars width level ss)⟩) := by
    simp only [functionRule, result_reporting, result_bind, result_spanned, result_token,
      keyword_self hword, Option.bind_some, result_blanks,
      Cursor.skipBlanks_cons_blank (by decide : isBlankChar ' '),
      Cursor.skipBlanks_of_atToken (atToken_identifier hname _),
      Lexer.identifier_append hname (endsWord_cons (by decide : isWordChar '(' = false) _),
      Cursor.skipBlanks_of_atToken (hopen _), result_literal, show "(".toList = ['('] from rfl,
      show ")".toList = [')'] from rfl, Cursor.literal?_cons_self, Cursor.literal?_nil,
      Option.map_some, Cursor.skipBlanks_of_atToken htoken, hresult, hc,
      Cursor.skipBlanks_of_atToken (hbrace _), ← hq, hread, result_pure, hsameParams]
  have hend : p.advance ("function".toList ++ ' ' :: (name.toList ++ '(' :: (paramsChars params ++
      ')' :: ' ' :: bracesChars width level ss))) = q.advance (bracesChars width level ss) := by
    rw [hq]
    simp only [Position.advance_append, Position.advance_cons]
  have hheader : OneLine
      ("function".toList ++ ' ' :: (name.toList ++ '(' :: (paramsChars params ++ [')', ' ']))) := by
    simp [hname.1.oneLine, oneLine_paramsChars hparams]
  have hline : q.line = p.line := by
    rw [hq]
    simpa only [Position.advance_append, Position.advance_cons, Position.advance_nil]
      using hheader.advance_line p
  rw [hend]
  refine ⟨_, _, (statementFull_of_word hword (by decide) hn).trans hrule,
    by simp [eraseSpans, asRead, hsame], .refl _, ?_⟩
  rw [branchLines, hlines, hline]
  rfl

/-- A head word and the test behind it are read back. -/
theorem header_reads {w : String} (hw : w ∈ headWords) (ht : test.Forall Expr.Formed) {n : Nat}
    {r : List Char} (hn : (headerChars w test ++ r).length < n) (p : Position) :
    ∃ u t', Lexer.word ⟨headerChars w test ++ r, p⟩ = some (w, u) ∧ t'.eraseSpans = test.asRead ∧
      (Grammar.test n u).result =
        some (t', (⟨r, p.advance (headerChars w test)⟩ : Cursor).skipBlanks) := by
  have htext : headerChars w test ++ r = w.toList ++ ' ' :: '(' :: (test.chars ++ ')' :: r) := by
    simp [headerChars]
  rw [htext] at hn ⊢
  have hlen : (test.chars ++ ')' :: r).length < n := by
    simp only [List.length_append, List.length_cons] at hn ⊢
    omega
  obtain ⟨t', hread, ht'⟩ := test_reads ht hlen (p.advance w.toList)
  refine ⟨_, t', headWord_append hw (endsWord_cons (by decide) _) p, ht', ?_⟩
  rw [hread, headerChars, Position.advance_append]

/-- A loop is read back if its body is. -/
theorem readsText_whileLoop (ht : test.Forall Expr.Formed) (hbody : body.ReadsBack) (span : Span) :
    (whileLoop test body span).ReadsText := by
  intro width level rest hrest p
  rw [chars_whileLoop, List.append_assoc]
  obtain ⟨n, hn⟩ : ∃ n, (headerChars "while" test ++ (body.bodyChars width level ++ rest)).length <
      n :=
    ⟨_, Nat.lt_succ_self _⟩
  obtain ⟨u, t', hword, ht', htest⟩ := header_reads (by decide) ht hn p
  obtain ⟨body', c, hread, hsame, hc, hlines⟩ :=
    hbody.body width level hrest (p.advance (headerChars "while" test))
  have hrule : (whileRule n statementFull
      ⟨headerChars "while" test ++ (body.bodyChars width level ++ rest), p⟩).result =
      some (.whileLoop t' body' (.between p c.pos), c) := by
    simp only [whileRule, result_reporting, result_bind, result_spanned, result_token,
      keyword_self hword, Option.bind_some, htest, hread, result_pure, Option.map_some]
  rw [Position.advance_append]
  refine ⟨_, c, (statementFull_of_word hword (by decide) hn).trans hrule,
    by simp [eraseSpans, asRead, ht', hsame], hc, ?_⟩
  rw [branchLines, hlines, (oneLine_headerChars (by decide) ht).advance_line]
  rfl

/-- A branch without an alternative is read back if its body is. -/
theorem readsText_branch (ht : test.Forall Expr.Formed) (hbody : body.ReadsBack) (span : Span) :
    (branch test body none span).ReadsText := by
  intro width level rest hrest p
  rw [chars_branch, List.append_assoc]
  obtain ⟨n, hn⟩ : ∃ n, (headerChars "if" test ++ (body.bodyChars width level ++ rest)).length <
      n :=
    ⟨_, Nat.lt_succ_self _⟩
  have hnoElse : NoElse rest := hrest rfl
  obtain ⟨u, t', hword, ht', htest⟩ := header_reads (by decide) ht hn p
  obtain ⟨body', c, hread, hsame, hc, hlines⟩ := hbody.body width level (fun _ => hnoElse)
    (p.advance (headerChars "if" test))
  have helse : (elseClause statementFull c.skipBlanks).result = none := by
    obtain ⟨q, hq⟩ := hc.eq_next
    rw [hq]
    simp only [elseClause, result_reporting, result_bind, result_token, hnoElse q, Option.bind_none]
  have hrule : (branchRule n statementFull
      ⟨headerChars "if" test ++ (body.bodyChars width level ++ rest), p⟩).result =
      some (.branch t' body' none (.between p c.skipBlanks.pos), c.skipBlanks) := by
    simp only [branchRule, result_reporting, result_bind, result_spanned, result_token,
      keyword_self hword, Option.bind_some, htest, hread, result_blanks,
      result_optional_of_none helse, result_pure, Option.map_some]
  rw [Position.advance_append]
  refine ⟨_, _, (statementFull_of_word hword (by decide) hn).trans hrule,
    by simp [eraseSpans, asRead, ht', hsame], hc.skipBlanks_left, ?_⟩
  rw [branchLines, hlines, (oneLine_headerChars (by decide) ht).advance_line]
  rfl

/-- A branch with an alternative, which could not belong to a branch inside of it. -/
theorem readsText_branchElse (ht : test.Forall Expr.Formed) (hbody : body.ReadsBack)
    (hopen : body.endsOpen = false) {a : Stmt} (ha : a.ReadsBack) (span : Span) :
    (branch test body (some a) span).ReadsText := by
  intro width level rest hrest p
  have htext : (branch test body (some a) span).chars width level ++ rest =
      headerChars "if" test ++ (body.bodyChars width level ++
      (body.gapBehind width level ++ ("else".toList ++ (a.elseChars width level ++ rest)))) := by
    simp [chars_branchElse]
  rw [htext, chars_branchElse]
  obtain ⟨n, hn⟩ : ∃ n, (headerChars "if" test ++ (body.bodyChars width level ++
      (body.gapBehind width level ++ ("else".toList ++
        (a.elseChars width level ++ rest))))).length < n :=
    ⟨_, Nat.lt_succ_self _⟩
  obtain ⟨u, t', hword, ht', htest⟩ := header_reads (by decide) ht hn p
  have hfollows : body.Follows
      (body.gapBehind width level ++ ("else".toList ++ (a.elseChars width level ++ rest))) :=
    fun h => by rw [hopen] at h; cases h
  obtain ⟨body', c, hread, hsame, hc, hlines⟩ :=
    hbody.body width level hfollows (p.advance (headerChars "if" test))
  obtain ⟨q, hq⟩ : ∃ q, q = ((p.advance (headerChars "if" test)).advance
      (body.bodyChars width level)).advance (body.gapBehind width level) := ⟨_, rfl⟩
  obtain ⟨a', d, hreadA, hsameA, hd, hlinesA⟩ :=
    ha.alternative width level hrest (q.advance "else".toList)
  have hwordElse : IsWord "else" := by decide
  have hc' : c.skipBlanks = ⟨"else".toList ++ (a.elseChars width level ++ rest), q⟩ := by
    rw [hc, hq]
    exact skipBlanks_gap_append (blank_gapBehind width level body)
      (atToken_cons (by decide) (by decide) _) _
  have helse : (elseClause statementFull c.skipBlanks).result = some (a', d) := by
    rw [hc']
    simp only [elseClause, result_reporting, result_bind, result_token,
      Lexer.keyword_append _ hwordElse (endsWord_elseChars width level a rest), if_true,
      Option.bind_some, result_blanks, hreadA]
  have hrule : (branchRule n statementFull ⟨headerChars "if" test ++ (body.bodyChars width level ++
      (body.gapBehind width level ++ ("else".toList ++ (a.elseChars width level ++ rest)))),
        p⟩).result =
      some (.branch t' body' (some a') (.between p d.pos), d) := by
    simp only [branchRule, result_reporting, result_bind, result_spanned, result_token,
      keyword_self hword, Option.bind_some, htest, hread, result_blanks,
      result_optional_of_some helse, result_pure, Option.map_some]
  have hend : p.advance (headerChars "if" test ++ (body.bodyChars width level ++
        (body.gapBehind width level ++ ("else".toList ++ a.elseChars width level)))) =
      (q.advance "else".toList).advance (a.elseChars width level) := by
    simp only [hq, Position.advance_append]
  rw [hend]
  refine ⟨_, _, (statementFull_of_word hword (by decide) hn).trans hrule,
    by simp [eraseSpans, asRead, ht', hsame, hsameA], hd, ?_⟩
  have hheader := (oneLine_headerChars (by decide : IsWord "if") ht).advance_line p
  have hline : (q.advance "else".toList).line =
      p.line + (body.drop + body.height + body.dropBehind) := by
    rw [(by decide : OneLine "else".toList).advance_line, hq,
      Position.advance_line _ (body.gapBehind width level),
      Position.advance_line _ (body.bodyChars width level), hheader,
      bodyChars, List.count_append, count_gap, count_gapBehind, hbody.height]
    omega
  rw [branchLines, hlines, hlinesA, hheader, hline]
  rfl

/-- The start of a counting loop is read back. -/
theorem init_reads {init : Option ForInit} (hnames : ∀ w ds, init = some (.declare w ds) →
      FormedNames ds) (hinit : ∀ e ∈ init.toList.flatMap ForInit.exprs, e.Forall Expr.Formed)
    {n : Nat} {r : List Char} (hn : (initChars init ++ ';' :: r).length < n) (p : Position) :
    ∃ init' c, (optional (forInit n) (⟨initChars init ++ ';' :: r, p⟩ : Cursor).skipBlanks).result =
      some (init', c) ∧
      init'.map ForInit.eraseSpans = init.map ForInit.asRead ∧
      c.skipBlanks = ⟨';' :: r, p.advance (initChars init)⟩ := by
  cases init with
  | none =>
    have hskip := Cursor.skipBlanks_of_atToken (atToken_mark (by decide : ';' ∈ endMarks) r) p
    have hword : Lexer.word ⟨';' :: r, p⟩ = none := Lexer.word_of_head (by decide) _ _
    have hnone : (forInit n ⟨';' :: r, p⟩).result = none := by
      simp only [forInit, result_reporting, result_orElse, result_bind,
        declaration_of_declareWord (Lexer.declareWord_of_word hword),
        expression_of_noExpr (noExpr_mark (by decide) r p) hn, Option.bind_none, Option.or_none]
    refine ⟨none, ⟨';' :: r, p⟩, ?_, rfl, hskip⟩
    change (optional (forInit n) (⟨';' :: r, p⟩ : Cursor).skipBlanks).result = _
    rw [hskip, result_optional_of_none hnone]
  | some init =>
    cases init with
    | declare w ds =>
      have hexprs : ∀ e ∈ ds.flatMap Declarator.exprs, e.Forall Expr.Formed := fun e he =>
        hinit e (by simpa [ForInit.exprs] using he)
      obtain ⟨ds', c, hread, hsame, hc⟩ := declaration_reads (hnames w ds rfl) hexprs hn p
      have htoken : AtToken (declarationChars w ds ++ ';' :: r) := by
        rw [declarationChars_eq]
        cases w
        all_goals exact atToken_cons (by decide) (by decide) _
      refine ⟨some (.declare w ds'), c, ?_, by simp [ForInit.eraseSpans, ForInit.asRead, hsame], hc⟩
      change (optional (forInit n) (⟨declarationChars w ds ++ ';' :: r, p⟩ :
          Cursor).skipBlanks).result = _
      rw [Cursor.skipBlanks_of_atToken htoken]
      refine result_optional_of_some ?_
      simp only [forInit, result_reporting, result_orElse, result_bind, hread, Option.bind_some,
        result_pure, Option.some_or]
    | expr e =>
      obtain ⟨htoken, hread⟩ := expression_reads (hinit e (by simp [ForInit.exprs])) (by decide) hn
      obtain ⟨e', c, hresult, he', hc⟩ := hread p
      refine ⟨some (.expr e'), c, ?_, by simp [ForInit.eraseSpans, ForInit.asRead, he'], hc⟩
      change (optional (forInit n) (⟨e.chars ++ ';' :: r, p⟩ : Cursor).skipBlanks).result = _
      rw [Cursor.skipBlanks_of_atToken htoken]
      refine result_optional_of_some ?_
      have hplain := plainHead_of_expression hn hresult
      simp only [forInit, result_reporting, result_orElse, result_bind,
        declaration_of_declareWord hplain.declareWord, hresult, Option.bind_none, Option.bind_some,
        result_pure, Option.none_or]

/-- A counting loop is read back if its body is. -/
theorem readsText_forLoop {init : Option ForInit} {t u : Option Expr}
    (hnames : ∀ w ds, init = some (.declare w ds) → FormedNames ds)
    (hinit : ∀ e ∈ init.toList.flatMap ForInit.exprs, e.Forall Expr.Formed)
    (ht : ∀ e ∈ t, e.Forall Expr.Formed) (hu : ∀ e ∈ u, e.Forall Expr.Formed)
    (hbody : body.ReadsBack) (span : Span) : (forLoop init t u body span).ReadsText := by
  intro width level rest hrest p
  have htext : (forLoop init t u body span).chars width level ++ rest =
      "for".toList ++ ' ' :: '(' :: (initChars init ++ ';' :: (clauseChars t ++
        ';' :: (clauseChars u ++ ')' :: (body.bodyChars width level ++ rest)))) := by
    simp [chars_forLoop]
  rw [htext, chars_forLoop]
  obtain ⟨n, hn⟩ : ∃ n, ("for".toList ++ ' ' :: '(' :: (initChars init ++ ';' :: (clauseChars t ++
        ';' :: (clauseChars u ++ ')' :: (body.bodyChars width level ++ rest))))).length < n :=
    ⟨_, Nat.lt_succ_self _⟩
  have hword := headWord_append (by decide : "for" ∈ headWords)
    (endsWord_cons (by decide : isWordChar ' ' = false) ('(' :: (initChars init ++ ';' ::
      (clauseChars t ++ ';' :: (clauseChars u ++ ')' :: (body.bodyChars width level ++ rest)))))) p
  have hlens : (initChars init ++ ';' :: (clauseChars t ++ ';' :: (clauseChars u ++ ')' ::
        (body.bodyChars width level ++ rest)))).length < n ∧
      (clauseChars t ++ ';' ::
        (clauseChars u ++ ')' :: (body.bodyChars width level ++ rest))).length < n ∧
      (clauseChars u ++ ')' :: (body.bodyChars width level ++ rest)).length < n := by
    simp only [List.length_append, List.length_cons] at hn ⊢
    omega
  obtain ⟨q, hq⟩ : ∃ q, q = ((p.advance "for".toList).next ' ').next '(' := ⟨_, rfl⟩
  obtain ⟨init', c, hreadI, hsameI, hc⟩ := init_reads hnames hinit hlens.1 q
  obtain ⟨t', d, hreadT, hsameT, hd⟩ :=
    clause_reads ht (by decide) hlens.2.1 ((q.advance (initChars init)).next ';')
  obtain ⟨u', e, hreadU, hsameU, he⟩ := clause_reads hu (by decide) hlens.2.2
    ((((q.advance (initChars init)).next ';').advance (clauseChars t)).next ';')
  obtain ⟨v, hv⟩ : ∃ v,
      v = ((((((q.advance (initChars init)).next ';').advance (clauseChars t)).next ';').advance
        (clauseChars u)).next ')') := ⟨_, rfl⟩
  obtain ⟨body', f, hread, hsame, hf, hlines⟩ := hbody.body width level hrest v
  have hopen : ∀ r, AtToken ('(' :: r) := fun r => atToken_cons (by decide) (by decide) r
  have hrule : (forRule n statementFull
      ⟨"for".toList ++ ' ' :: '(' :: (initChars init ++ ';' :: (clauseChars t ++ ';' ::
      (clauseChars u ++ ')' :: (body.bodyChars width level ++ rest)))), p⟩).result =
      some (.forLoop init' t' u' body' (.between p f.pos), f) := by
    simp only [forRule, result_reporting, result_bind, result_spanned, result_token,
      keyword_self hword, Option.bind_some, result_blanks,
      Cursor.skipBlanks_cons_blank (by decide : isBlankChar ' '),
      Cursor.skipBlanks_of_atToken (hopen _), result_literal, show "(".toList = ['('] from rfl,
      show ";".toList = [';'] from rfl, show ")".toList = [')'] from rfl, Cursor.literal?_cons_self,
      Cursor.literal?_nil, Option.map_some, ← hq, hreadI, hc, result_optional_reporting, hreadT, hd,
      hreadU, he, ← hv, hread, result_pure]
  have hend : p.advance ("for".toList ++ ' ' :: '(' :: (initChars init ++
        ';' :: (clauseChars t ++ ';' :: (clauseChars u ++ ')' :: body.bodyChars width level)))) =
      v.advance (body.bodyChars width level) := by
    simp only [hv, hq, Position.advance_append, Position.advance_cons]
  have hheader : OneLine ("for".toList ++ ' ' :: '(' :: (initChars init ++ ';' ::
      (clauseChars t ++ ';' :: (clauseChars u ++ [')'])))) := by
    simp [oneLine_initChars hnames hinit, oneLine_clauseChars ht, oneLine_clauseChars hu]
  have hline : v.line = p.line := by
    rw [hv, hq]
    simpa only [Position.advance_append, Position.advance_cons, Position.advance_nil]
      using hheader.advance_line p
  rw [hend]
  refine ⟨_, _, (statementFull_of_word hword (by decide) hn).trans hrule,
    by simp [eraseSpans, asRead, hsameI, hsameT, hsameU, hsame], hf, ?_⟩
  rw [branchLines, hlines, hline]
  rfl

end compound

/-- Every formed statement reads back. -/
theorem readsBack (s : Stmt) (hs : s.Forall Formed) (he : s.ForallExpr Expr.Formed) :
    s.ReadsBack := by
  induction s using Stmt.induction with
  | step s ih =>
  have hin : ∀ c ∈ s.children, c.ReadsBack := fun c hc => ih c hc (hs.inside c hc) (he.inside c hc)
  have hhere := hs.here
  have hexprs : ∀ e ∈ s.exprs, e.Forall Expr.Formed := he.here
  refine ⟨?_, count_chars hs he⟩
  clear ih hs he
  cases s with
  | function name params body s => exact readsText_function hhere.1 hhere.2 hin s
  | declare word ds s => exact readsText_declare hhere hexprs s
  | branch t c a s =>
    have ht := hexprs t List.mem_cons_self
    have hc := hin c List.mem_cons_self
    cases a with
    | none => exact readsText_branch ht hc s
    | some a => exact readsText_branchElse ht hc (hhere rfl) (hin a (by simp [children])) s
  | whileLoop t body s =>
    exact readsText_whileLoop (hexprs t List.mem_cons_self) (hin body List.mem_cons_self) s
  | forLoop init t u body s =>
    obtain ⟨hinit, ht, hu⟩ := forLoop_clauses hexprs
    exact readsText_forLoop (forLoop_names hhere) hinit ht hu (hin body List.mem_cons_self) s
  | ret value s => exact readsText_ret (fun e he => hexprs e (Option.mem_toList.2 he)) s
  | block body s => exact readsText_block hin s
  | expr e s => exact readsText_expr (hexprs e List.mem_cons_self) s
  | breakLoop s => exact readsText_breakLoop s
  | continueLoop s => exact readsText_continueLoop s
  | empty s => exact readsText_empty s

end Stmt

/-! ## Programs -/

/-- The characters of a program: its statements, each behind a line feed but the first. -/
theorem Program.toList_text (width : Nat) (s : Stmt) (ss : List Stmt) (span : Span) :
    (Program.text width ⟨s :: ss, span⟩).toList = s.chars width 0 ++ linesChars width 0 ss := by
  simp only [Program.text]
  induction ss generalizing s with
  | nil => simp [linesChars, Stmt.chars]
  | cons t ss ih =>
    rw [List.map_cons, List.map_cons, String.intercalate_cons_cons, ← List.map_cons,
      String.toList_append, String.toList_append, ih, linesChars_cons]
    simp [newLine, Stmt.chars]

/-- The statements of a text that is nothing else are read one by one. -/
theorem many_statements {ss : List Stmt} (hss : ∀ s ∈ ss, s.ReadsBack) (width : Nat) (span : Span)
    {n : Nat} (hn : (Cursor.ofString (Program.text width ⟨ss, span⟩)).rest.length < n) :
    ∃ ss' d,
      (many (statement n) n (Cursor.ofString (Program.text width ⟨ss, span⟩)).skipBlanks).result =
      some (ss', d) ∧
      ss'.map Stmt.eraseSpans = ss.map Stmt.asRead ∧ d.skipBlanks.rest = [] ∧
      Stmt.branchLinesAll ss' = Stmt.linesFromAll 0 ss := by
  have hfull := (Agree.many (agree_statementFull (Nat.le_refl n)) (Nat.le_refl n) (Nat.le_refl n)
    (Cursor.ofString (Program.text width ⟨ss, span⟩)).skipBlanks
    (Nat.lt_of_le_of_lt (Cursor.length_skipBlanks_le _) hn)).1
  rw [hfull]
  cases ss with
  | nil =>
    refine ⟨[], (Cursor.ofString "").skipBlanks, result_many_of_none n ?_, rfl, rfl, rfl⟩
    exact endsStatements_nil.2 _
  | cons s ss =>
    have hin : ∀ t ∈ ss, t.ReadsBack := fun t ht => hss t (List.mem_cons_of_mem _ ht)
    have hs := hss s List.mem_cons_self
    have hfollows : s.Follows (linesChars width 0 ss ++ []) :=
      fun _ => noElse_lines hin width 0 endsStatements_nil
    have htext : (Program.text width ⟨s :: ss, span⟩).toList = s.chars width 0 ++
        (linesChars width 0 ss ++ []) := by
      rw [Program.toList_text, List.append_nil]
    have htoken := hs.atToken width 0 hfollows
    obtain ⟨s', c, hread, hsame, hc, hlines⟩ := hs.reads width 0 _ hfollows .start
    have hstart : (Cursor.ofString (Program.text width ⟨s :: ss, span⟩)).skipBlanks =
        ⟨s.chars width 0 ++ (linesChars width 0 ss ++ []), .start⟩ := by
      rw [Cursor.ofString, htext, Cursor.skipBlanks_of_atToken htoken]
    rw [Cursor.ofString, htext] at hn
    obtain ⟨n, rfl⟩ : ∃ k, n = k + 1 := ⟨n - 1, by omega⟩
    have hpos : 0 < (s.chars width 0).length := List.length_pos_iff.2 (hs.chars_ne_nil width 0)
    have hlen : (linesChars width 0 ss ++ []).length < n := by
      simp only [List.length_append] at hn ⊢
      omega
    obtain ⟨ss', d, hmany, hsameAll, hd, hlinesAll⟩ :=
      lines_read hin width 0 endsStatements_nil hlen hc
    refine ⟨s' :: ss', d, ?_, by rw [List.map_cons, List.map_cons, hsame, hsameAll], ?_, ?_⟩
    · rw [← Cursor.skipBlanks_of_atToken htoken] at hread
      rw [hstart, result_many_of_some n hread, hmany]
      rfl
    · rw [hd]
      rfl
    · have hnext : (Position.start.advance (s.chars width 0)).line + 1 = Position.start.line +
          (s.height + 1) := by
        rw [Position.advance_line, hs.height, Nat.add_assoc]
      rw [Stmt.branchLinesAll, hlines, hlinesAll, hnext]
      rfl

/-- The text of a formed program is read as the program that it stands for, with each branch on its
line. -/
theorem Program.parse_text_asRead (width : Nat) (p : Program) (hp : p.Formed)
    (he : p.ForallExpr Expr.Formed) :
    ∃ q, Program.parse (p.text width) = .ok q ∧ q.eraseSpans = p.asRead ∧
      q.branchLines = p.canonicalLines := by
  obtain ⟨ss, span⟩ := p
  have hss : ∀ s ∈ ss, s.ReadsBack := fun s hs => s.readsBack (hp s hs) (he s hs)
  obtain ⟨ss', d, hmany, hsame, hend, hlines⟩ := many_statements hss width span (Nat.lt_succ_self _)
  refine ⟨⟨ss', .between .start d.skipBlanks.pos⟩, Program.parse_eq_ok_iff.2 ⟨d.skipBlanks, ?_⟩, ?_,
    hlines⟩
  · have hstop : (endOfText d.skipBlanks).result = some ((), d.skipBlanks) := by
      rw [endOfText, result_token, hend]
    simp only [program, result_reporting, result_bind, result_spanned, result_blanks,
      Option.bind_some, hmany, hstop, result_pure, Option.map_some]
    rfl
  · simp [Program.eraseSpans, Program.asRead, hsame]

/-- The text of a readable program is read as the program, and its branches stand on ascending
lines. -/
theorem Program.parse_text (width : Nat) (p : Program) (hp : p.Formed)
    (he : p.ForallExpr Expr.Readable) :
    ∃ q, Program.parse (p.text width) = .ok q ∧ q.eraseSpans = p.eraseSpans ∧
      q.branchLines.Pairwise (· < ·) := by
  have hformed : p.ForallExpr Expr.Formed := he.imp fun _ h => h.1
  have hfinite : p.ForallExpr Expr.FiniteNumber := he.imp fun _ h => h.2
  obtain ⟨q, hparse, hsame, hlines⟩ := p.parse_text_asRead width hp hformed
  refine ⟨q, hparse, hsame.trans (asRead_of_finite hfinite), ?_⟩
  rw [hlines]
  exact p.ascending_canonicalLines

end BranchPaint
