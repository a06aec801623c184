import BranchPaint.Proofs.RoundTrip.Operand

/-!
# Expressions read back from their canonical text

The text of an expression, written for a place that asks for a precedence, is read by the rule of
that level as the expression that it stands for (`Expr.readsAs_charsAt`).

Chains of connectives nest to the left like suffixes and have an invariant of the same shape,
`ChainsAs`. The proof for all expressions is an induction over the tree with three facts in its hand
(`Expr.ReadsBack`): the text is read at the level of the expression, an operand leaves the loop of
suffixes open, and a connective leaves the loop of its level open.
-/

namespace BranchPaint

open Rule Grammar

namespace Grammar

/-! ## Chains of connectives -/

/-- One further connective of the level that is `i` steps down, with its right operand. -/
def levelItem (n i : Nat) (hi : i < 6) : Rule (Connective × Expr) :=
  connectiveItem n unaryFull (connectiveLevels.get ⟨i, hi⟩) (connectiveLevels.drop (i + 1))

/-- A level of connectives is a first operand of the next level and the items behind it. -/
theorem result_levelRule_connective {i : Nat} (hi : i < 6) (n : Nat) (s : Cursor) :
    (levelRule n (3 + i) s).result = (levelRule n (3 + (i + 1)) s).result.bind fun x =>
      (many (levelItem n i hi) n x.2.skipBlanks).result.map fun y => (y.1.foldl join x.1, y.2) := by
  rw [levelRule_connective (Nat.le_of_lt hi), levelRule_connective hi,
    List.drop_eq_getElem_cons (show i < connectiveLevels.length from hi), result_chain_cons]
  rfl

/-- Reading `text` comes to the loop of connectives, with `e` read so far. -/
def ChainsAs (i : Nat) (hi : i < 6) (text : List Char) (e : Expr) : Prop :=
  ∀ n rest, (text ++ rest).length < n → Stops (3 + (i + 1)) rest → ∀ p, ∃ e' c m, rest.length < m ∧
    e'.eraseSpans = e.asRead ∧ c.SameToken ⟨rest, p.advance text⟩ ∧
    (levelRule n (3 + i) ⟨text ++ rest, p⟩).result =
      (many (levelItem n i hi) m c).result.map fun y => (y.1.foldl join e', y.2)

section chains

variable {i : Nat} {hi : i < 6} {text : List Char} {e : Expr}

/-- What is read back at the next level starts a chain. -/
theorem chainsAs_of_readsAs (h : ReadsAs (3 + (i + 1)) text e) : ChainsAs i hi text e := by
  intro n rest hn hstop p
  obtain ⟨e', c, hread, he, hc⟩ := h n rest hn hstop p
  refine ⟨e', c.skipBlanks, n, ?_, he, hc.skipBlanks_left, ?_⟩
  · simp only [List.length_append] at hn
    omega
  · rw [result_levelRule_connective hi, hread, Option.bind_some]

/-- Where no connective of the level follows, the loop ends. -/
theorem ChainsAs.readsAs (h : ChainsAs i hi text e) : ReadsAs (3 + i) text e := by
  intro n rest hn hstop p
  obtain ⟨e', c, m, -, he, hc, hread⟩ := h n rest hn (hstop.mono (by omega)) p
  obtain ⟨q, hq⟩ := hc.eq_next
  have hitem : (levelItem n i hi c.skipBlanks).result = none := by
    rw [hq]
    have hget : connectiveLevels[i]? = some (connectiveLevels.get ⟨i, hi⟩) :=
      List.getElem?_eq_getElem _
    simp only [levelItem, connectiveItem, result_bind, result_token,
      hstop.connective i _ hget (Nat.le_refl _), Option.bind_none]
  refine ⟨e', c, ?_, he, hc⟩
  rw [hread, result_many_of_none m hitem]
  rfl

/-- One more connective is one more round of the loop. -/
theorem ChainsAs.join {op : Connective} (hop : op.precedence = 3 + i) {right : List Char}
    {l r : Expr} (hl : ChainsAs i hi text l) (hr : ReadsAs (3 + (i + 1)) right r)
    (he : ∀ l' r', l'.eraseSpans = l.asRead → r'.eraseSpans = r.asRead →
      (Grammar.join l' (op, r')).eraseSpans = e.asRead) :
    ChainsAs i hi (text ++ ' ' :: (op.text.toList ++ ' ' :: right)) e := by
  intro n rest hn hstop p
  have htext : text ++ ' ' :: (op.text.toList ++ ' ' :: right) ++ rest =
      text ++ ' ' :: (op.text.toList ++ ' ' :: (right ++ rest)) := by simp
  rw [htext] at hn ⊢
  have hstopL : Stops (3 + (i + 1)) (' ' :: (op.text.toList ++ ' ' :: (right ++ rest))) := by
    have := stops_connective op (right ++ rest)
    rwa [hop] at this
  obtain ⟨l', c, m, hm, hl', hc, hread⟩ := hl n _ hn hstopL p
  have hlen : (right ++ rest).length < n := by
    simp only [List.length_append, List.length_cons] at hn ⊢
    omega
  have hreadR := hr n rest hlen hstop
  obtain ⟨r', d, hresult, hr', hd⟩ :=
    hreadR ((((p.advance text).next ' ').advance op.text.toList).next ' ')
  have hc' : c.skipBlanks = ⟨op.text.toList ++ ' ' :: (right ++ rest),
      (p.advance text).next ' '⟩ := by
    rw [hc, Cursor.skipBlanks_cons_blank (by decide),
      Cursor.skipBlanks_of_atToken (atToken_connective op _)]
  have hround : (levelItem n i hi c.skipBlanks).result = some ((op, r'), d) := by
    obtain ⟨level, hlevel, hsym⟩ := symbol_connective op (right ++ rest) ((p.advance text).next ' ')
    have hget : connectiveLevels.get ⟨i, hi⟩ = level := by
      rw [hop, Nat.add_sub_cancel_left] at hlevel
      exact Option.some.inj ((List.getElem?_eq_getElem hi).symm.trans hlevel)
    rw [levelRule_connective hi] at hresult
    rw [hc']
    simp only [levelItem, connectiveItem, hget, result_bind, result_token, hsym, Option.bind_some,
      result_blanks, Cursor.skipBlanks_cons_blank (by decide : isBlankChar ' '),
      Cursor.skipBlanks_of_atToken hreadR.atToken, hresult, result_pure]
  obtain ⟨m, rfl⟩ : ∃ k, m = k + 1 := ⟨m - 1, by omega⟩
  refine ⟨Grammar.join l' (op, r'), d, m, ?_, he l' r' hl' hr', ?_, ?_⟩
  · simp only [List.length_append, List.length_cons] at hm
    omega
  · simpa [Position.advance_append] using hd
  · rw [hread, result_many_of_some m hround]
    cases (many (levelItem n i hi) m d).result with
    | none => rfl
    | some y => rfl

end chains

/-! ## Steps by one and unary operators -/

section operators

variable {text : List Char} {a : Expr}

/-- No text at all is no expression. -/
theorem ReadsAs.ne_nil {k : Nat} {e : Expr} (h : ReadsAs k text e) : text ≠ [] := by
  rintro rfl
  obtain ⟨e', c, hread, -, -⟩ :=
    h 2 [')'] (by decide) (stops_mark_cons [] (by decide) (fun h => absurd h (by decide))) .start
  rw [List.nil_append, levelRule_of_noExpr (noExpr_mark (by decide) [] .start)] at hread
  cases hread

/-- The sign of a step by one is read back. -/
theorem symbol_update (op : UpdateOp) (r : List Char) (p : Position) :
    Lexer.symbol updateSymbols ⟨op.text.toList ++ r, p⟩ =
      some (op, ⟨r, p.advance op.text.toList⟩) := by
  have hnone : ∀ s : Cursor, s.peek ([] : List Char).contains = false := by
    rintro ⟨_ | ⟨c, r⟩, p⟩
    all_goals simp
  cases op
  all_goals simp [Lexer.symbol, updateSymbols, UpdateOp.text, Cursor.literal?, hnone]

/-- In front of the sign of a step an operand stops. -/
theorem stops_update (op : UpdateOp) (r : List Char) :
    Stops 11 (op.text.toList ++ r) ∧ AtToken (op.text.toList ++ r) := by
  have htoken : AtToken (op.text.toList ++ r) := by
    cases op
    all_goals exact atToken_cons (by decide) (by decide) _
  refine ⟨stops_suffixed ?_ ?_, htoken⟩
  · cases op
    all_goals exact endsWord_cons (by decide) _
  · rw [nextToken_of_atToken htoken]
    cases op
    all_goals simp [UpdateOp.text]

/-- A step by one is read behind an operand. -/
theorem readsAs_updateAfter (h : ReadsAs 11 text a) (op : UpdateOp) (span : Span) :
    ReadsAs 10 (text ++ op.text.toList) (.update op false a span) := by
  intro n rest hn hstop p
  rw [List.append_assoc] at hn ⊢
  obtain ⟨hstopOp, htoken⟩ := stops_update op rest
  obtain ⟨a', c, hread, ha, hc⟩ := h n _ hn hstopOp p
  have hc' : c.skipBlanks = ⟨op.text.toList ++ rest, p.advance text⟩ := by
    rw [hc, Cursor.skipBlanks_of_atToken htoken]
  simp only [levelRule] at hread
  refine ⟨.update op false a' (.between p ((p.advance text).advance op.text.toList)), ⟨rest,
      (p.advance text).advance op.text.toList⟩, ?_, by simp [Expr.eraseSpans, Expr.asRead, ha], ?_⟩
  · simp only [levelRule]
    rw [result_updateAfter _ _ hread, hc', symbol_update]
  · rw [Position.advance_append]
    exact .refl _

/-- A step by one is read in front of an operand. -/
theorem readsAs_updateBefore (h : ReadsAs 9 text a) (op : UpdateOp) (span : Span) :
    ReadsAs 9 (op.text.toList ++ text) (.update op true a span) := by
  intro n rest hn hstop p
  rw [List.append_assoc] at hn ⊢
  have hread := h n rest (by simp only [List.length_append] at hn ⊢; omega) hstop
  obtain ⟨a', c, hresult, ha, hc⟩ := hread (p.advance op.text.toList)
  have hunary : Lexer.unaryOp ⟨op.text.toList ++ (text ++ rest), p⟩ = none := by
    have hword : Lexer.word ⟨op.text.toList ++ (text ++ rest), p⟩ = none := by
      cases op
      all_goals exact Lexer.word_of_head (by decide) _ _
    rw [Lexer.unaryOp_of_keyword (Lexer.keyword_of_word hword _)]
    cases op
    all_goals simp [Lexer.symbol, unarySymbols, UpdateOp.text, Cursor.literal?]
  simp only [levelRule] at hresult
  refine ⟨.update op true a' (.between p c.pos), c, ?_, by simp [Expr.eraseSpans, Expr.asRead, ha],
    ?_⟩
  · simp only [levelRule]
    rw [unaryFull_eq hn]
    simp only [unaryRule, unaryApplied, updateBefore, result_reporting, result_orElse, result_bind,
      result_spanned, result_token, hunary, symbol_update, Option.bind_none, Option.map_none,
      Option.none_or, Option.bind_some, result_blanks, Cursor.skipBlanks_of_atToken hread.atToken,
      fullInner_unary, hresult, result_pure, Option.map_some, Option.some_or]
  · rw [Position.advance_append]
    exact hc

/-- A unary operator in front of text that its gap keeps apart. -/
theorem unaryOp_read (op : UnaryOp) {operand : String} (hne : operand.toList ≠ [])
    (rest : List Char) (p : Position) :
    Lexer.unaryOp ⟨op.text.toList ++ ((op.gap operand).toList ++ (operand.toList ++ rest)), p⟩ =
      some
        (op, ⟨(op.gap operand).toList ++ (operand.toList ++ rest), p.advance op.text.toList⟩) := by
  obtain ⟨c, cs, hcs⟩ : ∃ c cs, operand.toList = c :: cs := List.exists_cons_of_ne_nil hne
  have hnone : ∀ s : Cursor, s.peek ([] : List Char).contains = false := by
    rintro ⟨_ | ⟨c, r⟩, p⟩
    all_goals simp
  have hsymbol : op ≠ .typeOf → ∀ {r}, Lexer.unaryOp ⟨op.text.toList ++ r, p⟩ =
      Lexer.symbol unarySymbols ⟨op.text.toList ++ r, p⟩ := by
    intro hop r
    refine Lexer.unaryOp_of_keyword (Lexer.keyword_of_word ?_ _)
    cases op with
    | typeOf => exact absurd rfl hop
    | not | bitNot | neg | plus => exact Lexer.word_of_head (by decide) _ _
  cases op with
  | typeOf =>
    have hw : IsWord "typeof" := by decide
    have hgap : EndsWord (' ' :: (operand.toList ++ rest)) := endsWord_cons (by decide) _
    unfold Lexer.unaryOp
    rw [show UnaryOp.typeOf.text = "typeof" from rfl, show (UnaryOp.typeOf.gap operand).toList ++
        (operand.toList ++ rest) = ' ' :: (operand.toList ++ rest) by
        simp [UnaryOp.gap], Lexer.keyword_append _ hw hgap, if_pos rfl]
  | not | bitNot =>
    rw [hsymbol (by decide)]
    simp [Lexer.symbol, unarySymbols, UnaryOp.text, Cursor.literal?, hnone]
  | neg | plus =>
    rw [hsymbol (by decide)]
    -- a sign stays apart from the same sign by its gap, and from all else by itself
    simp only [UnaryOp.gap, hcs, List.head?_cons, Option.some.injEq]
    split
    · simp [Lexer.symbol, unarySymbols, UnaryOp.text, Cursor.literal?]
    · rename_i hc
      simp [Lexer.symbol, unarySymbols, UnaryOp.text, Cursor.literal?, hc]

/-- The gap behind an operator is skipped. -/
theorem skipBlanks_gap (op : UnaryOp) (operand : String) {r : List Char} (hr : AtToken r)
    (p : Position) :
    (⟨(op.gap operand).toList ++ r, p⟩ : Cursor).skipBlanks =
      ⟨r, p.advance (op.gap operand).toList⟩ := by
  rw [Cursor.skipBlanks_append _ r p, Cursor.skipBlanks_of_atToken hr]
  intro c hc
  rcases op.gap_cases operand with h | h
  · rw [h] at hc
    simp at hc
    subst hc
    decide
  · rw [h] at hc
    cases hc

/-- A unary operator is read in front of an operand. -/
theorem readsAs_unary {operand : String} (h : ReadsAs 9 operand.toList a) (op : UnaryOp)
    (span : Span) :
    ReadsAs 9 (op.text.toList ++ ((op.gap operand).toList ++ operand.toList))
      (.unary op a span) := by
  intro n rest hn hstop p
  simp only [List.append_assoc] at hn ⊢
  have hread := h n rest (by simp only [List.length_append] at hn ⊢; omega) hstop
  obtain ⟨a', c, hresult, ha, hc⟩ :=
    hread ((p.advance op.text.toList).advance (op.gap operand).toList)
  simp only [levelRule] at hresult
  refine ⟨.unary op a' (.between p c.pos), c, ?_, by simp [Expr.eraseSpans, Expr.asRead, ha], ?_⟩
  · simp only [levelRule]
    rw [unaryFull_eq hn]
    simp only [unaryRule, unaryApplied, result_reporting, result_orElse, result_bind,
      result_spanned, result_token, unaryOp_read op h.ne_nil rest p, Option.bind_some,
      result_blanks, skipBlanks_gap op operand hread.atToken, fullInner_unary, hresult, result_pure,
      Option.map_some, Option.some_or]
  · rw [Position.advance_append, Position.advance_append]
    exact hc

end operators

/-! ## Choices, assignments and sequences -/

/-- A choice is read wherever an assignment may stand. -/
theorem readsAs_ternary {c t e : Expr} {ct tt et : List Char} (hc : ReadsAs 3 ct c)
    (ht : ReadsAs 1 tt t) (he : ReadsAs 1 et e) (span : Span) :
    ReadsAs 1 (ct ++ ' ' :: '?' :: ' ' :: (tt ++ ' ' :: ':' :: ' ' :: et))
      (.ternary c t e span) := by
  intro n rest hn hstop
  refine Reads.assign_of_conditional ?_ hn hstop
  intro p
  have htext : ct ++ ' ' :: '?' :: ' ' :: (tt ++ ' ' :: ':' :: ' ' :: et) ++ rest =
      ct ++ ' ' :: '?' :: ' ' :: (tt ++ ' ' :: ':' :: ' ' :: (et ++ rest)) := by simp
  rw [htext] at hn ⊢
  have hcolon : Stops 1 (' ' :: ':' :: ' ' :: (et ++ rest)) := by
    have hnext : nextToken (' ' :: ':' :: ' ' :: (et ++ rest)) = ':' :: ' ' :: (et ++ rest) := by
      rw [nextToken_cons_blank (by decide), nextToken_of_atToken (atToken_mark (by decide) _)]
    exact stops_mark hnext (endsWord_cons (by decide) _) (by decide) (by decide)
  obtain ⟨c', d, hresult, hc', hd⟩ := hc n _ hn (stops_question _) p
  have hreadT := ht n _ (by simp only [List.length_append, List.length_cons] at hn ⊢; omega) hcolon
  obtain ⟨t', u, hresultT, ht', hu⟩ := hreadT ((((p.advance ct).next ' ').next '?').next ' ')
  have hreadE :=
    he n rest (by simp only [List.length_append, List.length_cons] at hn ⊢; omega) hstop
  obtain ⟨e', v, hresultE, he', hv⟩ :=
    hreadE
      ((((((((p.advance ct).next ' ').next '?').next ' ').advance tt).next ' ').next ':').next ' ')
  have hd' : d.skipBlanks = ⟨'?' :: ' ' :: (tt ++ ' ' :: ':' :: ' ' :: (et ++ rest)),
      (p.advance ct).next ' '⟩ := by
    rw [hd, Cursor.skipBlanks_cons_blank (by decide)]
    exact Cursor.skipBlanks_of_atToken (atToken_cons (by decide) (by decide) _) _
  have hu' : u.skipBlanks = ⟨':' :: ' ' :: (et ++ rest),
      (((((p.advance ct).next ' ').next '?').next ' ').advance tt).next ' '⟩ := by
    rw [hu, Cursor.skipBlanks_cons_blank (by decide)]
    exact Cursor.skipBlanks_of_atToken (atToken_mark (by decide) _) _
  simp only [levelRule] at hresult hresultT hresultE
  have hitem : (choiceItem fullInner d.skipBlanks).result = some ((t', e'), v) := by
    rw [hd']
    simp only [choiceItem, result_bind, result_literal, show "?".toList = ['?'] from rfl,
      show ":".toList = [':'] from rfl, Cursor.literal?_cons_self,
      Cursor.literal?_nil, Option.map_some, Option.bind_some, result_blanks,
      Cursor.skipBlanks_cons_blank (by decide : isBlankChar ' '),
      Cursor.skipBlanks_of_atToken hreadT.atToken, Cursor.skipBlanks_of_atToken hreadE.atToken,
      fullInner_assignment, hresultT, hu', hresultE, result_pure]
  refine ⟨.ternary c' t' e' (.between p v.pos), v, ?_,
    by simp [Expr.eraseSpans, Expr.asRead, hc', ht', he'], ?_⟩
  · simp only [levelRule]
    exact result_conditional_of_some _ _ _ _ _ hresult hitem
  · simpa [Position.advance_append] using hv

/-- The sign of an assignment is read back. -/
theorem symbol_assign {op : AssignOp} (hop : op.Formed) (r : List Char) (p : Position) :
    Lexer.symbol assignSymbols ⟨op.text.toList ++ ' ' :: r, p⟩ =
      some (op, ⟨' ' :: r, p.advance op.text.toList⟩) := by
  rcases AssignOp.Formed.cases hop with rfl | rfl | rfl | rfl | rfl | rfl
  all_goals simp [Lexer.symbol, assignSymbols, AssignOp.text, Cursor.literal?]

/-- In front of the sign of an assignment an operand stops. -/
theorem stops_assign {op : AssignOp} (hop : op.Formed) (r : List Char) :
    AtToken (op.text.toList ++ ' ' :: r) ∧ Stops 11 (' ' :: (op.text.toList ++ ' ' :: r)) := by
  have htoken : AtToken (op.text.toList ++ ' ' :: r) := by
    rcases AssignOp.Formed.cases hop with rfl | rfl | rfl | rfl | rfl | rfl
    case inr.inr.inr.inr.inl =>
      change AtToken ('/' :: '=' :: ' ' :: r)
      exact atToken_slash (by simp) (by simp)
    all_goals exact atToken_cons (by decide) (by decide) _
  refine ⟨htoken, stops_suffixed (endsWord_cons (by decide) _) ?_⟩
  rw [nextToken_cons_blank (by decide), nextToken_of_atToken htoken]
  rcases AssignOp.Formed.cases hop with rfl | rfl | rfl | rfl | rfl | rfl
  all_goals simp [AssignOp.text]

/-- An assignment is read if its target and its value are. -/
theorem readsAs_assign {op : AssignOp} (hop : op.Formed) {t v : Expr} {tt vt : List Char}
    (ht : ReadsAs 11 tt t) (hv : ReadsAs 1 vt v) (span : Span) :
    ReadsAs 1 (tt ++ ' ' :: (op.text.toList ++ ' ' :: vt)) (.assign op t v span) := by
  intro n rest hn hstop p
  have htext : tt ++ ' ' :: (op.text.toList ++ ' ' :: vt) ++ rest =
      tt ++ ' ' :: (op.text.toList ++ ' ' :: (vt ++ rest)) := by simp
  rw [htext] at hn ⊢
  obtain ⟨htoken, hstopOp⟩ := stops_assign hop (vt ++ rest)
  obtain ⟨t', c, hresult, ht', hc⟩ := ht n _ hn hstopOp p
  have hreadV :=
    hv n rest (by simp only [List.length_append, List.length_cons] at hn ⊢; omega) hstop
  obtain ⟨v', d, hresultV, hv', hd⟩ :=
    hreadV ((((p.advance tt).next ' ').advance op.text.toList).next ' ')
  have hc' : c.skipBlanks = ⟨op.text.toList ++ ' ' :: (vt ++ rest), (p.advance tt).next ' '⟩ := by
    rw [hc, Cursor.skipBlanks_cons_blank (by decide), Cursor.skipBlanks_of_atToken htoken]
  simp only [levelRule] at hresult hresultV
  have hstore : (store fullInner (suffixed n fullInner)
      ⟨tt ++ ' ' :: (op.text.toList ++ ' ' :: (vt ++ rest)), p⟩).result =
      some (.assign op t' v' (.between p d.pos), d) := by
    simp only [store, result_bind, result_spanned, hresult, Option.bind_some, result_blanks, hc',
      result_token, symbol_assign hop, Cursor.skipBlanks_cons_blank (by decide : isBlankChar ' '),
      Cursor.skipBlanks_of_atToken hreadV.atToken, fullInner_assignment, hresultV, result_pure,
      Option.map_some]
  refine ⟨.assign op t' v' (.between p d.pos), d, ?_,
    by simp [Expr.eraseSpans, Expr.asRead, ht', hv'], ?_⟩
  · simp only [levelRule]
    rw [assignmentFull_eq hn, result_reporting, result_orElse, hstore, Option.some_or]
  · simpa [Position.advance_append] using hd

/-- A sequence of at least two expressions is read if they are. -/
theorem readsAs_sequence {e f : Expr} {es : List Expr}
    (h : ∀ x ∈ e :: f :: es, ReadsAs 1 (x.charsAt 1) x) (span : Span) :
    ReadsAs 0 (itemsChars (e :: f :: es)) (.sequence (e :: f :: es) span) := by
  intro n rest hn hstop p
  rw [itemsChars_cons] at hn ⊢
  have hread : ∀ x ∈ e :: f :: es,
      ReadsItem assignmentFull (Expr.charsAt · 1) Expr.eraseSpans Expr.asRead (Stops 1) n x :=
    fun x hx => readsItem_expr (h x hx) n
  obtain ⟨a, as, c, hresult, ha, has, hc⟩ :=
    commaList_reads stops_comma (hstop.mono (Nat.zero_le 1)) (hstop.comma rfl) hread hn p
  obtain ⟨b, bs, rfl⟩ : ∃ b bs, as = b :: bs := by
    cases as with
    | nil => cases has
    | cons b bs => exact ⟨b, bs, rfl⟩
  refine ⟨.sequence (a :: b :: bs) (.between p c.pos), c, ?_, ?_, hc⟩
  · simp only [levelRule, sequence, result_reporting, result_bind, result_spanned, hresult,
      Option.map_some, Option.bind_some, List.isEmpty_cons, Bool.false_eq_true,
      if_false, result_pure]
  · simp only [Expr.eraseSpans, Expr.eraseSpansAll_eq, Expr.asRead, Expr.asReadAll_eq,
      List.map_cons, ha]
    rw [← List.map_cons, has, List.map_cons]

end Grammar

/-! ## Every expression -/

/-- The level at which the text of an expression is read: a choice needs an end that no assignment
goes on from. -/
def Expr.level (e : Expr) : Nat := if e.precedence = 2 then 1 else min e.precedence 11

/-- What may follow the text of an expression that is an operand. -/
def Expr.Before (e : Expr) : List Char → Prop :=
  match e with
  | .num _ _ => fun rest => EndsWord rest ∧ rest.head? ≠ some '.'
  | _ => EndsWord

/-- Where nothing goes on, every expression may stand. -/
theorem Expr.before_of_stops (e : Expr) {rest : List Char} (h : Stops 11 rest) : e.Before rest := by
  cases e with
  | num v s =>
    refine ⟨h.word, fun hdot => ?_⟩
    obtain ⟨r, rfl⟩ : ∃ r, rest = '.' :: r := by
      cases rest with
      | nil => cases hdot
      | cons c r =>
        cases hdot
        exact ⟨r, rfl⟩
    have hnext : nextToken ('.' :: r) = '.' :: r :=
      nextToken_of_atToken (atToken_cons (by decide) (by decide) r)
    have := h.suffix '.'
    rw [hnext] at this
    exact (this rfl).1 rfl
  | _ => exact h.word

/-- An opening mark may follow any operand, and a point any but a number. -/
theorem Expr.before_cons (e : Expr) {c : Char} (hc : isWordChar c = false)
    (hdot : c ≠ '.' ∨ ∀ v s, e ≠ .num v s) (r : List Char) : e.Before (c :: r) := by
  cases e with
  | num v s =>
    refine ⟨endsWord_cons hc r, ?_⟩
    rcases hdot with h | h
    · simpa using h
    · exact absurd rfl (h v s)
  | _ => exact endsWord_cons hc r

/-- The text of an expression is read as the expression, and leaves the loop open that it is part
of. -/
structure Expr.ReadsBack (e : Expr) : Prop where
  reads : ReadsAs e.level e.chars e
  continues : 11 ≤ e.precedence → ContinuesAs e.Before e.chars e
  chains : ∀ i (hi : i < 6), e.precedence = 3 + i → ChainsAs i hi e.chars e

namespace Expr

variable {e l r : Expr} {k : Nat}

/-- There are eleven levels. -/
theorem level_le : e.level ≤ 11 := by
  unfold level
  split
  · decide
  · omega

/-- An expression that binds tightly enough is read at that level. -/
theorem le_level (hk : k ≤ 11) (hk2 : k ≠ 2) (h : k ≤ e.precedence) : k ≤ e.level := by
  unfold level
  split
  · omega
  · omega

namespace ReadsBack

/-- A primary expression that is read back is read back at every level. -/
theorem of_continuesAs (hprec : 11 ≤ e.precedence) (h : ContinuesAs e.Before e.chars e) :
    e.ReadsBack := by
  refine ⟨?_, fun _ => h, fun i hi hp => by omega⟩
  have hlevel : e.level = 11 :=
    Nat.le_antisymm level_le (le_level (Nat.le_refl 11) (by decide) hprec)
  rw [hlevel]
  exact h.readsAs fun rest hrest => e.before_of_stops hrest

/-- Between the connectives and the operands, and below the connectives, there are no loops. -/
theorem of_readsAs (hprec : e.precedence < 3 ∨ 9 ≤ e.precedence ∧ e.precedence < 11)
    (h : ReadsAs e.level e.chars e) : e.ReadsBack :=
  ⟨h, fun hp => by omega, fun i hi hp => by omega⟩

/-- In parentheses every expression is read back that is read back without. -/
theorem parens (h : e.ReadsBack) : ContinuesAs (fun _ => True) ('(' :: (e.chars ++ [')'])) e :=
  continuesAs_parens (h.reads.loosen level_le (Nat.zero_le _))

/-- In a place that asks for a precedence, the text is read at its level. -/
theorem readsAs_charsAt (h : e.ReadsBack) (hk : k ≤ 11) (hk2 : k ≠ 2) :
    ReadsAs k (e.charsAt k) e := by
  rcases Nat.lt_or_ge e.precedence k with hlt | hge
  · rw [charsAt_of_lt hlt]
    exact (h.parens.readsAs fun _ _ => trivial).loosen (Nat.le_refl 11) hk
  · rw [charsAt_of_le hge]
    exact h.reads.loosen level_le (le_level hk hk2 hge)

/-- The left operand of a connective leaves the loop of the connective's level open. -/
theorem chainsAs_charsAt (h : e.ReadsBack) (i : Nat) (hi : i < 6) :
    ChainsAs i hi (e.charsAt (3 + i)) e := by
  rcases Nat.lt_trichotomy e.precedence (3 + i) with hlt | heq | hgt
  · rw [charsAt_of_lt hlt]
    exact chainsAs_of_readsAs
      ((h.parens.readsAs fun _ _ => trivial).loosen (Nat.le_refl 11) (by omega))
  · rw [charsAt_of_le (by omega)]
    exact h.chains i hi heq
  · have hsame : e.charsAt (3 + i) = e.charsAt (3 + (i + 1)) := by
      rw [charsAt_of_le (by omega), charsAt_of_le (by omega)]
    rw [hsame]
    exact chainsAs_of_readsAs (h.readsAs_charsAt (by omega) (by omega))

/-- An expression with a connective is read back if its sides are. -/
theorem connective (op : Connective) (hl : l.ReadsBack) (hr : r.ReadsBack)
    (hprec : e.precedence = op.precedence)
    (hchars : e.chars =
      l.charsAt op.precedence ++ ' ' :: (op.text.toList ++ ' ' :: r.charsAt (op.precedence + 1)))
    (herase : ∀ l' r', l'.eraseSpans = l.asRead → r'.eraseSpans = r.asRead →
      (join l' (op, r')).eraseSpans = e.asRead) :
    e.ReadsBack := by
  obtain ⟨hge, hle⟩ := precedence_connective op
  obtain ⟨i, hi, hop⟩ : ∃ i, i < 6 ∧ op.precedence = 3 + i :=
    ⟨op.precedence - 3, by omega, by omega⟩
  have hchain : ChainsAs i hi e.chars e := by
    rw [hchars, hop]
    exact (hl.chainsAs_charsAt i hi).join hop (hr.readsAs_charsAt (by omega) (by omega)) herase
  have hlevel : e.level = 3 + i := by
    unfold level
    rw [if_neg (by omega)]
    omega
  refine ⟨?_, fun h => by omega, fun j hj h => ?_⟩
  · rw [hlevel]
    exact hchain.readsAs
  · obtain rfl : j = i := by omega
    exact hchain

/-- The object of a member is read with what may follow it. -/
theorem object {o : Expr} (h : o.ReadsBack) (computed : Bool) : ∃ ok,
    ContinuesAs ok (BranchPaint.parens (o.needsParensAsObject computed) o.text).toList o ∧
      (∀ r, ok ('[' :: r)) ∧ (computed = false → ∀ r, ok ('.' :: r)) := by
  cases hneeds : o.needsParensAsObject computed with
  | true =>
    refine ⟨fun _ => True, ?_, fun _ => trivial, fun _ _ => trivial⟩
    have := h.parens
    simpa [BranchPaint.parens, chars] using this
  | false =>
    have hprec : 11 ≤ o.precedence := by
      cases o with
      | num v s => exact (by decide : 11 ≤ 13)
      | _ => exact Nat.le_of_not_lt (of_decide_eq_false hneeds)
    refine ⟨o.Before, h.continues hprec, o.before_cons (by decide) (.inl (by decide)),
      fun hcomputed => ?_⟩
    refine o.before_cons (by decide) (.inr fun v s hnum => ?_)
    subst hcomputed hnum
    cases hneeds

/-- The function of a call is read with what may follow it. -/
theorem callee {f : Expr} (h : f.ReadsBack) :
    ∃ ok, ContinuesAs ok (f.charsAt 11) f ∧ ∀ r, ok ('(' :: r) := by
  rcases Nat.lt_or_ge f.precedence 11 with hlt | hge
  · rw [charsAt_of_lt hlt]
    exact ⟨fun _ => True, h.parens, fun _ => trivial⟩
  · rw [charsAt_of_le hge]
    exact ⟨f.Before, h.continues hge, f.before_cons (by decide) (.inl (by decide))⟩

end ReadsBack

/-- Parentheses stand around an operand if it binds less tightly. -/
theorem parens_eq_textAt (e : Expr) (k : Nat) :
    BranchPaint.parens (e.precedence < k) e.text = e.textAt k := rfl

/-- Every expression whose nodes are formed reads back. -/
theorem readsBack (e : Expr) (he : e.Forall Formed) : e.ReadsBack := by
  induction e using Expr.induction with
  | step e ih =>
  have hin : ∀ c ∈ e.children, c.ReadsBack := fun c hc => ih c hc (he.inside c hc)
  have hhere := he.here
  clear ih he
  cases e with
  | num v s =>
    refine .of_continuesAs (by decide : 11 ≤ 13) ?_
    cases hfinite : v.isFinite with
    | true => exact (continuesAs_number hhere hfinite s).weaken fun _ h => h.1.endsNumber h.2
    | false => exact (continuesAs_infinity hhere hfinite s).weaken fun _ h => h.1
  | str v s =>
    exact .of_continuesAs (by decide : 11 ≤ 13) ((continuesAs_string v s).weaken fun _ _ => trivial)
  | bool v s => exact .of_continuesAs (by decide : 11 ≤ 13) (continuesAs_bool v s)
  | null s => exact .of_continuesAs (by decide : 11 ≤ 13) (continuesAs_null s)
  | ident name s => exact .of_continuesAs (by decide : 11 ≤ 13) (continuesAs_ident hhere s)
  | list es s =>
    refine .of_continuesAs (by decide : 11 ≤ 13)
      ((continuesAs_list (fun c hc => ?_) s).weaken fun _ _ => trivial)
    exact (hin c hc).readsAs_charsAt (by decide) (by decide)
  | member o p computed s =>
    cases computed with
    | false =>
      obtain ⟨name, t, rfl, hname⟩ := hhere rfl
      obtain ⟨ok, ho, -, hdot⟩ := (hin o (by simp [children])).object false
      refine .of_continuesAs (by decide : 11 ≤ 12) ?_
      have hchars : (member o (.ident name t) false s).chars =
          (BranchPaint.parens (o.needsParensAsObject false) o.text).toList ++
            '.' :: name.toList := by
        simp [chars, text, precedence, Precedence.primary, BranchPaint.parens]
      rw [hchars]
      exact continuesAs_property ho hname (hdot rfl) t s
    | true =>
      obtain ⟨ok, ho, hopen, -⟩ := (hin o (by simp [children])).object true
      have hp := (hin p (by simp [children])).readsAs_charsAt (Nat.zero_le 11) (by decide)
      rw [charsAt_of_le (Nat.zero_le _)] at hp
      refine .of_continuesAs (by decide : 11 ≤ 12) ?_
      have hchars : (member o p true s).chars =
          (BranchPaint.parens (o.needsParensAsObject true) o.text).toList ++
            '[' :: (p.chars ++ [']']) := by
        simp [chars, text]
      rw [hchars]
      exact (continuesAs_index ho hp hopen s).weaken fun _ _ => trivial
  | call f args s =>
    obtain ⟨ok, hf, hopen⟩ := (hin f (by simp [children])).callee
    have hargs : ∀ a ∈ args, ReadsAs 1 (a.charsAt 1) a := fun a ha =>
      (hin a (by simp [children, ha])).readsAs_charsAt (by decide) (by decide)
    refine .of_continuesAs (by decide : 11 ≤ 11) ?_
    have hchars : (call f args s).chars = f.charsAt Precedence.call ++ '(' ::
        (itemsChars args ++ [')']) := by
      simp [chars, text, charsAt, parens_eq_textAt, itemsChars]
    rw [hchars]
    exact (continuesAs_call hf hargs hopen s).weaken fun _ _ => trivial
  | binary op l r s =>
    refine .connective (.binary op) (hin l (by simp [children])) (hin r (by simp [children]))
      rfl ?_ ?_
    · simp only [chars, text, charsAt, parens_eq_textAt, Connective.text, Connective.precedence]
      simp
    · intro l' r' hl hr
      simp [join, eraseSpans, asRead, hl, hr]
  | logical op l r s =>
    refine .connective (.logical op) (hin l (by simp [children])) (hin r (by simp [children]))
      rfl ?_ ?_
    · simp only [chars, text, charsAt, parens_eq_textAt, Connective.text, Connective.precedence]
      simp
    · intro l' r' hl hr
      simp [join, eraseSpans, asRead, hl, hr]
  | unary op a s =>
    have ha := (hin a (by simp [children])).readsAs_charsAt (show 9 ≤ 11 by decide) (by decide)
    refine .of_readsAs (.inr (by decide : 9 ≤ 9 ∧ 9 < 11)) ?_
    have hchars : (unary op a s).chars =
        op.text.toList ++
          ((op.gap (a.textAt Precedence.unary)).toList ++ a.charsAt Precedence.unary) := by
      simp [chars, text, charsAt, parens_eq_textAt]
    rw [hchars]
    exact readsAs_unary ha op s
  | update op before a s =>
    cases before with
    | true =>
      have ha := (hin a (by simp [children])).readsAs_charsAt (show 9 ≤ 11 by decide) (by decide)
      refine .of_readsAs (.inr (by decide : 9 ≤ 9 ∧ 9 < 11)) ?_
      have hchars : (update op true a s).chars = op.text.toList ++ a.charsAt Precedence.unary := by
        simp [chars, text, charsAt, parens_eq_textAt]
      rw [hchars]
      exact readsAs_updateBefore ha op s
    | false =>
      have ha := (hin a (by simp [children])).readsAs_charsAt (show 11 ≤ 11 by decide) (by decide)
      refine .of_readsAs (.inr (by decide : 9 ≤ 10 ∧ 10 < 11)) ?_
      have hchars : (update op false a s).chars = a.charsAt Precedence.call ++ op.text.toList := by
        simp [chars, text, charsAt, parens_eq_textAt]
      rw [hchars]
      exact readsAs_updateAfter ha op s
  | assign op t v s =>
    have ht := (hin t (by simp [children])).readsAs_charsAt (show 11 ≤ 11 by decide) (by decide)
    have hv := (hin v (by simp [children])).readsAs_charsAt (show 1 ≤ 11 by decide) (by decide)
    refine .of_readsAs (.inl (by decide : 1 < 3)) ?_
    have hchars : (assign op t v s).chars =
        t.charsAt Precedence.call ++ ' ' ::
          (op.text.toList ++ ' ' :: v.charsAt Precedence.assignment) := by
      simp [chars, text, charsAt, parens_eq_textAt]
    rw [hchars]
    exact readsAs_assign hhere ht hv s
  | ternary c t e s =>
    have hc := (hin c (by simp [children])).readsAs_charsAt (show 3 ≤ 11 by decide) (by decide)
    have ht := (hin t (by simp [children])).readsAs_charsAt (show 1 ≤ 11 by decide) (by decide)
    have he := (hin e (by simp [children])).readsAs_charsAt (show 1 ≤ 11 by decide) (by decide)
    refine .of_readsAs (.inl (by decide : 2 < 3)) ?_
    have hchars : (ternary c t e s).chars =
        c.charsAt Precedence.logicalOr ++ ' ' :: '?' :: ' ' :: (t.charsAt Precedence.assignment ++
          ' ' :: ':' :: ' ' :: e.charsAt Precedence.assignment) := by
      simp [chars, text, charsAt, parens_eq_textAt]
    rw [hchars]
    exact readsAs_ternary hc ht he s
  | sequence es s =>
    have htwo : 2 ≤ es.length := hhere
    obtain ⟨a, b, cs, rfl⟩ : ∃ a b cs, es = a :: b :: cs := by
      rcases es with _ | ⟨a, _ | ⟨b, cs⟩⟩
      · cases htwo
      · exact absurd htwo (Nat.not_succ_le_self 1)
      · exact ⟨a, b, cs, rfl⟩
    have hes : ∀ x ∈ a :: b :: cs, ReadsAs 1 (x.charsAt 1) x := fun x hx =>
      (hin x hx).readsAs_charsAt (by decide) (by decide)
    exact .of_readsAs (.inl (by decide : 0 < 3)) (readsAs_sequence hes s)

/-- In a place that asks for a precedence, the text of an expression is read at that level. -/
theorem readsAs_charsAt (e : Expr) (he : e.Forall Formed) (hk : k ≤ 11) (hk2 : k ≠ 2) :
    ReadsAs k (e.charsAt k) e :=
  (e.readsBack he).readsAs_charsAt hk hk2

end Expr

end BranchPaint
