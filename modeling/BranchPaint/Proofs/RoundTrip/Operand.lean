import BranchPaint.Proofs.RoundTrip.Follow

/-!
# Operands read back from their canonical text

Members and calls nest to the left, but the grammar reads a primary and then suffixes in a loop.
`ContinuesAs` is the invariant that joins the two: reading the text of such an expression leaves the
loop of suffixes to go on with what follows, with the expression read so far in its hand. Literals,
names, lists and anything in parentheses start such a loop (`continuesAs_of_primary`), and each
suffix is one more round of it (`ContinuesAs.suffix`).
-/

namespace BranchPaint

open Rule Grammar

/-- The characters of an expression that stands alone. -/
def Expr.chars (e : Expr) : List Char := e.text.toList

/-- The characters of an expression in a place that asks for a precedence. -/
def Expr.charsAt (e : Expr) (k : Nat) : List Char := (e.textAt k).toList

/-- An operand that binds tightly enough stands without parentheses. -/
theorem Expr.charsAt_of_le {e : Expr} {k : Nat} (h : k ≤ e.precedence) : e.charsAt k = e.chars := by
  simp [charsAt, textAt, parens, chars, Nat.not_lt.2 h]

/-- An operand that binds less tightly stands in parentheses. -/
theorem Expr.charsAt_of_lt {e : Expr} {k : Nat} (h : e.precedence < k) :
    e.charsAt k = '(' :: (e.chars ++ [')']) := by
  simp [charsAt, textAt, parens, chars, h]

namespace Grammar

/-! ## Operands and their suffixes -/

/-- Reading `text` where `ok` text follows comes to the loop of suffixes, with `e` read so far. -/
def ContinuesAs (ok : List Char → Prop) (text : List Char) (e : Expr) : Prop :=
  ∀ n rest, (text ++ rest).length < n → ok rest → ∀ p, ∃ e' c m, rest.length < m ∧
    e'.eraseSpans = e.asRead ∧ c.SameToken ⟨rest, p.advance text⟩ ∧
    (suffixed n fullInner ⟨text ++ rest, p⟩).result =
      (many (suffixItem n fullInner) m c).result.map fun y => (y.1.foldl attach e', y.2)

/-- Less may follow. -/
theorem ContinuesAs.weaken {ok ok' : List Char → Prop} {text : List Char} {e : Expr}
    (h : ContinuesAs ok text e) (hok : ∀ rest, ok' rest → ok rest) : ContinuesAs ok' text e :=
  fun n rest hn hrest p => h n rest hn (hok rest hrest) p

/-- No suffix starts with another character. -/
theorem suffixItem_of_head {n : Nat} {inner : Inner} {cs : List Char} (p : Position)
    (h : ∀ c ∈ cs.head?, c ≠ '.' ∧ c ≠ '[' ∧ c ≠ '(') :
    (suffixItem n inner ⟨cs, p⟩).result = none := by
  cases cs with
  | nil => simp [suffixItem, propertySuffix, indexSuffix, callSuffix]
  | cons d r =>
    obtain ⟨hdot, hbracket, hparen⟩ := h d rfl
    simp [suffixItem, propertySuffix, indexSuffix, callSuffix, Cursor.literal?_cons_of_ne hdot,
      Cursor.literal?_cons_of_ne hbracket, Cursor.literal?_cons_of_ne hparen]

/-- Where no suffix follows, the loop ends and the expression has been read. -/
theorem ContinuesAs.readsAs {ok : List Char → Prop} {text : List Char} {e : Expr}
    (h : ContinuesAs ok text e) (hok : ∀ rest, Stops 11 rest → ok rest) : ReadsAs 11 text e := by
  intro n rest hn hstop p
  obtain ⟨e', c, m, hm, he, hc, hread⟩ := h n rest hn (hok rest hstop) p
  obtain ⟨q, hq⟩ := hc.eq_next
  have hitem : (suffixItem n fullInner c.skipBlanks).result = none := by
    rw [hq]
    exact suffixItem_of_head q hstop.suffix
  refine ⟨e', c, ?_, he, hc⟩
  simp only [levelRule]
  rw [hread, result_many_of_none m hitem]
  rfl

/-- An operand comes to the loop of suffixes at once. -/
theorem continuesAs_of_primary {ok : List Char → Prop} {text : List Char} {e : Expr}
    (h : ∀ n rest, (text ++ rest).length < n → ok rest → ∀ p, ∃ e', e'.eraseSpans = e.asRead ∧
      (primary n fullInner ⟨text ++ rest, p⟩).result = some (e', ⟨rest, p.advance text⟩)) :
    ContinuesAs ok text e := by
  intro n rest hn hok p
  obtain ⟨e', he, hread⟩ := h n rest hn hok p
  have hrest : rest.length < n := by
    simp only [List.length_append] at hn
    omega
  refine ⟨e', (⟨rest, p.advance text⟩ : Cursor).skipBlanks, n, hrest, he,
    (Cursor.SameToken.refl _).skipBlanks_left, ?_⟩
  rw [result_suffixed, hread, Option.bind_some]

/-- One more suffix is one more round of the loop. -/
theorem ContinuesAs.suffix {ok ok' : List Char → Prop} {text sfx : List Char} {o e : Expr}
    (h : ContinuesAs ok text o) (hne : sfx ≠ []) (htoken : ∀ rest, AtToken (sfx ++ rest))
    (hok : ∀ rest, ok' rest → ok (sfx ++ rest))
    (hitem : ∀ n rest, (sfx ++ rest).length < n → ok' rest → ∀ p, ∃ x,
      (suffixItem n fullInner ⟨sfx ++ rest, p⟩).result = some (x, ⟨rest, p.advance sfx⟩) ∧
      ∀ o', o'.eraseSpans = o.asRead → (attach o' x).eraseSpans = e.asRead) :
    ContinuesAs ok' (text ++ sfx) e := by
  intro n rest hn hrest p
  rw [List.append_assoc] at hn ⊢
  obtain ⟨o', c, m, hm, ho, hc, hread⟩ := h n (sfx ++ rest) hn (hok rest hrest) p
  have hlen : (sfx ++ rest).length < n := by
    simp only [List.length_append] at hn ⊢
    omega
  obtain ⟨x, hx, hattach⟩ := hitem n rest hlen hrest (p.advance text)
  have hround : (suffixItem n fullInner c.skipBlanks).result =
      some (x, ⟨rest, (p.advance text).advance sfx⟩) := by
    rw [hc, Cursor.skipBlanks_of_atToken (htoken rest), hx]
  have hpos := List.length_pos_iff.2 hne
  obtain ⟨m, rfl⟩ : ∃ k, m = k + 1 := ⟨m - 1, by omega⟩
  refine ⟨attach o' x, ⟨rest, p.advance (text ++ sfx)⟩, m, ?_, hattach o' ho, .refl _, ?_⟩
  · simp only [List.length_append] at hm
    omega
  · rw [hread, result_many_of_some m hround, Position.advance_append]
    cases (many (suffixItem n fullInner) m ⟨rest, (p.advance text).advance sfx⟩).result with
    | none => rfl
    | some y => rfl

/-! ## Operands -/

/-- A finite number is read back, unless more of a number follows. -/
theorem continuesAs_number {v : Float} (hv : IsUnsigned v) (hfinite : v.isFinite) (span : Span) :
    ContinuesAs Decimal.EndsNumber (Expr.num v span).chars (.num v span) := by
  refine continuesAs_of_primary fun n rest hn hrest p => ?_
  have hread : Lexer.number ⟨(Expr.num v span).chars ++ rest, p⟩ = _ :=
    Lexer.number_numberText (isLiteral_of_isUnsigned hv hfinite) hrest p
  refine ⟨.num v (.between p (p.advance (Expr.num v span).chars)), (if_pos hfinite).symm, ?_⟩
  simp only [primary, result_firstOf_cons, result_leaf, hread, Option.map_some, Option.some_or]
  rfl

/-- A quoted text is read back, whatever follows. -/
theorem continuesAs_string (v : String) (span : Span) :
    ContinuesAs (fun _ => True) (Expr.str v span).chars (.str v span) := by
  refine continuesAs_of_primary fun n rest hn _ p => ?_
  have htext : (Expr.str v span).chars = '\'' :: (v.toList.flatMap Quoted.escape ++ ['\'']) :=
    Quoted.toList_quote v
  have hnumber : Lexer.number ⟨(Expr.str v span).chars ++ rest, p⟩ = none := by
    rw [htext]
    exact Lexer.number_of_head (by decide) (by decide) _ _
  have hread : Quoted.scan? ⟨(Expr.str v span).chars ++ rest, p⟩ = _ := Quoted.scan?_quote v rest p
  refine ⟨.str v (.between p (p.advance (Expr.str v span).chars)), rfl, ?_⟩
  simp only [primary, result_firstOf_cons, result_leaf, hnumber, hread, Option.map_some,
    Option.map_none, Option.none_or, Option.some_or]
  rfl

/-- A word is a truth value, nothing, or an identifier. -/
theorem primary_word {w : String} (hw : IsWord w) (rest : List Char) (n : Nat) (inner : Inner)
    (p : Position) : (primary n inner ⟨w.toList ++ rest, p⟩).result =
      ((Lexer.boolean ⟨w.toList ++ rest, p⟩).map fun x =>
        (Expr.bool x.1 (.between p x.2.pos), x.2)).or
        (((Lexer.keyword "null" ⟨w.toList ++ rest, p⟩).map fun x =>
          (Expr.null (.between p x.2.pos), x.2)).or
          ((Lexer.identifier ⟨w.toList ++ rest, p⟩).map fun x =>
            (Expr.ident x.1 (.between p x.2.pos), x.2))) := by
  obtain ⟨c, cs, htext, hc, -⟩ := hw
  rw [htext]
  have hnumber : Lexer.number ⟨c :: cs ++ rest, p⟩ = none := by
    refine Lexer.number_of_head ?_ (ne_of_class hc (by decide)) _ _
    cases hd : c.isDigit with
    | false => rfl
    | true => rw [isWordStart_of_isDigit hd] at hc; cases hc
  have hquoted : Quoted.scan? ⟨c :: cs ++ rest, p⟩ = none :=
    Quoted.scan?_of_head (ne_of_class hc (by decide)) (ne_of_class hc (by decide)) _ _
  have hlist : (⟨c :: cs ++ rest, p⟩ : Cursor).literal? ['['] = none :=
    Cursor.literal?_cons_of_ne (ne_of_class hc (by decide)) _ _ _
  have hparen : (⟨c :: cs ++ rest, p⟩ : Cursor).literal? ['('] = none :=
    Cursor.literal?_cons_of_ne (ne_of_class hc (by decide)) _ _ _
  simp only [primary, result_firstOf_cons, result_leaf, hnumber, hquoted,
    listLiteral_of_literal? hlist, parenthesized_of_literal? hparen, result_firstOf_nil,
    Option.map_none, Option.none_or, Option.or_none]

/-- A truth value is read back, unless the word goes on. -/
theorem continuesAs_bool (v : Bool) (span : Span) :
    ContinuesAs EndsWord (Expr.bool v span).chars (.bool v span) := by
  refine continuesAs_of_primary fun n rest hn hrest p => ?_
  refine ⟨.bool v (.between p (p.advance (Expr.bool v span).chars)), rfl, ?_⟩
  cases v
  · have hw : IsWord "false" := by decide
    change (primary n fullInner ⟨"false".toList ++ rest, p⟩).result = _
    rw [primary_word hw, Lexer.boolean_append hw hrest]
    rfl
  · have hw : IsWord "true" := by decide
    change (primary n fullInner ⟨"true".toList ++ rest, p⟩).result = _
    rw [primary_word hw, Lexer.boolean_append hw hrest]
    rfl

/-- The word `null` is read back, unless it goes on. -/
theorem continuesAs_null (span : Span) :
    ContinuesAs EndsWord (Expr.null span).chars (.null span) := by
  refine continuesAs_of_primary fun n rest hn hrest p => ?_
  refine ⟨.null (.between p (p.advance (Expr.null span).chars)), rfl, ?_⟩
  have hw : IsWord "null" := by decide
  change (primary n fullInner ⟨"null".toList ++ rest, p⟩).result = _
  rw [primary_word hw, Lexer.boolean_append hw hrest, Lexer.keyword_append _ hw hrest]
  rfl

/-- A name is read back, unless it goes on. -/
theorem continuesAs_ident {name : String} (hname : IsIdentifier name) (span : Span) :
    ContinuesAs EndsWord (Expr.ident name span).chars (.ident name span) := by
  refine continuesAs_of_primary fun n rest hn hrest p => ?_
  refine ⟨.ident name (.between p (p.advance (Expr.ident name span).chars)), rfl, ?_⟩
  have hne : ∀ w ∈ reservedWords, name ≠ w := by
    rintro w hw rfl
    exact hname.2 hw
  change (primary n fullInner ⟨name.toList ++ rest, p⟩).result = _
  rw [primary_word hname.1, Lexer.boolean_append hname.1 hrest,
    Lexer.keyword_append _ hname.1 hrest, Lexer.identifier_append hname hrest,
    if_neg (hne _ (by decide)), if_neg (hne _ (by decide)), if_neg (hne _ (by decide))]
  rfl

/-- A number that is too large is read as a name. -/
theorem continuesAs_infinity {v : Float} (hv : IsUnsigned v) (hinfinite : v.isFinite = false)
    (span : Span) : ContinuesAs EndsWord (Expr.num v span).chars (.num v span) := by
  have hchars : (Expr.num v span).chars = (Expr.name "Infinity").chars :=
    congrArg String.toList (numberText_of_isUnsigned hv hinfinite)
  have hread : (Expr.num v span).asRead = (Expr.name "Infinity").asRead :=
    if_neg (by simp [hinfinite])
  have hname : ContinuesAs EndsWord (Expr.name "Infinity").chars (.name "Infinity") :=
    continuesAs_ident (by decide) .nowhere
  unfold ContinuesAs at hname ⊢
  rwa [hchars, hread]

/-- Parentheses make an operand of any expression. -/
theorem continuesAs_parens {text : List Char} {e : Expr} (h : ReadsAs 0 text e) :
    ContinuesAs (fun _ => True) ('(' :: (text ++ [')'])) e := by
  refine continuesAs_of_primary fun n rest hn _ p => ?_
  have htext : '(' :: (text ++ [')']) ++ rest = '(' :: (text ++ ')' :: rest) := by simp
  rw [htext] at hn ⊢
  have hread := h n (')' :: rest) (by simp only [List.length_cons] at hn; omega)
    (stops_mark_cons rest (by decide) (by decide))
  obtain ⟨e', c, hresult, he, hc⟩ := hread (p.next '(')
  have hclose : c.skipBlanks = ⟨')' :: rest, (p.next '(').advance text⟩ := by
    rw [hc]
    exact Cursor.skipBlanks_of_atToken (atToken_cons (by decide) (by decide) _) _
  refine ⟨e', he, ?_⟩
  have hword : Lexer.word ⟨'(' :: (text ++ ')' :: rest), p⟩ = none :=
    Lexer.word_of_head (by decide) _ _
  have hlist : (⟨'(' :: (text ++ ')' :: rest), p⟩ : Cursor).literal? ['['] = none :=
    Cursor.literal?_cons_of_ne (by decide) _ _ _
  have hparens : (parenthesized n fullInner ⟨'(' :: (text ++ ')' :: rest), p⟩).result =
      some (e', ⟨rest, ((p.next '(').advance text).next ')'⟩) := by
    simp only [levelRule] at hresult
    simp only [parenthesized, result_bind, result_literal, show "(".toList = ['('] from rfl,
      show ")".toList = [')'] from rfl, Cursor.literal?_cons_self, Cursor.literal?_nil,
      Option.map_some, Option.bind_some, result_blanks, Cursor.skipBlanks_of_atToken hread.atToken,
      fullInner_assignment, hresult, hclose, result_pure]
  simp only [primary, result_firstOf_cons, result_leaf,
    Lexer.number_of_head (by decide : '('.isDigit = false) (by decide),
    Quoted.scan?_of_head (by decide : '(' ≠ '\'') (by decide), Lexer.boolean_of_word hword,
    Lexer.keyword_of_word hword, Lexer.identifier_of_word hword, listLiteral_of_literal? hlist,
    hparens, result_firstOf_nil, Option.map_none, Option.none_or, Option.some_or]
  simp [Position.advance_append]

/-! ## Lists of items -/

/-- Texts with commas between them are the first and then each with its comma. -/
theorem toList_intercalate (t : String) (ts : List String) :
    (", ".intercalate (t :: ts)).toList = t.toList ++ tailText String.toList ts := by
  induction ts generalizing t with
  | nil => simp
  | cons u ts ih => simp [String.intercalate_cons_cons, ih]

/-- The characters of items with commas between them. -/
def itemsChars (es : List Expr) : List Char := (", ".intercalate (Expr.itemTexts es)).toList

/-- Items are the first of them and the others behind commas. -/
theorem itemsChars_cons (e : Expr) (es : List Expr) :
    itemsChars (e :: es) = e.charsAt 1 ++ tailText (Expr.charsAt · 1) es := by
  rw [itemsChars, Expr.itemTexts_eq, List.map_cons, toList_intercalate]
  simp [tailText, List.flatMap_map, Expr.charsAt, Precedence.assignment]

/-- An item is read as an assignment or anything tighter. -/
theorem readsItem_expr {e : Expr} (h : ReadsAs 1 (e.charsAt 1) e) (n : Nat) :
    ReadsItem assignmentFull (Expr.charsAt · 1) Expr.eraseSpans Expr.asRead (Stops 1) n e := by
  intro rest hrest hn
  have hread := h n rest hn hrest
  refine ⟨hread.atToken, fun q => ?_⟩
  obtain ⟨e', c, hresult, he, hc⟩ := hread q
  exact ⟨e', c, hresult, he, hc⟩

/-- At a comma no expression goes on. -/
theorem stops_comma (r : List Char) : Stops 1 (',' :: r) :=
  stops_mark_cons r (by decide) (fun _ => Nat.le_refl 1)

/-- Items in front of a closing mark are read one by one. -/
theorem items_reads {es : List Expr} (h : ∀ e ∈ es, ReadsAs 1 (e.charsAt 1) e)
    {mark : Char} (hmark : mark ∈ [')', ']']) {n : Nat} {rest : List Char}
    (hn : (itemsChars es ++ mark :: rest).length < n) :
    AtToken (itemsChars es ++ mark :: rest) ∧ ∀ p, ∃ es' c,
      (items n assignmentFull ⟨itemsChars es ++ mark :: rest, p⟩).result = some (es', c) ∧
      es'.map Expr.eraseSpans = es.map Expr.asRead ∧
        c.SameToken ⟨mark :: rest, p.advance (itemsChars es)⟩ := by
  have hend : mark ∈ endMarks ∧ mark ≠ ',' := by
    simp only [List.mem_cons, List.not_mem_nil, or_false] at hmark
    rcases hmark with rfl | rfl
    all_goals decide
  cases es with
  | nil =>
    refine ⟨atToken_mark hend.1 rest, fun p => ⟨[], ⟨mark :: rest, p⟩, ?_, rfl, .refl _⟩⟩
    have hlist : (commaList n assignmentFull ⟨mark :: rest, p⟩).result = none := by
      simp only [commaList, result_bind, (noExpr_mark hend.1 rest p).assignmentFull,
        Option.bind_none]
    change (items n assignmentFull ⟨mark :: rest, p⟩).result = _
    simp only [items, result_bind, result_optional_of_none hlist, Option.bind_some, result_pure]
  | cons e es =>
    rw [itemsChars_cons] at hn ⊢
    have hread : ∀ x ∈ e :: es,
        ReadsItem assignmentFull (Expr.charsAt · 1) Expr.eraseSpans Expr.asRead (Stops 1) n x :=
      fun x hx => readsItem_expr (h x hx) n
    have hstop : Stops 1 (mark :: rest) := stops_mark_cons rest hend.1 fun _ => Nat.le_refl 1
    have hcomma : (nextToken (mark :: rest)).head? ≠ some ',' := by
      rw [nextToken_of_atToken (atToken_mark hend.1 rest)]
      simpa using hend.2
    have htoken := (hread e List.mem_cons_self _ (ok_tailText stops_comma hstop es)
      (by rw [← List.append_assoc]; exact hn)).1
    refine ⟨by rw [List.append_assoc]; exact htoken, fun p => ?_⟩
    obtain ⟨a, as, c, hresult, ha, has, hc⟩ := commaList_reads stops_comma hstop hcomma hread hn p
    refine ⟨a :: as, c, ?_, by rw [List.map_cons, List.map_cons, ha, has], hc⟩
    simp only [items, result_bind, result_optional_of_some hresult, Option.bind_some, result_pure]

/-- A list is read back if its elements are. -/
theorem continuesAs_list {es : List Expr} (h : ∀ e ∈ es, ReadsAs 1 (e.charsAt 1) e) (span : Span) :
    ContinuesAs (fun _ => True) (Expr.list es span).chars (.list es span) := by
  refine continuesAs_of_primary fun n rest hn _ p => ?_
  have hchars : (Expr.list es span).chars = '[' :: (itemsChars es ++ [']']) := by
    simp [Expr.chars, Expr.text, itemsChars]
  have htext : (Expr.list es span).chars ++ rest = '[' :: (itemsChars es ++ ']' :: rest) := by
    rw [hchars]
    simp
  rw [htext] at hn ⊢
  have hlen : (itemsChars es ++ ']' :: rest).length < n := by
    simp only [List.length_cons] at hn
    omega
  obtain ⟨htoken, hitems⟩ := items_reads h (by decide) hlen
  obtain ⟨es', c, hresult, hes, hc⟩ := hitems (p.next '[')
  have hclose : c.skipBlanks = ⟨']' :: rest, (p.next '[').advance (itemsChars es)⟩ := by
    rw [hc]
    exact Cursor.skipBlanks_of_atToken (atToken_mark (by decide) _) _
  refine ⟨.list es' (.between p (p.advance (Expr.list es span).chars)), ?_, ?_⟩
  · simp [Expr.eraseSpans, Expr.asRead, hes]
  have hword : Lexer.word ⟨'[' :: (itemsChars es ++ ']' :: rest), p⟩ = none :=
    Lexer.word_of_head (by decide) _ _
  have hcomma : (literal "," ⟨']' :: rest, (p.next '[').advance (itemsChars es)⟩).result =
      none := by
    simp [Cursor.literal?]
  have hlist : (listLiteral n fullInner ⟨'[' :: (itemsChars es ++ ']' :: rest), p⟩).result =
      some (.list es' (.between p (((p.next '[').advance (itemsChars es)).next ']')),
        ⟨rest, ((p.next '[').advance (itemsChars es)).next ']'⟩) := by
    simp only [listLiteral, result_reporting, result_bind, result_spanned, result_literal,
      show "[".toList = ['['] from rfl, show "]".toList = [']'] from rfl,
      Cursor.literal?_cons_self, Cursor.literal?_nil, Option.map_some,
      Option.bind_some, result_blanks, Cursor.skipBlanks_of_atToken htoken,
      fullInner_assignment, hresult, hclose, result_optional_of_none hcomma,
      Cursor.skipBlanks_of_atToken (atToken_mark (by decide : ']' ∈ endMarks) rest), result_pure]
  simp only [primary, result_firstOf_cons, result_leaf,
    Lexer.number_of_head (by decide : '['.isDigit = false) (by decide),
    Quoted.scan?_of_head (by decide : '[' ≠ '\'') (by decide), Lexer.boolean_of_word hword,
    Lexer.keyword_of_word hword, hlist, Option.map_none, Option.none_or, Option.some_or, hchars]
  simp [Position.advance_append]

/-! ## Suffixes -/

/-- A dotted name behind an object. -/
theorem continuesAs_property {ok : List Char → Prop} {text : List Char} {o : Expr}
    (h : ContinuesAs ok text o) {name : String} (hname : IsWord name) (hok : ∀ r, ok ('.' :: r))
    (nameSpan span : Span) :
    ContinuesAs EndsWord (text ++ '.' :: name.toList)
      (.member o (.ident name nameSpan) false span) := by
  refine h.suffix (by simp) (fun rest => atToken_cons (by decide) (by decide) _)
    (fun rest _ => hok _) ?_
  intro n rest hn hrest p
  have hread := Lexer.word_append hname hrest (p.next '.')
  have htoken : AtToken (name.toList ++ rest) := by
    obtain ⟨c, cs, hc, hstart, -⟩ := hname
    rw [hc]
    exact atToken_of_startsExpr (startsOperand_startsExpr c (isWordStart_startsOperand c hstart)) _
  have hitem : (propertySuffix ⟨'.' :: (name.toList ++ rest), p⟩).result =
      some (.property name (.between (p.next '.') ((p.next '.').advance name.toList)),
        ⟨rest, (p.next '.').advance name.toList⟩) := by
    simp only [propertySuffix, result_reporting, result_bind, result_literal,
      show ".".toList = ['.'] from rfl, Cursor.literal?_cons_self, Cursor.literal?_nil,
      Option.map_some, Option.bind_some, result_blanks, Cursor.skipBlanks_of_atToken htoken,
      result_spanned, result_token, hread, result_pure]
  refine ⟨(.property name (.between (p.next '.') ((p.next '.').advance name.toList)),
    .between p ((p.next '.').advance name.toList)), ?_, ?_⟩
  · simp only [List.cons_append, suffixItem, result_spanned, result_firstOf_cons, hitem,
      Option.some_or, Option.map_some, Position.advance_cons]
  · intro o' ho
    simp [attach, Expr.eraseSpans, Expr.asRead, ho]

/-- An index is read behind an object. -/
theorem continuesAs_index {ok : List Char → Prop} {text index : List Char} {o i : Expr}
    (h : ContinuesAs ok text o) (hi : ReadsAs 0 index i) (hok : ∀ r, ok ('[' :: r)) (span : Span) :
    ContinuesAs (fun _ => True) (text ++ '[' :: (index ++ [']'])) (.member o i true span) := by
  refine h.suffix (by simp) (fun rest => atToken_cons (by decide) (by decide) _)
    (fun rest _ => hok _) ?_
  intro n rest hn _ p
  have htext : '[' :: (index ++ [']']) ++ rest = '[' :: (index ++ ']' :: rest) := by simp
  rw [htext] at hn ⊢
  have hread := hi n (']' :: rest) (by simp only [List.length_cons] at hn; omega)
    (stops_mark_cons rest (by decide) (by decide))
  obtain ⟨i', c, hresult, hi', hc⟩ := hread (p.next '[')
  have hclose : c.skipBlanks = ⟨']' :: rest, (p.next '[').advance index⟩ := by
    rw [hc]
    exact Cursor.skipBlanks_of_atToken (atToken_mark (by decide) _) _
  have hproperty : (propertySuffix ⟨'[' :: (index ++ ']' :: rest), p⟩).result = none := by
    simp [propertySuffix, Cursor.literal?]
  have hitem : (indexSuffix n fullInner ⟨'[' :: (index ++ ']' :: rest), p⟩).result =
      some (.index i', ⟨rest, ((p.next '[').advance index).next ']'⟩) := by
    simp only [levelRule] at hresult
    simp only [indexSuffix, result_reporting, result_bind, result_literal,
      show "[".toList = ['['] from rfl, show "]".toList = [']'] from rfl,
      Cursor.literal?_cons_self, Cursor.literal?_nil,
      Option.map_some, Option.bind_some, result_blanks, Cursor.skipBlanks_of_atToken hread.atToken,
      fullInner_assignment, hresult, hclose, result_pure]
  refine ⟨(.index i', .between p (((p.next '[').advance index).next ']')), ?_, ?_⟩
  · simp only [suffixItem, result_spanned, result_firstOf_cons, hproperty, hitem, Option.none_or,
      Option.some_or, Option.map_some]
    simp [Position.advance_append]
  · intro o' ho
    simp [attach, Expr.eraseSpans, Expr.asRead, ho, hi']

/-- Arguments are read behind a callee. -/
theorem continuesAs_call {ok : List Char → Prop} {text : List Char} {f : Expr} {args : List Expr}
    (h : ContinuesAs ok text f) (hargs : ∀ e ∈ args, ReadsAs 1 (e.charsAt 1) e)
    (hok : ∀ r, ok ('(' :: r)) (span : Span) :
    ContinuesAs (fun _ => True) (text ++ '(' :: (itemsChars args ++ [')']))
      (.call f args span) := by
  refine h.suffix (by simp) (fun rest => atToken_cons (by decide) (by decide) _)
    (fun rest _ => hok _) ?_
  intro n rest hn _ p
  have htext : '(' :: (itemsChars args ++ [')']) ++ rest =
      '(' :: (itemsChars args ++ ')' :: rest) := by simp
  rw [htext] at hn ⊢
  have hlen : (itemsChars args ++ ')' :: rest).length < n := by
    simp only [List.length_cons] at hn
    omega
  obtain ⟨htoken, hitems⟩ := items_reads hargs (by decide) hlen
  obtain ⟨args', c, hresult, hargs', hc⟩ := hitems (p.next '(')
  have hclose : c.skipBlanks = ⟨')' :: rest, (p.next '(').advance (itemsChars args)⟩ := by
    rw [hc]
    exact Cursor.skipBlanks_of_atToken (atToken_mark (by decide) _) _
  have hproperty : (propertySuffix ⟨'(' :: (itemsChars args ++ ')' :: rest), p⟩).result = none := by
    simp [propertySuffix, Cursor.literal?]
  have hindex : (indexSuffix n fullInner ⟨'(' :: (itemsChars args ++ ')' :: rest), p⟩).result =
      none := by
    simp [indexSuffix, Cursor.literal?]
  have hitem : (callSuffix n fullInner ⟨'(' :: (itemsChars args ++ ')' :: rest), p⟩).result =
      some (.call args', ⟨rest, ((p.next '(').advance (itemsChars args)).next ')'⟩) := by
    simp only [callSuffix, result_reporting, result_bind, result_literal,
      show "(".toList = ['('] from rfl, show ")".toList = [')'] from rfl, Cursor.literal?_cons_self,
      Cursor.literal?_nil, Option.map_some, Option.bind_some, result_blanks,
      Cursor.skipBlanks_of_atToken htoken, fullInner_assignment, hresult, hclose, result_pure]
  refine ⟨(.call args', .between p (((p.next '(').advance (itemsChars args)).next ')')), ?_, ?_⟩
  · simp only [suffixItem, result_spanned, result_firstOf_cons, hproperty, hindex, hitem,
      Option.none_or, Option.some_or, Option.map_some]
    simp [Position.advance_append]
  · intro f' hf
    simp [attach, Expr.eraseSpans, Expr.asRead, hf, hargs']

end Grammar

end BranchPaint
